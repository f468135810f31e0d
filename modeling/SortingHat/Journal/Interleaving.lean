import SortingHat.Effect.Interference
import SortingHat.Journal.Specs

/-!
# Any number of handles on one journal

Handles run their calls statement by statement, interleaved at will. `transition`
and `reviseProposal` check a row they have read and then update under the
revision alone; that this is safe rests on `Coherent.decided`: whatever row
stands under the revision by then has the state and destination that were read.
-/

namespace SortingHat.Journal
open Posix (Bytes)
open Effect

/-- A call of a handle. -/
inductive Request where
  | create (entry : Entry)
  | transition (id : Uuid) (revision : Nat) (next : State)
  | reviseProposal (id : Uuid) (revision : Nat) (destinationToken : Bytes)
  | setSha256 (id : Uuid) (sha256 : String)
  | pruneTerminal (retain : Nat)
  | enforceRetention (retain maxAgeSeconds maxBytes : Nat)
  deriving DecidableEq, Repr

namespace Request

def call : Request → JournalM Unit
  | create entry => Journal.create entry
  | transition id revision next => do let _ ← Journal.transition id revision next
  | reviseProposal id revision destinationToken => do
    let _ ← Journal.reviseProposal id revision destinationToken
  | setSha256 id sha256 => Journal.setSha256 id sha256
  | pruneTerminal retain => do let _ ← Journal.pruneTerminal retain
  | enforceRetention retain maxAgeSeconds maxBytes => do
    let _ ← Journal.enforceRetention retain maxAgeSeconds maxBytes

/-- What a handle runs; the answer is of no further use. -/
def program (request : Request) : Prog Tick Database Unit := do
  let _ ← ExceptT.run request.call
  return ()

/-- The id and the revision a call acts on. -/
def presents : Request → Option (Uuid × Nat)
  | transition id revision _ | reviseProposal id revision _ => some (id, revision)
  | _ => none

end Request

/-! ## Rely and guarantee -/

/-- Between two statements of a call, others can only add to the history. -/
def Keeps (db db' : Database) : Prop := ∀ c ∈ db.commits, c ∈ db'.commits

theorem Keeps.refl (db : Database) : Keeps db db := fun _ h => h

theorem Keeps.trans (a b c : Database) (h : Keeps a b) (h' : Keeps b c) : Keeps a c :=
  fun row hr => h' row (h row hr)

/-- A commit over the row that stands at the presented revision. -/
def Uses (id : Uuid) (revision : Nat) (db db' : Database) : Prop :=
  ∃ row ∈ db.rows, ∃ row', row.id = id ∧ row.revision = (revision : Int) ∧
    row'.id = id ∧ row'.revision = (revision + 1 : Int) ∧ db' = db.replace row'

/-- What a statement of a request does: nothing, or one legal change which uses
up the revision the request presents. -/
def Request.Does (request : Request) (w w' : Database) : Prop :=
  w' = w ∨ Change w w' ∧
    ∀ id revision, request.presents = some (id, revision) → Uses id revision w w'

theorem Request.Does.keeps {request : Request} {w w' : Database} (h : request.Does w w') :
    Keeps w w' := by
  intro c hc
  rcases h with h | ⟨h, -⟩
  · exact h ▸ hc
  · exact h.commits_subset hc

abbrev guarded (request : Request) {α : Type} (x : JournalM α) (Q : α → Database → Prop)
    (w : Database) : Prop :=
  guardE Coherent Keeps request.Does x Q w

/-- An entry was read from a commit that is in the history. -/
def Committed (entry : Entry) (w : Database) : Prop :=
  ∃ c ∈ w.commits, c.id = entry.id ∧ c.revision = entry.revision ∧ c.state = entry.state.asStr

theorem Committed.keeps {entry : Entry} {w w' : Database} (h : Committed entry w)
    (hw : Keeps w w') : Committed entry w' := by
  obtain ⟨c, hc, rest⟩ := h
  exact ⟨c, hw c hc, rest⟩

section
variable {request : Request} {w : Database} {α : Type}

theorem query_guarded {f : Database → α} {Q : α → Database → Prop}
    (h : ∀ w' : Database, Coherent w' → ∀ v, Keeps w' v → Q (f w') v) :
    guarded request (query f) Q w := by
  refine guardE_atomic fun w' hi _ t => ⟨?_, ?_⟩
  · exact .inl rfl
  · intro a ha v _ _ hv
    cases hf : t.fault with
    | some e => simp [hf] at ha
    | none =>
      simp only [hf, Except.ok.injEq] at ha
      exact ha ▸ h w' hi v hv

/-- A statement is as good as what it does to the table. -/
theorem execute_guarded {f : Int → Database → Except JournalError (α × Database)}
    (h : ∀ w' : Database, Coherent w' → Keeps w w' → ∀ now a db, f now w' = .ok (a, db) →
      request.Does w' db) :
    guarded request (execute f) (fun _ _ => True) w := by
  refine guardE_atomic fun w' hi hw t => ⟨?_, fun _ _ _ _ _ _ => trivial⟩
  cases t.fault with
  | some e => exact .inl rfl
  | none =>
    dsimp only
    cases hx : f t.seconds w' with
    | error e => exact .inl rfl
    | ok r => exact h w' hi hw _ _ _ hx

theorem get_guarded (id : Uuid) :
    guarded request (get id) (fun entry w' => entry.id = id ∧ Committed entry w') w := by
  unfold get
  refine guardE_bind Keeps.refl (query_guarded fun w' hi v hv => ?_)
  refine guardE_bind Keeps.refl (guardE_orFail fun row hrow u _ hu => ?_)
  obtain ⟨hm, hid⟩ := Database.find_eq_some.mp hrow
  have hc : row ∈ u.commits :=
    hu row (hv row (Database.mem_history.mp (hi.mem_history hm)).1)
  unfold get.liftExcept
  cases he : row.entry with
  | error e => exact guardE_throw e
  | ok entry =>
    have hr := Row.entry_eq_ok.mp he
    refine guardE_pure fun v' _ hv' => ⟨hr.id.trans hid, row, hv' row hc, ?_⟩
    exact ⟨hr.id.symm, hr.revision.symm, hr.state⟩

end

/-! ## The calls -/

section
variable {w : Database}

theorem create_guarded (entry : Entry) :
    guarded (.create entry) (create entry) (fun _ _ => True) w := by
  unfold create
  refine guardE_bind Keeps.refl (query_guarded fun _ _ v _ => ?_)
  refine guardE_bind Keeps.refl (guardE_failIf fun _ _ _ _ => ?_)
  refine guardE_bind Keeps.refl (guardE_failIf fun hstart _ _ _ => ?_)
  refine guardE_bind Keeps.refl (guardE_orFail fun revision hr _ _ _ => ?_)
  refine guardE_bind Keeps.refl (guardE_orFail fun size hsize _ _ _ => ?_)
  obtain ⟨hs, hr1⟩ : entry.state = .proposed ∧ entry.revision = 1 := by
    simpa [not_or] using hstart
  refine execute_guarded fun w' _ _ now a db h => .inr ⟨?_, fun id r hp => by cases hp⟩
  simp only [bind, Except.bind, pure, Except.pure] at h
  split at h
  · cases h
  · next db' hi =>
    obtain ⟨-, rfl⟩ := Prod.mk.inj (Except.ok.inj h)
    refine .created hi (by rw [hs]) ?_
    rw [i64_eq_some hr, hr1]
    rfl

/-- The `UPDATE` of a call that has read `current` at the presented revision is
legal over whatever row stands there by now. -/
theorem update_guarded {request : Request} {id : Uuid} {revision : Nat} {current : Entry}
    {cond : Row → Bool} {set : Int → Row → Row}
    (hpres : ∀ id' r, request.presents = some (id', r) → id' = id ∧ r = revision)
    (hid : current.id = id) (hrev : current.revision = revision) (hcur : Committed current w)
    (hcond : ∀ row, cond row = true → row.revision = (revision : Int))
    (hset : ∀ now row, (set now row).revision = (revision + 1 : Int))
    (hlegal : ∀ now row, row.id = id → row.revision = (revision : Int) →
      row.state = current.state.asStr → Follows row { set now row with id }) :
    guarded request (execute fun now db => .ok (db.update id cond (set now)))
      (fun _ _ => True) w := by
  refine execute_guarded fun w' hi hw now a db h => ?_
  cases hf : w'.find id with
  | none =>
    have hn : w'.update id cond (set now) = (0, w') :=
      Database.update_of_not fun row hrow => by rw [hf] at hrow; cases hrow
    rw [hn] at h
    obtain ⟨-, rfl⟩ := Prod.mk.inj (Except.ok.inj h)
    exact .inl rfl
  | some row =>
    obtain ⟨hm, hrid⟩ := Database.find_eq_some.mp hf
    cases hc : cond row with
    | false =>
      have hn : w'.update id cond (set now) = (0, w') :=
        Database.update_of_not fun other ho => by
          rw [hf] at ho
          exact Option.some.inj ho ▸ hc
      rw [hn] at h
      obtain ⟨-, rfl⟩ := Prod.mk.inj (Except.ok.inj h)
      exact .inl rfl
    | true =>
      rw [Database.update_of_find hf hc] at h
      obtain ⟨-, rfl⟩ := Prod.mk.inj (Except.ok.inj h)
      have hr := hcond row hc
      obtain ⟨c, hcm, hcid, hcr, hcs⟩ := hcur.keeps hw
      -- the revision that was read decides the state that stands here
      have hstate : row.state = current.state.asStr := by
        have := hi.decided hm hcm (by rw [hcid, hid, hrid]) (by rw [hcr, hrev, hr])
        rw [← this.1, hcs]
      refine .inr ⟨.replaced hm (hlegal now row hrid hr hstate), fun id' r hp => ?_⟩
      obtain ⟨rfl, rfl⟩ := hpres id' r hp
      exact ⟨row, hm, { set now row with id := id' }, hrid, hr, rfl, hset now row, rfl⟩

theorem transition_guarded (id : Uuid) (revision : Nat) (next : State) :
    guarded (.transition id revision next) (transition id revision next) (fun _ _ => True) w := by
  unfold transition
  refine guardE_bind Keeps.refl ((get_guarded id).mono ?_)
  rintro r w₁ - hr
  intro current hcur
  obtain ⟨hid, hcom⟩ := hr current hcur
  refine guardE_bind Keeps.refl (guardE_failIf fun hrev w₂ _ h₂ => ?_)
  refine guardE_bind Keeps.refl (guardE_failIf fun hallow w₃ _ h₃ => ?_)
  refine guardE_bind Keeps.refl (guardE_orFail fun nextRevision hnext w₄ _ h₄ => ?_)
  refine guardE_bind Keeps.refl (guardE_orFail fun revisionSql hsql w₅ _ h₅ => ?_)
  refine guardE_bind Keeps.refl (guardE_orFail fun nextSql hnsql w₆ _ h₆ => ?_)
  have hrev : current.revision = revision := by simpa using hrev
  have hsql := i64_eq_some hsql
  have hnsql : nextSql = revision + 1 := by
    rw [i64_eq_some hnsql, checkedSucc_eq_some hnext]
    rfl
  refine guardE_bind Keeps.refl (Prog.Guarded.mono (update_guarded ?_ hid hrev
    (((((hcom.keeps h₂).keeps h₃).keeps h₄).keeps h₅).keeps h₆) ?_ ?_ ?_) ?_)
  · rintro id' r h
    obtain ⟨rfl, rfl⟩ := Prod.mk.inj (Option.some.inj h)
    exact ⟨rfl, rfl⟩
  · intro row h
    rw [← hsql]
    simpa using h
  · exact fun now row => hnsql
  · intro now row hrid hrr hs
    have := Follows.moved now hs (Bool.eq_true_of_not_eq_false hallow)
    unfold Row.moved at this
    rw [hrr, ← hnsql] at this
    subst hrid
    exact this
  · rintro r w₇ - -
    intro changed _
    refine guardE_bind Keeps.refl (guardE_failIf fun _ w₈ _ _ => ?_)
    exact (get_guarded id).mono fun _ _ _ _ _ _ => trivial

theorem reviseProposal_guarded (id : Uuid) (revision : Nat) (token : Bytes) :
    guarded (.reviseProposal id revision token) (reviseProposal id revision token)
      (fun _ _ => True) w := by
  unfold reviseProposal
  refine guardE_bind Keeps.refl ((get_guarded id).mono ?_)
  rintro r w₁ - hr
  intro current hcur
  obtain ⟨hid, hcom⟩ := hr current hcur
  refine guardE_bind Keeps.refl (guardE_failIf fun hrev w₂ _ h₂ => ?_)
  refine guardE_bind Keeps.refl (guardE_failIf fun hprop w₃ _ h₃ => ?_)
  refine guardE_bind Keeps.refl (guardE_orFail fun revisionSql hsql w₄ _ h₄ => ?_)
  refine guardE_bind Keeps.refl (guardE_orFail fun nextRevision hnext w₅ _ h₅ => ?_)
  refine guardE_bind Keeps.refl (guardE_orFail fun nextSql hnsql w₆ _ h₆ => ?_)
  have hrev : current.revision = revision := by simpa using hrev
  have hprop : current.state = .proposed := by simpa using hprop
  have hsql := i64_eq_some hsql
  have hnsql : nextSql = revision + 1 := by
    rw [i64_eq_some hnsql, checkedSucc_eq_some hnext]
    rfl
  refine guardE_bind Keeps.refl (Prog.Guarded.mono (update_guarded ?_ hid hrev
    (((((hcom.keeps h₂).keeps h₃).keeps h₄).keeps h₅).keeps h₆) ?_ ?_ ?_) ?_)
  · rintro id' r h
    obtain ⟨rfl, rfl⟩ := Prod.mk.inj (Option.some.inj h)
    exact ⟨rfl, rfl⟩
  · intro row h
    rw [← hsql]
    simp only [Bool.and_eq_true, decide_eq_true_eq] at h
    exact h.1
  · exact fun now row => hnsql
  · intro now row hrid hrr hs
    have := Follows.redirected token now (hprop ▸ hs)
    unfold Row.redirected at this
    rw [hrr, ← hnsql] at this
    subst hrid
    exact this
  · rintro r w₇ - -
    intro changed _
    refine guardE_bind Keeps.refl (guardE_failIf fun _ w₈ _ _ => ?_)
    exact (get_guarded id).mono fun _ _ _ _ _ _ => trivial

theorem setSha256_guarded (id : Uuid) (sha256 : String) :
    guarded (.setSha256 id sha256) (setSha256 id sha256) (fun _ _ => True) w := by
  unfold setSha256
  refine guardE_bind Keeps.refl (guardE_failIf fun _ _ _ _ => ?_)
  refine guardE_bind Keeps.refl (Prog.Guarded.mono (execute_guarded ?_) ?_)
  · intro w' _ _ now a db h
    cases hf : w'.find id with
    | none =>
      rw [Database.update_of_not fun row hrow => by rw [hf] at hrow; cases hrow] at h
      obtain ⟨-, rfl⟩ := Prod.mk.inj (Except.ok.inj h)
      exact .inl rfl
    | some row =>
      obtain ⟨hm, hrid⟩ := Database.find_eq_some.mp hf
      rw [Database.update_of_find hf rfl] at h
      obtain ⟨-, rfl⟩ := Prod.mk.inj (Except.ok.inj h)
      refine .inr ⟨.replaced hm ?_, fun id r hp => by cases hp⟩
      exact hrid ▸ Follows.hashed sha256 now
  · rintro r w' - -
    intro changed _
    exact guardE_failIf fun _ _ _ _ => trivial

/-- A `DELETE` that only takes terminal rows. -/
theorem delete_guarded {request : Request} (hpres : request.presents = none)
    {doomed : Int → Database → Row → Bool}
    (h : ∀ now (db : Database), ∀ row ∈ db.rows, doomed now db row = true → row.terminal = true) :
    guarded request (execute fun now db => .ok (db.delete (doomed now db)))
      (fun _ _ => True) w := by
  refine execute_guarded fun w' _ _ now a db hx => ?_
  obtain ⟨-, rfl⟩ := Prod.mk.inj (Except.ok.inj hx)
  refine .inr ⟨.deleted _ (h now w'), fun id r hp => ?_⟩
  rw [hpres] at hp
  cases hp

theorem pruneTerminal_guarded {request : Request} (hpres : request.presents = none)
    (retain : Nat) : guarded request (pruneTerminal retain) (fun _ _ => True) w := by
  unfold pruneTerminal
  refine guardE_bind Keeps.refl (guardE_orFail fun limit _ _ _ _ => ?_)
  exact delete_guarded hpres fun _ _ _ hm hd => Database.terminal_of_surplus hm hd

theorem fileLength_guarded {request : Request} :
    guarded request fileLength (fun _ _ => True) w :=
  guardE_atomic fun _ _ _ _ => ⟨.inl rfl, fun _ _ _ _ _ _ => trivial⟩

/-- Go on after a step whose result does not matter. -/
theorem guarded_next {request : Request} {α β : Type} {x : JournalM α} {f : α → JournalM β}
    {Q : β → Database → Prop} (hx : ∀ w, guarded request x (fun _ _ => True) w)
    (hf : ∀ a w, guarded request (f a) Q w) : guarded request (x >>= f) Q w :=
  guardE_bind Keeps.refl ((hx w).mono fun _ w' _ _ a _ => hf a w')

theorem enforceRetention_guarded {request : Request} (hpres : request.presents = none)
    (retain maxAgeSeconds maxBytes : Nat) :
    guarded request (enforceRetention retain maxAgeSeconds maxBytes) (fun _ _ => True) w := by
  unfold enforceRetention
  refine guardE_bind Keeps.refl (guardE_orFail fun age _ _ _ _ => ?_)
  refine guarded_next (fun _ => delete_guarded hpres fun _ _ _ _ hd => ?_) fun aged _ => ?_
  · simp only [Bool.and_eq_true] at hd
    exact hd.1
  refine guarded_next (fun _ => pruneTerminal_guarded hpres retain) fun pruned _ => ?_
  refine guarded_next (fun _ => query_guarded fun _ _ _ _ => trivial) fun _ _ => ?_
  refine guarded_next (fun _ => fileLength_guarded) fun main _ => ?_
  refine guarded_next (fun _ => fileLength_guarded) fun wal _ => ?_
  refine guardE_bind Keeps.refl (guardE_orFail fun _ _ _ _ _ => ?_)
  refine guarded_next (fun _ => fileLength_guarded) fun shm _ => ?_
  refine guardE_bind Keeps.refl (guardE_orFail fun _ _ _ _ _ => ?_)
  refine guardE_bind Keeps.refl (guardE_failIf fun _ _ _ _ => ?_)
  exact guardE_pure fun _ _ _ => trivial

/-- **Every call of every handle keeps its guarantee** under the others. -/
theorem Request.program_guarded (request : Request) :
    request.program.Guarded Coherent Keeps request.Does (fun _ _ => True) w := by
  have hcall : guarded request request.call (fun _ _ => True) w := by
    cases request with
    | create entry => exact create_guarded entry
    | transition id revision next =>
      exact guarded_next (fun _ => transition_guarded id revision next) fun _ _ =>
        guardE_pure fun _ _ _ => trivial
    | reviseProposal id revision token =>
      exact guarded_next (fun _ => reviseProposal_guarded id revision token) fun _ _ =>
        guardE_pure fun _ _ _ => trivial
    | setSha256 id sha256 => exact setSha256_guarded id sha256
    | pruneTerminal retain =>
      exact guarded_next (fun _ => pruneTerminal_guarded rfl retain) fun _ _ =>
        guardE_pure fun _ _ _ => trivial
    | enforceRetention retain age maxBytes =>
      exact guarded_next (fun _ => enforceRetention_guarded rfl retain age maxBytes) fun _ _ =>
        guardE_pure fun _ _ _ => trivial
  exact Prog.Guarded.bind Keeps.refl (hcall.mono fun _ _ _ _ _ _ _ => trivial)

end

/-! ## Schedules -/

/-- Handles on one journal: a pool of requests. -/
abbrev Handles (ι : Type) := Pool ι Request Tick Database

/-- The schedules of a fresh journal in which no deleted id comes back. -/
abbrev Scheduled {ι : Type} [DecidableEq ι] (w : Database) : Handles ι → Prop :=
  Pool.Reachable Request.program (fun w w' => ¬ Revived w w') w

section
variable {ι : Type} [DecidableEq ι] {w : Database} {handles : Handles ι}

/-- The statements with which calls committed at a presented id and revision. -/
def committed (handles : Handles ι) (id : Uuid) (revision : Nat) :
    List (Request × Database × Database) :=
  handles.trace.filter fun (request, before, after) =>
    request.presents = some (id, revision) && after.commits != before.commits

/-- The trace as the guarantees leave it: a commit at a presented revision leaves
a commit of the next one behind, and there is at most one such statement. -/
structure Exclusive (handles : Handles ι) : Prop where
  left : ∀ id revision, committed handles id revision ≠ [] →
    ∃ c ∈ handles.world.commits, c.id = id ∧ c.revision = (revision + 1 : Int)
  once : ∀ id revision, (committed handles id revision).length ≤ 1

omit [DecidableEq ι] in
theorem Exclusive.act {handles' : Handles ι} {request : Request} {w' : Database}
    (h : Exclusive handles) (hc : Coherent handles.world)
    (hd : request.Does handles.world w') (hw : handles'.world = w')
    (ht : handles'.trace = handles.trace ++ [(request, handles.world, w')]) :
    Exclusive handles' := by
  have hnew : ∀ id revision, committed handles' id revision = committed handles id revision ++
      if request.presents = some (id, revision) ∧ w'.commits ≠ handles.world.commits then
        [(request, handles.world, w')] else [] := by
    intro id revision
    unfold committed
    rw [ht, List.filter_append]
    congr 1
    by_cases hp : request.presents = some (id, revision) <;>
      by_cases hcm : w'.commits = handles.world.commits <;> simp [hp, hcm]
  have huses : ∀ id revision, request.presents = some (id, revision) →
      w'.commits ≠ handles.world.commits → Uses id revision handles.world w' := by
    intro id revision hp hcm
    rcases hd with hd | ⟨-, hd⟩
    · exact absurd (by rw [hd]) hcm
    · exact hd id revision hp
  constructor
  · intro id revision hne
    rw [hnew] at hne
    split at hne
    · next hcond =>
      obtain ⟨row, -, row', -, -, hid', hrev', heq⟩ := huses id revision hcond.1 hcond.2
      refine ⟨row', ?_, hid', hrev'⟩
      rw [hw, heq]
      exact List.mem_append_right _ (List.mem_singleton_self row')
    · rw [List.append_nil] at hne
      obtain ⟨c, hcm, hrest⟩ := h.left id revision hne
      exact ⟨c, hw ▸ hd.keeps c hcm, hrest⟩
  · intro id revision
    rw [hnew]
    split
    · next hcond =>
      -- a second commit would find the row at the revision the first one used up
      obtain ⟨row, hm, -, hid, hrev, -⟩ := huses id revision hcond.1 hcond.2
      have hnil : committed handles id revision = [] := by
        by_contra hne
        obtain ⟨c, hcm, hcid, hcrev⟩ := h.left id revision hne
        have := hc.revision_le hm hcm (hcid.trans hid.symm)
        omega
      simp [hnil]
    · rw [List.append_nil]
      exact h.once id revision

theorem Scheduled.exclusive (h : Scheduled .empty handles) :
    Coherent handles.world ∧ Exclusive handles := by
  have sound : ∀ {handles : Handles ι}, Scheduled .empty handles →
      handles.Sound Coherent Keeps Request.Does := by
    intro handles h
    refine h.guarded Keeps.refl Keeps.trans (fun _ _ _ => Request.program_guarded _) ?_
      Coherent.empty
    intro request w₁ w₂ hi hd hn
    refine ⟨?_, hd.keeps⟩
    rcases hd with hd | ⟨hd, -⟩
    · exact hd ▸ hi
    · exact hd.coherent hn hi
  refine ⟨(sound h).invariant, ?_⟩
  induction h with
  | init => exact ⟨fun id revision hne => absurd rfl hne, fun id revision => Nat.zero_le _⟩
  | step hr hs ih =>
    have hsound := sound hr
    cases hs with
    | start i l hi => exact ⟨ih.left, ih.once⟩
    | act i l u n c hi ha =>
      exact ih.act hsound.invariant
        ((hsound.guarded i l _ hi).step Keeps.refl hsound.invariant c).1 rfl rfl
    | finish i l hi => exact ⟨ih.left, ih.once⟩

/-- **Journal histories are legal under any interleaving.** For any number of
handles and any schedule of their statements, the commits of every id start
proposed at revision 1 and follow each other legally, and of all calls that
present one id and revision at most one commits. -/
theorem histories_legal (h : Scheduled .empty handles) :
    (∀ id row, (handles.world.history id).head? = some row →
      row.state = State.proposed.asStr ∧ row.revision = 1) ∧
    (∀ id, (handles.world.history id).IsChain Follows) ∧
    ∀ id revision, (committed handles id revision).length ≤ 1 := by
  obtain ⟨hc, he⟩ := h.exclusive
  exact ⟨hc.starts, hc.legal, he.once⟩

instance (db db' : Database) : Decidable (Revived db db') :=
  List.decidableBEx (fun row : Row => row.id ∉ db.rows.map Row.id ∧ row.id ∈ db.commits.map Row.id)
    db'.rows

/-- Two handles present one id and one revision, and their statements alternate: both have
read the entry before either of them updates it. -/
theorem histories_legal_create : ∃ handles : Handles Nat, handles.world.commits.length = 2 ∧
    (committed handles ⟨0⟩ 1).length = 1 ∧
    (∀ id row, (handles.world.history id).head? = some row →
      row.state = State.proposed.asStr ∧ row.revision = 1) ∧
    (∀ id, (handles.world.history id).IsChain Follows) ∧
    ∀ id revision, (committed handles id revision).length ≤ 1 := by
  let create : Request := .create ⟨⟨0⟩, 1, .proposed, [], [], 0, none⟩
  let approve : Request := .transition ⟨0⟩ 1 .approved
  let ignore : Request := .transition ⟨0⟩ 1 .ignored
  have h₀ : Scheduled .empty (⟨.empty, fun _ => none, []⟩ : Handles Nat) := .init
  have h₁ := h₀.step (.start 0 create rfl)
  have h₂ := h₁.step (.act 0 create _ _ (.quiet 0) rfl (by decide +kernel))
  have h₃ := h₂.step (.act 0 create _ _ (.quiet 0) rfl (by decide +kernel))
  have h₄ := h₃.step (.start 1 approve rfl)
  have h₅ := h₄.step (.start 2 ignore rfl)
  have h₆ := h₅.step (.act 1 approve _ _ (.quiet 0) rfl (by decide +kernel))
  have h₇ := h₆.step (.act 2 ignore _ _ (.quiet 0) rfl (by decide +kernel))
  have h₈ := h₇.step (.act 1 approve _ _ (.quiet 0) rfl (by decide +kernel))
  have h₉ := h₈.step (.act 2 ignore _ _ (.quiet 0) rfl (by decide +kernel))
  exact ⟨_, by decide +kernel, by decide +kernel, histories_legal h₉⟩

end
end SortingHat.Journal
