import SortingHat.Service.Recovery
import SortingHat.Journal.Specs

/-!
# The queue trails the journal

The invariant behind every run of the service: a proposal, in memory or saved, is
never ahead of its row, and its status is one the row has been through.

* `Trails`, `Trailing`: one proposal, and a list of them, against the journal;
* `Durable`, `Orderly`: the invariant at a cut and while the service runs;
* `Serves`: an action that keeps it, with one rule for each kind of step;
* `Spends`: what an accepted request leaves behind.
-/

namespace SortingHat
open Posix Effect
open Journal (Row Database Coherent Change State)

/-- The journal state a status stands for. -/
def Status.journal? : Status → Option State
  | .proposed => some .proposed
  | .completed => some .completed
  | .ignored => some .ignored
  | .undone => some .undone
  | .needsAttention => some .needsAttention
  | .other _ => none

structure Trails (db : Database) (p : Proposal) : Prop where
  bounded : ∀ row ∈ db.rows, row.id = p.id → (p.revision : Int) ≤ row.revision
  reached : ∃ c ∈ db.commits, c.id = p.id ∧ c.revision ≤ (p.revision : Int) ∧
    ∀ state, p.status.journal? = some state → c.state = state.asStr

/-- A row stands at this revision in this state. -/
def Stands (db : Database) (id : Uuid) (revision : Nat) (state : State) : Prop :=
  ∃ row ∈ db.rows, row.id = id ∧ row.revision = (revision : Int) ∧ row.state = state.asStr

section
variable {db db' : Database} {p p' : Proposal}

theorem Trails.change (h : Trails db p) (hc : Change db db') (hn : ¬ Journal.Revived db db') :
    Trails db' p := by
  obtain ⟨c, hcm, hcid, hrest⟩ := h.reached
  refine ⟨fun row hm hid => ?_, c, hc.commits_subset hcm, hcid, hrest⟩
  rcases hc.mem_rows hm with hnew | ⟨old, ho, hoid, hle⟩
  · refine absurd ⟨row, hm, hnew, ?_⟩ hn
    exact hid ▸ hcid ▸ List.mem_map_of_mem hcm
  · exact (h.bounded old ho (hoid.trans hid)).trans hle

/-- The same status at a later revision the row has reached. -/
theorem Trails.raise (h : Trails db p) (hid : p'.id = p.id) (hs : p'.status = p.status)
    (hle : p.revision ≤ p'.revision)
    (hrow : ∀ row ∈ db.rows, row.id = p.id → (p'.revision : Int) ≤ row.revision) :
    Trails db p' := by
  obtain ⟨c, hcm, hcid, hcr, hcs⟩ := h.reached
  refine ⟨fun row hm he => hrow row hm (he.trans hid), c, hcm, hcid.trans hid.symm, ?_, ?_⟩
  · omega
  · rwa [hs]

theorem Stands.revision_eq {id : Uuid} {revision : Nat} {state : State}
    (h : Stands db id revision state) {row : Row} (hm : row ∈ db.rows) (hid : row.id = id) :
    row.revision = (revision : Int) := by
  obtain ⟨row', hm', hid', hr, -⟩ := h
  rw [List.inj_on_of_nodup_map db.keyed hm hm' (hid.trans hid'.symm)]
  exact hr

/-- A proposal brought up to its row. -/
theorem Stands.trails {id : Uuid} {revision : Nat} {state : State}
    (h : Stands db id revision state) (hc : Coherent db) (hid : p.id = id)
    (hr : p.revision = revision) (hs : ∀ s, p.status.journal? = some s → s = state) :
    Trails db p := by
  have hbound := fun (row : Row) (hm : row ∈ db.rows) (he : row.id = p.id) =>
    h.revision_eq hm (he.trans hid)
  obtain ⟨row, hm, hrid, hrr, hrs⟩ := h
  refine ⟨fun other hom ho => by rw [hbound other hom ho, hr], row, ?_, hrid.trans hid.symm, ?_, ?_⟩
  · exact (Database.mem_history.mp (hc.mem_history hm)).1
  · rw [hrr, hr]
  · intro s hps
    rw [hs s hps, hrs]

end

/-! ## Lists changed in place -/

section
variable {ps : List Proposal} {index : Nat} {f : Proposal → Proposal} {p q : Proposal}

theorem modify_ids (hid : ∀ p, (f p).id = p.id) :
    (ps.modify index f).map Proposal.id = ps.map Proposal.id := by
  refine List.ext_getElem? fun i => ?_
  simp only [List.getElem?_map, List.getElem?_modify]
  cases ps[i]? with
  | none => rfl
  | some p => by_cases hi : index = i <;> simp [hi, hid]

/-- The changed proposal, or one that stands elsewhere. -/
theorem mem_modify (h : q ∈ ps.modify index f) :
    (∃ old, ps[index]? = some old ∧ q = f old) ∨ ∃ i, i ≠ index ∧ ps[i]? = some q := by
  obtain ⟨i, hi⟩ := List.mem_iff_getElem?.mp h
  rw [List.getElem?_modify] at hi
  cases ho : ps[i]? with
  | none => simp [ho] at hi
  | some old =>
    rw [ho] at hi
    by_cases hix : index = i
    · subst hix
      simp only [if_true, Option.map_eq_map, Option.map_some, Option.some.injEq] at hi
      exact .inl ⟨old, ho, hi.symm⟩
    · simp only [hix, if_false, Option.map_eq_map, Option.map_some, Option.some.injEq] at hi
      exact .inr ⟨i, Ne.symm hix, by rw [ho, hi]⟩

/-- Where ids are unique, the others have other ids. -/
theorem mem_modify_cases (hd : (ps.map Proposal.id).Nodup) (hp : ps[index]? = some p)
    (h : q ∈ ps.modify index f) : q = f p ∨ q ∈ ps ∧ q.id ≠ p.id := by
  rcases mem_modify h with ⟨old, ho, rfl⟩ | ⟨i, hne, hi⟩
  · rw [Option.some.inj (ho.symm.trans hp)]
    exact .inl rfl
  · refine .inr ⟨List.mem_of_getElem? hi, fun hid => hne ?_⟩
    have hlt : i < (ps.map Proposal.id).length := by
      rw [List.length_map]
      exact (List.getElem?_eq_some_iff.mp hi).1
    apply (List.getElem?_inj hlt hd).mp
    rw [List.getElem?_map, List.getElem?_map, hi, hp]
    exact congrArg some hid

theorem mem_modify_self (hp : ps[index]? = some p) : f p ∈ ps.modify index f := by
  apply List.mem_of_getElem? (i := index)
  rw [List.getElem?_modify_eq, hp]
  rfl

end

/-- Proposals that all trail, each id once. -/
structure Trailing (db : Database) (proposals : List Proposal) : Prop where
  each : ∀ p ∈ proposals, Trails db p
  distinct : (proposals.map Proposal.id).Nodup

section
variable {db db' : Database} {ps ps' : List Proposal}

theorem Trailing.nil : Trailing db [] := ⟨(fun _ hp => nomatch hp), List.nodup_nil⟩

theorem Trailing.change (h : Trailing db ps) (hc : Change db db')
    (hn : ¬ Journal.Revived db db') : Trailing db' ps :=
  ⟨fun p hp => (h.each p hp).change hc hn, h.distinct⟩

theorem Trailing.sublist (h : Trailing db ps) (hs : ps'.Sublist ps) : Trailing db ps' :=
  ⟨fun p hp => h.each p (hs.subset hp), (hs.map Proposal.id).nodup h.distinct⟩

/-- A proposal under an id that has no history yet. -/
theorem Trailing.snoc {db₀ : Database} {p : Proposal} (h : Trailing db ps) (h₀ : Trailing db₀ ps)
    (hfresh : ∀ c ∈ db₀.commits, c.id ≠ p.id) (hp : Trails db p) : Trailing db (ps ++ [p]) := by
  refine ⟨fun q hq => ?_, ?_⟩
  · rcases List.mem_append.mp hq with hq | hq
    · exact h.each q hq
    · exact List.mem_singleton.mp hq ▸ hp
  · rw [List.map_append, List.map_singleton]
    refine List.nodup_append.mpr ⟨h.distinct, List.nodup_singleton _, fun id hid id' hid' => ?_⟩
    obtain ⟨q, hq, rfl⟩ := List.mem_map.mp hid
    obtain ⟨c, hc, hcid, -⟩ := (h₀.each q hq).reached
    rw [List.mem_singleton.mp hid']
    exact fun he => hfresh c hc (hcid.trans he)

/-- A proposal changed in place. -/
theorem Trailing.modify {index : Nat} {f : Proposal → Proposal} (h : Trailing db ps)
    (hid : ∀ p, (f p).id = p.id) (hf : ∀ p, ps[index]? = some p → Trails db (f p)) :
    Trailing db (ps.modify index f) := by
  refine ⟨fun p hp => ?_, (modify_ids hid).symm ▸ h.distinct⟩
  rcases mem_modify hp with ⟨old, ho, rfl⟩ | ⟨i, -, hi⟩
  · exact hf old ho
  · exact h.each p (List.mem_of_getElem? hi)

end

/-! ## The invariant -/

/-- What holds at every cut. `kept` are commits that must stay in the history,
`room` bounds the active rows. -/
structure Durable (P : Platform) (kept : List Row) (room : Nat) (w : World) : Prop where
  coherent : Coherent w.db
  known : ∀ c ∈ w.db.commits, ∃ k < w.drawn, c.id = P.uuid k
  grown : ∀ c ∈ kept, c ∈ w.db.commits
  active : w.db.activeCount ≤ room
  saved : ∀ file state, w.stateJson = some file → file.content = some state →
    Trailing w.db state.proposals

/-- What holds while a service runs. -/
structure Orderly (P : Platform) (kept : List Row) (room : Nat) (s : Service) (w : World) : Prop
    extends Durable P kept room w where
  trails : Trailing w.db s.state.proposals

section
variable {P : Platform} {kept kept' : List Row} {room : Nat} {s s' : Service} {w w' : World}

theorem Durable.files (h : Durable P kept room w) (fs : FileSystem) :
    Durable P kept room { w with fs } := ⟨h.coherent, h.known, h.grown, h.active, h.saved⟩

theorem Orderly.files (h : Orderly P kept room s w) (fs : FileSystem) :
    Orderly P kept room s { w with fs } := ⟨h.toDurable.files fs, h.trails⟩

theorem Durable.weaken (h : Durable P kept' room w) (hk : ∀ c ∈ kept, c ∈ kept') :
    Durable P kept room w :=
  ⟨h.coherent, h.known, fun c hc => h.grown c (hk c hc), h.active, h.saved⟩

theorem Orderly.weaken (h : Orderly P kept' room s w) (hk : ∀ c ∈ kept, c ∈ kept') :
    Orderly P kept room s w := ⟨h.toDurable.weaken hk, h.trails⟩

/-- From the world itself on, its whole history is kept. -/
theorem Durable.rebase (h : Durable P kept room w) : Durable P w.db.commits room w :=
  ⟨h.coherent, h.known, fun _ hc => hc, h.active, h.saved⟩

theorem Durable.change (h : Durable P kept room w) {db : Database} (hc : Change w.db db)
    (hn : ¬ Journal.Revived w.db db) (hk : ∀ c ∈ db.commits, ∃ k < w.drawn, c.id = P.uuid k)
    (ha : db.activeCount ≤ room) : Durable P kept room { w with db } where
  coherent := hc.coherent hn h.coherent
  known := hk
  grown c hm := hc.commits_subset (h.grown c hm)
  active := ha
  saved file state hf hs := (h.saved file state hf hs).change hc hn

/-- A row replaced by what may follow it. -/
theorem Orderly.replaced (h : Orderly P kept room s w) {row row' : Row} (hm : row ∈ w.db.rows)
    (hf : Journal.Follows row row') (ha : (w.db.replace row').activeCount ≤ room) :
    Orderly P (row' :: kept) room s { w with db := w.db.replace row' } := by
  have hc : Change w.db (w.db.replace row') := .replaced hm hf
  have hn : ¬ Journal.Revived w.db (w.db.replace row') := by
    refine Journal.not_revived fun other ho => ?_
    obtain ⟨old, hom, rfl⟩ := Database.mem_replace.mp ho
    split
    · exact hf.id ▸ List.mem_map_of_mem hm
    · exact List.mem_map_of_mem hom
  have hk : ∀ c ∈ (w.db.replace row').commits, ∃ k < w.drawn, c.id = P.uuid k := by
    intro c hcm
    rcases List.mem_append.mp hcm with hcm | hcm
    · exact h.known c hcm
    · rw [List.mem_singleton.mp hcm, hf.id]
      exact h.known row (Database.mem_history.mp (h.coherent.mem_history hm)).1
  have hd := h.toDurable.change hc hn hk ha
  refine ⟨⟨hd.coherent, hd.known, fun c hcm => ?_, hd.active, hd.saved⟩,
    h.trails.change hc hn⟩
  rcases List.mem_cons.mp hcm with rfl | hcm
  · exact List.mem_append_right _ (List.mem_singleton_self c)
  · exact hd.grown c hcm

theorem Orderly.pruned (h : Orderly P kept room s w) {db : Database}
    (hp : Journal.Pruned w.db db) : Orderly P kept room s { w with db } := by
  obtain ⟨doomed, ht, rfl⟩ := hp
  have hc : Change w.db (w.db.delete doomed).2 := .deleted doomed ht
  have hn : ¬ Journal.Revived w.db (w.db.delete doomed).2 :=
    Journal.not_revived fun row hm => List.mem_map_of_mem (List.mem_of_mem_filter hm)
  exact ⟨h.toDurable.change hc hn h.known ((Database.activeCount_delete doomed).trans h.active),
    h.trails.change hc hn⟩

/-- The running state installed as the saved one. -/
theorem Orderly.saves (h : Orderly P kept room s w) :
    Orderly P kept room s
      { w with stateJson := some ⟨s.state.bodyLength, some s.state⟩ } where
  coherent := h.coherent
  known := h.known
  grown := h.grown
  active := h.active
  saved file state hf hs := by
    obtain rfl := Option.some.inj hf
    obtain rfl := Option.some.inj hs
    exact h.trails
  trails := h.trails

theorem Orderly.drawn (h : Orderly P kept room s w) :
    Orderly P kept room s { w with drawn := w.drawn + 1 } where
  coherent := h.coherent
  known c hc := by
    obtain ⟨k, hk, he⟩ := h.known c hc
    exact ⟨k, Nat.lt_succ_of_lt hk, he⟩
  grown := h.grown
  active := h.active
  saved := h.saved
  trails := h.trails

/-- Another service state whose proposals trail as well. -/
theorem Orderly.withState (h : Orderly P kept room s w)
    (ht : Trailing w.db s'.state.proposals) : Orderly P kept room s' w :=
  ⟨h.toDurable, ht⟩

end

/-! ## Rules -/

/-- Started in order, the action stays in order at every cut and at its end, and
what it returns satisfies `Q`. -/
structure Serves (P : Platform) (kept : List Row) (room : Nat) {α : Type} (x : ServiceM α)
    (Q : α → Service → World → Prop) (s : Service) (w : World) : Prop where
  wp : wpS (fun _ => True) x (fun a s' w' => Orderly P kept room s' w' ∧ Q a s' w')
    (fun _ s' w' => Orderly P kept room s' w') (Durable P kept room) s w

section
variable {P : Platform} {kept : List Row} {room : Nat} {α β : Type} {s : Service} {w : World}
  {x : ServiceM α} {Q : α → Service → World → Prop}

theorem Serves.mono {Q' : α → Service → World → Prop} (h : Serves P kept room x Q s w)
    (hQ : ∀ a s' w', Orderly P kept room s' w' → Q a s' w' → Q' a s' w') :
    Serves P kept room x Q' s w :=
  ⟨wpS_mono h.wp (fun a s' w' ha => ⟨ha.1, hQ a s' w' ha.1 ha.2⟩) (fun _ _ _ h => h)
    fun _ h => h⟩

/-- Go on with more commits to keep. -/
theorem Serves.weaken {kept' : List Row} (h : Serves P kept' room x Q s w)
    (hk : ∀ c ∈ kept, c ∈ kept') : Serves P kept room x Q s w :=
  ⟨wpS_mono h.wp (fun _ _ _ ha => ⟨ha.1.weaken hk, ha.2⟩) (fun _ _ _ ha => ha.weaken hk)
    fun _ ha => ha.weaken hk⟩

theorem serves_bind {f : α → ServiceM β} {Q : β → Service → World → Prop}
    (h : Serves P kept room x (fun a s' w' => Orderly P kept room s' w' →
      Serves P kept room (f a) Q s' w') s w) : Serves P kept room (x >>= f) Q s w :=
  ⟨(wpS_bind _ _).mpr
    (wpS_mono h.wp (fun _ _ _ ha => (ha.2 ha.1).wp) (fun _ _ _ h => h) fun _ h => h)⟩

theorem serves_pure {a : α} (h : Orderly P kept room s w) (hQ : Q a s w) :
    Serves P kept room (pure a) Q s w := ⟨⟨h, hQ⟩⟩

theorem serves_throw {e : ServiceError} (h : Orderly P kept room s w) :
    Serves P kept room (throw e) Q s w := ⟨h⟩

theorem serves_get {Q : PersistentState → Service → World → Prop} (h : Orderly P kept room s w)
    (hQ : Q s.state s w) : Serves P kept room getState Q s w := ⟨⟨h, hQ⟩⟩

theorem serves_orFail {o : Option α} {e : ServiceError} (h : Orderly P kept room s w)
    (hQ : ∀ a, o = some a → Q a s w) : Serves P kept room (orFail o e) Q s w :=
  ⟨(wpS_orFail o e).mpr ⟨fun _ => h, fun a ha => ⟨h, hQ a ha⟩⟩⟩

theorem serves_failIf {c : Prop} [Decidable c] {e : ServiceError}
    {Q : Unit → Service → World → Prop} (h : Orderly P kept room s w) (hQ : ¬ c → Q () s w) :
    Serves P kept room (failIf c e) Q s w :=
  ⟨(wpS_failIf c e).mpr ⟨fun _ => h, fun hc => ⟨h, hQ hc⟩⟩⟩

theorem serves_check {r : Except ServiceError α} (h : Orderly P kept room s w)
    (hQ : ∀ a, r = .ok a → Q a s w) : Serves P kept room (check r) Q s w := by
  cases r with
  | error e => exact ⟨h⟩
  | ok a => exact ⟨⟨h, hQ a rfl⟩⟩

/-- What is done to the files cannot put the stores out of order. -/
theorem serves_files {δ : Type} {f : δ → ServiceError} {x : Fallible Tick FileSystem δ α}
    (h : Orderly P kept room s w) (hQ : ∀ a fs, Q a s { w with fs }) :
    Serves P kept room (embed f (inPart World.files x)) Q s w :=
  ⟨wpS_inPart (fun a fs => ⟨h.files fs, hQ a fs⟩) (fun _ fs => h.files fs)
    fun fs => h.toDurable.files fs⟩

theorem serves_modifyState {f : PersistentState → PersistentState}
    {Q : Unit → Service → World → Prop} (h : Orderly P kept room s w)
    (ht : Trailing w.db (f s.state).proposals)
    (hQ : Q () { s with state := f s.state } w) :
    Serves P kept room (modifyState f) Q s w := ⟨⟨h.withState ht, hQ⟩⟩

theorem serves_modifyProposal {index : Nat} {f : Proposal → Proposal}
    {Q : Unit → Service → World → Prop} (h : Orderly P kept room s w)
    (hid : ∀ p, (f p).id = p.id)
    (ht : ∀ p, s.state.proposals[index]? = some p → Trails w.db (f p))
    (hQ : Q () { s with state := { s.state with
      proposals := s.state.proposals.modify index f } } w) :
    Serves P kept room (modifyProposal index f) Q s w :=
  serves_modifyState h (h.trails.modify hid ht) hQ

/-- A drawn id is one of ours and has no history. -/
theorem serves_draw {Q : Uuid → Service → World → Prop} (h : Orderly P kept room s w)
    (hQ : ∀ id w', w'.db = w.db → (∃ k < w'.drawn, id = P.uuid k) →
      (∀ c ∈ w'.db.commits, c.id ≠ id) → Q id s w') :
    Serves P kept room (draw P) Q s w := by
  refine ⟨(wpS_embed _ _).mpr ((wpE_inPart _ _).mpr ⟨h.toDurable, fun _ _ => ⟨h.drawn, ?_⟩⟩)⟩
  refine hQ _ _ rfl ⟨w.drawn, Nat.lt_succ_self _, rfl⟩ fun c hc he => ?_
  obtain ⟨k, hk, hck⟩ := h.known c hc
  exact absurd (P.uuid_injective (hck.symm.trans he)) (Nat.ne_of_lt hk)

theorem serves_install {state : PersistentState} {Q : Unit → Service → World → Prop}
    (h : Orderly P kept room s w) (hs : state = s.state)
    (hQ : ∀ stateJson, Q () s { w with stateJson }) :
    Serves P kept room (embed ServiceError.io (inPart World.store (install state))) Q s w := by
  refine ⟨(wpS_embed _ _).mpr ((wpE_inPart _ _).mpr ⟨h.toDurable, fun t _ => ?_⟩)⟩
  subst hs
  dsimp only [install]
  cases t.fault with
  | some e => exact h
  | none => exact ⟨h.saves, hQ _⟩

theorem serves_save {Q : Unit → Service → World → Prop} (h : Orderly P kept room s w)
    (hQ : ∀ w', w'.db = w.db → w'.drawn = w.drawn → Q () s w') :
    Serves P kept room save Q s w := by
  unfold save
  refine serves_bind (serves_get h fun h => ?_)
  refine serves_bind (serves_failIf h fun _ h => ?_)
  refine serves_bind (serves_files h fun _ fs₁ h => ?_)
  refine serves_bind (serves_files h fun _ fs₂ h => ?_)
  refine serves_bind (serves_files h fun _ fs₃ h => ?_)
  refine serves_bind (serves_install h rfl fun stateJson h => ?_)
  refine serves_bind (serves_files h fun _ fs₄ h => ?_)
  exact serves_files h fun _ fs₅ => hQ _ rfl rfl

/-- Commit `c` uses up the revision: nothing kept is beyond it, and `c` is. -/
structure Spends (kept : List Row) (id : Uuid) (revision : Nat) (c : Row) : Prop where
  same : c.id = id
  next : c.revision = (revision + 1 : Int)
  before : ∀ old ∈ kept, old.id = id → old.revision ≤ (revision : Int)

/-- A row replaced by a call that presents its revision. -/
theorem Orderly.spends (h : Orderly P kept room s w) {id : Uuid} {revision : Nat} {row row' : Row}
    (hm : row ∈ w.db.rows) (hid : row.id = id) (hr : row.revision = (revision : Int))
    (hid' : row'.id = id) (hr' : row'.revision = row.revision + 1) :
    Spends kept id revision row' := by
  refine ⟨hid', by rw [hr', hr], fun old ho hoid => ?_⟩
  rw [← hr]
  exact h.coherent.revision_le hm (h.grown old ho) (hoid.trans hid.symm)

/-- A transition that leaves room: the row has moved on, using up its revision. -/
theorem serves_transition {id : Uuid} {revision : Nat} {next : State}
    {Q : Journal.Entry → Service → World → Prop} (h : Orderly P kept room s w)
    (hroom : ∀ row ∈ w.db.rows, ∀ source now, row.state = source.asStr →
      Journal.allowed source next = true → (w.db.replace (row.moved next now)).activeCount ≤ room)
    (hQ : ∀ c entry db, Orderly P (c :: kept) room s { w with db } →
      Spends kept id revision c → Stands db id entry.revision next → Q entry s { w with db }) :
    Serves P kept room (ofJournal (Journal.transition id revision next)) Q s w := by
  refine ⟨(wpS_embed _ _).mpr ((wpE_inPart _ _).mpr ?_)⟩
  refine Journal.transition_wp h.toDurable (fun _ => h) fun row source t _ hfind hrev hs ha => ?_
  obtain ⟨hm, hid⟩ := Database.find_eq_some.mp hfind
  have ho := h.replaced hm (.moved t.seconds hs ha) (hroom row hm source t.seconds hs ha)
  have ho' := ho.weaken fun c hc => List.mem_cons_of_mem _ hc
  refine ⟨ho'.toDurable, fun _ => ho', fun entry hr => ⟨ho', hQ _ entry _ ho ?_ ?_⟩⟩
  · exact h.spends hm hid hrev hid rfl
  · refine ⟨row.moved next t.seconds, ?_, hid, hr.revision.symm, rfl⟩
    exact Database.mem_replace.mpr ⟨row, hm, if_pos rfl⟩

theorem serves_reviseProposal {id : Uuid} {revision : Nat} {token : Bytes}
    {Q : Journal.Entry → Service → World → Prop} (h : Orderly P kept room s w)
    (hQ : ∀ c entry db, Orderly P (c :: kept) room s { w with db } →
      Spends kept id revision c → Stands db id entry.revision .proposed →
      entry.revision = revision + 1 → Q entry s { w with db }) :
    Serves P kept room (ofJournal (Journal.reviseProposal id revision token)) Q s w := by
  refine ⟨(wpS_embed _ _).mpr ((wpE_inPart _ _).mpr ?_)⟩
  refine Journal.reviseProposal_wp h.toDurable (fun _ => h) fun row t _ hfind hrev hs => ?_
  obtain ⟨hm, hid⟩ := Database.find_eq_some.mp hfind
  have hactive : (w.db.replace (row.redirected token t.seconds)).activeCount = w.db.activeCount :=
    Database.activeCount_replace_of_state hm rfl rfl
  have ho := h.replaced hm (.redirected token t.seconds hs) (hactive ▸ h.active)
  have ho' := ho.weaken fun c hc => List.mem_cons_of_mem _ hc
  refine ⟨ho'.toDurable, fun _ => ho', fun entry hr => ⟨ho', hQ _ entry _ ho ?_ ?_ ?_⟩⟩
  · exact h.spends hm hid hrev hid rfl
  · refine ⟨row.redirected token t.seconds, ?_, hid, hr.revision.symm, hs⟩
    exact Database.mem_replace.mpr ⟨row, hm, if_pos rfl⟩
  · have : (entry.revision : Int) = row.revision + 1 := hr.revision
    omega

theorem serves_setSha256 {id : Uuid} {sha256 : String} {Q : Unit → Service → World → Prop}
    (h : Orderly P kept room s w) (hQ : ∀ db, Q () s { w with db }) :
    Serves P kept room (ofJournal (Journal.setSha256 id sha256)) Q s w := by
  refine ⟨(wpS_embed _ _).mpr ((wpE_inPart _ _).mpr ?_)⟩
  refine Journal.setSha256_wp h.toDurable (fun _ => h) fun row t _ hfind => ⟨?_, hQ _⟩
  obtain ⟨hm, -⟩ := Database.find_eq_some.mp hfind
  have hactive : (w.db.replace (row.hashed sha256 t.seconds)).activeCount = w.db.activeCount :=
    Database.activeCount_replace_of_state hm rfl rfl
  exact (h.replaced hm (.hashed sha256 t.seconds) (hactive ▸ h.active)).weaken fun c hc =>
    List.mem_cons_of_mem _ hc

/-- A row created under a fresh id. -/
theorem serves_create {entry : Journal.Entry} {Q : Unit → Service → World → Prop}
    (h : Orderly P kept room s w) (hroom : Journal.maxActive ≤ room)
    (hknown : ∃ k < w.drawn, entry.id = P.uuid k) (hfresh : ∀ c ∈ w.db.commits, c.id ≠ entry.id)
    (hQ : ∀ db, Stands db entry.id 1 .proposed → Q () s { w with db }) :
    Serves P kept room (ofJournal (Journal.create entry)) Q s w := by
  refine ⟨(wpS_embed _ _).mpr ((wpE_inPart _ _).mpr ?_)⟩
  refine Journal.create_wp h.toDurable (fun _ _ => h) fun t db _ hactive _ _ hi => ?_
  obtain ⟨hid, hrows, hcommits⟩ := Database.insert_eq_ok hi
  have hc : Change w.db db := .created hi rfl rfl
  have hn : ¬ Journal.Revived w.db db := by
    rintro ⟨row, hm, hnew, hold⟩
    rw [hrows] at hm
    rcases List.mem_append.mp hm with hm | hm
    · exact hnew (List.mem_map_of_mem hm)
    · obtain ⟨c, hcm, hcid⟩ := List.mem_map.mp hold
      exact hfresh c hcm (hcid.trans (by rw [List.mem_singleton.mp hm]))
  have hd : Durable P kept room { w with db } := by
    refine h.toDurable.change hc hn (fun c hcm => ?_) ?_
    · rw [hcommits] at hcm
      rcases List.mem_append.mp hcm with hcm | hcm
      · exact h.known c hcm
      · obtain ⟨k, hk, he⟩ := hknown
        exact ⟨k, hk, by rw [List.mem_singleton.mp hcm]; exact he⟩
    · have hone : ∀ row : Row, List.countP Row.active [row] ≤ 1 := fun row => List.countP_le_length
      have : db.activeCount ≤ w.db.activeCount + 1 := by
        unfold Database.activeCount
        rw [hrows, List.countP_append]
        exact Nat.add_le_add_left (hone _) _
      exact this.trans ((Nat.succ_le_of_lt hactive).trans hroom)
  refine ⟨⟨hd, h.trails.change hc hn⟩, hQ db ?_⟩
  refine ⟨⟨entry.id, 1, State.proposed.asStr, entry.sourceToken, entry.destinationToken,
    entry.size, entry.sha256, t.seconds⟩, ?_, rfl, rfl, rfl⟩
  rw [hrows]
  exact List.mem_append_right _ (List.mem_singleton_self _)

theorem serves_retention {Q : Unit → Service → World → Prop} (h : Orderly P kept room s w)
    (hQ : ∀ db, Journal.Pruned w.db db → Q () s { w with db }) :
    Serves P kept room enforceJournalRetention Q s w := by
  unfold enforceJournalRetention
  refine serves_bind ⟨(wpS_embed _ _).mpr ((wpE_inPart _ _).mpr ?_)⟩
  refine Journal.enforceRetention_wp (fun db hp => (h.pruned hp).toDurable)
    (fun _ db hp => h.pruned hp) fun n db hp => ?_
  exact ⟨h.pruned hp, fun ho => serves_pure ho (hQ db hp)⟩

end
end SortingHat
