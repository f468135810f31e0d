import SortingHat.Journal.Interleaving

/-!
# What an answer says of the table

One call of one handle, with every statement it makes. An update reads its row back
before it answers, and that statement can fail by itself.

* `Framed`: the one row a call that succeeds has added or changed;
* `UnreadBack`: the update is made and the statement that reads it back fails;
* `atomic_iff`: an error leaves the table as it was, and a success changes one row, unless
  that happens.
-/

namespace SortingHat.Journal
open Posix (Bytes)
open Effect

/-- The entry a request is about, for the requests about one entry. -/
def Request.entryId : Request → Option Uuid
  | .create entry => some entry.id
  | .transition id _ _ | .reviseProposal id _ _ | .setSha256 id _ => some id
  | .pruneTerminal _ | .enforceRetention _ _ _ => none

/-- `row` has become `row'`, and nothing else has changed. -/
structure Rewritten (db db' : Database) (row row' : Row) : Prop where
  found : db.find row.id = some row
  key : row'.id = row.id
  written : db'.find row.id = some row'
  others : ∀ id, id ≠ row.id → db'.find id = db.find id
  keys : db'.rows.map Row.id = db.rows.map Row.id

/-- What a request that succeeds has made of the table. Numbers are stored as they are
given, and fit their columns. -/
def Framed (db db' : Database) : Request → Prop
  | .create entry => entry.id ∉ db.rows.map Row.id ∧
    (∃ row, db'.rows = db.rows ++ [row] ∧ row.Reads entry ∧ row.revision = 1 ∧ row.size < 2 ^ 63) ∧
    ∀ t, t.fault = none → (ExceptT.run (get entry.id)).after [t] db' = (.done (.ok entry), db')
  | .transition id revision next => ∃ row now, row.id = id ∧ row.revision = (revision : Int) ∧
    row.revision + 1 < 2 ^ 63 ∧ Rewritten db db' row (row.moved next now)
  | .reviseProposal id revision token => ∃ row now, row.id = id ∧ row.revision = (revision : Int) ∧
    row.revision + 1 < 2 ^ 63 ∧ Rewritten db db' row (row.redirected token now)
  | .setSha256 id sha256 => ∃ row now, row.id = id ∧ Rewritten db db' row (row.hashed sha256 now)
  | .pruneTerminal _ | .enforceRetention _ _ _ => True

/-- The answer tells what has become of the table. -/
def Atomic (db : Database) (request : Request) (db' : Database) : Except JournalError Unit → Prop
  | .error _ => db' = db
  | .ok () => Framed db db' request

/-- The checks of `transition` on the entry it has read. -/
def transitionChecks (revision : Nat) (next : State) (current : Entry) :
    Except JournalError (Int × Int) := do
  failIf (current.revision ≠ revision) JournalError.revisionConflict
  failIf (allowed current.state next = false) JournalError.invalidTransition
  let nextRevision ← orFail (checkedSucc revision) JournalError.range
  let revisionSql ← orFail (i64? revision) JournalError.range
  let nextRevisionSql ← orFail (i64? nextRevision) JournalError.range
  return (revisionSql, nextRevisionSql)

/-- The checks of `revise_proposal` on the entry it has read. -/
def reviseChecks (revision : Nat) (current : Entry) : Except JournalError (Int × Int) := do
  failIf (current.revision ≠ revision) JournalError.revisionConflict
  failIf (current.state ≠ .proposed) JournalError.invalidTransition
  let revisionSql ← orFail (i64? revision) JournalError.range
  let next ← orFail (checkedSucc revision) JournalError.range
  let nextSql ← orFail (i64? next) JournalError.range
  return (revisionSql, nextSql)

/-- The row of the id is read, and passes the checks. -/
def Database.accepts {β : Type} (db : Database) (id : Uuid) (checks : Entry → Except JournalError β) :
    Bool :=
  (db.find id).any fun row => (row.entry >>= checks).isOk

/-- The request would update a row and read it back. -/
def Request.updates (db : Database) : Request → Bool
  | .transition id revision next => db.accepts id (transitionChecks revision next)
  | .reviseProposal id revision _ => db.accepts id (reviseChecks revision)
  | _ => false

/-- The third statement, which reads an updated row back, fails. -/
def UnreadBack (db : Database) (request : Request) (ticks : List Tick) : Prop :=
  request.updates db = true ∧ (∀ t ∈ ticks.take 2, t.fault = none) ∧
    ∃ t, ticks[2]? = some t ∧ t.fault.isSome = true

section
variable {α β : Type} {db db' : Database} {id : Uuid} {revision : Nat} {t : Tick} {ts : List Tick}
  {row : Row}

/-! ## Calls that read back -/

/-- What a `SELECT` of one entry answers. -/
def readBack (t : Tick) (db : Database) (id : Uuid) : Except JournalError Entry :=
  match t.fault with
  | some _ => .error .database
  | none =>
    match db.find id with
    | none => .error .notFound
    | some row => row.entry

theorem get_after (f : Entry → JournalM α) :
    (ExceptT.run (get id >>= f)).after (t :: ts) db =
      match readBack t db id with
      | .error e => (.done (.error e), db)
      | .ok entry => (ExceptT.run (f entry)).after ts db := by
  unfold get query
  rw [bind_assoc, atomic_after]
  unfold readBack
  cases t.fault with
  | some e => rfl
  | none =>
    dsimp only
    cases db.find id with
    | none => rfl
    | some row =>
      show (ExceptT.run (get.liftExcept row.entry >>= f)).after ts db = _
      unfold get.liftExcept
      dsimp only
      cases row.entry with
      | error e => rfl
      | ok entry => rfl

theorem get_alone : (ExceptT.run (get id)).after (t :: ts) db = (.done (readBack t db id), db) := by
  have h := @get_after _ db id t ts (pure : Entry → JournalM Entry)
  rw [bind_pure] at h
  rw [h]
  cases readBack t db id with
  | error e => rfl
  | ok entry => rfl

/-- A call that reads an entry, checks it, updates its row and reads it back. -/
def readCheckUpdate (id : Uuid) (checks : Entry → Except JournalError β)
    (update : β → Int → Database → Nat × Database) : JournalM Entry := do
  let current ← get id
  match checks current with
  | .error e => throw e
  | .ok b =>
    let changed ← execute fun now db => .ok (update b now db)
    failIf (changed ≠ 1) JournalError.revisionConflict
    get id

theorem readCheckUpdate_after {checks : Entry → Except JournalError β}
    {update : β → Int → Database → Nat × Database} {t₁ t₂ t₃ : Tick} :
    (ExceptT.run (readCheckUpdate id checks update)).after (t₁ :: t₂ :: t₃ :: ts) db =
      match readBack t₁ db id >>= checks, t₂.fault with
      | .error e, _ => (.done (.error e), db)
      | .ok _, some _ => (.done (.error .database), db)
      | .ok b, none =>
        let (changed, db') := update b t₂.seconds db
        if changed ≠ 1 then (.done (.error .revisionConflict), db')
        else (.done (readBack t₃ db' id), db') := by
  unfold readCheckUpdate
  rw [get_after]
  cases readBack t₁ db id with
  | error e => rfl
  | ok current =>
    rw [show (Except.ok current >>= checks) = checks current from rfl]
    dsimp only
    cases checks current with
    | error e => rfl
    | ok b =>
      unfold execute
      dsimp only
      rw [atomic_after]
      cases t₂.fault with
      | some e => rfl
      | none =>
        dsimp only
        unfold failIf
        split
        · rfl
        · exact get_alone

theorem transition_eq (next : State) : transition id revision next =
    readCheckUpdate id (transitionChecks revision next) fun sql now db =>
      db.update id (fun row => row.revision = sql.1) fun row =>
        { row with state := next.asStr, revision := sql.2, updatedAt := now } := by
  unfold transition readCheckUpdate transitionChecks
  congr 1
  funext current
  simp only [failIf, orFail]
  split
  · rfl
  · split
    · rfl
    · cases checkedSucc revision with
      | none => rfl
      | some next' =>
        cases i64? revision with
        | none => rfl
        | some sql =>
          simp only [pure_bind]
          cases i64? next' with
          | none => rfl
          | some sql' => rfl

theorem reviseProposal_eq (token : Bytes) : reviseProposal id revision token =
    readCheckUpdate id (reviseChecks revision) fun sql now db =>
      db.update id (fun row => row.revision = sql.1 && row.state = "proposed") fun row =>
        { row with destinationToken := token, revision := sql.2, updatedAt := now } := by
  unfold reviseProposal readCheckUpdate reviseChecks
  congr 1
  funext current
  simp only [failIf, orFail]
  split
  · rfl
  · split
    · rfl
    · cases i64? revision with
      | none => rfl
      | some sql =>
        cases checkedSucc revision with
        | none => rfl
        | some next' =>
          simp only [pure_bind]
          cases i64? next' with
          | none => rfl
          | some sql' => rfl

/-- How such a call ends, if the update is of the row that was read: either the row is
written and then perhaps not read back, or nothing is done. -/
theorem readCheckUpdate_ends {checks : Entry → Except JournalError β}
    {update : β → Int → Database → Nat × Database} (target : Row → Int → Row) {t₁ t₂ t₃ : Tick}
    {r : Except JournalError Entry}
    (hupdate : ∀ row current b now, db.find id = some row → row.Reads current →
      checks current = .ok b → update b now db = (1, db.replace (target row now)) ∧
        (target row now).id = row.id ∧ ∃ entry, (target row now).Reads entry)
    (h : (ExceptT.run (readCheckUpdate id checks update)).after (t₁ :: t₂ :: t₃ :: ts) db =
      (.done r, db')) :
    (db.accepts id checks = true ∧ t₁.fault = none ∧ t₂.fault = none ∧
      ∃ row current b, db.find id = some row ∧ row.Reads current ∧ checks current = .ok b ∧
        db' = db.replace (target row t₂.seconds) ∧
        ((t₃.fault = none ∧ ∃ entry, r = .ok entry) ∨
          t₃.fault.isSome = true ∧ r = .error .database)) ∨
    (db' = db ∧ (∃ e, r = .error e) ∧
      ¬ (db.accepts id checks = true ∧ t₁.fault = none ∧ t₂.fault = none)) := by
  rw [readCheckUpdate_after] at h
  unfold readBack Database.accepts at *
  have hrefused : ∀ {e : JournalError}, ((.done (.error e), db) : Prog Tick Database _ × _) =
      (.done r, db') → db' = db ∧ ∃ e, r = .error e := by
    intro e he
    obtain ⟨hr, rfl⟩ := Prod.mk.inj he
    exact ⟨rfl, e, (Prog.done.inj hr).symm⟩
  cases hf₁ : t₁.fault with
  | some e =>
    rw [hf₁] at h
    obtain ⟨hdb, hr⟩ := hrefused h
    exact .inr ⟨hdb, hr, fun hgo => nomatch hgo.2.1⟩
  | none =>
    rw [hf₁] at h
    dsimp only at h
    cases hfind : db.find id with
    | none =>
      rw [hfind] at h
      obtain ⟨hdb, hr⟩ := hrefused h
      exact .inr ⟨hdb, hr, fun hgo => nomatch hgo.1⟩
    | some row =>
      rw [hfind] at h
      dsimp only at h
      rw [Option.any_some]
      cases hchecks : row.entry >>= checks with
      | error e =>
        rw [hchecks] at h
        obtain ⟨hdb, hr⟩ := hrefused h
        exact .inr ⟨hdb, hr, fun hgo => nomatch hgo.1⟩
      | ok b =>
        rw [hchecks] at h
        cases hf₂ : t₂.fault with
        | some e =>
          rw [hf₂] at h
          obtain ⟨hdb, hr⟩ := hrefused h
          exact .inr ⟨hdb, hr, fun hgo => nomatch hgo.2.2⟩
        | none =>
          rw [hf₂] at h
          obtain ⟨current, hcurrent, hb⟩ : ∃ current, row.entry = .ok current ∧
              checks current = .ok b := by
            cases hentry : row.entry with
            | error e =>
              rw [hentry] at hchecks
              cases hchecks
            | ok current =>
              rw [hentry] at hchecks
              exact ⟨current, rfl, hchecks⟩
          have hreads := Row.entry_eq_ok.mp hcurrent
          obtain ⟨hwrite, hkey, entry, hentry⟩ := hupdate row current b t₂.seconds hfind hreads hb
          dsimp only at h
          rw [hwrite] at h
          dsimp only at h
          rw [if_neg (not_not.mpr rfl)] at h
          obtain ⟨hr, rfl⟩ := Prod.mk.inj h
          refine .inl ⟨rfl, rfl, rfl, row, current, b, rfl, hreads, hb, rfl, ?_⟩
          have hid : row.id = id := (Database.find_eq_some.mp hfind).2
          have hback : (db.replace (target row t₂.seconds)).find id =
              some (target row t₂.seconds) := by
            rw [← hid, ← hkey]
            apply Database.find_replace
            rw [hkey, hid, hfind]
            rfl
          cases hf₃ : t₃.fault with
          | some e =>
            rw [hf₃] at hr
            exact .inr ⟨rfl, (Prog.done.inj hr).symm⟩
          | none =>
            rw [hf₃, hback] at hr
            dsimp only at hr
            rw [Row.entry_eq_ok.mpr hentry] at hr
            exact .inl ⟨rfl, entry, (Prog.done.inj hr).symm⟩

theorem rewritten_replace {row' : Row} (hfind : db.find id = some row) (hkey : row'.id = row.id) :
    Rewritten db (db.replace row') row row' := by
  obtain ⟨hm, hid⟩ := Database.find_eq_some.mp hfind
  refine ⟨Database.find_of_mem hm, hkey, ?_, fun other hne => ?_, ?_⟩
  · rw [← hkey]
    apply Database.find_replace
    rw [hkey, hid, hfind]
    rfl
  · exact Database.find_replace_of_ne (hkey ▸ hne)
  · show (db.rows.map fun old => if old.id = row'.id then row' else old).map Row.id = _
    rw [List.map_map]
    apply List.map_congr_left
    intro old _
    show (if old.id = row'.id then row' else old).id = old.id
    split
    · next h => exact h.symm
    · rfl

theorem failIf_ok {c : Prop} [Decidable c] {e : JournalError} {f : Unit → Except JournalError β}
    {b : β} (h : (failIf c e >>= f) = .ok b) : ¬ c ∧ f () = .ok b := by
  unfold failIf at h
  split at h
  · cases h
  · next hc => exact ⟨hc, h⟩

theorem orFail_ok {o : Option α} {e : JournalError} {f : α → Except JournalError β} {b : β}
    (h : (orFail o e >>= f) = .ok b) : ∃ a, o = some a ∧ f a = .ok b := by
  cases o with
  | none => cases h
  | some a => exact ⟨a, rfl, h⟩

theorem i64_ok {n : Nat} {i : Int} (h : i64? n = some i) : i = n ∧ n < 2 ^ 63 := by
  refine ⟨i64_eq_some h, ?_⟩
  unfold i64? at h
  split at h
  · assumption
  · cases h

/-- What the checks of an update have established. -/
theorem transitionChecks_ok {next : State} {current : Entry} {sql : Int × Int}
    (h : transitionChecks revision next current = .ok sql) :
    current.revision = revision ∧ allowed current.state next = true ∧
      sql = ((revision : Int), (revision : Int) + 1) ∧ revision + 1 < 2 ^ 63 := by
  obtain ⟨hrevision, h⟩ := failIf_ok h
  obtain ⟨hallowed, h⟩ := failIf_ok h
  obtain ⟨next', hnext, h⟩ := orFail_ok h
  obtain ⟨old, hold, h⟩ := orFail_ok h
  obtain ⟨new, hnew, h⟩ := orFail_ok h
  obtain rfl := checkedSucc_eq_some hnext
  obtain ⟨rfl, -⟩ := i64_ok hold
  obtain ⟨rfl, hfits⟩ := i64_ok hnew
  exact ⟨not_not.mp hrevision, Bool.eq_true_of_not_eq_false hallowed, (Except.ok.inj h).symm, hfits⟩

theorem reviseChecks_ok {current : Entry} {sql : Int × Int}
    (h : reviseChecks revision current = .ok sql) :
    current.revision = revision ∧ current.state = .proposed ∧
      sql = ((revision : Int), (revision : Int) + 1) ∧ revision + 1 < 2 ^ 63 := by
  obtain ⟨hrevision, h⟩ := failIf_ok h
  obtain ⟨hproposed, h⟩ := failIf_ok h
  obtain ⟨old, hold, h⟩ := orFail_ok h
  obtain ⟨next', hnext, h⟩ := orFail_ok h
  obtain ⟨new, hnew, h⟩ := orFail_ok h
  obtain rfl := checkedSucc_eq_some hnext
  obtain ⟨rfl, -⟩ := i64_ok hold
  obtain ⟨rfl, hfits⟩ := i64_ok hnew
  exact ⟨not_not.mp hrevision, not_not.mp hproposed, (Except.ok.inj h).symm, hfits⟩

/-- A row that has been moved on still reads as an entry. -/
theorem reads_moved {current : Entry} (h : row.Reads current) (next : State) (now : Int) :
    ∃ entry, (row.moved next now).Reads entry := by
  refine ⟨{ current with revision := current.revision + 1, state := next }, h.id, ?_, rfl,
    h.sourceToken, h.destinationToken, h.size, h.sha256⟩
  show ((current.revision + 1 : Nat) : Int) = row.revision + 1
  rw [← h.revision]
  rfl

theorem reads_redirected {current : Entry} (h : row.Reads current) (token : Bytes) (now : Int) :
    ∃ entry, (row.redirected token now).Reads entry := by
  refine ⟨{ current with revision := current.revision + 1, destinationToken := token }, h.id, ?_,
    h.state, h.sourceToken, rfl, h.size, h.sha256⟩
  show ((current.revision + 1 : Nat) : Int) = row.revision + 1
  rw [← h.revision]
  rfl

/-- How an update of one row ends: it is made, and answered as the row is read back; or
nothing is done. -/
def Ends (db : Database) (request : Request) (t₁ t₂ t₃ : Tick) (r : Except JournalError α)
    (db' : Database) : Prop :=
  (request.updates db = true ∧ t₁.fault = none ∧ t₂.fault = none ∧
    Framed db db' request ∧ db'.rows ≠ db.rows ∧
      ((t₃.fault = none ∧ ∃ a, r = .ok a) ∨ t₃.fault.isSome = true ∧ r = .error .database)) ∨
  (db' = db ∧ (∃ e, r = .error e) ∧
    ¬ (request.updates db = true ∧ t₁.fault = none ∧ t₂.fault = none))

/-- A row with another revision is another row. -/
theorem Rewritten.rows_ne {row' : Row} (h : Rewritten db db' row row')
    (hne : row'.revision ≠ row.revision) : db'.rows ≠ db.rows := by
  intro hrows
  have hfound := h.written
  unfold Database.find at hfound
  rw [hrows] at hfound
  obtain rfl := Option.some.inj (hfound.symm.trans h.found)
  exact hne rfl

theorem transition_ends {next : State} {t₁ t₂ t₃ : Tick} {r : Except JournalError Entry}
    (h : (ExceptT.run (transition id revision next)).after (t₁ :: t₂ :: t₃ :: ts) db =
      (.done r, db')) : Ends db (.transition id revision next) t₁ t₂ t₃ r db' := by
  rw [transition_eq] at h
  refine (readCheckUpdate_ends (fun row now => row.moved next now) ?_ h).imp ?_ fun h => h
  · intro row current sql now hfind hreads hchecks
    obtain ⟨hcurrent, -, rfl, -⟩ := transitionChecks_ok hchecks
    have hrevision : row.revision = (revision : Int) := by rw [← hreads.revision, hcurrent]
    obtain ⟨-, rfl⟩ := Database.find_eq_some.mp hfind
    refine ⟨?_, rfl, reads_moved hreads next now⟩
    rw [Database.update_of_find hfind (by simpa using hrevision), ← hrevision]
    rfl
  · rintro ⟨haccepts, h₁, h₂, row, current, sql, hfind, hreads, hchecks, rfl, hanswer⟩
    obtain ⟨hcurrent, -, -, hfits⟩ := transitionChecks_ok hchecks
    have hrevision : row.revision = (revision : Int) := by rw [← hreads.revision, hcurrent]
    have hrow := @rewritten_replace _ _ _ (row.moved next t₂.seconds) hfind rfl
    refine ⟨haccepts, h₁, h₂, ⟨row, t₂.seconds, (Database.find_eq_some.mp hfind).2, hrevision,
      by omega, hrow⟩, hrow.rows_ne ?_, hanswer⟩
    show row.revision + 1 ≠ row.revision
    omega

theorem reviseProposal_ends {token : Bytes} {t₁ t₂ t₃ : Tick} {r : Except JournalError Entry}
    (h : (ExceptT.run (reviseProposal id revision token)).after (t₁ :: t₂ :: t₃ :: ts) db =
      (.done r, db')) : Ends db (.reviseProposal id revision token) t₁ t₂ t₃ r db' := by
  rw [reviseProposal_eq] at h
  refine (readCheckUpdate_ends (fun row now => row.redirected token now) ?_ h).imp ?_
    fun h => h
  · intro row current sql now hfind hreads hchecks
    obtain ⟨hcurrent, hproposed, rfl, -⟩ := reviseChecks_ok hchecks
    have hrevision : row.revision = (revision : Int) := by rw [← hreads.revision, hcurrent]
    have hstate : row.state = "proposed" := by
      rw [hreads.state, hproposed]
      rfl
    obtain ⟨-, rfl⟩ := Database.find_eq_some.mp hfind
    refine ⟨?_, rfl, reads_redirected hreads token now⟩
    rw [Database.update_of_find hfind (by simp [hrevision, hstate]), ← hrevision]
    rfl
  · rintro ⟨haccepts, h₁, h₂, row, current, sql, hfind, hreads, hchecks, rfl, hanswer⟩
    obtain ⟨hcurrent, -, -, hfits⟩ := reviseChecks_ok hchecks
    have hrevision : row.revision = (revision : Int) := by rw [← hreads.revision, hcurrent]
    have hrow := @rewritten_replace _ _ _ (row.redirected token t₂.seconds) hfind rfl
    refine ⟨haccepts, h₁, h₂, ⟨row, t₂.seconds, (Database.find_eq_some.mp hfind).2, hrevision,
      by omega, hrow⟩, hrow.rows_ne ?_, hanswer⟩
    show row.revision + 1 ≠ row.revision
    omega

/-- Dropping the answer drops nothing else. -/
theorem discard_after {x : JournalM α} {ticks : List Tick} {r : Except JournalError Unit}
    (h : (ExceptT.run (do let _ ← x)).after ticks db = (.done r, db')) :
    ∃ r', (ExceptT.run x).after ticks db = (.done r', db') ∧ r = r'.map fun _ => () := by
  have hrun : ExceptT.run (do let _ ← x) =
      ExceptT.run x >>= fun r' => .done (r'.map fun _ => ()) := by
    show ExceptT.run x >>= _ = _
    congr 1
    funext r'
    cases r' <;> rfl
  rw [hrun, Prog.after_map] at h
  obtain ⟨hdone, hdb⟩ := Prod.mk.inj h
  cases hp : ((ExceptT.run x).after ticks db).1 with
  | step u n =>
    rw [hp] at hdone
    cases hdone
  | done r' =>
    rw [hp] at hdone
    exact ⟨r', Prod.ext hp hdb, (Prog.done.inj hdone).symm⟩

/-- An answer that goes with what was done, unless a change was not read back. -/
theorem Ends.atomic {request : Request} {t₁ t₂ t₃ : Tick} {r : Except JournalError α}
    (h : Ends db request t₁ t₂ t₃ r db') :
    Atomic db request db' (r.map fun _ => ()) ↔ ¬ UnreadBack db request (t₁ :: t₂ :: t₃ :: ts) := by
  have hunread : UnreadBack db request (t₁ :: t₂ :: t₃ :: ts) ↔
      request.updates db = true ∧ (t₁.fault = none ∧ t₂.fault = none) ∧ t₃.fault.isSome = true := by
    simp [UnreadBack]
  rw [hunread]
  obtain ⟨hupdates, h₁, h₂, hframed, hrows, ⟨h₃, a, rfl⟩ | ⟨h₃, rfl⟩⟩ | ⟨rfl, ⟨e, rfl⟩, hnot⟩ := h
  · simp only [h₃, Option.isSome_none, Bool.false_eq_true, and_false, not_false_iff, iff_true]
    exact hframed
  · simp only [hupdates, h₁, h₂, h₃, and_self, not_true, iff_false]
    rintro rfl
    exact hrows rfl
  · refine iff_of_true rfl ?_
    rintro ⟨hupdates, ⟨h₁, h₂⟩, -⟩
    exact hnot ⟨hupdates, h₁, h₂⟩

/-! ## The four calls -/

/-- An entry that has been created fits its columns. -/
theorem create_fits (entry : Entry) (db : Database) : wpE (fun _ => True) (create entry)
    (fun _ _ => entry.size < 2 ^ 63) (fun _ _ => True) (fun _ => True) db := by
  unfold create
  refine (wpE_bind _ _).mpr (query_wp trivial trivial ?_)
  refine (wpE_bind _ _).mpr ((wpE_failIf _ _).mpr ⟨fun _ => trivial, fun _ => ?_⟩)
  refine (wpE_bind _ _).mpr ((wpE_failIf _ _).mpr ⟨fun _ => trivial, fun _ => ?_⟩)
  refine (wpE_bind _ _).mpr ((wpE_orFail _ _).mpr ⟨fun _ => trivial, fun _ _ => ?_⟩)
  refine (wpE_bind _ _).mpr ((wpE_orFail _ _).mpr ⟨fun _ => trivial, fun size hsize => ?_⟩)
  exact execute_wp trivial (fun _ => trivial) fun _ _ _ _ _ => (i64_ok hsize).2

/-- A row that reads as an entry is read back. -/
theorem get_row {entry : Entry} (hfind : db.find id = some row) (hreads : row.Reads entry)
    (ht : t.fault = none) : (ExceptT.run (get id)).after [t] db = (.done (.ok entry), db) := by
  rw [get_alone]
  unfold readBack
  rw [ht, hfind]
  dsimp only
  rw [Row.entry_eq_ok.mpr hreads]

theorem create_atomic {entry : Entry} {ticks : List Tick} {r : Except JournalError Unit}
    (h : (ExceptT.run (create entry)).after ticks db = (.done r, db')) :
    Atomic db (.create entry) db' r := by
  have hwp : wpE (fun _ => True) (create entry)
      (fun _ db' => entry.id ∉ db.rows.map Row.id ∧ ∃ row, db'.rows = db.rows ++ [row] ∧
        row.Reads entry ∧ row.revision = 1)
      (fun _ db' => db' = db) (fun _ => True) db := by
    refine create_wp (K := fun _ => True) (E := fun _ db' => db' = db) trivial (fun _ _ => rfl) ?_
    intro t db' _ _ hs hr hinsert
    obtain ⟨hfresh, hrows, -⟩ := Database.insert_eq_ok hinsert
    exact ⟨hfresh, _, hrows, ⟨rfl, by rw [hr]; rfl, by rw [hs], rfl, rfl, rfl, rfl⟩, rfl⟩
  have hholds := Prog.wp_after hwp ticks fun _ _ => trivial
  have hfits := Prog.wp_after (create_fits entry db) ticks fun _ _ => trivial
  rw [h] at hholds hfits
  cases r with
  | error e => exact hholds
  | ok u =>
    obtain ⟨hfresh, row, hrows, hreads, hrevision⟩ := hholds
    have hsize : row.size < 2 ^ 63 := by
      rw [← hreads.size]
      exact_mod_cast hfits
    refine ⟨hfresh, ⟨row, hrows, hreads, hrevision, hsize⟩, fun t ht => ?_⟩
    have hm : row ∈ db'.rows := hrows ▸ List.mem_append_right _ (List.mem_singleton_self row)
    exact get_row (Database.find_eq_some.mpr ⟨hm, hreads.id.symm⟩) hreads ht

theorem setSha256_atomic {sha256 : String} {ticks : List Tick} {r : Except JournalError Unit}
    (h : (ExceptT.run (setSha256 id sha256)).after ticks db = (.done r, db')) :
    Atomic db (.setSha256 id sha256) db' r := by
  have hwp : wpE (fun _ => True) (setSha256 id sha256)
      (fun _ db' => Framed db db' (.setSha256 id sha256)) (fun _ db' => db' = db)
      (fun _ => True) db := by
    refine setSha256_wp (K := fun _ => True) (E := fun _ db' => db' = db) trivial (fun _ => rfl) ?_
    intro row t _ hfind
    exact ⟨row, t.seconds, (Database.find_eq_some.mp hfind).2, rewritten_replace hfind rfl⟩
  have hholds := Prog.wp_after hwp ticks fun _ _ => trivial
  rw [h] at hholds
  cases r with
  | error e => exact hholds
  | ok u => exact hholds

/-- More quiet ticks make no difference to a run that has finished. -/
theorem exists_padded (db : Database) (request : Request) (ticks : List Tick) :
    ∃ t₁ t₂ t₃ ts, ticks ++ List.replicate 3 (Tick.quiet 0) = t₁ :: t₂ :: t₃ :: ts ∧
      (UnreadBack db request (t₁ :: t₂ :: t₃ :: ts) ↔ UnreadBack db request ticks) := by
  have hquiet : (Tick.quiet 0).fault = none := rfl
  match ticks with
  | [] => exact ⟨_, _, _, _, rfl, by simp [UnreadBack, hquiet]⟩
  | [t₁] => exact ⟨_, _, _, _, rfl, by simp [UnreadBack, hquiet]⟩
  | [t₁, t₂] => exact ⟨_, _, _, _, rfl, by simp [UnreadBack, hquiet]⟩
  | t₁ :: t₂ :: t₃ :: ts => exact ⟨t₁, t₂, t₃, _, rfl, by simp [UnreadBack]⟩

/-- **An answer tells what has become of the table**, but where an update is made and
cannot be read back. -/
theorem atomic_iff {request : Request} {ticks : List Tick} {r : Except JournalError Unit}
    (hid : request.entryId = some id)
    (h : (ExceptT.run request.call).after ticks db = (.done r, db')) :
    Atomic db request db' r ↔ ¬ UnreadBack db request ticks := by
  obtain ⟨t₁, t₂, t₃, ts, hticks, hunread⟩ := exists_padded db request ticks
  cases request with
  | create entry => exact iff_of_true (create_atomic h) fun hunread => nomatch hunread.1
  | setSha256 id sha256 => exact iff_of_true (setSha256_atomic h) fun hunread => nomatch hunread.1
  | pruneTerminal _ => cases hid
  | enforceRetention _ _ _ => cases hid
  | transition id revision next =>
    obtain ⟨r', hrun, rfl⟩ := discard_after h
    have hrun' := Prog.after_finished (List.replicate 3 (Tick.quiet 0)) hrun
    rw [hticks] at hrun'
    rw [← hunread]
    exact (transition_ends hrun').atomic
  | reviseProposal id revision token =>
    obtain ⟨r', hrun, rfl⟩ := discard_after h
    have hrun' := Prog.after_finished (List.replicate 3 (Tick.quiet 0)) hrun
    rw [hticks] at hrun'
    rw [← hunread]
    exact (reviseProposal_ends hrun').atomic

end

/-- The entry 0 as a proposal at this revision. -/
def proposedAt (revision : Int) : Database :=
  ⟨[⟨⟨0⟩, revision, State.proposed.asStr, [], [], 0, none, 0⟩], [], List.nodup_singleton _⟩

/-- At the last revision its column holds, an entry is not moved, and the table is as it was. -/
theorem atomic_iff_range :
    Atomic (proposedAt (2 ^ 63 - 1)) (.transition ⟨0⟩ (2 ^ 63 - 1) .approved)
        (proposedAt (2 ^ 63 - 1)) (.error .range) ↔
      ¬ UnreadBack (proposedAt (2 ^ 63 - 1)) (.transition ⟨0⟩ (2 ^ 63 - 1) .approved)
        [Tick.quiet 0] :=
  atomic_iff rfl rfl

/-- The proposal is approved, and the answer is an error. -/
theorem unread_back : ∃ db' e, (ExceptT.run (Request.transition ⟨0⟩ 1 .approved).call).after
      [Tick.quiet 0, Tick.quiet 0, { Tick.quiet 0 with fault := some .IOERR }] (proposedAt 1) =
        (.done (.error e), db') ∧
      ¬ Atomic (proposedAt 1) (.transition ⟨0⟩ 1 .approved) db' (.error e) := by
  refine ⟨_, _, rfl, fun h => ?_⟩
  have hrevisions := congrArg (fun db => db.rows.map Row.revision) h
  revert hrevisions
  decide +kernel

end SortingHat.Journal
