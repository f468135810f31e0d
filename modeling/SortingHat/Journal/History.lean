import SortingHat.Journal.Table
import SortingHat.Version.Chain

/-!
# What the statements do to a row's history

* `update_of_find`: an `UPDATE` by key replaces one row or none;
* `Change`: everything a statement of the journal can do to the table;
* `Coherent`: every id's history is legal and ends in the row of the table;
* `Change.coherent`: statements keep it as long as no deleted id comes back.
-/

namespace SortingHat.Journal
open Posix (Bytes)

namespace Database
variable {db db' : Database} {id : Uuid} {row : Row}

theorem find_eq_some : db.find id = some row ↔ row ∈ db.rows ∧ row.id = id := by
  constructor
  · intro h
    exact ⟨List.mem_of_find?_eq_some h, by simpa using List.find?_some h⟩
  · rintro ⟨hm, rfl⟩
    obtain ⟨found, hf⟩ : ∃ found, db.find row.id = some found := by
      cases h : db.find row.id with
      | some found => exact ⟨found, rfl⟩
      | none => exact absurd (List.find?_eq_none.mp h row hm) (by simp)
    have hid : found.id = row.id := by simpa using List.find?_some hf
    have := List.inj_on_of_nodup_map db.keyed (List.mem_of_find?_eq_some hf) hm hid
    rw [hf, this]

theorem find_eq_none : db.find id = none ↔ ∀ row ∈ db.rows, row.id ≠ id := by
  simp [find, List.find?_eq_none]

theorem find_of_mem (h : row ∈ db.rows) : db.find row.id = some row := find_eq_some.mpr ⟨h, rfl⟩

/-- Put a row in the place of the one with its id. -/
def replace (db : Database) (row : Row) : Database where
  rows := db.rows.map fun old => if old.id = row.id then row else old
  commits := db.commits ++ [row]
  keyed := by
    have : (db.rows.map fun old => if old.id = row.id then row else old).map Row.id =
        db.rows.map Row.id := by
      rw [List.map_map]
      refine List.map_congr_left fun old _ => ?_
      show (if old.id = row.id then row else old).id = old.id
      split
      · next h => exact h.symm
      · rfl
    exact this ▸ db.keyed

theorem mem_replace {other : Row} : other ∈ (db.replace row).rows ↔
    ∃ old ∈ db.rows, (if old.id = row.id then row else old) = other := by
  simp only [replace, List.mem_map]

theorem find_replace (h : (db.find row.id).isSome) : (db.replace row).find row.id = some row := by
  obtain ⟨old, ho⟩ := Option.isSome_iff_exists.mp h
  obtain ⟨hm, hid⟩ := find_eq_some.mp ho
  exact find_eq_some.mpr ⟨mem_replace.mpr ⟨old, hm, if_pos hid⟩, rfl⟩

theorem find_replace_of_ne (h : id ≠ row.id) : (db.replace row).find id = db.find id := by
  cases hf : db.find id with
  | none =>
    refine find_eq_none.mpr fun other ho => ?_
    obtain ⟨old, hm, rfl⟩ := mem_replace.mp ho
    have := find_eq_none.mp hf old hm
    split
    · exact fun he => h he.symm
    · exact this
  | some found =>
    obtain ⟨hm, rfl⟩ := find_eq_some.mp hf
    exact find_eq_some.mpr ⟨mem_replace.mpr ⟨found, hm, if_neg h⟩, rfl⟩

/-- Two rows of one id are one row. -/
theorem unique {db : Database} {row row' : Row} (hm : row ∈ db.rows) (hm' : row' ∈ db.rows)
    (h : row.id = row'.id) : row = row' := List.inj_on_of_nodup_map db.keyed hm hm' h

/-- A row of a replaced table that was there, or is the new one. -/
theorem mem_replace_cases {db : Database} {row row' : Row}
    (hm : row ∈ (db.replace row').rows) : row = row' ∨ row ∈ db.rows ∧ row.id ≠ row'.id := by
  obtain ⟨old, ho, rfl⟩ := Database.mem_replace.mp hm
  split
  · exact .inl rfl
  · next hne => exact .inr ⟨ho, hne⟩

theorem mem_replace_of_ne {db : Database} {row row' : Row} (hm : row ∈ db.rows)
    (hne : row.id ≠ row'.id) : row ∈ (db.replace row').rows :=
  Database.mem_replace.mpr ⟨row, hm, if_neg hne⟩

theorem mem_replace_self {db : Database} {row row' : Row} (hm : row ∈ db.rows)
    (hid : row'.id = row.id) : row' ∈ (db.replace row').rows :=
  Database.mem_replace.mpr ⟨row, hm, if_pos hid.symm⟩

theorem filter_selected {rows : List Row} (hk : (rows.map Row.id).Nodup) (hm : row ∈ rows)
    (cond : Row → Bool) :
    rows.filter (selected row.id cond) = if cond row then [row] else [] := by
  induction rows with
  | nil => simp at hm
  | cons r rows ih =>
    rw [List.map_cons, List.nodup_cons] at hk
    rcases List.mem_cons.mp hm with rfl | hm
    · have : rows.filter (selected row.id cond) = [] := by
        refine List.filter_eq_nil_iff.mpr fun a ha => ?_
        have : a.id ≠ row.id := fun h => hk.1 (h ▸ List.mem_map_of_mem ha)
        simp [selected, this]
      simp only [List.filter_cons, this, selected, decide_true, Bool.true_and]
    · have : r.id ≠ row.id := fun h => hk.1 (h ▸ List.mem_map_of_mem hm)
      simp only [List.filter_cons, ih hk.2 hm]
      simp [selected, this]

/-- An `UPDATE` whose condition the row meets replaces that row. -/
theorem update_of_find {cond : Row → Bool} {set : Row → Row} (h : db.find id = some row)
    (hc : cond row = true) : db.update id cond set = (1, db.replace { set row with id }) := by
  obtain ⟨hm, rfl⟩ := find_eq_some.mp h
  have hf : db.rows.filter (selected row.id cond) = [row] := by
    rw [filter_selected db.keyed hm, if_pos hc]
  have hw : rewrite row.id cond set row = { set row with id := row.id } := by
    simp [rewrite, selected, hc]
  have hr : db.rows.map (rewrite row.id cond set) =
      db.rows.map fun old => if old.id = row.id then { set row with id := row.id } else old := by
    refine List.map_congr_left fun old ho => ?_
    by_cases he : old.id = row.id
    · obtain rfl := List.inj_on_of_nodup_map db.keyed ho hm he
      rw [hw, if_pos rfl]
    · simp [rewrite, selected, he]
  unfold update replace
  simp only [hf, List.length_singleton, List.map_cons, List.map_nil, hw, hr]

/-- An `UPDATE` whose condition no row with the id meets changes nothing. -/
theorem update_of_not {cond : Row → Bool} {set : Row → Row}
    (h : ∀ row, db.find id = some row → cond row = false) : db.update id cond set = (0, db) := by
  have hs : ∀ row ∈ db.rows, selected id cond row = false := by
    intro row hm
    by_cases he : row.id = id
    · simp [selected, h row (find_eq_some.mpr ⟨hm, he⟩)]
    · simp [selected, he]
  have hf : db.rows.filter (selected id cond) = [] :=
    List.filter_eq_nil_iff.mpr fun row hm => by simp [hs row hm]
  have hr : db.rows.map (rewrite id cond set) = db.rows := by
    conv_rhs => rw [← List.map_id db.rows]
    refine List.map_congr_left fun row hm => ?_
    simp [rewrite, hs row hm]
  unfold update
  simp only [hf, List.length_nil, List.map_nil, List.append_nil, hr]

theorem countP_replace {rows : List Row} {row' : Row} (hk : (rows.map Row.id).Nodup)
    (hm : row ∈ rows) (hid : row.id = row'.id) (p : Row → Bool) :
    (rows.map fun old => if old.id = row'.id then row' else old).countP p +
      (if p row then 1 else 0) = rows.countP p + if p row' then 1 else 0 := by
  induction rows with
  | nil => simp at hm
  | cons r rows ih =>
    rw [List.map_cons, List.nodup_cons] at hk
    rcases List.mem_cons.mp hm with rfl | hm
    · have hrest : (rows.map fun old => if old.id = row'.id then row' else old) = rows := by
        conv_rhs => rw [← List.map_id rows]
        refine List.map_congr_left fun old ho => if_neg fun he => hk.1 ?_
        exact hid ▸ he ▸ List.mem_map_of_mem ho
      rw [List.map_cons, if_pos hid, hrest, List.countP_cons, List.countP_cons]
      omega
    · have hr : r.id ≠ row'.id := fun he => hk.1 (he ▸ hid ▸ List.mem_map_of_mem hm)
      have := ih hk.2 hm
      rw [List.map_cons, if_neg hr, List.countP_cons, List.countP_cons]
      omega

/-- Replacing a row changes the active count by what the row itself does. -/
theorem activeCount_replace {row' : Row} (hm : row ∈ db.rows) (hid : row.id = row'.id) :
    (db.replace row').activeCount + (if row.active then 1 else 0) =
      db.activeCount + if row'.active then 1 else 0 :=
  countP_replace db.keyed hm hid Row.active

theorem activeCount_replace_of_state {row' : Row} (hm : row ∈ db.rows) (hid : row.id = row'.id)
    (hs : row'.state = row.state) : (db.replace row').activeCount = db.activeCount := by
  have := activeCount_replace hm hid
  have ha : row'.active = row.active := by rw [Row.active, Row.active, Row.terminal, hs, Row.terminal]
  rw [ha] at this
  exact Nat.add_right_cancel this

theorem activeCount_delete (doomed : Row → Bool) :
    (db.delete doomed).2.activeCount ≤ db.activeCount := by
  simp only [activeCount, delete]
  exact List.Sublist.countP_le List.filter_sublist

/-- What `INSERT` made of the table. -/
theorem insert_eq_ok (h : db.insert row = .ok db') :
    row.id ∉ db.rows.map Row.id ∧ db'.rows = db.rows ++ [row] ∧
      db'.commits = db.commits ++ [row] := by
  unfold insert at h
  split at h
  · cases h
  · next hn =>
    cases h
    exact ⟨hn, rfl, rfl⟩

theorem insert_eq_error {e : JournalError} (h : db.insert row = .error e) : e = .database := by
  unfold insert at h
  split at h
  · exact (Except.error.inj h).symm
  · cases h

theorem insert_of_fresh (h : row.id ∉ db.rows.map Row.id) : ∃ db', db.insert row = .ok db' := by
  unfold insert
  rw [dif_neg h]
  exact ⟨_, rfl⟩

theorem mem_surplus {retain : Nat} (h : row ∈ db.surplus retain) :
    row ∈ db.rows ∧ row.terminal = true := by
  have := List.mem_of_mem_drop h
  rw [List.mem_insertionSort, List.mem_reverse, List.mem_filter] at this
  exact this

/-- Pruning by key only meets terminal rows. -/
theorem terminal_of_surplus {retain : Nat} (hm : row ∈ db.rows)
    (h : ((db.surplus retain).map Row.id).contains row.id = true) : row.terminal = true := by
  rw [List.contains_iff_mem] at h
  obtain ⟨other, ho, hid⟩ := List.mem_map.mp h
  obtain ⟨hom, ht⟩ := mem_surplus ho
  exact List.inj_on_of_nodup_map db.keyed hom hm hid ▸ ht

/-- The commits of one id, oldest first. -/
def history (db : Database) (id : Uuid) : List Row := db.commits.filter fun row => row.id = id

theorem mem_history {c : Row} : c ∈ db.history id ↔ c ∈ db.commits ∧ c.id = id := by
  simp [history]

end Database

/-! ## Changes -/

namespace Row

/-- The row with a digest recorded. -/
def hashed (row : Row) (sha256 : String) (now : Int) : Row :=
  { row with sha256 := some sha256, updatedAt := now }

/-- The row moved to another state. -/
def moved (row : Row) (target : State) (now : Int) : Row :=
  { row with state := target.asStr, revision := row.revision + 1, updatedAt := now }

/-- The row with another destination. -/
def redirected (row : Row) (token : Bytes) (now : Int) : Row :=
  { row with destinationToken := token, revision := row.revision + 1, updatedAt := now }

end Row

theorem Row.terminal_of_state {row : Row} {s : State} (h : row.state = s.asStr) :
    row.terminal = s.terminal := by
  unfold Row.terminal
  rw [h]
  cases s <;> decide

/-- Only an undo leaves a terminal state. -/
theorem allowed_of_terminal {source target : State} (ha : allowed source target = true)
    (ht : source.terminal = true) : target = .undoing := by
  cases source <;> cases target <;> first | rfl | simp [allowed, State.terminal] at ha ht

/-- Only a completed entry is undone. -/
theorem allowed_undoing {source : State} (h : allowed source .undoing = true) :
    source = .completed := by
  cases source <;> first | rfl | cases h

/-- Every transition but the one into an undo leaves at most as many active rows. -/
theorem Database.activeCount_moved_le {db : Database} {row : Row} {source target : State}
    {now : Int} (hm : row ∈ db.rows) (hs : row.state = source.asStr)
    (ha : allowed source target = true) (hn : target ≠ .undoing) :
    (db.replace (row.moved target now)).activeCount ≤ db.activeCount := by
  have := Database.activeCount_replace hm (show row.id = (row.moved target now).id from rfl)
  have hactive : row.active = true := by
    rw [Row.active, Row.terminal_of_state hs, Bool.not_eq_true']
    exact Bool.eq_false_iff.mpr fun ht => hn (allowed_of_terminal ha ht)
  rw [if_pos hactive] at this
  split at this <;> omega

theorem Database.activeCount_moved_succ {db : Database} {row : Row} {target : State} {now : Int}
    (hm : row ∈ db.rows) : (db.replace (row.moved target now)).activeCount ≤ db.activeCount + 1 := by
  have := Database.activeCount_replace hm (show row.id = (row.moved target now).id from rfl)
  split at this <;> split at this <;> omega

/-- What may be committed over a row. -/
inductive Follows (row : Row) : Row → Prop where
  | hashed (sha256 : String) (now : Int) : Follows row (row.hashed sha256 now)
  | moved {source target : State} (now : Int) (hs : row.state = source.asStr)
      (ha : allowed source target = true) : Follows row (row.moved target now)
  | redirected (token : Bytes) (now : Int) (hs : row.state = State.proposed.asStr) :
      Follows row (row.redirected token now)

theorem Follows.id {row row' : Row} (h : Follows row row') : row'.id = row.id := by
  cases h <;> rfl

theorem Follows.disciplined :
    Version.Disciplined Row.revision (fun row => (row.state, row.destinationToken)) Follows := by
  intro a b h
  cases h with
  | hashed sha256 now => exact .inl ⟨rfl, rfl⟩
  | moved now hs ha => exact .inr rfl
  | redirected token now hs => exact .inr rfl

/-- Everything a statement of the journal can do to the table. -/
inductive Change (db : Database) : Database → Prop where
  | created {row : Row} {db' : Database} (h : db.insert row = .ok db')
      (hs : row.state = State.proposed.asStr) (hr : row.revision = 1) : Change db db'
  | replaced {row row' : Row} (h : row ∈ db.rows) (hf : Follows row row') :
      Change db (db.replace row')
  | deleted (doomed : Row → Bool)
      (ht : ∀ row ∈ db.rows, doomed row = true → row.terminal = true) :
      Change db (db.delete doomed).2

/-- A deleted id has come back. -/
def Revived (db db' : Database) : Prop :=
  ∃ row ∈ db'.rows, row.id ∉ db.rows.map Row.id ∧ row.id ∈ db.commits.map Row.id

structure Coherent (db : Database) : Prop where
  starts : ∀ id row, (db.history id).head? = some row →
    row.state = State.proposed.asStr ∧ row.revision = 1
  legal : ∀ id, (db.history id).IsChain Follows
  current : ∀ row ∈ db.rows, (db.history row.id).getLast? = some row

theorem Coherent.empty : Coherent .empty where
  starts id row h := by simp [Database.history, Database.empty] at h
  legal id := by simp [Database.history, Database.empty]
  current row h := by simp [Database.empty] at h

section
variable {db db' : Database} {row row' c : Row} {id : Uuid}

theorem Coherent.mem_history (hc : Coherent db) (h : row ∈ db.rows) :
    row ∈ db.history row.id := List.mem_of_getLast? (hc.current row h)

/-- No commit is ahead of the row. -/
theorem Coherent.revision_le (hc : Coherent db) (h : row ∈ db.rows) (hm : c ∈ db.commits)
    (hid : c.id = row.id) : c.revision ≤ row.revision :=
  Follows.disciplined.le_last (hc.legal row.id) (hc.current row h) c
    (Database.mem_history.mpr ⟨hm, hid⟩)

/-- A revision decides the state and the destination of an id, whenever read. -/
theorem Coherent.decided (hc : Coherent db) (h : row ∈ db.rows) (hm : c ∈ db.commits)
    (hid : c.id = row.id) (hr : c.revision = row.revision) :
    c.state = row.state ∧ c.destinationToken = row.destinationToken := by
  have := Follows.disciplined.decided_eq (hc.legal row.id)
    (Database.mem_history.mpr ⟨hm, hid⟩) (hc.mem_history h) hr
  exact Prod.mk.injEq .. ▸ this

theorem history_append (commits : List Row) (c : Row) (id : Uuid)
    (h : db'.commits = commits ++ [c]) :
    db'.history id = commits.filter (fun row => row.id = id) ++ if c.id = id then [c] else [] := by
  unfold Database.history
  rw [h, List.filter_append]
  by_cases hid : c.id = id <;> simp [hid]

/-- A commit that starts or continues its id's history keeps the histories legal. -/
theorem Coherent.extend (hc : Coherent db) (h : db'.commits = db.commits ++ [c])
    (hf : ∀ last, (db.history c.id).getLast? = some last → Follows last c)
    (hs : db.history c.id = [] → c.state = State.proposed.asStr ∧ c.revision = 1)
    (hrows : ∀ row ∈ db'.rows, row = c ∨ row ∈ db.rows ∧ row.id ≠ c.id) : Coherent db' := by
  have hist : ∀ id, db'.history id = db.history id ++ if c.id = id then [c] else [] :=
    fun id => history_append db.commits c id h
  constructor
  · intro id row hrow
    rw [hist] at hrow
    cases hh : db.history id with
    | nil =>
      rw [hh] at hrow
      by_cases hid : c.id = id
      · rw [if_pos hid] at hrow
        obtain rfl : c = row := by simpa using hrow
        exact hs (hid ▸ hh)
      · simp [hid] at hrow
    | cons a l =>
      rw [hh, List.cons_append, List.head?_cons] at hrow
      exact hc.starts id row (by rw [hh, List.head?_cons, hrow])
  · intro id
    rw [hist]
    by_cases hid : c.id = id
    · rw [if_pos hid]
      refine List.isChain_append.mpr ⟨hc.legal id, List.isChain_singleton c, ?_⟩
      intro last hlast b hb
      obtain rfl : c = b := by simpa using hb
      exact hf last (hid ▸ hlast)
    · rw [if_neg hid, List.append_nil]
      exact hc.legal id
  · intro row hrow
    rcases hrows row hrow with rfl | ⟨hm, hid⟩
    · rw [hist, if_pos rfl, List.getLast?_append]
      rfl
    · rw [hist, if_neg (Ne.symm hid), List.append_nil]
      exact hc.current row hm

/-- **Statements keep the table coherent** as long as no deleted id comes back. -/
theorem Change.coherent (h : Change db db') (hn : ¬ Revived db db') (hc : Coherent db) :
    Coherent db' := by
  cases h with
  | @created row _ h hs hr =>
    obtain ⟨hid, hrows, hcommits⟩ := Database.insert_eq_ok h
    have hnew : db.history row.id = [] := by
      refine List.filter_eq_nil_iff.mpr fun c hm hcid => hn ⟨row, ?_, hid, ?_⟩
      · simp [hrows]
      · exact List.mem_map.mpr ⟨c, hm, by simpa using hcid⟩
    refine hc.extend hcommits ?_ (fun _ => ⟨hs, hr⟩) ?_
    · intro last hlast
      rw [hnew] at hlast
      cases hlast
    · intro other ho
      rw [hrows] at ho
      rcases List.mem_append.mp ho with ho | ho
      · exact .inr ⟨ho, fun he => hid (he ▸ List.mem_map_of_mem ho)⟩
      · exact .inl (by simpa using ho)
  | @replaced row row' h hf =>
    have hlast := hc.current row h
    refine hc.extend rfl ?_ ?_ ?_
    · intro last hl
      rw [hf.id, hlast] at hl
      cases hl
      exact hf
    · intro he
      rw [hf.id] at he
      rw [he] at hlast
      cases hlast
    · intro other ho
      obtain ⟨old, hm, rfl⟩ := Database.mem_replace.mp ho
      by_cases he : old.id = row'.id
      · exact .inl (if_pos he)
      · rw [if_neg he]
        exact .inr ⟨hm, he⟩
  | deleted doomed ht =>
    exact ⟨hc.starts, hc.legal, fun row hm => hc.current row (List.mem_of_mem_filter hm)⟩

/-- Replacing and deleting bring no id back. -/
theorem not_revived (h : ∀ row ∈ db'.rows, row.id ∈ db.rows.map Row.id) : ¬ Revived db db' :=
  fun ⟨row, hm, hn, _⟩ => hn (h row hm)

/-- Nothing is taken out of the history. -/
theorem Change.commits_subset (h : Change db db') (hm : c ∈ db.commits) : c ∈ db'.commits := by
  cases h with
  | created h hs hr =>
    rw [(Database.insert_eq_ok h).2.2]
    exact List.mem_append_left _ hm
  | replaced h hf => exact List.mem_append_left _ hm
  | deleted doomed ht => exact hm

/-- A row that was there before, or is just created, or is what a row became. -/
theorem Change.mem_rows (h : Change db db') (hm : row ∈ db'.rows) :
    row.id ∉ db.rows.map Row.id ∨
      ∃ old ∈ db.rows, old.id = row.id ∧ old.revision ≤ row.revision := by
  cases h with
  | created h hs hr =>
    obtain ⟨hid, hrows, -⟩ := Database.insert_eq_ok h
    rw [hrows] at hm
    rcases List.mem_append.mp hm with hm | hm
    · exact .inr ⟨row, hm, rfl, Int.le_refl _⟩
    · obtain rfl : row = _ := by simpa using hm
      exact .inl hid
  | @replaced source target h hf =>
    obtain ⟨old, ho, rfl⟩ := Database.mem_replace.mp hm
    by_cases he : old.id = target.id
    · rw [if_pos he]
      exact .inr ⟨source, h, hf.id.symm, Follows.disciplined.le hf⟩
    · rw [if_neg he]
      exact .inr ⟨old, ho, rfl, Int.le_refl _⟩
  | deleted doomed ht => exact .inr ⟨row, List.mem_of_mem_filter hm, rfl, Int.le_refl _⟩

end
end SortingHat.Journal
