import SortingHat.Journal.Interleaving

/-!
# How many entries are active

Only `create` counts the active entries. A transition out of a terminal state adds
one without counting.

* `Sequence`: requests one after the other, whole or cut;
* `active_bounded`: while nothing is undone at the limit, the limit holds;
* `active_exceeded`: an undo at the limit exceeds it.
-/

namespace SortingHat.Journal
open Posix (Bytes)
open Effect

/-- Requests one after the other, oldest first, each of which meets `C` on the table it
finds. Any statement may fail, and any request may be cut. -/
inductive Sequence (C : Database → Request → Prop) (db : Database) :
    List Request → Database → Prop where
  | nil : Sequence C db [] db
  | snoc {requests : List Request} {db₁ : Database} {request : Request}
      (h : Sequence C db requests db₁) (hC : C db₁ request) (ticks : List Tick) :
      Sequence C db (requests ++ [request]) (request.program.after ticks db₁).2

/-- A request that undoes a completed entry comes only while there is room. -/
def Roomy (db : Database) (request : Request) : Prop :=
  ∀ id revision, request = .transition id revision .undoing →
    ∀ row ∈ db.rows, row.id = id → row.revision = (revision : Int) →
      row.state = State.completed.asStr → db.activeCount < maxActive

section
variable {A : Tick → Prop} {db db' : Database} {request : Request} {requests : List Request}

/-- **One request keeps the bound.** -/
theorem Request.bounded (h : db.activeCount ≤ maxActive) (hroomy : Roomy db request) :
    wpE A request.call (fun _ db' => db'.activeCount ≤ maxActive)
      (fun _ db' => db'.activeCount ≤ maxActive) (fun db' => db'.activeCount ≤ maxActive) db := by
  have hreplaced : ∀ {row row' : Row}, db.find row.id = some row → row.id = row'.id →
      row'.state = row.state → (db.replace row').activeCount ≤ maxActive := by
    intro row row' hfind hid hs
    rw [Database.activeCount_replace_of_state (Database.find_eq_some.mp hfind).1 hid hs]
    exact h
  have hdeleted : ∀ db', Pruned db db' → db'.activeCount ≤ maxActive := by
    rintro db' ⟨doomed, -, rfl⟩
    exact (Database.activeCount_delete doomed).trans h
  cases request with
  | create entry =>
    apply create_wp h (fun _ _ => h)
    intro t db' _ hroom _ _ hinsert
    obtain ⟨-, hrows, -⟩ := Database.insert_eq_ok hinsert
    unfold Database.activeCount at hroom ⊢
    rw [hrows, List.countP_append, List.countP_singleton]
    split <;> omega
  | transition id revision next =>
    refine (wpE_bind _ _).mpr (transition_wp h (fun _ => h) ?_)
    intro row source t _ hfind hrevision hs ha
    obtain ⟨hm, hid⟩ := Database.find_eq_some.mp hfind
    have hle : (db.replace (row.moved next t.seconds)).activeCount ≤ maxActive := by
      by_cases hn : next = .undoing
      · subst hn
        obtain rfl := allowed_undoing ha
        have hroom := hroomy id revision rfl row hm hid hrevision hs
        have := @Database.activeCount_moved_succ db row .undoing t.seconds hm
        omega
      · exact (Database.activeCount_moved_le hm hs ha hn).trans h
    exact ⟨hle, fun _ => hle, fun _ _ => hle⟩
  | reviseProposal id revision token =>
    refine (wpE_bind _ _).mpr (reviseProposal_wp h (fun _ => h) ?_)
    intro row t _ hfind _ _
    obtain ⟨-, rfl⟩ := Database.find_eq_some.mp hfind
    have hle := @hreplaced row (row.redirected token t.seconds) hfind rfl rfl
    exact ⟨hle, fun _ => hle, fun _ _ => hle⟩
  | setSha256 id sha256 =>
    apply setSha256_wp h (fun _ => h)
    intro row t _ hfind
    obtain ⟨-, rfl⟩ := Database.find_eq_some.mp hfind
    exact @hreplaced row (row.hashed sha256 t.seconds) hfind rfl rfl
  | pruneTerminal retain =>
    exact (wpE_bind _ _).mpr (pruneTerminal_wp h (fun _ => h) fun db' _ => hdeleted db')
  | enforceRetention retain maxAgeSeconds maxBytes =>
    exact (wpE_bind _ _).mpr (enforceRetention_wp hdeleted (fun _ => hdeleted) fun _ => hdeleted)

/-- **The active entries stay within the limit** while nothing is undone at the limit. -/
theorem active_bounded (h : Sequence Roomy .empty requests db) : db.activeCount ≤ maxActive := by
  induction h with
  | nil => exact Nat.zero_le _
  | @snoc requests db₁ request _ hroomy ticks ih =>
    have hwp : request.program.wp (fun _ => True) (fun _ db' => db'.activeCount ≤ maxActive)
        (fun db' => db'.activeCount ≤ maxActive) db₁ := by
      unfold Request.program
      refine (Prog.wp_bind _).mpr (Prog.wp_mono (Request.bounded ih hroomy) ?_ fun _ h => h)
      rintro (e | a) db' h <;> exact h
    have hholds := Prog.wp_after hwp ticks fun _ _ => trivial
    cases hafter : request.program.after ticks db₁ with
    | mk rest db' =>
      rw [hafter] at hholds
      cases rest <;> exact hholds

/-- What is proved of a request happens in a sequence. -/
theorem Sequence.extend {C : Database → Request → Prop} {db₀ : Database} {Q : Database → Prop}
    (h : Sequence C db₀ requests db) (request : Request) (hC : C db request)
    (hcall : wpE (fun t => t.fault = none) request.call (fun _ => Q) (fun _ _ => False)
      (fun _ => True) db) : ∃ db', Sequence C db₀ (requests ++ [request]) db' ∧ Q db' := by
  have hwp : request.program.wp (fun t => t.fault = none) (fun _ => Q) (fun _ => True) db := by
    unfold Request.program
    refine (Prog.wp_bind _).mpr (Prog.wp_mono hcall ?_ fun _ h => h)
    rintro (e | a) db' h
    · exact h.elim
    · exact h
  obtain ⟨ticks, _, db', -, hafter, hQ⟩ :=
    Prog.wp_finish (c := Tick.quiet 0) (show (Tick.quiet 0).fault = none from rfl) hwp
  have hnext := h.snoc hC ticks
  rw [hafter] at hnext
  exact ⟨db', hnext, hQ⟩

/-- The entry number `k`. -/
def numbered (k : Nat) : Entry := ⟨⟨k⟩, 1, .proposed, [], [], 0, none⟩

/-- The table can be filled up to the limit. -/
theorem Sequence.fill {C : Database → Request → Prop} {db₀ : Database}
    (hC : ∀ db entry, C db (.create entry)) (h : Sequence C db₀ requests db) (n k : Nat)
    (hroom : db.activeCount + n ≤ maxActive) (hk : ∀ row ∈ db.rows, row.id.value < k) :
    ∃ requests' db', Sequence C db₀ requests' db' ∧ db'.activeCount = db.activeCount + n ∧
      ∀ row ∈ db.rows, row ∈ db'.rows := by
  induction n generalizing db requests k with
  | zero => exact ⟨requests, db, h, rfl, fun _ hm => hm⟩
  | succ n ih =>
    have hfresh : (numbered k).id ∉ db.rows.map Row.id := by
      intro hm
      obtain ⟨row, hrow, hid⟩ := List.mem_map.mp hm
      have := hk row hrow
      rw [hid] at this
      exact Nat.lt_irrefl k this
    obtain ⟨db₁, h₁, now, hinsert⟩ := h.extend (.create (numbered k)) (hC db (numbered k))
      (create_succeeds (fun _ ht => ht) (by omega) rfl rfl
        (show (0 : Nat) < 2 ^ 63 by decide) hfresh
        fun _ => trivial)
    obtain ⟨-, hrows, -⟩ := Database.insert_eq_ok hinsert
    have hcount : db₁.activeCount = db.activeCount + 1 := by
      unfold Database.activeCount
      rw [hrows, List.countP_append, List.countP_singleton]
      rfl
    obtain ⟨requests', db', h', hcount', hkept⟩ := ih h₁ (k + 1) (by omega) (by
      intro row hm
      rw [hrows] at hm
      rcases List.mem_append.mp hm with hm | hm
      · exact (hk row hm).trans (Nat.lt_succ_self k)
      · obtain rfl := List.mem_singleton.mp hm
        exact Nat.lt_succ_self k)
    refine ⟨requests', db', h', by omega, fun row hm => hkept row ?_⟩
    rw [hrows]
    exact List.mem_append_left _ hm

end

/-- Ticks enough for any one request on a small table. -/
def unhurried : List Tick := List.replicate 6 (Tick.quiet 0)

/-- The table after these requests, each with the ticks above. -/
def carriedOut (db : Database) (requests : List Request) : Database :=
  requests.foldl (fun db request => (request.program.after unhurried db).2) db

/-- An entry that has been completed. -/
def completedOnce : List Request :=
  [.create (numbered 0), .transition ⟨0⟩ 1 .approved, .transition ⟨0⟩ 2 .published,
   .transition ⟨0⟩ 3 .sourceRemoved, .transition ⟨0⟩ 4 .completed]

/-- A sequence of requests that are all carried out. -/
theorem sequence_run {C : Database → Request → Prop} {db₀ db : Database}
    (requests rest : List Request) (h : Sequence C db₀ requests db)
    (hC : ∀ request ∈ rest, ∀ db, C db request) :
    Sequence C db₀ (requests ++ rest) (carriedOut db rest) := by
  induction rest generalizing requests db with
  | nil =>
    rw [List.append_nil]
    exact h
  | cons request rest ih =>
    rw [List.append_cons]
    exact ih _ (h.snoc (hC request List.mem_cons_self db) unhurried) fun r hr =>
      hC r (List.mem_cons_of_mem _ hr)

/-- The entry is undone while there is room. -/
theorem active_bounded_completed :
    ∃ db, Sequence Roomy .empty (completedOnce ++ [.transition ⟨0⟩ 5 .undoing]) db ∧
      (∃ row ∈ db.rows, row.state = State.undoing.asStr) ∧ db.activeCount ≤ maxActive := by
  have hcompleted : Sequence Roomy .empty ([] ++ completedOnce) _ :=
    sequence_run [] completedOnce .nil (by
      intro request hm db id revision he
      subst he
      simp [completedOnce] at hm)
  have hroom : (carriedOut .empty completedOnce).activeCount < maxActive := by decide +kernel
  have hroomy : Roomy (carriedOut .empty completedOnce) (.transition ⟨0⟩ 5 .undoing) :=
    fun _ _ _ _ _ _ _ _ => hroom
  have h := hcompleted.snoc hroomy unhurried
  exact ⟨_, h, by decide +kernel, active_bounded h⟩

/-- An entry is completed, a thousand are created, and the first one is undone. -/
theorem active_exceeded :
    ∃ requests db, Sequence (fun _ _ => True) .empty requests db ∧ maxActive < db.activeCount := by
  have hstart : Sequence (fun _ _ => True) .empty ([] ++ completedOnce) _ :=
    sequence_run [] completedOnce .nil fun _ _ _ => trivial
  obtain ⟨requests, db, h, hcount, hkept⟩ := hstart.fill (fun _ _ => trivial) maxActive 1
    (by decide +kernel) (by decide +kernel)
  obtain ⟨row, hm, hid, hrevision, hs, hsize⟩ : ∃ row ∈ db.rows, row.id = ⟨0⟩ ∧ row.revision = 5 ∧
      row.state = State.completed.asStr ∧ row.size = 0 := by
    have hfirst : ∃ row ∈ (carriedOut .empty completedOnce).rows, row.id = ⟨0⟩ ∧ row.revision = 5 ∧
        row.state = State.completed.asStr ∧ row.size = 0 := by
      decide +kernel
    obtain ⟨row, hrow, hrest⟩ := hfirst
    exact ⟨row, hkept row hrow, hrest⟩
  have hundo : wpE (fun t => t.fault = none) (transition row.id 5 .undoing)
      (fun _ db' => ∃ now, db' = db.replace (row.moved .undoing now)) (fun _ _ => False)
      (fun _ => True) db := by
    apply wpE_mono (transition_succeeds (K := fun _ => True) (fun _ ht => ht) hm hrevision hs rfl
      (by omega) (by decide) fun _ => trivial)
    · exact fun _ _ hq => hq.2
    · exact fun _ _ he => he
    · exact fun _ hk => hk
  obtain ⟨db', h', now, rfl⟩ := h.extend (.transition row.id 5 .undoing) trivial
    ((wpE_bind _ _).mpr hundo)
  refine ⟨_, _, h', ?_⟩
  have hactive := Database.activeCount_replace hm
      (show row.id = (row.moved .undoing now).id from rfl)
  have hbefore : row.active = false := by
    rw [Row.active, Row.terminal_of_state hs]
    rfl
  have hafter : (row.moved .undoing now).active = true := by
    rw [Row.active, Row.terminal_of_state
      (show (row.moved .undoing now).state = State.undoing.asStr from rfl)]
    rfl
  rw [hbefore, hafter] at hactive
  have : (maxActive : Nat) ≤ db.activeCount := by omega
  simp only [Bool.false_eq_true, if_false, if_true] at hactive
  omega

end SortingHat.Journal
