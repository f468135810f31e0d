import SortingHat.Journal.History
import SortingHat.Journal.Program

/-!
# The journal's calls, one handle at a time

One rule for each call of `Journal`, for a handle nobody interferes with: which
table each `UPDATE` leaves, and that nothing is changed before it.
-/

namespace SortingHat.Journal
open Posix (Bytes)
open Effect

section
variable {A : Tick → Prop} {α : Type} {db : Database} {id : Uuid} {revision : Nat}
  {E : JournalError → Database → Prop} {K : Database → Prop}

theorem checkedSucc_eq_some {n m : Nat} (h : checkedSucc n = some m) : m = n + 1 := by
  unfold checkedSucc at h
  split at h
  · exact (Option.some.inj h).symm
  · cases h

theorem i64_eq_some {n : Nat} {i : Int} (h : i64? n = some i) : i = n := by
  unfold i64? at h
  split at h
  · exact (Option.some.inj h).symm
  · cases h

theorem query_reads (f : Database → α) : Reads A (query f) (fun db a => a = f db) := by
  refine Reads.atomic fun t db a _ h => ?_
  cases ht : t.fault with
  | some e => simp [ht] at h
  | none =>
    simp only [ht, Except.ok.injEq] at h
    exact h.symm

theorem query_wp {f : Database → α} {Q : α → Database → Prop} (hK : K db) (hE : E .database db)
    (hQ : Q (f db) db) : wpE A (query f) Q E K db := by
  refine ⟨hK, fun t _ => ?_⟩
  dsimp only
  cases t.fault with
  | some e => exact hE
  | none => exact hQ

theorem execute_wp {f : Int → Database → Except JournalError (α × Database)}
    {Q : α → Database → Prop} (hK : K db) (hE : ∀ e, E e db)
    (h : ∀ t a db', A t → f t.seconds db = .ok (a, db') → Q a db') :
    wpE A (execute f) Q E K db := by
  refine ⟨hK, fun t ht => ?_⟩
  dsimp only
  cases t.fault with
  | some e => exact hE _
  | none =>
    dsimp only
    cases hx : f t.seconds db with
    | error e => exact hE e
    | ok r => exact h t r.1 r.2 ht hx

theorem get_reads (id : Uuid) :
    Reads A (get id) (fun db entry => ∃ row, db.find id = some row ∧ row.Reads entry) := by
  have hlift : ∀ row : Row, Reads A (get.liftExcept row.entry) (fun _ entry => row.Reads entry) := by
    intro row
    unfold get.liftExcept
    cases he : row.entry with
    | error e => exact (Reads.throw e).mono fun _ _ h => h.elim
    | ok entry => exact (Reads.pure entry).mono fun _ _ h => h ▸ Row.entry_eq_ok.mp he
  refine ((query_reads _).bind fun found =>
    (Reads.orFail found JournalError.notFound).bind hlift).mono ?_
  rintro db entry ⟨found, hf, row, hrow, hr⟩
  exact ⟨row, hf ▸ hrow, hr⟩

theorem nonterminal_reads : Reads A nonterminal (fun db entries =>
    List.Forall₂ (fun row entry => Row.Reads row entry) db.nonterminal entries) := by
  refine ((query_reads _).bind fun ids => Reads.mapM ids fun id _ => get_reads id).mono ?_
  rintro db entries ⟨ids, rfl, h⟩
  rw [List.forall₂_map_left_iff] at h
  refine (List.forall₂_iff_get.mpr ?_)
  obtain ⟨hlen, hget⟩ := List.forall₂_iff_get.mp h
  refine ⟨hlen, fun i h₁ h₂ => ?_⟩
  obtain ⟨row, hfind, hr⟩ := hget i h₁ h₂
  have hm : db.nonterminal.get ⟨i, h₁⟩ ∈ db.rows := by
    have := List.mem_of_mem_take (List.get_mem db.nonterminal ⟨i, h₁⟩)
    rw [List.mem_insertionSort] at this
    exact List.mem_of_mem_filter this
  rw [Database.find_of_mem hm] at hfind
  exact Option.some.inj hfind ▸ hr

/-- `transition` changes nothing, or moves the row that stands at `revision`. An
error after that is the answer lost, not the move. -/
theorem transition_wp {next : State} {Q : Entry → Database → Prop} (hK : K db)
    (hE : ∀ e, E e db)
    (h : ∀ row source t, A t → db.find id = some row → row.revision = (revision : Int) →
      row.state = source.asStr → allowed source next = true →
      K (db.replace (row.moved next t.seconds)) ∧
      (∀ e, E e (db.replace (row.moved next t.seconds))) ∧
      ∀ entry, (row.moved next t.seconds).Reads entry →
        Q entry (db.replace (row.moved next t.seconds))) :
    wpE A (transition id revision next) Q E K db := by
  unfold transition
  refine (wpE_bind _ _).mpr ((get_reads id).wpE hK hE fun current hcur => ?_)
  obtain ⟨row, hfind, hr⟩ := hcur
  obtain ⟨hm, rfl⟩ := Database.find_eq_some.mp hfind
  refine (wpE_bind _ _).mpr ((wpE_failIf _ _).mpr ⟨fun _ => hE _, fun hrev => ?_⟩)
  refine (wpE_bind _ _).mpr ((wpE_failIf _ _).mpr ⟨fun _ => hE _, fun hallow => ?_⟩)
  refine (wpE_bind _ _).mpr ((wpE_orFail _ _).mpr ⟨fun _ => hE _, fun next' hnext => ?_⟩)
  refine (wpE_bind _ _).mpr ((wpE_orFail _ _).mpr ⟨fun _ => hE _, fun revisionSql hsql => ?_⟩)
  refine (wpE_bind _ _).mpr ((wpE_orFail _ _).mpr ⟨fun _ => hE _, fun nextSql hnsql => ?_⟩)
  have hrev : row.revision = (revision : Int) := by
    rw [← hr.revision, not_not.mp hrev]
  have hsql := i64_eq_some hsql
  have hnsql : nextSql = row.revision + 1 := by
    rw [i64_eq_some hnsql, checkedSucc_eq_some hnext, hrev]
    rfl
  refine (wpE_bind _ _).mpr (execute_wp hK hE fun t changed db' ht hx => ?_)
  rw [Database.update_of_find hfind (by simpa using hrev.trans hsql.symm), hnsql] at hx
  obtain ⟨rfl, rfl⟩ := Prod.mk.inj (Except.ok.inj hx)
  obtain ⟨hK', hE', hQ'⟩ := h row current.state t ht hfind hrev hr.state
    (Bool.eq_true_of_not_eq_false hallow)
  refine (wpE_bind _ _).mpr ((wpE_failIf _ _).mpr ⟨fun hne => absurd rfl hne, fun _ => ?_⟩)
  refine (get_reads row.id).wpE hK' hE' fun entry hentry => ?_
  obtain ⟨row', hfind', hr'⟩ := hentry
  have : (db.replace (row.moved next t.seconds)).find row.id = some (row.moved next t.seconds) :=
    Database.find_replace (by rw [show (row.moved next t.seconds).id = row.id from rfl, hfind]; rfl)
  obtain rfl := Option.some.inj (this.symm.trans hfind')
  exact hQ' entry hr'

/-- `reviseProposal` changes nothing, or redirects the proposed row that stands
at `revision`. -/
theorem reviseProposal_wp {token : Bytes} {Q : Entry → Database → Prop} (hK : K db)
    (hE : ∀ e, E e db)
    (h : ∀ row t, A t → db.find id = some row → row.revision = (revision : Int) →
      row.state = State.proposed.asStr →
      K (db.replace (row.redirected token t.seconds)) ∧
      (∀ e, E e (db.replace (row.redirected token t.seconds))) ∧
      ∀ entry, (row.redirected token t.seconds).Reads entry →
        Q entry (db.replace (row.redirected token t.seconds))) :
    wpE A (reviseProposal id revision token) Q E K db := by
  unfold reviseProposal
  refine (wpE_bind _ _).mpr ((get_reads id).wpE hK hE fun current hcur => ?_)
  obtain ⟨row, hfind, hr⟩ := hcur
  obtain ⟨hm, rfl⟩ := Database.find_eq_some.mp hfind
  refine (wpE_bind _ _).mpr ((wpE_failIf _ _).mpr ⟨fun _ => hE _, fun hrev => ?_⟩)
  refine (wpE_bind _ _).mpr ((wpE_failIf _ _).mpr ⟨fun _ => hE _, fun hprop => ?_⟩)
  refine (wpE_bind _ _).mpr ((wpE_orFail _ _).mpr ⟨fun _ => hE _, fun revisionSql hsql => ?_⟩)
  refine (wpE_bind _ _).mpr ((wpE_orFail _ _).mpr ⟨fun _ => hE _, fun next' hnext => ?_⟩)
  refine (wpE_bind _ _).mpr ((wpE_orFail _ _).mpr ⟨fun _ => hE _, fun nextSql hnsql => ?_⟩)
  have hrev : row.revision = (revision : Int) := by
    rw [← hr.revision, not_not.mp hrev]
  have hstate : row.state = State.proposed.asStr := by
    rw [hr.state]
    simpa using hprop
  have hsql := i64_eq_some hsql
  have hnsql : nextSql = row.revision + 1 := by
    rw [i64_eq_some hnsql, checkedSucc_eq_some hnext, hrev]
    rfl
  have hcond : (decide (row.revision = revisionSql) && decide (row.state = "proposed")) = true := by
    simp [hrev, hsql, hstate, State.asStr]
  refine (wpE_bind _ _).mpr (execute_wp hK hE fun t changed db' ht hx => ?_)
  rw [Database.update_of_find hfind hcond, hnsql] at hx
  obtain ⟨rfl, rfl⟩ := Prod.mk.inj (Except.ok.inj hx)
  obtain ⟨hK', hE', hQ'⟩ := h row t ht hfind hrev hstate
  refine (wpE_bind _ _).mpr ((wpE_failIf _ _).mpr ⟨fun hne => absurd rfl hne, fun _ => ?_⟩)
  refine (get_reads row.id).wpE hK' hE' fun entry hentry => ?_
  obtain ⟨row', hfind', hr'⟩ := hentry
  have : (db.replace (row.redirected token t.seconds)).find row.id =
      some (row.redirected token t.seconds) :=
    Database.find_replace
      (by rw [show (row.redirected token t.seconds).id = row.id from rfl, hfind]; rfl)
  obtain rfl := Option.some.inj (this.symm.trans hfind')
  exact hQ' entry hr'

theorem setSha256_wp {sha256 : String} {Q : Unit → Database → Prop} (hK : K db)
    (hE : ∀ e, E e db)
    (h : ∀ row t, A t → db.find id = some row → Q () (db.replace (row.hashed sha256 t.seconds))) :
    wpE A (setSha256 id sha256) Q E K db := by
  unfold setSha256
  refine (wpE_bind _ _).mpr ((wpE_failIf _ _).mpr ⟨fun _ => hE _, fun _ => ?_⟩)
  refine (wpE_bind _ _).mpr (execute_wp hK hE fun t changed db' ht hx => ?_)
  cases hfind : db.find id with
  | none =>
    rw [Database.update_of_not fun row hrow => by rw [hfind] at hrow; cases hrow] at hx
    obtain ⟨rfl, rfl⟩ := Prod.mk.inj (Except.ok.inj hx)
    exact (wpE_failIf _ _).mpr ⟨fun _ => hE _, fun hne => absurd Nat.zero_ne_one hne⟩
  | some row =>
    obtain ⟨hm, rfl⟩ := Database.find_eq_some.mp hfind
    rw [Database.update_of_find hfind rfl] at hx
    obtain ⟨rfl, rfl⟩ := Prod.mk.inj (Except.ok.inj hx)
    exact (wpE_failIf _ _).mpr ⟨fun hne => absurd rfl hne, fun _ => h row t ht hfind⟩

theorem create_wp {entry : Entry} {Q : Unit → Database → Prop} (hK : K db)
    (hE : ∀ e, (e = .limit → maxActive ≤ db.activeCount) → E e db)
    (h : ∀ t db', A t → db.activeCount < maxActive → entry.state = .proposed →
      entry.revision = 1 →
      db.insert ⟨entry.id, 1, State.proposed.asStr, entry.sourceToken, entry.destinationToken,
        entry.size, entry.sha256, t.seconds⟩ = .ok db' → Q () db') :
    wpE A (create entry) Q E K db := by
  unfold create
  refine (wpE_bind _ _).mpr (query_wp hK (hE _ nofun) ?_)
  refine (wpE_bind _ _).mpr ((wpE_failIf _ _).mpr ⟨fun hfull => hE _ fun _ => hfull, fun hroom => ?_⟩)
  refine (wpE_bind _ _).mpr ((wpE_failIf _ _).mpr ⟨fun _ => hE _ nofun, fun hstart => ?_⟩)
  refine (wpE_bind _ _).mpr ((wpE_orFail _ _).mpr ⟨fun _ => hE _ nofun, fun revision hrev => ?_⟩)
  refine (wpE_bind _ _).mpr ((wpE_orFail _ _).mpr ⟨fun _ => hE _ nofun, fun size hsize => ?_⟩)
  obtain ⟨hs, hr⟩ : entry.state = .proposed ∧ entry.revision = 1 := by
    simpa [not_or] using hstart
  refine ⟨hK, fun t ht => ?_⟩
  dsimp only
  cases t.fault with
  | some e => exact hE _ nofun
  | none =>
    dsimp only [bind, Except.bind, pure, Except.pure]
    have hrevision : revision = 1 := by rw [i64_eq_some hrev, hr]; rfl
    rw [hrevision, i64_eq_some hsize, hs]
    cases hi : db.insert ⟨entry.id, 1, State.proposed.asStr, entry.sourceToken,
        entry.destinationToken, entry.size, entry.sha256, t.seconds⟩ with
    | error e =>
      obtain rfl := Database.insert_eq_error hi
      exact hE _ nofun
    | ok made => exact h t made ht (by omega) hs hr hi

/-- A transition that nothing keeps from succeeding. -/
theorem transition_succeeds {source next : State} {revision : Nat} {K : Database → Prop}
    (hA : ∀ t, A t → t.fault = none) (hm : row ∈ db.rows) (hrev : row.revision = (revision : Int))
    (hs : row.state = source.asStr) (ha : allowed source next = true) (hsize : 0 ≤ row.size)
    (hfits : revision + 1 < 2 ^ 63) (hK : ∀ db', K db') :
    wpE A (transition row.id revision next)
      (fun entry db' => entry.revision = revision + 1 ∧ ∃ now, db' = db.replace (row.moved next now))
      (fun _ _ => False) K db := by
  have hreads : ∀ {db : Database} {row : Row} {source : State} {Q : Entry → Database → Prop},
      row ∈ db.rows → 0 ≤ row.revision → row.state = source.asStr → 0 ≤ row.size →
      (∀ entry, row.Reads entry → Q entry db) →
      wpE A (get row.id) Q (fun _ _ => False) K db := by
    intro db row source Q hm hrev hs hsize hQ
    unfold get
    have hentry := Row.entry_eq_ok.mpr (⟨rfl, Int.toNat_of_nonneg hrev, hs, rfl, rfl,
      Int.toNat_of_nonneg hsize, rfl⟩ : row.Reads ⟨row.id, row.revision.toNat, source,
        row.sourceToken, row.destinationToken, row.size.toNat, row.sha256⟩)
    refine (wpE_bind _ _).mpr ⟨hK db, fun t ht => ?_⟩
    dsimp only
    rw [Prog.wp_done, hA t ht, Database.find_of_mem hm]
    refine (wpE_bind _ _).mpr ((wpE_orFail _ _).mpr ⟨nofun, fun found hfound => ?_⟩)
    obtain rfl := Option.some.inj hfound
    unfold get.liftExcept
    rw [hentry]
    exact hQ _ (Row.entry_eq_ok.mp hentry)
  have hfind := Database.find_of_mem hm
  unfold transition
  refine (wpE_bind _ _).mpr (hreads hm (hrev ▸ Int.natCast_nonneg _) hs hsize fun current hr => ?_)
  have hcurrent : current.revision = revision := by
    have := hr.revision
    omega
  have hstate : current.state = source := State.asStr_injective (hr.state.symm.trans hs)
  refine (wpE_bind _ _).mpr ((wpE_failIf _ _).mpr ⟨fun h => absurd hcurrent h, fun _ => ?_⟩)
  refine (wpE_bind _ _).mpr ((wpE_failIf _ _).mpr ⟨fun h => ?_, fun _ => ?_⟩)
  · rw [hstate, ha] at h
    cases h
  have hnext : checkedSucc revision = some (revision + 1) := if_pos (by omega)
  have hsql : i64? revision = some revision := if_pos (by omega)
  have hnextSql : i64? (revision + 1) = some ((revision + 1 : Nat) : Int) := if_pos hfits
  refine (wpE_bind _ _).mpr ((wpE_orFail _ _).mpr ⟨fun h => ?_, fun next' hn => ?_⟩)
  · rw [hnext] at h
    cases h
  obtain rfl := Option.some.inj (hnext.symm.trans hn)
  refine (wpE_bind _ _).mpr ((wpE_orFail _ _).mpr ⟨fun h => ?_, fun sql hsql' => ?_⟩)
  · rw [hsql] at h
    cases h
  obtain rfl := Option.some.inj (hsql.symm.trans hsql')
  refine (wpE_bind _ _).mpr ((wpE_orFail _ _).mpr ⟨fun h => ?_, fun sql hsql' => ?_⟩)
  · rw [hnextSql] at h
    cases h
  obtain rfl := Option.some.inj (hnextSql.symm.trans hsql')
  refine (wpE_bind _ _).mpr ⟨hK db, fun t ht => ?_⟩
  dsimp only
  rw [hA t ht]
  dsimp only
  rw [Database.update_of_find hfind (by simpa using hrev)]
  refine (wpE_bind _ _).mpr ((wpE_failIf _ _).mpr ⟨fun h => absurd rfl h, fun _ => ?_⟩)
  have hrevision : ((revision + 1 : Nat) : Int) = row.revision + 1 := by omega
  rw [hrevision]
  have hmem : row.moved next t.seconds ∈ (db.replace (row.moved next t.seconds)).rows :=
    Database.mem_replace_self hm rfl
  have hnonneg : 0 ≤ (row.moved next t.seconds).revision := by
    show 0 ≤ row.revision + 1
    omega
  refine @hreads _ (row.moved next t.seconds) next _ hmem hnonneg rfl hsize
    fun entry hr => ⟨?_, t.seconds, rfl⟩
  have : (entry.revision : Int) = row.revision + 1 := hr.revision
  omega

/-- An entry that nothing keeps from being created. -/
theorem create_succeeds {entry : Entry} {K : Database → Prop} (hA : ∀ t, A t → t.fault = none)
    (hroom : db.activeCount < maxActive) (hs : entry.state = .proposed) (hr : entry.revision = 1)
    (hsize : entry.size < 2 ^ 63) (hfresh : entry.id ∉ db.rows.map Row.id) (hK : ∀ db', K db') :
    wpE A (create entry)
      (fun _ db' => ∃ now, db.insert ⟨entry.id, 1, State.proposed.asStr, entry.sourceToken,
        entry.destinationToken, entry.size, entry.sha256, now⟩ = .ok db')
      (fun _ _ => False) K db := by
  unfold create
  refine (wpE_bind _ _).mpr ⟨hK db, fun t ht => ?_⟩
  dsimp only
  rw [Prog.wp_done, hA t ht]
  have hstart : ¬ (entry.state ≠ .proposed ∨ entry.revision ≠ 1) := by simp [hs, hr]
  refine (wpE_bind _ _).mpr ((wpE_failIf _ _).mpr ⟨fun h => by omega, fun _ => ?_⟩)
  refine (wpE_bind _ _).mpr ((wpE_failIf _ _).mpr ⟨fun h => absurd h hstart, fun _ => ?_⟩)
  have hrevision : i64? entry.revision = some 1 := by
    rw [hr]
    rfl
  have hsize' : i64? entry.size = some (entry.size : Int) := if_pos hsize
  rw [hrevision, hsize']
  refine ⟨hK db, fun t ht => ?_⟩
  obtain ⟨db', hdb'⟩ := @Database.insert_of_fresh _ ⟨entry.id, 1, State.proposed.asStr,
    entry.sourceToken, entry.destinationToken, entry.size, entry.sha256, t.seconds⟩ hfresh
  dsimp only
  rw [hA t ht, hs]
  dsimp only
  rw [hdb']
  exact ⟨t.seconds, hdb'⟩

/-- Terminal rows taken out, and nothing else done. -/
def Pruned (db db' : Database) : Prop :=
  ∃ doomed : Row → Bool, (∀ row ∈ db.rows, doomed row = true → row.terminal = true) ∧
    db' = (db.delete doomed).2

theorem Pruned.refl (db : Database) : Pruned db db := by
  refine ⟨fun _ => false, by simp, ?_⟩
  simp [Database.delete]

theorem Pruned.trans {a b c : Database} (h : Pruned a b) (h' : Pruned b c) : Pruned a c := by
  obtain ⟨d, hd, rfl⟩ := h
  obtain ⟨d', hd', rfl⟩ := h'
  refine ⟨fun row => d row || d' row, fun row hm hrow => ?_, ?_⟩
  · cases hdr : d row with
    | true => exact hd row hm hdr
    | false =>
      refine hd' row (List.mem_filter.mpr ⟨hm, by simp [hdr]⟩) ?_
      simpa [hdr] using hrow
  · simp only [Database.delete, List.filter_filter, Database.mk.injEq, and_true]
    refine List.filter_congr fun row _ => ?_
    cases d row <;> cases d' row <;> rfl

theorem pruneTerminal_wp {retain : Nat} {Q : Nat → Database → Prop} (hK : K db)
    (hE : ∀ e, E e db) (h : ∀ db' n, Pruned db db' → Q n db') :
    wpE A (pruneTerminal retain) Q E K db := by
  unfold pruneTerminal
  refine (wpE_bind _ _).mpr ((wpE_orFail _ _).mpr ⟨fun _ => hE _, fun limit _ => ?_⟩)
  refine execute_wp hK hE fun t n db' _ hx => ?_
  obtain ⟨-, rfl⟩ := Prod.mk.inj (Except.ok.inj hx)
  exact h _ n ⟨_, fun row hm hd => Database.terminal_of_surplus hm hd, rfl⟩

theorem fileLength_reads : Reads A fileLength (fun _ _ => True) :=
  Reads.atomic fun _ _ _ _ _ => trivial

/-- Retention takes out terminal rows, also where it then fails. -/
theorem enforceRetention_wp {retain maxAgeSeconds maxBytes : Nat} {Q : Nat → Database → Prop}
    (hK : ∀ db', Pruned db db' → K db') (hE : ∀ e db', Pruned db db' → E e db')
    (h : ∀ n db', Pruned db db' → Q n db') :
    wpE A (enforceRetention retain maxAgeSeconds maxBytes) Q E K db := by
  have hself := Pruned.refl db
  unfold enforceRetention
  refine (wpE_bind _ _).mpr ((wpE_orFail _ _).mpr ⟨fun _ => hE _ _ hself, fun age _ => ?_⟩)
  refine (wpE_bind _ _).mpr (execute_wp (hK _ hself) (fun e => hE e _ hself)
    fun t aged db₁ _ hx => ?_)
  have h₁ : Pruned db db₁ := by
    obtain ⟨-, rfl⟩ := Prod.mk.inj (Except.ok.inj hx)
    refine ⟨_, fun row _ hd => ?_, rfl⟩
    simp only [Bool.and_eq_true] at hd
    exact hd.1
  refine (wpE_bind _ _).mpr (pruneTerminal_wp (hK _ h₁) (fun e => hE e _ h₁) fun db₂ pruned h₂ => ?_)
  have h₂ := h₁.trans h₂
  have hK₂ := hK _ h₂
  have hE₂ : ∀ e, E e db₂ := fun e => hE e _ h₂
  refine (wpE_bind _ _).mpr ((query_reads _).wpE hK₂ hE₂ fun _ _ => ?_)
  refine (wpE_bind _ _).mpr (fileLength_reads.wpE hK₂ hE₂ fun main _ => ?_)
  refine (wpE_bind _ _).mpr (fileLength_reads.wpE hK₂ hE₂ fun wal _ => ?_)
  refine (wpE_bind _ _).mpr ((wpE_orFail _ _).mpr ⟨fun _ => hE₂ _, fun _ _ => ?_⟩)
  refine (wpE_bind _ _).mpr (fileLength_reads.wpE hK₂ hE₂ fun shm _ => ?_)
  refine (wpE_bind _ _).mpr ((wpE_orFail _ _).mpr ⟨fun _ => hE₂ _, fun _ _ => ?_⟩)
  refine (wpE_bind _ _).mpr ((wpE_failIf _ _).mpr ⟨fun _ => hE₂ _, fun _ => ?_⟩)
  exact h _ _ h₂

end
end SortingHat.Journal
