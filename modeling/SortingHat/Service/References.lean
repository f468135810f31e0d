import SortingHat.Service.Directories
import SortingHat.Service.Sources

/-!
# The source of a proposal

A proposal holds its source as encoded text below a root, and its journal entry holds
the whole path in bytes.

* `decode_produced`, `decoded`: the encoding is undone, and nothing else is decoded;
* `Linked`: proposal and journal entry name one path;
* `Run.agrees`: what deeds keep of a state and the journal, every run keeps;
* `linked`: so proposal and journal entry name one path in every run.
-/

namespace SortingHat
open Posix Effect Text
open Journal (Row Database State)

/-- A path of names, as a walk below a root makes it. -/
def Produced (relative : Bytes) : Prop :=
  ∃ names : List Bytes, names ≠ [] ∧ (∀ n ∈ names, Path.isName n = true) ∧
    relative = Path.below names

/-- A path that stays below whatever it is joined to. -/
structure Inside (path : Bytes) : Prop where
  normal : ∀ c ∈ Path.components path, ∃ name, c = .normal name
  nonempty : path ≠ []
  joined : ∀ root, Path.components (Path.join root path) = Path.components root ++ Path.components path

/-! ## Encoding -/

section
variable {relative path : Bytes} {text : String}

theorem encodeRelative_injective : Function.Injective encodeRelative := by
  intro a b h
  have hdecode := congrArg Base64.decode h
  unfold encodeRelative at hdecode
  rw [Base64.decode_encode, Base64.decode_encode] at hdecode
  exact Option.some.inj hdecode

theorem validateRelative_below {names : List Bytes} (hnames : ∀ n ∈ names, Path.isName n = true)
    (hne : names ≠ []) (hlength : (Path.below names).length ≤ 4096) :
    validateRelative (Path.below names) = .ok () := by
  have hsegments := Path.segments_below hnames hne
  obtain ⟨first, rest, rfl⟩ := List.exists_cons_of_ne_nil hne
  obtain ⟨hempty, hdot, -, -⟩ := Path.isName_iff.mp (hnames first List.mem_cons_self)
  have hrel : Path.isAbsolute (Path.below (first :: rest)) = false := by
    rw [Bool.eq_false_iff, Ne, Path.isAbsolute_iff, hsegments]
    rintro ⟨seg, more, h⟩
    exact hempty (List.cons.inj h).1
  have hlead : Path.lead (Path.below (first :: rest)) = [] := by
    unfold Path.lead
    rw [hrel, if_neg Bool.false_ne_true, hsegments, if_neg (by simpa using hdot)]
  have hcomponents : Path.components (Path.below (first :: rest)) =
      (first :: rest).map Path.component := by
    rw [Path.components_eq, hlead, Path.names_below hnames, List.nil_append]
  have hnonempty : Path.below (first :: rest) ≠ [] := by
    intro he
    rw [he] at hsegments
    exact hempty (List.cons.inj hsegments).1.symm
  unfold validateRelative
  rw [if_neg (by simp [hnonempty, hrel]; omega), hcomponents]
  apply if_pos
  rw [List.all_map, List.all_eq_true]
  intro n hn
  obtain ⟨-, -, hup, -⟩ := Path.isName_iff.mp (hnames n hn)
  simp [Path.component, hup]

/-- **What a walk produces is decoded byte for byte.** -/
theorem decode_produced (h : Produced relative) (hlength : relative.length ≤ 4096) :
    decodeRelative (encodeRelative relative) = .ok relative := by
  obtain ⟨names, hne, hnames, rfl⟩ := h
  unfold decodeRelative encodeRelative
  rw [Base64.decode_encode]
  dsimp only
  rw [validateRelative_below hnames hne hlength]

theorem validateRelative_ok (h : validateRelative path = .ok ()) : Inside path := by
  unfold validateRelative at h
  split at h
  · cases h
  · next hbounds =>
    simp only [not_or, Bool.not_eq_true] at hbounds
    obtain ⟨hne, -, hrel⟩ := hbounds
    split at h
    · next hall =>
      have hnormal : ∀ c ∈ Path.components path, ∃ name, c = .normal name := by
        intro c hc
        have hc := List.all_eq_true.mp hall c hc
        cases c with
        | normal name => exact ⟨name, rfl⟩
        | _ => cases hc
      have hlead : Path.lead path = [] := by
        cases hl : Path.lead path with
        | nil => rfl
        | cons c rest =>
          have hm : c ∈ Path.components path := by
            rw [Path.components_eq, hl]
            exact List.mem_cons_self
          obtain ⟨name, rfl⟩ := hnormal c hm
          rcases Path.lead_cases path with ⟨hroot, -⟩ | ⟨hdot | hnil, -⟩
          · cases hroot.symm.trans hl
          · cases hdot.symm.trans hl
          · cases hnil.symm.trans hl
      refine ⟨hnormal, hne, fun root => ?_⟩
      rw [components_join hrel hlead, Path.components_eq path, hlead, List.nil_append]
    · cases h

/-- **Only encodings are decoded, and only of paths that stay below the root.** -/
theorem decoded (h : decodeRelative text = .ok path) : encodeRelative path = text ∧ Inside path := by
  unfold decodeRelative at h
  cases hd : Base64.decode text with
  | none =>
    rw [hd] at h
    cases h
  | some found =>
    rw [hd] at h
    dsimp only at h
    cases hv : validateRelative found with
    | error e =>
      rw [hv] at h
      cases h
    | ok u =>
      rw [hv] at h
      obtain rfl := Except.ok.inj h
      exact ⟨Base64.encode_decode hd, validateRelative_ok hv⟩

end

/-! ## One path in two places -/

/-- Proposal and journal entry name one path, when `n` ids are drawn. -/
structure Linked (P : Platform) (n : Nat) (db : Database) (state : PersistentState) : Prop where
  roots : ∀ root ∈ state.roots, ∃ k < n, root.id = P.uuid k
  distinct : (state.roots.map Root.id).Nodup
  ids : ∀ p ∈ state.proposals, ∃ k < n, p.id = P.uuid k
  sources : ∀ p ∈ state.proposals, ∃ k < n, p.sourceRootId = P.uuid k
  tokens : ∀ p ∈ state.proposals, ∀ root ∈ state.roots, root.id = p.sourceRootId →
    ∀ row ∈ db.rows, row.id = p.id → ∃ relative, p.sourceRelative = encodeRelative relative ∧
      row.sourceToken = Path.join (bytes root.path) relative

section
variable {P : Platform} {A : Tick → Prop} {caller : Option Call} {lossy : Bool} {s s' : Service}
  {w w' : World} {n : Nat} {db : Database} {state : PersistentState} {fs : FileSystem} {m : Machine}
  {events : List Event}

theorem Linked.initial : Linked P n db .initial where
  roots _ hm := nomatch hm
  distinct := List.nodup_nil
  ids _ hm := nomatch hm
  sources _ hm := nomatch hm
  tokens _ hm := nomatch hm

theorem follows_source {row row' : Row} (h : Journal.Follows row row') :
    row'.sourceToken = row.sourceToken := by
  cases h <;> rfl

/-- A row stays or goes on as rows do; a new one has a fresh id. -/
theorem Deed.rows (hd : Deed P A caller lossy s w s' w') {row' : Row} (hm : row' ∈ w'.db.rows) :
    (∃ row ∈ w.db.rows, row' = row ∨ Journal.Follows row row') ∨ row'.id = P.uuid w.drawn := by
  have hreplaced : ∀ {row next : Row}, row ∈ w.db.rows → Journal.Follows row next →
      row' ∈ (w.db.replace next).rows → ∃ row ∈ w.db.rows, row' = row ∨ Journal.Follows row row' := by
    intro row next hrow hf hm
    obtain ⟨old, hold, rfl⟩ := Database.mem_replace.mp hm
    by_cases hsame : old.id = next.id
    · rw [if_pos hsame]
      exact ⟨row, hrow, .inr hf⟩
    · rw [if_neg hsame]
      exact ⟨old, hold, .inl rfl⟩
  cases hd with
  | files | sampled | drew | paused | advised | rooted | unrooted | ruled | warned | pruned
  | installed => exact .inl ⟨row', hm, .inl rfl⟩
  | proposed hb hi =>
    obtain ⟨-, hrows, -⟩ := Database.insert_eq_ok hi
    rw [hrows] at hm
    rcases List.mem_append.mp hm with hm | hm
    · exact .inl ⟨row', hm, .inl rfl⟩
    · rw [List.mem_singleton.mp hm]
      exact .inr (hb.row_id.trans hb.id)
  | redirected hp _ _ hstate => exact .inl (hreplaced hp.row_mem (.redirected _ _ hstate) hm)
  | renamed hp _ _ hstate => exact .inl (hreplaced hp.row_mem (.redirected _ _ hstate) hm)
  | approved hp _ _ hstate => exact .inl (hreplaced hp.row_mem (.moved _ hstate rfl) hm)
  | finished hp hs ha => exact .inl (hreplaced hp.row_mem (.moved _ hs ha) hm)
  | moved hrow hs ha => exact .inl (hreplaced hrow (.moved _ hs ha) hm)
  | settled hrow hs _ ha => exact .inl (hreplaced hrow (.moved _ hs ha) hm)
  | hashed hrow => exact .inl (hreplaced hrow (.hashed _ _) hm)
  | lost _ hrow hf => exact .inl (hreplaced hrow hf hm)
  | aged | trimmed => exact .inl ⟨row', List.mem_of_mem_filter hm, .inl rfl⟩

/-- Any state, running or saved, stays linked to the journal and the ids of the next world. -/
theorem Linked.world (h : Linked P w.drawn w.db state) (hd : Deed P A caller lossy s w s' w') :
    Linked P w'.drawn w'.db state := by
  have hle := hd.edit.drawn_le
  have hmono : ∀ {id : Uuid}, (∃ k < w.drawn, id = P.uuid k) → ∃ k < w'.drawn, id = P.uuid k := by
    rintro id ⟨k, hk, hid⟩
    exact ⟨k, Nat.lt_of_lt_of_le hk hle, hid⟩
  constructor
  · exact fun root hm => hmono (h.roots root hm)
  · exact h.distinct
  · exact fun p hp => hmono (h.ids p hp)
  · exact fun p hp => hmono (h.sources p hp)
  · intro p hp root hroot hid row' hrow' hrowid
    rcases hd.rows hrow' with ⟨row, hrow, rfl | hf⟩ | hfresh
    · exact h.tokens p hp root hroot hid row' hrow hrowid
    · obtain ⟨relative, hrelative, hsource⟩ :=
        h.tokens p hp root hroot hid row hrow (hf.id.symm.trans hrowid)
      exact ⟨relative, hrelative, (follows_source hf).trans hsource⟩
    · obtain ⟨k, hk, hpid⟩ := h.ids p hp
      have := P.uuid_injective (hpid.symm.trans (hrowid.symm.trans hfresh))
      exact absurd hk (this ▸ Nat.lt_irrefl _)

/-- Proposals that keep their ids and their sources stay linked. -/
theorem Linked.same {proposals : List Proposal} (h : Linked P n db state)
    (hp : ∀ q ∈ proposals, ∃ p ∈ state.proposals, q.id = p.id ∧ q.sourceRootId = p.sourceRootId ∧
      q.sourceRelative = p.sourceRelative) : Linked P n db { state with proposals } := by
  constructor
  · exact h.roots
  · exact h.distinct
  · intro q hq
    obtain ⟨p, hm, hid, -⟩ := hp q hq
    exact hid ▸ h.ids p hm
  · intro q hq
    obtain ⟨p, hm, -, hroot, -⟩ := hp q hq
    exact hroot ▸ h.sources p hm
  · intro q hq root hroot hrootid row hrow hid
    obtain ⟨p, hm, hpid, hproot, hrelative⟩ := hp q hq
    rw [hrelative]
    exact h.tokens p hm root hroot (hrootid.trans hproot) row hrow (hid.trans hpid)

/-- A proposal that is changed in place keeps its id and its source. -/
theorem Linked.revised {index : Nat} {f : Proposal → Proposal} (h : Linked P n db state)
    (hf : ∀ p, (f p).id = p.id ∧ (f p).sourceRootId = p.sourceRootId ∧
      (f p).sourceRelative = p.sourceRelative) :
    Linked P n db { state with proposals := state.proposals.modify index f } := by
  refine h.same fun q hq => ?_
  rcases mem_modify hq with ⟨old, ho, rfl⟩ | ⟨i, -, hi⟩
  · exact ⟨old, List.mem_of_getElem? ho, hf old⟩
  · exact ⟨q, List.mem_of_getElem? hi, rfl, rfl, rfl⟩

theorem Linked.settle {id : Uuid} {f : Proposal → Proposal} (h : Linked P n db state)
    (hf : ∀ p, (f p).id = p.id ∧ (f p).sourceRootId = p.sourceRootId ∧
      (f p).sourceRelative = p.sourceRelative) : Linked P n db (state.settle id f) := by
  unfold PersistentState.settle
  split
  · exact h.revised hf
  · exact h

/-- A new root is nobody's source yet. -/
theorem Linked.rooted {root : Root} (h : Linked P n db state) (hid : root.id = P.uuid n) :
    Linked P (n + 1) db { state with roots := state.roots ++ [root] } := by
  have hold : ∀ {id : Uuid}, (∃ k < n, id = P.uuid k) → id ≠ root.id := by
    rintro id ⟨k, hk, hk'⟩ he
    exact Nat.ne_of_lt hk (P.uuid_injective (hk'.symm.trans (he.trans hid)))
  have hmono : ∀ {id : Uuid}, (∃ k < n, id = P.uuid k) → ∃ k < n + 1, id = P.uuid k := by
    rintro id ⟨k, hk, hk'⟩
    exact ⟨k, Nat.lt_succ_of_lt hk, hk'⟩
  constructor
  · intro other ho
    rcases List.mem_append.mp ho with ho | ho
    · exact hmono (h.roots other ho)
    · exact ⟨n, Nat.lt_succ_self n, List.mem_singleton.mp ho ▸ hid⟩
  · rw [List.map_append, List.map_singleton]
    refine List.nodup_append.mpr ⟨h.distinct, List.nodup_singleton _, fun a ha b hb => ?_⟩
    obtain ⟨other, ho, rfl⟩ := List.mem_map.mp ha
    rw [List.mem_singleton.mp hb]
    exact hold (h.roots other ho)
  · exact fun p hp => hmono (h.ids p hp)
  · exact fun p hp => hmono (h.sources p hp)
  · intro p hp other ho hother
    rcases List.mem_append.mp ho with ho | ho
    · exact h.tokens p hp other ho hother
    · rw [List.mem_singleton.mp ho] at hother
      exact absurd hother.symm (hold (h.sources p hp))

theorem Linked.unrooted (h : Linked P n db state) (id : Uuid) :
    Linked P n db { state with roots := state.roots.filter fun root => root.id ≠ id } := by
  constructor
  · exact fun root hm => h.roots root (List.mem_of_mem_filter hm)
  · exact (List.filter_sublist.map Root.id).nodup h.distinct
  · exact h.ids
  · exact h.sources
  · exact fun p hp root hm => h.tokens p hp root (List.mem_of_mem_filter hm)

/-- **A new proposal and its row** name the path the scan has found. -/
theorem Linked.begins {p : Proposal} {row : Row} (h : Linked P w.drawn w.db s.state)
    (hworld : Linked P (w.drawn + 1) db s.state) (hb : Begins P s w p row)
    (hi : w.db.insert row = .ok db) :
    Linked P (w.drawn + 1) db { s.state with proposals := s.state.proposals ++ [p] } := by
  obtain ⟨hfresh, hrows, -⟩ := Database.insert_eq_ok hi
  obtain ⟨root, hroot, -, hsource, relative, hrelative, -, -, htoken, -⟩ := hb.source
  constructor
  · exact hworld.roots
  · exact hworld.distinct
  · intro q hq
    rcases List.mem_append.mp hq with hq | hq
    · exact hworld.ids q hq
    · exact ⟨w.drawn, Nat.lt_succ_self _, List.mem_singleton.mp hq ▸ hb.id⟩
  · intro q hq
    rcases List.mem_append.mp hq with hq | hq
    · exact hworld.sources q hq
    · obtain ⟨k, hk, hid⟩ := hworld.roots root hroot
      exact ⟨k, hk, List.mem_singleton.mp hq ▸ hsource.trans hid⟩
  · intro q hq other hother hid row' hrow' hrowid
    rcases List.mem_append.mp hq with hq | hq
    · exact hworld.tokens q hq other hother hid row' hrow' hrowid
    · obtain rfl := List.mem_singleton.mp hq
      obtain rfl : other = root :=
        List.inj_on_of_nodup_map h.distinct hother hroot (hid.trans hsource)
      rw [hrows] at hrow'
      rcases List.mem_append.mp hrow' with hold | hnew
      · refine absurd ?_ hfresh
        rw [hb.row_id, ← hrowid]
        exact List.mem_map_of_mem hold
      · obtain rfl := List.mem_singleton.mp hnew
        exact ⟨relative, hrelative, htoken⟩

/-- **A deed keeps proposal and entry together.** -/
theorem Linked.deed (h : Linked P w.drawn w.db s.state) (hd : Deed P A caller lossy s w s' w') :
    Linked P w'.drawn w'.db s'.state := by
  have hworld := h.world hd
  cases hd with
  | files | sampled | drew | paused | advised | ruled | moved | hashed | aged | trimmed | installed
  | lost => exact ⟨hworld.roots, hworld.distinct, hworld.ids, hworld.sources, hworld.tokens⟩
  | rooted hid => exact h.rooted hid
  | unrooted id => exact hworld.unrooted id
  | proposed hb hi => exact h.begins hworld hb hi
  | redirected | renamed | approved | finished => exact hworld.revised fun _ => ⟨rfl, rfl, rfl⟩
  | settled | warned => exact hworld.settle fun _ => ⟨rfl, rfl, rfl⟩
  | pruned =>
    exact hworld.same fun q hq => ⟨q, (pruned_sublist s.state.proposals).subset hq, rfl, rfl, rfl⟩

/-- What deeds keep of a state and the journal, and of a saved state while the journal goes
on, every run keeps, in memory and on disk. -/
theorem Run.agrees {J : Nat → Database → PersistentState → Prop}
    (h : Run P (Machine.initial fs) events m) (hinitial : ∀ n db, J n db .initial)
    (hworld : ∀ caller lossy s w s' w' state, J w.drawn w.db state →
      Deed P (fun _ => True) caller lossy s w s' w' → J w'.drawn w'.db state)
    (hdeed : ∀ event ∈ events, ∀ lossy s w s' w', J w.drawn w.db s.state →
      Deed P (fun _ => True) event.call lossy s w s' w' → J w'.drawn w'.db s'.state) :
    m.Holds fun n => J n m.world.db := by
  have hmeets : m.Meets (fun _ => True) fun s w => J w.drawn w.db s.state ∧
      ∀ file state, w.stateJson = some file → file.content = some state → J w.drawn w.db state := by
    apply h.keeps
    · rintro event hevent lossy s w s' w' ⟨hs, hsaved⟩ hd
      refine ⟨hdeed event hevent lossy s w s' w' hs hd, fun file state hfile hcontent => ?_⟩
      rcases hd.stateJson with hj | hj
      · exact hworld _ _ _ _ _ _ state (hsaved file state (hj ▸ hfile) hcontent) hd
      · obtain rfl := Option.some.inj (hj.symm.trans hfile)
        obtain rfl := Option.some.inj hcontent
        exact hworld _ _ _ _ _ _ s.state hs hd
    · rintro s w loaded ⟨-, hsaved⟩ (⟨rfl, -⟩ | ⟨file, hfile, hcontent⟩)
      · exact ⟨hinitial _ _, hsaved⟩
      · exact ⟨hsaved file loaded hfile hcontent, hsaved⟩
    · rintro loaded (⟨rfl, -⟩ | ⟨file, hfile, -⟩)
      · exact ⟨hinitial _ _, nofun⟩
      · cases hfile
  obtain ⟨w, service⟩ := m
  cases service with
  | some s =>
    have hmeets : J w.drawn w.db s.state ∧ _ := hmeets
    exact ⟨fun s' hs => Option.some.inj hs ▸ hmeets.1, hmeets.2⟩
  | none =>
    refine ⟨nofun, fun file state hfile hcontent => ?_⟩
    have hloaded := hmeets state (.inr ⟨file, hfile, hcontent⟩)
    exact hloaded.1

/-- **Proposal and journal entry name one path**, in every run, in memory and on disk. -/
theorem linked (h : Run P (Machine.initial fs) events m) :
    m.Holds fun n => Linked P n m.world.db := by
  apply h.agrees
  · exact fun _ _ => .initial
  · exact fun _ _ _ _ _ _ _ hs hd => hs.world hd
  · exact fun _ _ _ _ _ _ _ hs hd => hs.deed hd

end
end SortingHat
