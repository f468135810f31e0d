import SortingHat.Posix.Listing

/-!
# Canonical paths

A canonical path is the names on the way down from the root.

* `Canonical`: such a path, with its components and its prefixes;
* `Rooted`: an open file whose way down is there;
* `canonicalize_ok`: canonicalizing an absolute path gives the way down of one;
* `Rooted.leads`: every spelling of the way down leads back.
-/

namespace Posix
namespace Path

/-- The path with these names below the root. -/
def absolute (names : List Bytes) : Bytes := slash :: below names

/-- The path is made of names below the root. -/
def Canonical (p : Bytes) : Prop :=
  ∃ names : List Bytes, (∀ n ∈ names, isName n = true) ∧ p = absolute names

variable {ns ms : List Bytes}

theorem isAbsolute_absolute : isAbsolute (absolute ns) = true := rfl

theorem names_absolute (hns : ∀ n ∈ ns, isName n = true) : names (absolute ns) = ns := by
  have h := names_append_slash [] (below ns)
  rw [names_nil, List.nil_append, names_below hns] at h
  exact h

theorem components_absolute (hns : ∀ n ∈ ns, isName n = true) :
    components (absolute ns) = .rootDir :: ns.map Component.normal := by
  have hlead : lead (absolute ns) = [.rootDir] := by
    unfold lead
    rw [isAbsolute_absolute, if_pos rfl]
  rw [components_eq, hlead, names_absolute hns, List.singleton_append]
  congr 1
  apply List.map_congr_left
  intro n hn
  unfold component
  rw [if_neg (isName_iff.mp (hns n hn)).2.2.1]

theorem ofComponents_absolute : ofComponents (.rootDir :: ns.map Component.normal) = absolute ns := by
  cases ns with
  | nil => rfl
  | cons first rest =>
    have hspell : (Component.rootDir :: (first :: rest).map Component.normal).map Component.spell =
        [] :: first :: rest := by
      simp [Component.spell, Function.comp_def]
    rw [ofComponents_eq (List.cons_ne_nil _ _) (by simp), hspell, List.intercalate_cons_cons]
    rfl

theorem startsWith_absolute (hns : ∀ n ∈ ns, isName n = true) (hms : ∀ n ∈ ms, isName n = true) :
    startsWith (absolute ns) (absolute ms) = true ↔ ms <+: ns := by
  unfold startsWith
  rw [components_absolute hns, components_absolute hms, List.isPrefixOf_iff_prefix,
    List.cons_prefix_cons, eq_self_iff_true, true_and]
  constructor
  · rintro ⟨more, hmore⟩
    obtain ⟨before, after, rfl, hbefore, -⟩ := List.append_eq_map_iff.mp hmore
    obtain rfl := List.map_injective_iff.mpr (fun _ _ h => Component.normal.inj h) hbefore
    exact List.prefix_append _ _
  · rintro ⟨more, rfl⟩
    rw [List.map_append]
    exact List.prefix_append _ _

/-- What is left of a path below one of its prefixes. -/
theorem stripPrefix_absolute (hms : ∀ n ∈ ms ++ ns, isName n = true) :
    stripPrefix (absolute (ms ++ ns)) (absolute ms) = some (below ns) := by
  have hms' : ∀ n ∈ ms, isName n = true := fun n hn => hms n (List.mem_append_left _ hn)
  unfold stripPrefix
  rw [(startsWith_absolute hms hms').mpr (List.prefix_append ms ns), if_pos rfl,
    components_absolute hms, components_absolute hms', List.map_append, List.length_cons,
    List.drop_succ_cons, List.length_map, List.drop_left' (List.length_map _)]
  rw [ofComponents_below]

/-- A longer path has more bytes. -/
theorem length_absolute_lt (hns : ∀ n ∈ ns, isName n = true) (h : ms <+: ns) (hne : ms ≠ ns) :
    (absolute ms).length < (absolute ns).length := by
  obtain ⟨more, rfl⟩ := h
  induction more generalizing ms with
  | nil => exact absurd (List.append_nil ms).symm hne
  | cons first more ih =>
    have hfirst : first ≠ [] := (isName_iff.mp (hns first (by simp))).1
    have hstep : (absolute ms).length < (absolute (ms ++ [first])).length := by
      have hpos := List.length_pos_iff.mpr hfirst
      by_cases hms : ms = []
      · rw [hms, List.nil_append, absolute, absolute, below_singleton, below_nil]
        simpa using hpos
      · rw [absolute, absolute, below_concat hms]
        simp
    rw [List.append_cons] at hns ⊢
    by_cases hmore : more = []
    · rw [hmore, List.append_nil]
      exact hstep
    · exact Nat.lt_trans hstep (ih hns (by simpa using hmore))

end Path

namespace FileSystem
variable {fs : FileSystem} {fd fd' : Fd}

/-- The way down is there: each name looks up the next inode, and none is a link. -/
inductive Rooted (fs : FileSystem) : Fd → Prop where
  | root : Rooted fs []
  | cons {fd : Fd} {name : Bytes} {i : InodeId} {entries : List (Bytes × InodeId)}
      (hname : Path.isName name = true) (he : fs.entries? (fs.ino fd) = some entries)
      (hi : entries.lookup name = some i) (ht : fs.target? i = none) (h : Rooted fs fd) :
      Rooted fs ((name, i) :: fd)

/-- The names on the way down. -/
def way (fd : Fd) : List Bytes := fd.reverse.map Prod.fst

theorem Rooted.isName (h : fs.Rooted fd) : ∀ n ∈ way fd, Path.isName n = true := by
  induction h with
  | root => exact nofun
  | cons hname _ _ _ _ ih =>
    intro n hn
    rw [way, List.reverse_cons, List.map_append] at hn
    rcases List.mem_append.mp hn with hn | hn
    · exact ih n hn
    · rw [List.mem_singleton.mp hn]
      exact hname

theorem Rooted.tail (h : fs.Rooted fd) : fs.Rooted fd.tail := by
  cases h with
  | root => exact .root
  | cons _ _ _ _ h => exact h

/-- What a walk over names has reached. -/
def Reached (fs : FileSystem) : Walk → Prop
  | .arrived fd => fs.Rooted fd
  | .link fd _ rest => fs.Rooted fd ∧ ∀ seg ∈ rest, Path.slash ∉ seg
  | .failed _ => True

theorem descend_rooted {segs : List Bytes} (h : fs.Rooted fd) (hsegs : ∀ seg ∈ segs, Path.slash ∉ seg) :
    Reached fs (fs.descend true fd segs) := by
  induction segs generalizing fd with
  | nil => exact h
  | cons seg rest ih =>
    have hrest : ∀ seg ∈ rest, Path.slash ∉ seg := fun s hs => hsegs s (List.mem_cons_of_mem seg hs)
    rw [descend]
    cases he : fs.entries? (fs.ino fd) with
    | none => exact trivial
    | some entries =>
      dsimp only
      by_cases hstay : Path.isStay seg = true
      · rw [if_pos hstay]
        exact ih h hrest
      rw [if_neg hstay]
      by_cases hup : seg = Path.dotDot
      · rw [if_pos hup]
        exact ih h.tail hrest
      rw [if_neg hup]
      cases hi : entries.lookup seg with
      | none => exact trivial
      | some i =>
        dsimp only
        cases ht : fs.target? i with
        | some target =>
          simp only [Bool.true_eq_false, and_false, if_false]
          exact ⟨h, hrest⟩
        | none =>
          have hname : Path.isName seg = true := by
            refine Path.isName_iff.mpr ⟨?_, ?_, hup, hsegs seg List.mem_cons_self⟩
            · rintro rfl
              exact hstay rfl
            · rintro rfl
              exact hstay rfl
          exact ih (.cons hname he hi ht h) hrest

theorem walk_rooted {budget : Nat} {segs : List Bytes} (h : fs.Rooted fd)
    (hsegs : ∀ seg ∈ segs, Path.slash ∉ seg) (hw : fs.walk true budget fd segs = .ok fd') :
    fs.Rooted fd' := by
  induction budget generalizing fd segs with
  | zero =>
    have hr := descend_rooted h hsegs
    unfold walk at hw
    cases hd : fs.descend true fd segs with
    | arrived fd₁ =>
      rw [hd] at hw hr
      exact Except.ok.inj hw ▸ hr
    | failed e => rw [hd] at hw; cases hw
    | link fd₁ target rest => rw [hd] at hw; cases hw
  | succ budget ih =>
    have hr := descend_rooted h hsegs
    unfold walk at hw
    cases hd : fs.descend true fd segs with
    | arrived fd₁ =>
      rw [hd] at hw hr
      exact Except.ok.inj hw ▸ hr
    | failed e => rw [hd] at hw; cases hw
    | link fd₁ target rest =>
      rw [hd] at hw hr
      dsimp only at hw
      split at hw
      · cases hw
      · have hstart : fs.Rooted (start fd₁ target) := by
          unfold start
          split
          · exact .root
          · exact hr.1
        refine ih hstart ?_ hw
        intro seg hs
        rcases List.mem_append.mp hs with hs | hs
        · exact Path.not_mem_segments hs
        · exact hr.2 seg hs

/-- The confined walk down the names is the way itself. -/
theorem Rooted.beneath (h : fs.Rooted fd) : fs.beneath false [] (way fd) = .ok fd := by
  induction h with
  | root => rfl
  | @cons fd name i entries hname he hi ht h ih =>
    rw [way, List.reverse_cons, List.map_append, beneath_append]
    change fs.beneath false [] (way fd) >>= _ = _
    rw [ih]
    show fs.beneath false fd [name] = _
    rw [beneath_name hname he hi ht]
    rfl

/-- Every spelling of the way down leads back. -/
theorem Rooted.leads {path : Bytes} (h : fs.Rooted fd) (habs : Path.isAbsolute path = true)
    (hnames : Path.names path = way fd) (hdir : fs.isDirectory (fs.ino fd) = true) :
    Leads fs path fd := by
  refine ⟨way fd, ?_, ?_, hdir⟩
  · rw [hnames, List.filter_eq_self.mpr]
    intro n hn
    obtain ⟨hempty, hdot, -⟩ := Path.isName_iff.mp (h.isName n hn)
    simp [Path.isStay, hempty, hdot]
  · have hstart : start fs.cwd path = [] := by
      unfold start
      rw [habs, if_pos rfl]
    rw [hstart]
    unfold walk
    rw [descend_beneath h.beneath]

/-- Every spelling of the way down that the kernel takes names what is there. -/
theorem Rooted.spelled {path : Bytes} (h : fs.Rooted fd) (habs : Path.isAbsolute path = true)
    (hnames : Path.names path = way fd) (hdir : fs.isDirectory (fs.ino fd) = true)
    (ha : admissible path = .ok ()) :
    fs.canonicalize path = .ok (Path.absolute (way fd)) ∧ fs.openDirectory path = .ok fd := by
  have hr := (h.leads habs hnames hdir).resolve ha
  constructor
  · unfold canonicalize
    rw [hr, ← Path.ofComponents_absolute, way, List.map_map]
    rfl
  · unfold openDirectory
    rw [hr]
    simp only [bind, Except.bind, hdir, if_true]

/-- **An absolute path is canonicalized** to the way down of what it leads to. -/
theorem canonicalize_ok {path canonical : Bytes} (habs : Path.isAbsolute path = true)
    (h : fs.canonicalize path = .ok canonical) :
    ∃ fd, fs.resolve true path = .ok fd ∧ fs.Rooted fd ∧ canonical = Path.absolute (way fd) := by
  unfold canonicalize at h
  cases hr : fs.resolve true path with
  | error e =>
    rw [hr] at h
    cases h
  | ok fd =>
    rw [hr] at h
    refine ⟨fd, rfl, ?_, ?_⟩
    · unfold resolve at hr
      cases ha : admissible path with
      | error e => rw [ha] at hr; cases hr
      | ok u =>
        rw [ha] at hr
        have hstart : start fs.cwd path = [] := by
          unfold start
          rw [habs, if_pos rfl]
        rw [hstart] at hr
        exact walk_rooted .root (fun _ hs => Path.not_mem_segments hs) hr
    · obtain rfl := Except.ok.inj h
      rw [← Path.ofComponents_absolute, way, List.map_map]
      rfl

theorem isAbsolute_canonicalize {path canonical : Bytes} (h : fs.canonicalize path = .ok canonical) :
    Path.isAbsolute canonical = true := by
  unfold canonicalize at h
  cases hr : fs.resolve true path with
  | error e =>
    rw [hr] at h
    cases h
  | ok fd =>
    rw [hr] at h
    obtain rfl := Except.ok.inj h
    have hway : (fd.reverse.map fun e => Path.Component.normal e.1) =
        (way fd).map Path.Component.normal := by
      rw [way, List.map_map]
      rfl
    rw [hway, Path.ofComponents_absolute]
    rfl

theorem canonical_of_canonicalize {path canonical : Bytes} (habs : Path.isAbsolute path = true)
    (h : fs.canonicalize path = .ok canonical) : Path.Canonical canonical := by
  obtain ⟨fd, -, hrooted, rfl⟩ := canonicalize_ok habs h
  exact ⟨way fd, hrooted.isName, rfl⟩

end FileSystem
end Posix
