import SortingHat.Posix.Below
import SortingHat.Posix.Walk
import Mathlib.Data.List.Nodup

/-!
# Trees of files

A directory with everything below it, as a finite tree.

* `Listing`: the tree, with its files, its folders and its height;
* `Depicts`: the tree is what a directory holds;
* `Depicts.mem_files`: its files are the ones a confined walk ends at;
* `Leads.readDir`: a path that leads to a directory reads it.
-/

namespace Posix

/-- What a directory holds, entry by entry, and each of its folders likewise. -/
inductive Listing where
  | empty
  | file (name : Bytes) (rest : Listing)
  /-- A link or a special file. -/
  | other (name : Bytes) (rest : Listing)
  | folder (name : Bytes) (inside rest : Listing)

namespace Listing

/-- The names in the directory itself. -/
def names : Listing → List Bytes
  | empty => []
  | file name rest | other name rest | folder name _ rest => name :: rest.names

/-- How many folders are below the directory. -/
def folders : Listing → Nat
  | empty => 0
  | file _ rest | other _ rest => rest.folders
  | folder _ inside rest => inside.folders + 1 + rest.folders

/-- How deep the deepest folder is below the directory. -/
def height : Listing → Nat
  | empty => 0
  | file _ rest | other _ rest => rest.height
  | folder _ inside rest => max (inside.height + 1) rest.height

/-- The regular files, each as the names on the way down. -/
def files : Listing → List (List Bytes)
  | empty => []
  | file name rest => [name] :: rest.files
  | other _ rest => rest.files
  | folder name inside rest => inside.files.map (name :: ·) ++ rest.files

/-- Every directory has distinct names, and they are names. -/
def Proper : Listing → Prop
  | empty => True
  | file name rest | other name rest => Path.isName name = true ∧ name ∉ rest.names ∧ rest.Proper
  | folder name inside rest =>
    Path.isName name = true ∧ name ∉ rest.names ∧ inside.Proper ∧ rest.Proper

variable {l : Listing} {name : Bytes} {more : List Bytes}

theorem head_mem_names (h : name :: more ∈ l.files) : name ∈ l.names := by
  induction l with
  | empty => exact absurd h List.not_mem_nil
  | file first rest ih =>
    rcases List.mem_cons.mp h with heq | hm
    · rw [(List.cons.inj heq).1]
      exact List.mem_cons_self
    · exact List.mem_cons_of_mem _ (ih hm)
  | other first rest ih => exact List.mem_cons_of_mem _ (ih h)
  | folder first inside rest _ ih =>
    rcases List.mem_append.mp h with hm | hm
    · obtain ⟨_, _, heq⟩ := List.mem_map.mp hm
      rw [← (List.cons.inj heq).1]
      exact List.mem_cons_self
    · exact List.mem_cons_of_mem _ (ih hm)

theorem nil_not_mem_files : [] ∉ l.files := by
  induction l with
  | empty => exact List.not_mem_nil
  | file first rest ih => simpa [files] using ih
  | other first rest ih => exact ih
  | folder first inside rest _ ih => simpa [files] using ih

theorem files_nodup (h : l.Proper) : l.files.Nodup := by
  induction l with
  | empty => exact List.nodup_nil
  | file first rest ih =>
    obtain ⟨-, hfresh, hrest⟩ := h
    exact List.nodup_cons.mpr ⟨fun hm => hfresh (head_mem_names hm), ih hrest⟩
  | other first rest ih => exact ih h.2.2
  | folder first inside rest ihInside ih =>
    obtain ⟨-, hfresh, hinside, hrest⟩ := h
    apply List.nodup_append.mpr
    refine ⟨(ihInside hinside).map (List.cons_injective), ih hrest, ?_⟩
    rintro path hm path' hm' rfl
    obtain ⟨more, -, rfl⟩ := List.mem_map.mp hm
    exact hfresh (head_mem_names hm')

theorem isName_of_mem_files (h : l.Proper) {path : List Bytes} (hm : path ∈ l.files) :
    ∀ n ∈ path, Path.isName n = true := by
  induction l generalizing path with
  | empty => exact absurd hm List.not_mem_nil
  | file first rest ih =>
    rcases List.mem_cons.mp hm with rfl | hm
    · intro n hn
      rw [List.mem_singleton.mp hn]
      exact h.1
    · exact ih h.2.2 hm
  | other first rest ih => exact ih h.2.2 hm
  | folder first inside rest ihInside ih =>
    rcases List.mem_append.mp hm with hm | hm
    · obtain ⟨more, hmore, rfl⟩ := List.mem_map.mp hm
      intro n hn
      rcases List.mem_cons.mp hn with rfl | hn
      · exact h.1
      · exact ihInside h.2.2.1 hmore n hn
    · exact ih h.2.2.2 hm

end Listing

open FileSystem

variable {fs : FileSystem} {entries : List (Bytes × InodeId)} {l : Listing} {fd : Fd}

/-- The directory with these entries holds what the listing shows. -/
inductive Depicts (fs : FileSystem) : List (Bytes × InodeId) → Listing → Prop where
  | empty : Depicts fs [] .empty
  | file {name : Bytes} {i : InodeId} {content : Bytes} {entries : List (Bytes × InodeId)}
      {rest : Listing} (hi : fs.content? i = some content) :
      Depicts fs entries rest → Depicts fs ((name, i) :: entries) (.file name rest)
  | other {name : Bytes} {i : InodeId} {entries : List (Bytes × InodeId)} {rest : Listing}
      (hfile : fs.content? i = none) (hfolder : fs.entries? i = none) :
      Depicts fs entries rest → Depicts fs ((name, i) :: entries) (.other name rest)
  | folder {name : Bytes} {i : InodeId} {held entries : List (Bytes × InodeId)}
      {inside rest : Listing} (hi : fs.entries? i = some held) :
      Depicts fs held inside → Depicts fs entries rest →
        Depicts fs ((name, i) :: entries) (.folder name inside rest)

namespace FileSystem

theorem entries?_of_content {i : InodeId} {content : Bytes} (h : fs.content? i = some content) :
    fs.entries? i = none := by
  unfold content? at h
  unfold entries?
  cases hn : fs.node? i with
  | none => rfl
  | some node =>
    rw [hn] at h
    cases node with
    | regular _ => rfl
    | _ => cases h

theorem target?_of_content {i : InodeId} {content : Bytes} (h : fs.content? i = some content) :
    fs.target? i = none := by
  unfold content? at h
  unfold target?
  cases hn : fs.node? i with
  | none => rfl
  | some node =>
    rw [hn] at h
    cases node with
    | regular _ => rfl
    | _ => cases h

theorem target?_of_entries {i : InodeId} {held : List (Bytes × InodeId)}
    (h : fs.entries? i = some held) : fs.target? i = none := by
  unfold entries? at h
  unfold target?
  cases hn : fs.node? i with
  | none => rfl
  | some node =>
    rw [hn] at h
    cases node with
    | directory _ => rfl
    | _ => cases h

theorem beneath_name {name : Bytes} {i : InodeId} {more : List Bytes}
    (hname : Path.isName name = true) (he : fs.entries? (fs.ino fd) = some entries)
    (hi : entries.lookup name = some i) (ht : fs.target? i = none) :
    fs.beneath false fd (name :: more) = fs.beneath false ((name, i) :: fd) more := by
  obtain ⟨hempty, hdot, hdotDot, -⟩ := Path.isName_iff.mp hname
  rw [beneath, he]
  simp [Path.isStay, hempty, hdot, hdotDot, hi, ht]

end FileSystem

/-! ## Files below a directory -/

/-- A confined walk ends at a regular file. -/
def FileSystem.FileBelow (fs : FileSystem) (fd : Fd) (names : List Bytes) : Prop :=
  ∃ fd' content, fs.beneath false fd names = .ok fd' ∧ fs.content? (fs.ino fd') = some content

namespace FileSystem

/-- Where a walk can go on, or ends at a file, there is no link. -/
theorem FileBelow.target {i : InodeId} {name : Bytes} {more : List Bytes}
    (h : fs.FileBelow ((name, i) :: fd) more) : fs.target? i = none := by
  obtain ⟨fd', content, hwalk, hcontent⟩ := h
  cases more with
  | nil =>
    rw [beneath] at hwalk
    cases hwalk
    exact target?_of_content hcontent
  | cons next more =>
    rw [beneath] at hwalk
    cases he : fs.entries? i with
    | none =>
      rw [show fs.ino ((name, i) :: fd) = i from rfl, he] at hwalk
      cases hwalk
    | some held => exact target?_of_entries he

theorem fileBelow_cons {name : Bytes} {more : List Bytes} (hname : Path.isName name = true)
    (he : fs.entries? (fs.ino fd) = some entries) :
    fs.FileBelow fd (name :: more) ↔
      ∃ i, entries.lookup name = some i ∧ fs.FileBelow ((name, i) :: fd) more := by
  constructor
  · rintro ⟨fd', content, hwalk, hcontent⟩
    obtain ⟨hempty, hdot, hdotDot, -⟩ := Path.isName_iff.mp hname
    rw [beneath, he] at hwalk
    simp only [Path.isStay, hempty, hdot, hdotDot, beq_iff_eq, Bool.or_eq_true, or_self, if_false,
      Bool.false_and, Bool.false_eq_true] at hwalk
    cases hi : entries.lookup name with
    | none =>
      rw [hi] at hwalk
      cases hwalk
    | some i =>
      rw [hi] at hwalk
      dsimp only at hwalk
      split at hwalk
      · cases hwalk
      · exact ⟨i, rfl, fd', content, hwalk, hcontent⟩
  · rintro ⟨i, hi, hbelow⟩
    have ht := hbelow.target
    obtain ⟨fd', content, hwalk, hcontent⟩ := hbelow
    exact ⟨fd', content, (beneath_name hname he hi ht).trans hwalk, hcontent⟩

/-- Below a file there is only the file itself. -/
theorem fileBelow_of_content {i : InodeId} {name content : Bytes} {more : List Bytes}
    (hi : fs.content? i = some content) : fs.FileBelow ((name, i) :: fd) more ↔ more = [] := by
  constructor
  · rintro ⟨fd', found, hwalk, -⟩
    cases more with
    | nil => rfl
    | cons next more =>
      rw [beneath, show fs.ino ((name, i) :: fd) = i from rfl, entries?_of_content hi] at hwalk
      cases hwalk
  · rintro rfl
    exact ⟨_, content, rfl, hi⟩

/-- A directory is not a file. -/
theorem not_fileBelow_nil (he : fs.entries? (fs.ino fd) = some entries) : ¬ fs.FileBelow fd [] := by
  rintro ⟨fd', content, hwalk, hcontent⟩
  rw [beneath] at hwalk
  cases hwalk
  rw [entries?_of_content hcontent] at he
  cases he

/-- Below what is neither a file nor a directory there is no file. -/
theorem not_fileBelow {i : InodeId} {name : Bytes} {more : List Bytes}
    (hfile : fs.content? i = none) (hfolder : fs.entries? i = none) :
    ¬ fs.FileBelow ((name, i) :: fd) more := by
  rintro ⟨fd', found, hwalk, hfound⟩
  cases more with
  | nil =>
    rw [beneath] at hwalk
    cases hwalk
    rw [show fs.ino ((name, i) :: fd) = i from rfl, hfile] at hfound
    cases hfound
  | cons next more =>
    rw [beneath, show fs.ino ((name, i) :: fd) = i from rfl, hfolder] at hwalk
    cases hwalk

end FileSystem

namespace Depicts

theorem mem_names (h : Depicts fs entries l) {name : Bytes} {i : InodeId}
    (hi : entries.lookup name = some i) : name ∈ l.names := by
  have hcons : ∀ {first : Bytes} {j : InodeId} {entries : List (Bytes × InodeId)} {names : List Bytes},
      ((first, j) :: entries).lookup name = some i → (entries.lookup name = some i → name ∈ names) →
        name ∈ first :: names := by
    intro first j entries names hi hrest
    rw [List.lookup_cons] at hi
    split at hi
    · next heq => exact List.mem_cons.mpr (.inl (beq_iff_eq.mp heq))
    · exact List.mem_cons_of_mem _ (hrest hi)
  induction h with
  | empty => cases hi
  | file _ _ ih => exact hcons hi ih
  | other _ _ _ ih => exact hcons hi ih
  | folder _ _ _ _ ih => exact hcons hi ih

/-- Among distinct names every entry is the one its name looks up. -/
theorem lookup_eq (h : Depicts fs entries l) (hl : l.Proper) {e : Bytes × InodeId}
    (he : e ∈ entries) : entries.lookup e.1 = some e.2 := by
  have hcons : ∀ {first : Bytes × InodeId} {rest : Listing} {entries : List (Bytes × InodeId)},
      Depicts fs entries rest → first.1 ∉ rest.names → (e ∈ entries → entries.lookup e.1 = some e.2) →
        e ∈ first :: entries → (first :: entries).lookup e.1 = some e.2 := by
    intro first rest entries hrest hfresh ih he
    rw [List.lookup_cons]
    rcases List.mem_cons.mp he with rfl | he
    · simp
    · rw [beq_false_of_ne]
      · exact ih he
      · intro heq
        exact hfresh (heq ▸ hrest.mem_names (ih he))
  induction h with
  | empty => exact absurd he List.not_mem_nil
  | file _ hrest ih => exact hcons hrest hl.2.1 (ih hl.2.2) he
  | other _ _ hrest ih => exact hcons hrest hl.2.1 (ih hl.2.2) he
  | folder _ _ hrest _ ih => exact hcons hrest hl.2.1 (ih hl.2.2.2) he

/-- A file is below the entry its first name looks up. -/
theorem cons_mem_files (h : Depicts fs entries l) (hl : l.Proper) {name : Bytes} {more : List Bytes}
    (hpath : ∀ n ∈ name :: more, Path.isName n = true) :
    name :: more ∈ l.files ↔
      ∃ i, entries.lookup name = some i ∧ fs.FileBelow ((name, i) :: fd) more := by
  induction h generalizing fd name more with
  | empty => simp [Listing.files]
  | @file first i content entries rest hi hrest ih =>
    obtain ⟨-, hfresh, hproper⟩ := hl
    rw [Listing.files, List.mem_cons, List.cons.injEq, List.lookup_cons]
    by_cases hn : name = first
    · subst hn
      have hout : name :: more ∉ rest.files := fun hm => hfresh (Listing.head_mem_names hm)
      simp [hout, fileBelow_of_content hi]
    · rw [beq_false_of_ne hn]
      simp only [hn, false_and, false_or]
      exact ih hproper hpath
  | @other first i entries rest hfile hfolder hrest ih =>
    obtain ⟨-, hfresh, hproper⟩ := hl
    rw [Listing.files, List.lookup_cons]
    by_cases hn : name = first
    · subst hn
      have hout : name :: more ∉ rest.files := fun hm => hfresh (Listing.head_mem_names hm)
      simp [hout, not_fileBelow hfile hfolder]
    · rw [beq_false_of_ne hn]
      exact ih hproper hpath
  | @folder first i held entries inside rest hi hinside hrest ihInside ih =>
    obtain ⟨-, hfresh, hheld, hproper⟩ := hl
    rw [Listing.files, List.mem_append, List.lookup_cons]
    by_cases hn : name = first
    · subst hn
      have hout : name :: more ∉ rest.files := fun hm => hfresh (Listing.head_mem_names hm)
      have hmore : more ∈ inside.files ↔ fs.FileBelow ((name, i) :: fd) more := by
        cases more with
        | nil =>
          simp only [Listing.nil_not_mem_files, false_iff]
          exact not_fileBelow_nil hi
        | cons next more =>
          have hpath' := fun n hn => hpath n (List.mem_cons_of_mem name hn)
          rw [fileBelow_cons (hpath' next List.mem_cons_self) hi]
          exact ihInside hheld hpath'
      simp [hout, hmore]
    · have hout : name :: more ∉ inside.files.map (first :: ·) := by
        intro hm
        obtain ⟨_, -, heq⟩ := List.mem_map.mp hm
        exact hn (List.cons.inj heq).1.symm
      rw [beq_false_of_ne hn]
      simp only [hout, false_or]
      exact ih hproper hpath

/-- **The files of the listing** are the ones confined walks end at. -/
theorem mem_files (h : Depicts fs entries l) (hl : l.Proper)
    (he : fs.entries? (fs.ino fd) = some entries) {path : List Bytes}
    (hpath : ∀ n ∈ path, Path.isName n = true) : path ∈ l.files ↔ fs.FileBelow fd path := by
  cases path with
  | nil =>
    simp only [Listing.nil_not_mem_files, false_iff]
    exact not_fileBelow_nil he
  | cons name more =>
    rw [fileBelow_cons (hpath name List.mem_cons_self) he]
    exact h.cons_mem_files hl hpath

end Depicts

/-! ## Reading a directory by its path -/

namespace FileSystem

variable {fd' : Fd}

/-- What the outcome of a walk over a thinner list says of the whole list. -/
def Thickened (fs : FileSystem) (result : Walk) : Walk → Prop
  | .arrived fd => fs.isDirectory (fs.ino fd) = true → result = .arrived fd
  | .link fd target rest => ∃ rest', Thins rest' rest ∧ result = .link fd target rest'
  | .failed _ => True

theorem descend_thick {segs segs' : List Bytes} (h : Thins segs segs') :
    Thickened fs (fs.descend true fd segs) (fs.descend true fd segs') := by
  induction h generalizing fd with
  | nil => exact fun _ => rfl
  | @keep segs segs' seg h ih =>
    rw [descend, descend]
    cases he : fs.entries? (fs.ino fd) with
    | none => exact trivial
    | some entries =>
      dsimp only
      by_cases hs : Path.isStay seg = true
      · rw [if_pos hs, if_pos hs]
        exact ih
      · rw [if_neg hs, if_neg hs]
        by_cases hd : seg = Path.dotDot
        · rw [if_pos hd, if_pos hd]
          exact ih
        · rw [if_neg hd, if_neg hd]
          cases hi : entries.lookup seg with
          | none => exact trivial
          | some i =>
            dsimp only
            cases ht : fs.target? i with
            | none => exact ih
            | some target =>
              simp only [Bool.true_eq_false, and_false, if_false]
              exact ⟨segs, h, rfl⟩
  | @skip segs segs' seg hs h ih =>
    have hthick := @ih fd
    rw [descend.eq_def fs true fd (seg :: segs)]
    dsimp only
    cases he : fs.entries? (fs.ino fd) with
    | some entries =>
      dsimp only
      rw [if_pos hs]
      exact hthick
    | none =>
      -- not a directory: the thinner walk ends here, or fails
      cases segs' with
      | nil =>
        intro hdir
        rw [isDirectory, he] at hdir
        cases hdir
      | cons next segs' =>
        rw [descend, he]
        exact trivial

theorem walk_thick {budget : Nat} {segs segs' : List Bytes} (h : Thins segs segs')
    (hw : fs.walk true budget fd segs' = .ok fd') (hdir : fs.isDirectory (fs.ino fd') = true) :
    fs.walk true budget fd segs = .ok fd' := by
  induction budget generalizing fd segs segs' with
  | zero =>
    have ht := @descend_thick fs fd _ _ h
    unfold walk at hw ⊢
    cases hd : fs.descend true fd segs' with
    | arrived fd₁ =>
      rw [hd] at hw ht
      obtain rfl := Except.ok.inj hw
      rw [ht hdir]
    | failed e => rw [hd] at hw; cases hw
    | link fd₁ target rest => rw [hd] at hw; cases hw
  | succ budget ih =>
    have ht := @descend_thick fs fd _ _ h
    unfold walk at hw ⊢
    cases hd : fs.descend true fd segs' with
    | arrived fd₁ =>
      rw [hd] at hw ht
      obtain rfl := Except.ok.inj hw
      rw [ht hdir]
    | failed e => rw [hd] at hw; cases hw
    | link fd₁ target rest =>
      rw [hd] at hw ht
      obtain ⟨rest', hthin, heq⟩ := ht
      rw [heq]
      dsimp only at hw ⊢
      by_cases hne : target = []
      · rw [if_pos hne] at hw; cases hw
      · rw [if_neg hne] at hw ⊢
        exact ih (hthin.append_left _) hw

/-- The kernel walks a path it takes to where it leads. -/
theorem Leads.resolve {path : Bytes} (h : Leads fs path fd) (ha : admissible path = .ok ()) :
    fs.resolve true path = .ok fd := by
  obtain ⟨segs, hnames, hw, hdir⟩ := h
  have hthin := walk_thin (thins_filter segs) hw
  rw [← hnames] at hthin
  unfold FileSystem.resolve
  rw [ha]
  exact walk_thick (thins_filter (Path.segments path)) hthin hdir

/-- A path the kernel takes reads the directory it leads to. -/
theorem Leads.readDir {path : Bytes} (h : Leads fs path fd) (ha : admissible path = .ok ())
    (he : fs.entries? (fs.ino fd) = some entries) : fs.readDir path = .ok entries := by
  unfold FileSystem.readDir
  rw [h.resolve ha]
  simp only [bind, Except.bind, he]

theorem readDir_inadmissible {path : Bytes} {e : Errno} (ha : admissible path = .error e) :
    fs.readDir path = .error e := by
  unfold FileSystem.readDir resolve
  rw [ha]
  rfl

/-- The path of a directory below one that is opened. -/
theorem Leads.below {path : Bytes} {names : List Bytes} (h : Leads fs path fd)
    (hnames : ∀ n ∈ names, Path.isName n = true) (hwalk : fs.beneath false fd names = .ok fd')
    (hdir : fs.isDirectory (fs.ino fd') = true) :
    Leads fs (Path.join path (Path.below names)) fd' := by
  apply h.join (Path.isAbsolute_below hnames) ?_ hdir
  · exact false
  cases names with
  | nil =>
    -- the path of the directory itself ends in a segment that stays
    rw [beneath] at hwalk
    obtain rfl := Except.ok.inj hwalk
    obtain ⟨entries, he⟩ := Option.isSome_iff_exists.mp hdir
    show fs.beneath false fd [[]] = _
    rw [beneath, he]
    rfl
  | cons name more => rwa [Path.segments_below hnames (List.cons_ne_nil name more)]

end FileSystem

end Posix
