import SortingHat.Posix.Listing
import SortingHat.Replay
import Mathlib.Data.List.Perm.Basic

/-!
# What the bounded walk finds

`bounded_files` on a tree that does not change.

* `Standing`: a folder on the stack of the loop, with the tree it holds;
* `addEntries_depicts`: what one folder adds to the stack and the result;
* `walkPending_exact`: the loop, from any stack;
* `boundedFiles_exact`: every regular file once, or the limit the tree exceeds.
-/

namespace SortingHat
open Posix Effect

/-- A folder of a tree: the names on the way down, and what it holds. -/
abbrev Branch := List Bytes × Listing

/-- The folder as `bounded_files` keeps it. -/
def Branch.row (b : Branch) : Bytes × Nat := (Path.below b.1, b.1.length)

/-- How many directories a stack of folders has. -/
def foldersOf (stack : List Branch) : Nat := (stack.map fun b => b.2.folders + 1).sum

/-- The regular files below the folders of a stack, by their relative paths. -/
def filesOf (stack : List Branch) : List Bytes :=
  stack.flatMap fun b => b.2.files.map fun more => Path.below (b.1 ++ more)

/-- No folder of the stack is, or has one, too deep. -/
def Shallow (stack : List Branch) : Prop :=
  ∀ b ∈ stack, b.1.length + b.2.height ≤ maxWalkDepth

/-- The folder standing below the open directory `fd`. -/
structure Standing (fs : FileSystem) (fd : Fd) (b : Branch) : Prop where
  names : ∀ n ∈ b.1, Path.isName n = true
  proper : b.2.Proper
  held : ∃ fd' entries, fs.beneath false fd b.1 = .ok fd' ∧
    fs.entries? (fs.ino fd') = some entries ∧ Depicts fs entries b.2

section
variable {fs : FileSystem} {fd fd' : Fd} {entries held : List (Bytes × InodeId)} {l : Listing}
  {names : List Bytes} {stack : List Branch} {result : List Bytes}

/-! ## One folder -/

theorem fileType_of_content {i : InodeId} {content : Bytes} (h : fs.content? i = some content) :
    fileType (fs.node? i) = .file := by
  unfold FileSystem.content? at h
  cases hn : fs.node? i with
  | none => rw [hn] at h; cases h
  | some node =>
    rw [hn] at h
    cases node with
    | regular _ => rfl
    | _ => cases h

theorem fileType_of_entries {i : InodeId} (h : fs.entries? i = some held) :
    fileType (fs.node? i) = .directory := by
  unfold FileSystem.entries? at h
  cases hn : fs.node? i with
  | none => rw [hn] at h; cases h
  | some node =>
    rw [hn] at h
    cases node with
    | directory _ => rfl
    | _ => cases h

theorem fileType_of_neither {i : InodeId} (hfile : fs.content? i = none)
    (hfolder : fs.entries? i = none) :
    fileType (fs.node? i) = .symlink ∨ fileType (fs.node? i) = .other := by
  unfold FileSystem.content? at hfile
  unfold FileSystem.entries? at hfolder
  cases hn : fs.node? i with
  | none => exact .inr rfl
  | some node =>
    rw [hn] at hfile hfolder
    cases node with
    | regular _ => cases hfile
    | directory _ => cases hfolder
    | symlink _ => exact .inl rfl
    | special => exact .inr rfl

/-- What a folder that holds `l` has made of the stack and the result. -/
structure Grown (fs : FileSystem) (fd : Fd) (names : List Bytes) (l : Listing)
    (stack : List Branch) (result : List Bytes) (stack' : List Branch) (result' : List Bytes) :
    Prop where
  standing : ∀ b ∈ stack', Standing fs fd b
  folders : foldersOf stack' = l.folders + foldersOf stack
  shallow : Shallow stack' ↔ names.length + l.height ≤ maxWalkDepth ∧ Shallow stack
  files : (result' ++ filesOf stack').Perm (result ++ filesOf ((names, l) :: stack))
  bound : result'.length ≤ maxWalkFiles

/-- How the entries of a folder that holds `l` are taken in. -/
def Adds (fs : FileSystem) (fd : Fd) (names : List Bytes) (l : Listing) (stack : List Branch)
    (result : List Bytes) : Except ServiceError (List (Bytes × Nat) × List Bytes) → Prop
  | .ok (pending, result') => ∃ stack', pending = stack'.map Branch.row ∧
    Grown fs fd names l stack result stack' result'
  | .error e => e = .limit ∧ maxWalkFiles < result.length + l.files.length

theorem Adds.of {l' : Listing} {stack₁ : List Branch} {result₁ : List Bytes}
    {r : Except ServiceError (List (Bytes × Nat) × List Bytes)}
    (h : Adds fs fd names l' stack₁ result₁ r)
    (hfolders : l'.folders + foldersOf stack₁ = l.folders + foldersOf stack)
    (hshallow : names.length + l'.height ≤ maxWalkDepth ∧ Shallow stack₁ ↔
      names.length + l.height ≤ maxWalkDepth ∧ Shallow stack)
    (hfiles : (result₁ ++ filesOf ((names, l') :: stack₁)).Perm
      (result ++ filesOf ((names, l) :: stack)))
    (hcount : result₁.length + l'.files.length ≤ result.length + l.files.length) :
    Adds fs fd names l stack result r := by
  cases r with
  | error e => exact ⟨h.1, Nat.lt_of_lt_of_le h.2 hcount⟩
  | ok r =>
    obtain ⟨stack', hpending, hgrown⟩ := h
    exact ⟨stack', hpending, hgrown.standing, hgrown.folders.trans hfolders,
      hgrown.shallow.trans hshallow, hgrown.files.trans hfiles, hgrown.bound⟩

theorem filesOf_cons : filesOf ((names, l) :: stack) =
    l.files.map (fun more => Path.below (names ++ more)) ++ filesOf stack := rfl

/-- **What one folder adds**: its files, and its folders with all they hold. -/
theorem addEntries_depicts (h : Depicts fs entries l) (hl : l.Proper)
    (hnames : ∀ n ∈ names, Path.isName n = true) (hdepth : names.length ≤ maxWalkDepth)
    (hwalk : fs.beneath false fd names = .ok fd') (hheld : fs.entries? (fs.ino fd') = some held)
    (hlookup : ∀ e ∈ entries, held.lookup e.1 = some e.2)
    (hstack : ∀ b ∈ stack, Standing fs fd b) (hresult : result.length ≤ maxWalkFiles) :
    Adds fs fd names l stack result (addEntries (Path.below names) names.length
      (entries.map fun e => (e.1, fileType (fs.node? e.2))) (stack.map Branch.row) result) := by
  induction h generalizing stack result with
  | empty =>
    refine ⟨stack, rfl, hstack, ?_, ?_, ?_, hresult⟩
    · simp [Listing.folders]
    · simp [Listing.height, hdepth]
    · exact .refl _
  | @file name i content entries rest hi hrest ih =>
    obtain ⟨hname, -, hproper⟩ := hl
    have hlookup' := fun e he => hlookup e (List.mem_cons_of_mem _ he)
    simp only [List.map_cons, fileType_of_content hi, addEntries, Path.join_below hnames hname]
    split
    · next hfull =>
      refine ⟨rfl, ?_⟩
      rw [Listing.files, List.length_cons]
      omega
    · next hroom =>
      apply (ih hproper hlookup' hstack ?_).of
      · rfl
      · rfl
      · rw [filesOf_cons, filesOf_cons, Listing.files, List.map_cons, List.append_assoc]
        exact .refl _
      · simp only [Listing.files, List.length_append, List.length_cons, List.length_nil]
        omega
      · rw [List.length_append, List.length_singleton]
        omega
  | @other name i entries rest hfile hfolder hrest ih =>
    have hlookup' := fun e he => hlookup e (List.mem_cons_of_mem _ he)
    rcases fileType_of_neither hfile hfolder with hkind | hkind
    all_goals
      simp only [List.map_cons, hkind, addEntries]
      exact (ih hl.2.2 hlookup' hstack hresult).of rfl .rfl (.refl _) (Nat.le_refl _)
  | @folder name i inner entries inside rest hi hinside hrest _ ih =>
    obtain ⟨hname, -, hinner, hproper⟩ := hl
    have hlookup' := fun e he => hlookup e (List.mem_cons_of_mem _ he)
    simp only [List.map_cons, fileType_of_entries hi, addEntries, Path.join_below hnames hname]
    have hstands : Standing fs fd (names ++ [name], inside) := by
      refine ⟨?_, hinner, (name, i) :: fd', inner, ?_, hi, hinside⟩
      · intro n hn
        rcases List.mem_append.mp hn with hn | hn
        · exact hnames n hn
        · rw [List.mem_singleton.mp hn]
          exact hname
      · rw [FileSystem.beneath_append, hwalk]
        show fs.beneath false fd' [name] = _
        have hfound := hlookup (name, i) List.mem_cons_self
        rw [FileSystem.beneath_name hname hheld hfound (FileSystem.target?_of_entries hi)]
        rfl
    have hpush : ((Path.below (names ++ [name]), names.length + 1) :: stack.map Branch.row) =
        (((names ++ [name], inside) :: stack).map Branch.row) := by
      simp [Branch.row]
    rw [hpush]
    apply (ih hproper hlookup' (List.forall_mem_cons.mpr ⟨hstands, hstack⟩) hresult).of
    · simp only [foldersOf, Listing.folders, List.map_cons, List.sum_cons]
      omega
    · have hheight : names.length + (Listing.folder name inside rest).height ≤ maxWalkDepth ↔
          names.length + rest.height ≤ maxWalkDepth ∧
            (names ++ [name]).length + inside.height ≤ maxWalkDepth := by
        rw [Listing.height, List.length_append, List.length_singleton]
        omega
      rw [hheight, Shallow, List.forall_mem_cons, and_assoc]
      rfl
    · apply List.Perm.append_left
      have hinside : (inside.files.map (name :: ·)).map (fun more => Path.below (names ++ more)) =
          inside.files.map fun more => Path.below (names ++ [name] ++ more) := by
        rw [List.map_map]
        apply List.map_congr_left
        intro more _
        simp
      rw [filesOf_cons, filesOf_cons, filesOf_cons, Listing.files, List.map_append, hinside,
        ← List.append_assoc]
      exact List.perm_append_comm.append_right _
    · rw [Listing.files, List.length_append]
      omega

/-! ## The loop -/

/-- The stack and the result are within what is left of the limits. -/
structure Within (directories : Nat) (stack : List Branch) (result : List Bytes) : Prop where
  folders : foldersOf stack ≤ directories
  shallow : Shallow stack
  files : result.length + (filesOf stack).length ≤ maxWalkFiles

/-- Why a call on the tree can fail: it is made to, or the path of a directory below `fd`,
name by name, is one the kernel does not take. -/
def Unreadable (A : Tick → Prop) (fs : FileSystem) (root : Bytes) (fd : Fd) : Prop :=
  (∃ t e, A t ∧ t.fault = some e) ∨
    ∃ names fd' e, (∀ n ∈ names, Path.isName n = true) ∧ fs.beneath false fd names = .ok fd' ∧
      fs.isDirectory (fs.ino fd') = true ∧
      FileSystem.admissible (Path.join root (Path.below names)) = .error e

/-- A folder that has been read counts for one directory, and is within the limits as
far as what it adds is. -/
theorem Grown.within {stack' : List Branch} {result' : List Bytes} {directories : Nat}
    (h : Grown fs fd names l stack result stack' result') :
    Within directories stack' result' ↔ Within (directories + 1) ((names, l) :: stack) result := by
  have hfolders : foldersOf ((names, l) :: stack) = foldersOf stack' + 1 := by
    rw [h.folders]
    simp only [foldersOf, List.map_cons, List.sum_cons]
    omega
  have hshallow : Shallow ((names, l) :: stack) ↔ Shallow stack' := by
    rw [h.shallow, Shallow, List.forall_mem_cons]
    rfl
  have hfiles := h.files.length_eq
  rw [List.length_append, List.length_append] at hfiles
  constructor
  · intro hwithin
    refine ⟨?_, hshallow.mpr hwithin.shallow, hfiles ▸ hwithin.files⟩
    rw [hfolders]
    exact Nat.succ_le_succ hwithin.folders
  · intro hwithin
    refine ⟨?_, hshallow.mp hwithin.shallow, hfiles ▸ hwithin.files⟩
    have := hwithin.folders
    omega

variable {A : Tick → Prop} {root : Bytes} {s : Service} {w : World}

/-- The directory of a folder on the stack is read, or cannot be. -/
theorem readDir_stands {b : Branch} (hroot : fs.Leads root fd) (hb : Standing fs fd b) :
    (∃ entries, fs.readDir (Path.join root (Path.below b.1)) = .ok entries ∧
      ∃ fd', fs.beneath false fd b.1 = .ok fd' ∧ fs.entries? (fs.ino fd') = some entries ∧
        Depicts fs entries b.2) ∨
      (∃ e, fs.readDir (Path.join root (Path.below b.1)) = .error e) ∧ Unreadable A fs root fd := by
  obtain ⟨fd', entries, hwalk, he, hdepicts⟩ := hb.held
  have hdir : fs.isDirectory (fs.ino fd') = true := Option.isSome_iff_exists.mpr ⟨entries, he⟩
  cases ha : FileSystem.admissible (Path.join root (Path.below b.1)) with
  | error e =>
    exact .inr ⟨⟨e, FileSystem.readDir_inadmissible ha⟩,
      .inr ⟨b.1, fd', e, hb.names, hwalk, hdir, ha⟩⟩
  | ok _ =>
    have hleads := hroot.below hb.names hwalk hdir
    exact .inl ⟨entries, hleads.readDir ha he, fd', hwalk, he, hdepicts⟩

/-- **The loop is exact** from any stack of folders of a tree that does not change. -/
theorem walkPending_exact (hA : ∀ t, A t → t.Alone) (hroot : w.fs.Leads root fd)
    (directories : Nat) (hstack : ∀ b ∈ stack, Standing w.fs fd b)
    (hresult : result.length ≤ maxWalkFiles) :
    wpS A (walkPending root directories (stack.map Branch.row) result)
      (fun files s' w' => s' = s ∧ w' = w ∧ Within directories stack result ∧
        files.Perm (result ++ filesOf stack))
      (fun e s' w' => s' = s ∧ w' = w ∧ (e = .limit ∧ ¬ Within directories stack result ∨
        (∃ errno, e = .io errno) ∧ Unreadable A w.fs root fd))
      (fun _ => True) s w := by
  induction directories generalizing stack result with
  | zero =>
    cases stack with
    | nil =>
      refine ⟨rfl, rfl, ⟨Nat.le_refl 0, by simp [Shallow], hresult⟩, ?_⟩
      rw [filesOf, List.flatMap_nil, List.append_nil]
    | cons b stack =>
      refine ⟨rfl, rfl, .inl ⟨rfl, fun hwithin => ?_⟩⟩
      have := hwithin.folders
      simp [foldersOf] at this
  | succ directories ih =>
    cases stack with
    | nil =>
      refine ⟨rfl, rfl, ⟨Nat.zero_le _, by simp [Shallow], hresult⟩, ?_⟩
      rw [filesOf, List.flatMap_nil, List.append_nil]
    | cons b stack =>
      obtain ⟨names, l⟩ := b
      obtain ⟨hb, hrest⟩ := List.forall_mem_cons.mp hstack
      rw [List.map_cons, Branch.row, walkPending]
      refine (wpS_bind _ _).mpr ((wpS_failIf _ _).mpr ⟨fun hdeep => ?_, fun hdeep => ?_⟩)
      · refine ⟨rfl, rfl, .inl ⟨rfl, fun hwithin => ?_⟩⟩
        have := hwithin.shallow (names, l) List.mem_cons_self
        omega
      refine (wpS_bind _ _).mpr ((wpS_embed _ _).mpr ((wpE_inPart _ _).mpr
        (look_wp hA trivial ?_ ?_ ?_)))
      · exact fun t e ht hfault => ⟨rfl, rfl, .inr ⟨⟨e, rfl⟩, .inl ⟨t, e, ht, hfault⟩⟩⟩
      all_goals intro outcome houtcome
      all_goals
        change (w.fs.readDir (Path.join root (Path.below names)) >>= fun listed =>
          pure (listed.map fun e => (e.1, fileType (w.fs.node? e.2)))) = _ at houtcome
      · obtain ⟨entries, hread, fd', hwalk, he, hdepicts⟩ | ⟨⟨e, hread⟩, -⟩ :=
          readDir_stands (A := A) hroot hb
        · rw [hread] at houtcome
          obtain rfl := Except.ok.inj houtcome
          have hadds := addEntries_depicts hdepicts hb.proper hb.names (Nat.not_lt.mp hdeep) hwalk he
            (fun e hm => hdepicts.lookup_eq hb.proper hm) hrest hresult
          rw [wpS_bind]
          cases hadd : addEntries (Path.below names) names.length
              (entries.map fun e => (e.1, fileType (w.fs.node? e.2))) (stack.map Branch.row)
              result with
          | error e =>
            rw [hadd] at hadds
            obtain ⟨rfl, hmany⟩ := hadds
            refine ⟨rfl, rfl, .inl ⟨rfl, fun hwithin => ?_⟩⟩
            have := hwithin.files
            rw [filesOf_cons, List.length_append, List.length_map] at this
            dsimp only at hmany
            omega
          | ok next =>
            obtain ⟨pending, result'⟩ := next
            rw [hadd] at hadds
            obtain ⟨stack', rfl, hgrown⟩ := hadds
            rw [check, wpS_pure]
            refine wpS_mono (ih hgrown.standing hgrown.bound) ?_ ?_ fun _ h => h
            · rintro files s' w' ⟨rfl, rfl, hwithin, hfiles⟩
              exact ⟨rfl, rfl, hgrown.within.mp hwithin, hfiles.trans hgrown.files⟩
            · rintro e s' w' ⟨rfl, rfl, h⟩
              refine ⟨rfl, rfl, h.imp_left fun hlimit => ⟨hlimit.1, fun hwithin => ?_⟩⟩
              exact hlimit.2 (hgrown.within.mpr hwithin)
        · rw [hread] at houtcome
          cases houtcome
      · obtain ⟨entries, hread, -⟩ | ⟨-, hunreadable⟩ := readDir_stands (A := A) hroot hb
        · rw [hread] at houtcome
          cases houtcome
        · exact ⟨rfl, rfl, .inr ⟨⟨outcome, rfl⟩, hunreadable⟩⟩

/-! ## The walk -/

/-- The tree is within what `bounded_files` reads: its directories with the root, their
depth, and its regular files. -/
structure Walkable (tree : Listing) : Prop where
  folders : tree.folders + 1 ≤ maxWalkDirectories
  height : tree.height ≤ maxWalkDepth
  files : tree.files.length ≤ maxWalkFiles

theorem within_root {tree : Listing} :
    Within maxWalkDirectories [([], tree)] [] ↔ Walkable tree := by
  constructor
  · rintro ⟨hfolders, hshallow, hfiles⟩
    refine ⟨by simpa [foldersOf] using hfolders, ?_, by simpa [filesOf] using hfiles⟩
    simpa using hshallow ([], tree) List.mem_cons_self
  · rintro ⟨hfolders, hheight, hfiles⟩
    refine ⟨by simpa [foldersOf] using hfolders, ?_, by simpa [filesOf] using hfiles⟩
    simpa [Shallow] using hheight

/-- Each file of a tree is listed once, by its path. -/
theorem filesOf_root {tree : Listing} (h : Depicts fs entries tree) (hl : tree.Proper)
    (he : fs.entries? (fs.ino fd) = some entries) :
    (filesOf [([], tree)]).Nodup ∧ ∀ path, path ∈ filesOf [([], tree)] ↔
      ∃ names, (∀ n ∈ names, Path.isName n = true) ∧ fs.FileBelow fd names ∧
        path = Path.below names := by
  have heq : filesOf [([], tree)] = tree.files.map Path.below := by
    rw [filesOf_cons, filesOf, List.flatMap_nil, List.append_nil]
    rfl
  rw [heq]
  constructor
  · refine List.Nodup.map_on (fun names hm names' hm' hsame => ?_) (Listing.files_nodup hl)
    exact Path.below_inj (Listing.isName_of_mem_files hl hm)
      (Listing.isName_of_mem_files hl hm') hsame
  · intro path
    rw [List.mem_map]
    constructor
    · rintro ⟨names, hm, rfl⟩
      have hnames := Listing.isName_of_mem_files hl hm
      exact ⟨names, hnames, (h.mem_files hl he hnames).mp hm, rfl⟩
    · rintro ⟨names, hnames, hbelow, rfl⟩
      exact ⟨names, (h.mem_files hl he hnames).mpr hbelow, rfl⟩

/-- **The bounded walk is exact.** On a tree that does not change it ends, and unless a
call on the tree fails, it returns every regular file below the root once where the tree
is within the limits, and otherwise ends at a limit. -/
theorem boundedFiles_exact {tree : Listing} (hroot : w.fs.openDirectory root = .ok fd)
    (hentries : w.fs.entries? (w.fs.ino fd) = some entries) (htree : Depicts w.fs entries tree)
    (hproper : tree.Proper) (ticks : Nat → Tick) (hticks : ∀ n, (ticks n).Alone) :
    ∃ n r, ((boundedFiles root).start s).after ((List.range n).map ticks) w = (.done (r, s), w) ∧
      ((∃ files, r = .ok files ∧ Walkable tree ∧ files.Nodup ∧ ∀ path, path ∈ files ↔
          ∃ names, (∀ n ∈ names, Path.isName n = true) ∧ w.fs.FileBelow fd names ∧
            path = Path.below names) ∨
        (r = .error .limit ∧ ¬ Walkable tree) ∨
        ((∃ e, r = .error (.io e)) ∧ Unreadable (fun t => ∃ n, t = ticks n) w.fs root fd)) := by
  have hstands : Standing w.fs fd ([], tree) :=
    ⟨nofun, hproper, fd, entries, by rw [FileSystem.beneath], hentries, htree⟩
  have halone : ∀ t, (∃ n, t = ticks n) → t.Alone := by
    rintro _ ⟨n, rfl⟩
    exact hticks n
  have hnone : ([] : List Bytes).length ≤ maxWalkFiles := Nat.zero_le _
  have hwp := walkPending_exact (s := s) halone (FileSystem.leads_of_openDirectory hroot)
    maxWalkDirectories (List.forall_mem_singleton.mpr hstands) hnone
  obtain ⟨n, ⟨r, s'⟩, w', hrun⟩ := Prog.exists_finish_along ticks ((boundedFiles root).start s) w
  have hholds := Prog.wp_after hwp ((List.range n).map ticks) (by simp)
  have hstart : (walkPending root maxWalkDirectories ([([], tree)].map Branch.row) []).start s =
      (boundedFiles root).start s := rfl
  rw [hstart, hrun] at hholds
  refine ⟨n, r, ?_⟩
  cases r with
  | ok files =>
    obtain ⟨rfl, rfl, hwithin, hfiles⟩ := hholds
    obtain ⟨hnodup, hmem⟩ := filesOf_root htree hproper hentries
    refine ⟨hrun, .inl ⟨files, rfl, within_root.mp hwithin, hfiles.nodup_iff.mpr hnodup, ?_⟩⟩
    exact fun path => hfiles.mem_iff.trans (hmem path)
  | error e =>
    obtain ⟨rfl, rfl, ⟨rfl, hwithin⟩ | ⟨⟨errno, rfl⟩, hunreadable⟩⟩ := hholds
    · exact ⟨hrun, .inr (.inl ⟨rfl, fun hwalkable => hwithin (within_root.mpr hwalkable)⟩)⟩
    · exact ⟨hrun, .inr (.inr ⟨⟨errno, rfl⟩, hunreadable⟩)⟩

end

/-- What the small file system holds. -/
def sampleTree : Listing :=
  .folder (bytes "w") (.file (bytes "a") .empty)
    (.folder (bytes "d") .empty (.folder (bytes "x") .empty .empty))

theorem sampleTree_depicts : Depicts sampleFiles
    [(bytes "w", ⟨0, 2⟩), (bytes "d", ⟨0, 3⟩), (bytes "x", ⟨1, 1⟩)] sampleTree :=
  .folder rfl (.file rfl .empty) (.folder rfl .empty (.folder rfl .empty .empty))

theorem sampleTree_proper : sampleTree.Proper := by
  refine ⟨by decide, by decide, ⟨by decide, by decide, trivial⟩, by decide, by decide, trivial,
    by decide, by decide, trivial, trivial⟩

/-- The three folders are read, and the one file is found. -/
theorem boundedFiles_exact_sample :
    ∃ n files, ((boundedFiles (bytes "/")).start ⟨.initial, fun _ => .default⟩).after
        ((List.range n).map fun _ => Tick.quiet 0) (Machine.initial sampleFiles).world =
          (.done (.ok files, ⟨.initial, fun _ => .default⟩), (Machine.initial sampleFiles).world) ∧
      Walkable sampleTree ∧ files.Nodup ∧ ∀ path, path ∈ files ↔
        ∃ names, (∀ n ∈ names, Path.isName n = true) ∧ sampleFiles.FileBelow [] names ∧
          path = Path.below names := by
  have hroot : (Machine.initial sampleFiles).world.fs.openDirectory (bytes "/") = .ok [] := rfl
  obtain ⟨n, r, hrun, hends⟩ := boundedFiles_exact (s := ⟨.initial, fun _ => .default⟩) hroot rfl
    sampleTree_depicts sampleTree_proper (fun _ => Tick.quiet 0) fun _ => rfl
  have hcomputed : ((boundedFiles (bytes "/")).start ⟨.initial, fun _ => .default⟩).after
      (List.replicate 4 (Tick.quiet 0)) (Machine.initial sampleFiles).world =
        (.done (.ok [bytes "w/a"], ⟨.initial, fun _ => .default⟩),
          (Machine.initial sampleFiles).world) := rfl
  -- a finished walk is not changed by more ticks
  have hmore := Prog.after_finished (List.replicate 4 (Tick.quiet 0)) hrun
  have hmore' := Prog.after_finished (List.replicate n (Tick.quiet 0)) hcomputed
  rw [List.map_const', List.length_range, List.replicate_append_replicate] at hmore
  rw [List.replicate_append_replicate, Nat.add_comm, hmore] at hmore'
  obtain rfl : r = .ok [bytes "w/a"] :=
    (Prod.mk.inj (Prog.done.inj (Prod.mk.inj hmore').1)).1
  rcases hends with ⟨files, hfiles, hwalkable, hnodup, hmem⟩ | ⟨hlimit, -⟩ | ⟨⟨e, he⟩, -⟩
  · exact ⟨n, files, hfiles ▸ hrun, hwalkable, hnodup, hmem⟩
  · cases hlimit
  · cases he

end SortingHat
