import SortingHat.Posix.Walk

/-!
# What a call does to the entries

Each call that changes the file system, as what it makes of the entries and of the
inodes that are not directories.

* `Renamed`: a rename without replacement;
* `Created`, `Changed`: an exclusive creation, and a change to one file;
* `Unlinked`: an entry removed.
-/

namespace Posix.FileSystem

variable {fs fs' : FileSystem} {i j : InodeId} {s t : Slot}

/-! ## Entering and dropping -/

theorem node?_setNode {node : Node} :
    (fs.setNode i node).node? j = if j = i then (fs.node? i).map fun _ => node else fs.node? j := by
  unfold setNode modify node?
  by_cases h : j = i
  · subst h
    simp only [Function.update_self, if_true, Option.map_map]
    rfl
  · simp only [Function.update_of_ne h, h, if_false]

theorem entries?_setNode {entries new : List (Bytes × InodeId)} (h : fs.entries? i = some entries) :
    (fs.setNode i (.directory new)).entries? j = if j = i then some new else fs.entries? j := by
  unfold entries? at h ⊢
  rw [node?_setNode]
  by_cases hj : j = i
  · simp only [hj, if_true]
    cases hn : fs.node? i with
    | none => rw [hn] at h; cases h
    | some node => rfl
  · simp only [hj, if_false]

/-- Replacing the entries of a directory leaves every other kind of inode alone. -/
theorem inodes_setNode {entries : List (Bytes × InodeId)} {node : Node}
    (h : fs.entries? i = some entries) (hj : fs.isDirectory j = false) :
    (fs.setNode i node).inodes j = fs.inodes j := by
  apply Function.update_of_ne
  rintro rfl
  unfold isDirectory at hj
  rw [h] at hj
  cases hj

theorem isDirectory_setNode {entries new : List (Bytes × InodeId)} (h : fs.entries? i = some entries) :
    (fs.setNode i (.directory new)).isDirectory j = fs.isDirectory j := by
  unfold isDirectory
  rw [entries?_setNode h]
  by_cases hj : j = i
  · rw [if_pos hj, hj, h]
    rfl
  · rw [if_neg hj]

theorem lookup_filter {entries : List (Bytes × InodeId)} {name other : Bytes} :
    (entries.filter fun e => e.1 ≠ name).lookup other =
      if other = name then none else entries.lookup other := by
  induction entries with
  | nil => simp
  | cons e entries ih =>
    obtain ⟨key, k⟩ := e
    by_cases hkey : key = name
    · rw [List.filter_cons_of_neg (by simp [hkey]), ih]
      by_cases ho : other = name
      · rw [if_pos ho, if_pos ho]
      · rw [if_neg ho, if_neg ho, List.lookup_cons]
        have : (other == key) = false := by simp [hkey, ho]
        rw [this]
    · rw [List.filter_cons_of_pos (by simp [hkey]), List.lookup_cons, List.lookup_cons, ih]
      by_cases hok : other = key
      · have hname : other ≠ name := hok ▸ hkey
        simp [hok, hkey]
      · have : (other == key) = false := by simp [hok]
        rw [this]

theorem lookup_append {entries : List (Bytes × InodeId)} {name other : Bytes}
    (h : entries.lookup name = none) :
    (entries ++ [(name, i)]).lookup other = if other = name then some i else entries.lookup other := by
  rw [List.lookup_append]
  by_cases ho : other = name
  · rw [if_pos ho, ho, h]
    simp
  · rw [if_neg ho]
    have hno : (other == name) = false := by simp [ho]
    have : List.lookup other [(name, i)] = none := by simp [List.lookup_cons, hno]
    rw [this, Option.or_none]

theorem slot_eq_iff {dir : InodeId} {name : Bytes} : s = ⟨dir, name⟩ ↔ s.dir = dir ∧ s.name = name := by
  cases s
  simp

theorem linkAt?_drop (hdir : fs.isDirectory s.dir = true) :
    (fs.drop s).linkAt? t = if t = s then none else fs.linkAt? t := by
  obtain ⟨entries, he⟩ := Option.isSome_iff_exists.mp hdir
  unfold drop linkAt?
  simp only [he]
  rw [entries?_setNode he]
  by_cases hd : t.dir = s.dir
  · rw [if_pos hd, Option.bind_some, lookup_filter]
    by_cases hn : t.name = s.name
    · rw [if_pos hn, if_pos (slot_eq_iff.mpr ⟨hd, hn⟩)]
    · rw [if_neg hn, if_neg fun h => hn (congrArg Slot.name h), hd, he]
      rfl
  · rw [if_neg hd, if_neg fun h => hd (congrArg Slot.dir h)]

theorem linkAt?_enter (hdir : fs.isDirectory s.dir = true) (hfree : fs.linkAt? s = none) :
    (fs.enter s i).linkAt? t = if t = s then some i else fs.linkAt? t := by
  obtain ⟨entries, he⟩ := Option.isSome_iff_exists.mp hdir
  have hnone : entries.lookup s.name = none := by
    unfold linkAt? at hfree
    rw [he] at hfree
    exact hfree
  unfold enter linkAt?
  simp only [he]
  rw [entries?_setNode he]
  by_cases hd : t.dir = s.dir
  · rw [if_pos hd, Option.bind_some, lookup_append hnone]
    by_cases hn : t.name = s.name
    · rw [if_pos hn, if_pos (slot_eq_iff.mpr ⟨hd, hn⟩)]
    · rw [if_neg hn, if_neg fun h => hn (congrArg Slot.name h), hd, he]
      rfl
  · rw [if_neg hd, if_neg fun h => hd (congrArg Slot.dir h)]

theorem isDirectory_drop : (fs.drop s).isDirectory j = fs.isDirectory j := by
  unfold drop
  split
  · next he => exact isDirectory_setNode he
  · rfl

theorem isDirectory_enter : (fs.enter s i).isDirectory j = fs.isDirectory j := by
  unfold enter
  split
  · next he => exact isDirectory_setNode he
  · rfl

theorem inodes_drop (hj : fs.isDirectory j = false) : (fs.drop s).inodes j = fs.inodes j := by
  unfold drop
  split
  · next he => exact inodes_setNode he hj
  · rfl

theorem inodes_enter (hj : fs.isDirectory j = false) : (fs.enter s i).inodes j = fs.inodes j := by
  unfold enter
  split
  · next he => exact inodes_setNode he hj
  · rfl

/-! ## Calls -/

/-- Directories stay directories, and of the other inodes only those in `only` have
changed. -/
structure Alters (fs fs' : FileSystem) (only : InodeId → Prop) : Prop where
  directory : ∀ j, fs'.isDirectory j = fs.isDirectory j
  inodes : ∀ j, ¬ only j → fs.isDirectory j = false → fs'.inodes j = fs.inodes j
  root : fs'.root = fs.root
  cwd : fs'.cwd = fs.cwd

namespace Alters

variable {only more : InodeId → Prop} {fs'' : FileSystem}

theorem refl : Alters fs fs only := ⟨fun _ => rfl, fun _ _ _ => rfl, rfl, rfl⟩

theorem trans (h : Alters fs fs' only) (h' : Alters fs' fs'' only) : Alters fs fs'' only where
  directory j := (h'.directory j).trans (h.directory j)
  inodes j hj hd := (h'.inodes j hj ((h.directory j).trans hd)).trans (h.inodes j hj hd)
  root := h'.root.trans h.root
  cwd := h'.cwd.trans h.cwd

theorem weaken (h : Alters fs fs' only) (hm : ∀ j, only j → more j) : Alters fs fs' more where
  directory := h.directory
  inodes j hj := h.inodes j fun ho => hj (hm j ho)
  root := h.root
  cwd := h.cwd

theorem content? (h : Alters fs fs' only) (hj : ¬ only j) : fs'.content? j = fs.content? j := by
  cases hd : fs.isDirectory j with
  | false =>
    unfold FileSystem.content? node?
    rw [h.inodes j hj hd]
  | true =>
    -- a directory has no content, before or after
    have hnone : ∀ g : FileSystem, g.isDirectory j = true → g.content? j = none := by
      intro g hg
      unfold isDirectory entries? at hg
      unfold FileSystem.content?
      cases hn : g.node? j with
      | none => rfl
      | some node =>
        rw [hn] at hg
        cases node <;> first | rfl | cases hg
    rw [hnone fs hd, hnone fs' ((h.directory j).trans hd)]

theorem ino (h : Alters fs fs' only) (fd : Fd) : fs'.ino fd = fs.ino fd := by
  cases fd with
  | nil => exact h.root
  | cons e fd => rfl

end Alters

theorem alters_drop : Alters fs (fs.drop s) fun _ => False where
  directory _ := isDirectory_drop
  inodes _ _ hd := inodes_drop hd
  root := by unfold drop; split <;> rfl
  cwd := by unfold drop; split <;> rfl

theorem alters_enter : Alters fs (fs.enter s i) fun _ => False where
  directory _ := isDirectory_enter
  inodes _ _ hd := inodes_enter hd
  root := by unfold enter; split <;> rfl
  cwd := by unfold enter; split <;> rfl

/-- The entry `s` has become the entry `t`. -/
structure Renamed (fs fs' : FileSystem) (s t : Slot) (i : InodeId) : Prop
    extends Alters fs fs' fun _ => False where
  source_dir : fs.isDirectory s.dir = true
  target_dir : fs.isDirectory t.dir = true
  same_device : s.dir.device = t.dir.device
  device : i.device = s.dir.device
  found : fs.linkAt? s = some i
  free : fs.linkAt? t = none
  entry : ∀ u, fs'.linkAt? u = if u = t then some i else if u = s then none else fs.linkAt? u

theorem renamed_of_ok {srcDir dstDir : Fd} {srcName dstName : Bytes}
    (h : fs.renameNoReplace srcDir srcName dstDir dstName = .ok fs') :
    ∃ i, Renamed fs fs' ⟨fs.ino srcDir, srcName⟩ ⟨fs.ino dstDir, dstName⟩ i := by
  unfold renameNoReplace at h
  cases hs : admissible srcName with
  | error e => rw [hs] at h; cases h
  | ok u =>
    cases ht : admissible dstName with
    | error e => rw [hs, ht] at h; cases h
    | ok u =>
      rw [hs, ht] at h
      simp only [bind, Except.bind] at h
      split at h
      · cases h
      · next hdevice =>
        split at h
        · cases h
        · next hdirs =>
          simp only [Bool.or_eq_true, Bool.not_eq_true', not_or, Bool.not_eq_false] at hdirs
          split at h
          · cases h
          · next i hfound =>
            split at h
            · cases h
            · next hfree =>
              split at h
              · cases h
              · next hmount =>
                split at h
                · cases h
                · obtain rfl := Except.ok.inj h
                  have hfree : fs.linkAt? ⟨fs.ino dstDir, dstName⟩ = none := by simpa using hfree
                  have hne : (⟨fs.ino dstDir, dstName⟩ : Slot) ≠ ⟨fs.ino srcDir, srcName⟩ := by
                    intro he
                    rw [he, hfound] at hfree
                    cases hfree
                  have hdropped : (fs.drop ⟨fs.ino srcDir, srcName⟩).linkAt? ⟨fs.ino dstDir, dstName⟩ =
                      none := by
                    rw [linkAt?_drop hdirs.1, if_neg hne]
                    exact hfree
                  refine ⟨i, { alters_drop.trans alters_enter with
                    source_dir := hdirs.1, target_dir := hdirs.2, same_device := not_not.mp hdevice
                    device := not_not.mp hmount, found := hfound, free := hfree, entry := ?_ }⟩
                  intro u
                  rw [linkAt?_enter (isDirectory_drop.trans hdirs.2) hdropped, linkAt?_drop hdirs.1]

/-- The file system with another inode at `i`. -/
def put (fs : FileSystem) (i : InodeId) (inode : Option Inode) : FileSystem :=
  { fs with inodes := Function.update fs.inodes i inode }

theorem inodes_put_self {inode : Option Inode} : (fs.put i inode).inodes i = inode :=
  Function.update_self ..

theorem inodes_put_of_ne {inode : Option Inode} (h : j ≠ i) : (fs.put i inode).inodes j = fs.inodes j :=
  Function.update_of_ne h ..

theorem modify_eq {f : Inode → Inode} : fs.modify i f = fs.put i ((fs.inodes i).map f) := rfl

/-- An inode with the same entries. -/
theorem entries?_put {inode : Option Inode}
    (h : (inode.map Inode.node).bind Node.entries? = fs.entries? i) :
    (fs.put i inode).entries? j = fs.entries? j := by
  unfold entries? node? at *
  by_cases hj : j = i
  · subst hj
    rw [inodes_put_self]
    exact h
  · rw [inodes_put_of_ne hj]

theorem alters_put {inode : Option Inode}
    (h : (inode.map Inode.node).bind Node.entries? = fs.entries? i) :
    Alters fs (fs.put i inode) fun j => j = i where
  directory j := by
    unfold isDirectory
    rw [entries?_put h]
  inodes j hj _ := inodes_put_of_ne hj
  root := rfl
  cwd := rfl

theorem linkAt?_put {inode : Option Inode}
    (h : (inode.map Inode.node).bind Node.entries? = fs.entries? i) :
    (fs.put i inode).linkAt? t = fs.linkAt? t := by
  unfold linkAt?
  rw [entries?_put h]

/-- The new empty file `i` stands at `s`. -/
structure Created (fs fs' : FileSystem) (s : Slot) (i : InodeId) : Prop
    extends Alters fs fs' fun j => j = i where
  dir : fs.isDirectory s.dir = true
  free : fs.linkAt? s = none
  fresh : fs.inodes i = none
  content : fs'.content? i = some []
  entry : ∀ u, fs'.linkAt? u = if u = s then some i else fs.linkAt? u

theorem created_enter {inode : Inode} (hnode : inode.node = .regular [])
    (hdir : fs.isDirectory s.dir = true) (hfree : fs.linkAt? s = none) (hfresh : fs.inodes i = none) :
    Created fs ((fs.put i (some inode)).enter s i) s i := by
  have hsame : ((some inode).map Inode.node).bind Node.entries? = fs.entries? i := by
    unfold entries? node?
    rw [hfresh, Option.map_some, hnode]
    rfl
  have hput := alters_put hsame
  refine { hput.trans (alters_enter.weaken fun _ hf => hf.elim) with
    dir := hdir, free := hfree, fresh := hfresh, content := ?_, entry := ?_ }
  · have hregular : (fs.put i (some inode)).isDirectory i = false := by
      unfold isDirectory
      rw [entries?_put hsame, ← hsame, Option.map_some, hnode]
      rfl
    unfold content? node?
    rw [inodes_enter hregular, inodes_put_self, Option.map_some, hnode]
    rfl
  · intro u
    rw [linkAt?_enter ((hput.directory s.dir).trans hdir) ((linkAt?_put hsame).trans hfree),
      linkAt?_put hsame]

theorem created_of_ok {dir fd : Fd} {name : Bytes} {number : Nat} {now : Int}
    (h : fs.createExclusive dir name number now = .ok (fd, fs')) :
    ∃ i, fd = (name, i) :: dir ∧ Created fs fs' ⟨fs.ino dir, name⟩ i := by
  unfold createExclusive at h
  cases ha : admissible name with
  | error e => rw [ha] at h; cases h
  | ok u =>
    rw [ha] at h
    simp only [bind, Except.bind] at h
    split at h
    · cases h
    · next hdir =>
      simp only [Bool.not_eq_true', Bool.not_eq_false] at hdir
      split at h
      · cases h
      · next hfree =>
        split at h
        · cases h
        · next hfresh =>
          obtain ⟨rfl, rfl⟩ := Prod.mk.inj (Except.ok.inj h)
          exact ⟨_, rfl, created_enter rfl hdir (by simpa using hfree) (by simpa using hfresh)⟩

/-- A file has been changed in place. -/
structure Changed (fs fs' : FileSystem) (i : InodeId) : Prop extends Alters fs fs' fun j => j = i where
  entry : ∀ u, fs'.linkAt? u = fs.linkAt? u

theorem changed_modify {f : Inode → Inode}
    (h : ∀ inode, fs.inodes i = some inode → (f inode).node.entries? = inode.node.entries?) :
    Changed fs (fs.modify i f) i := by
  have hsame : (((fs.inodes i).map f).map Inode.node).bind Node.entries? = fs.entries? i := by
    unfold entries? node?
    cases hi : fs.inodes i with
    | none => rfl
    | some inode => exact h inode hi
  exact { alters_put hsame with entry := fun _ => linkAt?_put hsame }

theorem content?_modify {f : Inode → Inode} :
    (fs.modify i f).content? i = ((fs.inodes i).map f).bind fun inode => inode.node.content? := by
  unfold content? node?
  rw [modify_eq, inodes_put_self]
  cases fs.inodes i <;> rfl

/-- Data is written at the end of an open file. -/
theorem changed_of_write {fd : Fd} {data : Bytes} {now : Int}
    (h : fs.write fd data now = .ok fs') :
    Changed fs fs' (fs.ino fd) ∧ ∃ content, fs.content? (fs.ino fd) = some content ∧
      fs'.content? (fs.ino fd) = some (content ++ data) := by
  unfold write at h
  split at h
  · next content hcontent =>
    obtain rfl := Except.ok.inj h
    unfold content? node? at hcontent
    constructor
    · apply changed_modify
      intro inode hi
      rw [hi] at hcontent
      cases hn : inode.node with
      | regular old => rfl
      | _ => simp [hn, Node.content?] at hcontent
    · refine ⟨content, hcontent, ?_⟩
      rw [content?_modify]
      cases hi : fs.inodes (fs.ino fd) with
      | none => rw [hi] at hcontent; cases hcontent
      | some inode => rfl
  · cases h

/-- The entry `s` is gone, its inode one link poorer. -/
structure Unlinked (fs fs' : FileSystem) (s : Slot) (i : InodeId) : Prop
    extends Alters fs fs' fun j => j = i where
  dir : fs.isDirectory s.dir = true
  found : fs.linkAt? s = some i
  entry : ∀ u, fs'.linkAt? u = if u = s then none else fs.linkAt? u
  content : fs'.content? i = fs.content? i

theorem unlinked_of_ok {dir : Fd} {name : Bytes} (h : fs.unlink dir name = .ok fs') :
    ∃ i, Unlinked fs fs' ⟨fs.ino dir, name⟩ i := by
  unfold unlink at h
  cases ha : admissible name with
  | error e => rw [ha] at h; cases h
  | ok u =>
    rw [ha] at h
    simp only [bind, Except.bind] at h
    split at h
    · cases h
    · next hdir =>
      simp only [Bool.not_eq_true', Bool.not_eq_false] at hdir
      split at h
      · cases h
      · next i hfound =>
        split at h
        · cases h
        · next hfile =>
          split at h
          · cases h
          · obtain rfl := Except.ok.inj h
            have hlinks := @changed_modify (fs.drop ⟨fs.ino dir, name⟩) i
              (fun inode => { inode with links := inode.links - 1 }) fun _ _ => rfl
            have hdropped := @alters_drop fs ⟨fs.ino dir, name⟩
            refine ⟨i, { (hdropped.weaken fun _ hf => hf.elim).trans hlinks.toAlters with
              dir := hdir, found := hfound, entry := ?_, content := ?_ }⟩
            · intro u
              rw [hlinks.entry u, linkAt?_drop hdir]
            · rw [content?_modify, ← hdropped.content? (not_false)]
              unfold content? node?
              cases (fs.drop ⟨fs.ino dir, name⟩).inodes i <;> rfl

end Posix.FileSystem
