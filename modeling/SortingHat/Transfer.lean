import SortingHat.Fs
import SortingHat.Posix.Entries
import SortingHat.Service.Steps

/-!
# What the moves do to the files

One rule for each call of `sortinghat-fs` that moves something, for a process that
is alone with the files: which file systems it passes through.

* `sameFilesystemMoveAt_wp`: one rename;
* `verifiedStageCopyAt_wp`, `publishStageAt_wp`: a staged copy and its publication;
* `retireSourceAt_wp`: one unlink.
-/

namespace SortingHat
open Posix Effect FileSystem

section
variable {A : Tick → Prop} {P : Platform} {fs : FileSystem} {K : FileSystem → Prop}
  {E : FsError → FileSystem → Prop}

/-! ## Looking -/

theorem openBeneath_name {fd fd' : Fd} {name : Bytes} {directory noXdev : Bool}
    (hs : Path.slash ∉ name) (hn : Path.isStay name = false)
    (h : fs.openBeneath fd name directory noXdev = .ok fd') :
    fs.isDirectory (fs.ino fd) = true ∧ fs.linkAt? ⟨fs.ino fd, name⟩ = some (fs.ino fd') := by
  unfold FileSystem.openBeneath at h
  cases ha : admissible name with
  | error e => rw [ha] at h; cases h
  | ok u =>
    rw [ha] at h
    simp only [bind, Except.bind] at h
    split at h
    · cases h
    · have hsegs : Path.segments name = [] ++ [name] := List.splitOn_eq_singleton hs
      rw [hsegs] at h
      cases hb : fs.beneath noXdev fd ([] ++ [name]) with
      | error e => rw [hb] at h; cases h
      | ok fd₁ =>
        rw [hb] at h
        dsimp only at h
        split at h
        · cases h
        · obtain rfl := Except.ok.inj h
          obtain ⟨fd₂, hfd₂, hdir, hentry, -⟩ := beneath_snoc hn hb
          rw [beneath] at hfd₂
          cases hfd₂
          exact ⟨hdir, hentry⟩

theorem openAt_wp {parent : Fd} {name : Bytes} {Q : Fd → FileSystem → Prop} (hA : Quiet A) (hK : K fs)
    (hE : ∀ e, E e fs) (hs : Path.slash ∉ name) (hn : Path.isStay name = false)
    (hQ : ∀ fd, fs.isDirectory (fs.ino parent) = true →
      fs.linkAt? ⟨fs.ino parent, name⟩ = some (fs.ino fd) → Q fd fs) :
    wpE A (openAt parent name) Q E K fs := by
  refine (wpE_recast _ _).mpr (look_wp hA hK (fun _ _ _ _ => hE _) ?_ fun _ _ => hE _)
  intro fd hfd
  obtain ⟨hdir, hentry⟩ := openBeneath_name hs hn hfd
  exact hQ fd hdir hentry

theorem identityFd_wp {fd : Fd} {Q : Identity → FileSystem → Prop} (hA : Quiet A) (hK : K fs)
    (hE : ∀ e, E e fs)
    (hQ : ∀ inode, fs.inodes (fs.ino fd) = some inode → inode.links = 1 →
      inode.node.size ≤ maxFileSize → Q (Identity.of (fs.ino fd) inode) fs) :
    wpE A (identityFd fd) Q E K fs := by
  unfold identityFd
  refine (wpE_bind _ _).mpr ((wpE_recast _ _).mpr (look_wp hA hK (fun _ _ _ _ => hE _) ?_
    fun _ _ => hE _))
  rintro ⟨i, inode⟩ hstat
  unfold fstat at hstat
  split at hstat
  · next hinode =>
    obtain ⟨rfl, rfl⟩ := Prod.mk.inj (Except.ok.inj hstat)
    refine (wpE_bind _ _).mpr ((wpE_failIf _ _).mpr ⟨fun _ => hE _, fun hlinks => ?_⟩)
    refine (wpE_bind _ _).mpr ((wpE_failIf _ _).mpr ⟨fun _ => hE _, fun hsize => ?_⟩)
    exact hQ _ hinode (not_not.mp hlinks) (Nat.not_lt.mp hsize)
  · cases hstat

theorem fsync_wp {Q : Unit → FileSystem → Prop} (hA : Quiet A) (hK : K fs) (hE : ∀ e, E e fs)
    (hQ : Q () fs) : wpE A fsync Q E K fs :=
  (wpE_recast _ _).mpr (look_wp hA hK (fun _ _ _ _ => hE _) (fun _ _ => hQ) fun _ _ => hE _)

/-- Reading a file leaves the files alone. -/
theorem hashFrom_keeps {fd : Fd} {fuel : Nat} {hashed : Bytes} {Q : Bytes → FileSystem → Prop}
    (hA : Quiet A) (hK : K fs) (hE : ∀ e, E e fs) (hQ : ∀ data, Q data fs) :
    wpE A (hashFrom fd fuel hashed) Q E K fs := by
  induction fuel generalizing hashed with
  | zero => exact hQ hashed
  | succ fuel ih =>
    unfold hashFrom
    refine (wpE_bind _ _).mpr ((wpE_recast _ _).mpr (lookWith_wp hA hK (fun _ _ _ _ => hE _)
      fun t _ _ => ⟨fun chunk _ => ?_, fun _ _ => hE _⟩))
    by_cases hc : chunk = []
    · rw [if_pos hc]
      exact hQ hashed
    · rw [if_neg hc]
      exact ih

theorem sha256File_wp {fd : Fd} {Q : String → FileSystem → Prop} (hA : Quiet A) (hK : K fs)
    (hE : ∀ e, E e fs) (hQ : ∀ digest, Q digest fs) : wpE A (sha256File P fd) Q E K fs := by
  unfold sha256File
  exact (wpE_bind _ _).mpr (hashFrom_keeps hA hK hE fun _ => hQ _)

/-! ## One rename -/

theorem rename_wp {sourceDir targetDir : Fd} {sourceName targetName : Bytes} {f : Errno → FsError}
    {Q : Unit → FileSystem → Prop} (hA : Quiet A) (hK : K fs) (hE : ∀ e, E e fs)
    (hQ : ∀ i fs', Renamed fs fs' ⟨fs.ino sourceDir, sourceName⟩ ⟨fs.ino targetDir, targetName⟩ i →
      Q () fs') :
    wpE A (recast f (rename sourceDir sourceName targetDir targetName)) Q E K fs := by
  refine (wpE_recast _ _).mpr (change_wp hA hK (fun _ => hE _) fun t a fs' _ h => ?_)
  cases hr : fs.renameNoReplace sourceDir sourceName targetDir targetName with
  | error e => rw [hr] at h; cases h
  | ok fs₁ =>
    rw [hr] at h
    obtain ⟨rfl, rfl⟩ := Prod.mk.inj (Except.ok.inj h)
    obtain ⟨i, hi⟩ := renamed_of_ok hr
    exact hQ i _ hi

/-- One rename of the file whose identity is expected, checked before and after. -/
theorem sameFilesystemMoveAt_wp {sourceParent destinationParent : Fd}
    {sourceName destinationName : Bytes} {expected : Identity} {Q : Unit → FileSystem → Prop}
    (hA : Quiet A) (hK : K fs) (hE : ∀ e, E e fs) (hs : Path.slash ∉ sourceName)
    (hn : Path.isStay sourceName = false) (hd : Path.slash ∉ destinationName)
    (hdn : Path.isStay destinationName = false)
    (h : ∀ i inode fs', fs.inodes i = some inode → Identity.of i inode = expected →
      Renamed fs fs' ⟨fs.ino sourceParent, sourceName⟩
        ⟨fs.ino destinationParent, destinationName⟩ i →
      K fs' ∧ (∀ e, E e fs') ∧ Q () fs') :
    wpE A (sameFilesystemMoveAt sourceParent sourceName destinationParent destinationName expected)
      Q E K fs := by
  unfold sameFilesystemMoveAt
  refine (wpE_bind _ _).mpr (openAt_wp hA hK hE hs hn fun fd _ hentry => ?_)
  refine (wpE_bind _ _).mpr (identityFd_wp hA hK hE fun inode hinode _ _ => ?_)
  refine (wpE_bind _ _).mpr ((wpE_failIf _ _).mpr ⟨fun _ => hE _, fun hexpected => ?_⟩)
  refine (wpE_bind _ _).mpr (rename_wp hA hK hE fun i fs' hrenamed => ?_)
  obtain rfl : i = fs.ino fd := Option.some.inj (hrenamed.found.symm.trans hentry)
  obtain ⟨hK', hE', hQ'⟩ := h _ inode fs' hinode (not_not.mp hexpected) hrenamed
  refine (wpE_bind _ _).mpr (fsync_wp hA hK' hE' ?_)
  refine (wpE_bind _ _).mpr (fsync_wp hA hK' hE' ?_)
  refine (wpE_bind _ _).mpr (openAt_wp hA hK' hE' hd hdn fun fd' _ _ => ?_)
  refine (wpE_bind _ _).mpr (identityFd_wp hA hK' hE' fun inode' _ _ _ => ?_)
  exact (wpE_failIf _ _).mpr ⟨fun _ => hE' _, fun _ => hQ'⟩

/-! ## A staged copy -/

/-- The new file `j` stands at `s` and holds `content`; the rest is as it was. -/
structure Staged (fs fs' : FileSystem) (s : Slot) (j : InodeId) (content : Bytes) : Prop
    extends Alters fs fs' fun k => k = j where
  free : fs.linkAt? s = none
  fresh : fs.inodes j = none
  entry : ∀ u, fs'.linkAt? u = if u = s then some j else fs.linkAt? u
  content : fs'.content? j = some content

theorem Staged.change {fs₁ fs₂ : FileSystem} {s : Slot} {j : InodeId} {content content' : Bytes}
    (h : Staged fs fs₁ s j content) (hc : Changed fs₁ fs₂ j) (hcontent : fs₂.content? j = some content') :
    Staged fs fs₂ s j content' :=
  { h.toAlters.trans hc.toAlters with
    free := h.free, fresh := h.fresh, content := hcontent
    entry := fun u => (hc.entry u).trans (h.entry u) }

/-- A round of the copy reads on in the source and writes on in the copy. -/
theorem copyFrom_wp {source output : Fd} {fs₁ : FileSystem} {s : Slot} {content copied : Bytes} {fuel : Nat}
    {Q : Bytes → FileSystem → Prop} (hA : Quiet A)
    (hsource : fs.content? (fs.ino source) = some content) (hcopied : copied <+: content)
    (hstaged : Staged fs fs₁ s (fs₁.ino output) copied)
    (h : ∀ fs' copied', Staged fs fs' s (fs₁.ino output) copied' → K fs' ∧ ∀ e, E e fs')
    (hQ : ∀ fs', Staged fs fs' s (fs₁.ino output) content → Q content fs') :
    wpE A (copyFrom source output fuel copied) Q E K fs₁ := by
  induction fuel generalizing fs₁ copied with
  | zero => exact (h fs₁ copied hstaged).2 _
  | succ fuel ih =>
    obtain ⟨hK, hE⟩ := h fs₁ copied hstaged
    -- the source is not the copy: it was there before
    have hother : ¬ fs.ino source = fs₁.ino output := by
      intro he
      have := hstaged.fresh
      unfold content? node? at hsource
      rw [he, this] at hsource
      cases hsource
    have hread : ∀ count, fs₁.read source copied.length count =
        .ok ((content.drop copied.length).take count) := by
      intro count
      have hcontent := (hstaged.content? hother).trans hsource
      rw [← hstaged.ino source] at hcontent
      unfold content? at hcontent
      unfold FileSystem.read
      cases hn : fs₁.node? (fs₁.ino source) with
      | none => rw [hn] at hcontent; cases hcontent
      | some node =>
        rw [hn] at hcontent
        cases node with
        | regular data => cases hcontent; rfl
        | _ => cases hcontent
    unfold copyFrom
    refine (wpE_bind _ _).mpr ((wpE_recast _ _).mpr (lookWith_wp hA hK (fun _ _ _ _ => hE _)
      fun t _ _ => ⟨fun chunk hchunk => ?_, fun _ _ => hE _⟩))
    rw [hread] at hchunk
    obtain ⟨rest, rfl⟩ := hcopied
    rw [List.drop_left] at hchunk
    obtain rfl := Except.ok.inj hchunk
    by_cases hend : List.take (1 + t.pick % 65536) rest = []
    · rw [if_pos hend]
      have hrest : rest = [] := by
        rcases List.take_eq_nil_iff.mp hend with hzero | hrest
        · omega
        · exact hrest
      subst hrest
      rw [List.append_nil] at hQ
      exact hQ fs₁ hstaged
    · rw [if_neg hend]
      refine (wpE_bind _ _).mpr ((wpE_failIf _ _).mpr ⟨fun _ => hE _, fun _ => ?_⟩)
      refine (wpE_bind _ _).mpr ((wpE_recast _ _).mpr
        (change_wp hA hK (fun _ => hE _) fun t' a fs₂ _ hwrite => ?_))
      cases hw : fs₁.write output (List.take (1 + t.pick % 65536) rest) t'.clockNs with
      | error e => rw [hw] at hwrite; cases hwrite
      | ok fs₃ =>
        rw [hw] at hwrite
        obtain ⟨rfl, rfl⟩ := Prod.mk.inj (Except.ok.inj hwrite)
        obtain ⟨hchanged, old, hold, hnew⟩ := changed_of_write hw
        obtain rfl := Option.some.inj (hold.symm.trans hstaged.content)
        have hnext := hstaged.change hchanged hnew
        have hino : fs₃.ino output = fs₁.ino output := hchanged.ino output
        apply ih
        · exact (List.prefix_append_right_inj _).mpr (List.take_prefix _ _)
        · rw [hino]
          exact hnext
        · rw [hino]
          exact h
        · rw [hino]
          exact hQ

/-- A change of a file's metadata. -/
theorem metadata_wp {output : Fd} {g : Inode → Inode} {fs₁ : FileSystem} {s : Slot} {content : Bytes}
    {Q : Unit → FileSystem → Prop} (hA : Quiet A) (hg : ∀ inode, (g inode).node = inode.node)
    (hstaged : Staged fs fs₁ s (fs₁.ino output) content) (hK : K fs₁) (hE : ∀ e, E e fs₁)
    (hQ : ∀ fs', Staged fs fs' s (fs₁.ino output) content → fs'.ino output = fs₁.ino output →
      Q () fs') :
    wpE A (sys (change fun _ fs => .ok ((), fs.modify (fs.ino output) g))) Q E K fs₁ := by
  refine (wpE_recast _ _).mpr (change_wp hA hK (fun _ => hE _) fun t a fs₂ _ hset => ?_)
  obtain ⟨rfl, rfl⟩ := Prod.mk.inj (Except.ok.inj hset)
  have hchanged : Changed fs₁ (fs₁.modify (fs₁.ino output) g) (fs₁.ino output) :=
    changed_modify fun inode _ => by rw [hg]
  have hcontent : (fs₁.modify (fs₁.ino output) g).content? (fs₁.ino output) = some content := by
    rw [content?_modify, ← hstaged.content]
    unfold content? node?
    cases fs₁.inodes (fs₁.ino output) with
    | none => rfl
    | some inode => exact congrArg Node.content? (hg inode)
  exact hQ _ (hstaged.change hchanged hcontent) (hchanged.ino output)

/-- A staged copy passes through nothing but files that hold part of the source. -/
theorem verifiedStageCopyAt_wp {source destinationParent : Fd} {stagingName : Bytes}
    {expected : Identity} {Q : String → FileSystem → Prop} (hA : Quiet A) (hK : K fs)
    (hE : ∀ e, E e fs) (hs : Path.slash ∉ stagingName) (hn : Path.isStay stagingName = false)
    (h : ∀ fs' j copied, Staged fs fs' ⟨fs.ino destinationParent, stagingName⟩ j copied →
      K fs' ∧ ∀ e, E e fs')
    (hQ : ∀ fs' j inode content, fs.inodes (fs.ino source) = some inode →
      Identity.of (fs.ino source) inode = expected → inode.node.size ≤ maxFileSize →
      inode.node.content? = some content →
      Staged fs fs' ⟨fs.ino destinationParent, stagingName⟩ j content →
      Q (hexDigest P content) fs') :
    wpE A (verifiedStageCopyAt P source destinationParent stagingName expected) Q E K fs := by
  unfold verifiedStageCopyAt
  refine (wpE_bind _ _).mpr (identityFd_wp hA hK hE fun inode hinode _ hsize => ?_)
  refine (wpE_bind _ _).mpr ((wpE_failIf _ _).mpr ⟨fun _ => hE _, fun hexpected => ?_⟩)
  refine (wpE_bind _ _).mpr ((wpE_recast _ _).mpr (look_wp hA hK (fun _ _ _ _ => hE _) ?_
    fun _ _ => hE _))
  rintro ⟨i, sourceStat⟩ _
  refine (wpE_bind _ _).mpr ((wpE_recast _ _).mpr (change_wp hA hK (fun _ => hE _)
    fun t output fs₁ _ hcreate => ?_))
  obtain ⟨j, rfl, hcreated⟩ := created_of_ok hcreate
  have hino : fs₁.ino ((stagingName, j) :: destinationParent) = j := rfl
  have hstaged : Staged fs fs₁ ⟨fs.ino destinationParent, stagingName⟩
      (fs₁.ino ((stagingName, j) :: destinationParent)) [] :=
    { hcreated.toAlters with
      free := hcreated.free, fresh := hcreated.fresh, entry := hcreated.entry
      content := hcreated.content }
  have hpast : ∀ fs' copied, Staged fs fs' ⟨fs.ino destinationParent, stagingName⟩
      (fs₁.ino ((stagingName, j) :: destinationParent)) copied → K fs' ∧ ∀ e, E e fs' :=
    fun fs' copied hs => h fs' _ copied hs
  obtain ⟨hK₁, hE₁⟩ := hpast fs₁ [] hstaged
  refine (wpE_bind _ _).mpr ((wpE_recast _ _).mpr (look_wp hA hK₁ (fun _ _ _ _ => hE₁ _) ?_
    fun _ _ => hE₁ _))
  intro _ _
  cases hcontent : inode.node.content? with
  | none =>
    -- nothing can be read
    have hnone : fs₁.content? (fs₁.ino source) = none := by
      rw [hstaged.ino source]
      by_cases hj : fs.ino source = j
      · rw [hj, hcreated.fresh] at hinode
        cases hinode
      · rw [hstaged.content? hj]
        unfold content? node?
        rw [hinode]
        exact hcontent
    have hread : ∀ offset count, ∃ e, fs₁.read source offset count = .error e := by
      intro offset count
      unfold FileSystem.read
      unfold content? at hnone
      cases hn : fs₁.node? (fs₁.ino source) with
      | none => exact ⟨_, rfl⟩
      | some node =>
        rw [hn] at hnone
        cases node with
        | regular data => cases hnone
        | _ => exact ⟨_, rfl⟩
    refine (wpE_bind _ _).mpr ?_
    unfold copyFrom
    refine (wpE_bind _ _).mpr ((wpE_recast _ _).mpr (lookWith_wp hA hK₁ (fun _ _ _ _ => hE₁ _)
      fun t _ _ => ⟨fun chunk hchunk => ?_, fun _ _ => hE₁ _⟩))
    obtain ⟨e, he⟩ := hread ([] : Bytes).length (1 + t.pick % 65536)
    rw [he] at hchunk
    cases hchunk
  | some content =>
    have hsource : fs.content? (fs.ino source) = some content := by
      unfold content? node?
      rw [hinode]
      exact hcontent
    refine (wpE_bind _ _).mpr (copyFrom_wp hA hsource List.nil_prefix hstaged hpast fun fs₂ hcopy => ?_)
    obtain ⟨hK₂, hE₂⟩ := hpast fs₂ content hcopy
    have hino₂ : fs₂.ino ((stagingName, j) :: destinationParent) =
        fs₁.ino ((stagingName, j) :: destinationParent) := rfl
    unfold copyMetadata
    refine (wpE_bind _ _).mpr ((wpE_bind _ _).mpr (metadata_wp hA (fun _ => rfl) hcopy hK₂ hE₂
      fun fs₃ hmode _ => ?_))
    obtain ⟨hK₃, hE₃⟩ := hpast fs₃ content hmode
    refine metadata_wp hA (fun _ => rfl) hmode hK₃ hE₃ fun fs₄ htimes _ => ?_
    obtain ⟨hK₄, hE₄⟩ := hpast fs₄ content htimes
    refine (wpE_bind _ _).mpr (fsync_wp hA hK₄ hE₄ ?_)
    refine (wpE_bind _ _).mpr ((wpE_failIf _ _).mpr ⟨fun _ => hE₄ _, fun _ => ?_⟩)
    refine (wpE_bind _ _).mpr (openAt_wp hA hK₄ hE₄ hs hn fun staged _ _ => ?_)
    refine (wpE_bind _ _).mpr (sha256File_wp hA hK₄ hE₄ fun readBack => ?_)
    refine (wpE_bind _ _).mpr ((wpE_failIf _ _).mpr ⟨fun _ => hE₄ _, fun _ => ?_⟩)
    exact hQ fs₄ j inode content hinode (not_not.mp hexpected) hsize hcontent htimes

theorem publishStageAt_wp {destinationParent : Fd} {stagingName destinationName : Bytes}
    {Q : Unit → FileSystem → Prop} (hA : Quiet A) (hK : K fs) (hE : ∀ e, E e fs)
    (h : ∀ j fs', Renamed fs fs' ⟨fs.ino destinationParent, stagingName⟩
      ⟨fs.ino destinationParent, destinationName⟩ j → K fs' ∧ (∀ e, E e fs') ∧ Q () fs') :
    wpE A (publishStageAt destinationParent stagingName destinationName) Q E K fs := by
  unfold publishStageAt
  refine (wpE_bind _ _).mpr (rename_wp hA hK hE fun j fs' hrenamed => ?_)
  obtain ⟨hK', hE', hQ'⟩ := h j fs' hrenamed
  exact fsync_wp hA hK' hE' hQ'

theorem verifyAt_wp {parent : Fd} {name : Bytes} {digest : String} {Q : Unit → FileSystem → Prop}
    (hA : Quiet A) (hK : K fs) (hE : ∀ e, E e fs) (hs : Path.slash ∉ name)
    (hn : Path.isStay name = false) (hQ : Q () fs) :
    wpE A (verifyAt P parent name digest) Q E K fs := by
  unfold verifyAt
  refine (wpE_bind _ _).mpr (openAt_wp hA hK hE hs hn fun fd _ _ => ?_)
  refine (wpE_bind _ _).mpr (sha256File_wp hA hK hE fun found => ?_)
  exact (wpE_failIf _ _).mpr ⟨fun _ => hE _, fun _ => hQ⟩

/-! ## One unlink -/

theorem retireSourceAt_wp {sourceParent : Fd} {sourceName : Bytes} {expected : Identity}
    {digest : String} {Q : Unit → FileSystem → Prop} (hA : Quiet A) (hK : K fs) (hE : ∀ e, E e fs)
    (hs : Path.slash ∉ sourceName) (hn : Path.isStay sourceName = false)
    (h : ∀ i fs', Unlinked fs fs' ⟨fs.ino sourceParent, sourceName⟩ i →
      K fs' ∧ (∀ e, E e fs') ∧ Q () fs') :
    wpE A (retireSourceAt P sourceParent sourceName expected digest) Q E K fs := by
  unfold retireSourceAt
  refine (wpE_bind _ _).mpr (openAt_wp hA hK hE hs hn fun fd _ _ => ?_)
  refine (wpE_bind _ _).mpr (identityFd_wp hA hK hE fun inode _ _ _ => ?_)
  refine (wpE_bind _ _).mpr ((wpE_failIf _ _).mpr ⟨fun _ => hE _, fun _ => ?_⟩)
  refine (wpE_bind _ _).mpr (sha256File_wp hA hK hE fun found => ?_)
  refine (wpE_bind _ _).mpr ((wpE_failIf _ _).mpr ⟨fun _ => hE _, fun _ => ?_⟩)
  refine (wpE_bind _ _).mpr ((wpE_recast _ _).mpr (change_wp hA hK (fun _ => hE _)
    fun t a fs' _ hunlink => ?_))
  cases hu : fs.unlink sourceParent sourceName with
  | error e => rw [hu] at hunlink; cases hunlink
  | ok fs₁ =>
    rw [hu] at hunlink
    obtain ⟨rfl, rfl⟩ := Prod.mk.inj (Except.ok.inj hunlink)
    obtain ⟨i, hi⟩ := unlinked_of_ok hu
    obtain ⟨hK', hE', hQ'⟩ := h i _ hi
    exact fsync_wp hA hK' hE' hQ'

end
end SortingHat
