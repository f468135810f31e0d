import SortingHat.Posix.Below
import SortingHat.Replay
import SortingHat.Transfer

/-!
# The staged copy

A copy is made under a name that is not taken, counted, and read back. The source is
deleted later on the strength of it.

* `Spares`: what no copy touches;
* `Faithful`: what a copy that succeeds has made;
* `staged_copy_faithful`: a copy is faithful, or reported.
-/

namespace SortingHat
open Posix Effect FileSystem

/-- Every other entry, and every file that was there, is as it was. -/
structure Spares (fs fs' : FileSystem) (s : Slot) : Prop where
  entry : ∀ u, u ≠ s → fs'.linkAt? u = fs.linkAt? u
  file : ∀ i inode, fs.inodes i = some inode → fs.isDirectory i = false → fs'.inodes i = some inode

/-- The entry `s` is new and holds what the source holds, the expected file. -/
structure Faithful (P : Platform) (fs fs' : FileSystem) (source : Fd) (s : Slot)
    (expected : Identity) (digest : String) : Prop where
  free : fs.linkAt? s = none
  copy : ∃ inode content j, fs.inodes (fs.ino source) = some inode ∧
    Identity.of (fs.ino source) inode = expected ∧ inode.node = .regular content ∧
    content.length = expected.size ∧ content.length ≤ maxFileSize ∧
    fs'.linkAt? s = some j ∧ fs'.content? j = some content ∧ digest = hexDigest P content

/-- The source is not the expected file, the name is taken, or the source has another
number of bytes. -/
def Doomed (fs : FileSystem) (source : Fd) (s : Slot) (expected : Identity) : Prop :=
  (∀ inode, fs.inodes (fs.ino source) = some inode → Identity.of (fs.ino source) inode ≠ expected) ∨
  fs.linkAt? s ≠ none ∨
  ∃ content, fs.content? (fs.ino source) = some content ∧ content.length ≠ expected.size

/-! ## The halves of the copy -/

/-- The copy, before anything is compared. -/
def copyStage (source destinationParent : Fd) (stagingName : Bytes) (expected : Identity) :
    FsM Bytes := do
  let found ← identityFd source
  failIf (found ≠ expected) FsError.identityChanged
  let (_, sourceStat) ← sys (look fun fs => fs.fstat source)
  let output ← recast renameError (change fun t fs =>
    fs.createExclusive destinationParent stagingName t.pick t.clockNs)
  sys touch
  let copied ← copyFrom source output (maxFileSize + 1) []
  copyMetadata output sourceStat
  fsync
  return copied

/-- The hash of what stands under the name. -/
def stagedDigest (P : Platform) (destinationParent : Fd) (stagingName : Bytes) : FsM String := do
  let staged ← openAt destinationParent stagingName
  sha256File P staged

section
variable {P : Platform} {fs fs' fs₁ fs₂ : FileSystem} {source destinationParent : Fd}
  {stagingName : Bytes} {expected : Identity}

theorem verifiedStageCopyAt_eq :
    verifiedStageCopyAt P source destinationParent stagingName expected = (do
      let copied ← copyStage source destinationParent stagingName expected
      failIf (copied.length ≠ expected.size) FsError.identityChanged
      let readBack ← stagedDigest P destinationParent stagingName
      failIf (readBack ≠ hexDigest P copied) FsError.verificationFailed
      return hexDigest P copied) := by
  unfold verifiedStageCopyAt copyStage stagedDigest
  simp only [bind_assoc, pure_bind]

/-- What is delivered is counted, and what is read back is compared, whatever other
processes do. -/
theorem compared {ticks : List Tick} {copied : Bytes}
    (h : (ExceptT.run (copyStage source destinationParent stagingName expected)).after ticks fs =
      (.done (.ok copied), fs₁)) :
    ∃ taken, taken <+: ticks ∧ ∀ more,
      (copied.length ≠ expected.size →
        (ExceptT.run (verifiedStageCopyAt P source destinationParent stagingName expected)).after
          (taken ++ more) fs = (.done (.error .identityChanged), fs₁)) ∧
      ∀ readBack fs₂, (ExceptT.run (stagedDigest P destinationParent stagingName)).after more fs₁ =
        (.done (.ok readBack), fs₂) → copied.length = expected.size →
        readBack ≠ hexDigest P copied →
        (ExceptT.run (verifiedStageCopyAt P source destinationParent stagingName expected)).after
          (taken ++ more) fs = (.done (.error .verificationFailed), fs₂) := by
  rw [verifiedStageCopyAt_eq]
  obtain ⟨taken, hprefix, hafter⟩ := after_bindE h
  refine ⟨taken, hprefix, fun more => ⟨fun hlength => ?_, fun readBack fs₂ hread hlength hne => ?_⟩⟩
  · rw [hafter more]
    unfold failIf
    rw [if_pos hlength]
    rfl
  · rw [hafter more]
    unfold failIf
    rw [if_neg (not_not.mpr hlength)]
    obtain ⟨taken', ⟨rest, rfl⟩, hafter'⟩ := after_bindE hread
    refine (hafter' rest).trans ?_
    rw [if_pos hne]
    rfl

/-! ## The copy on its own -/

theorem Spares.refl (s : Slot) : Spares fs fs s := ⟨fun _ _ => rfl, fun _ _ h _ => h⟩

theorem Staged.spares {s : Slot} {j : InodeId} {content : Bytes} (h : Staged fs fs' s j content) :
    Spares fs fs' s := by
  constructor
  · intro u hu
    rw [h.entry u, if_neg hu]
  · intro i inode hi hdir
    rw [h.inodes i ?_ hdir, hi]
    rintro rfl
    rw [h.fresh] at hi
    cases hi

theorem verifiedStageCopyAt_faithful (hname : Path.isName stagingName = true) :
    wpE Tick.Alone (verifiedStageCopyAt P source destinationParent stagingName expected)
      (fun digest fs' => Spares fs fs' ⟨fs.ino destinationParent, stagingName⟩ ∧
        Faithful P fs fs' source ⟨fs.ino destinationParent, stagingName⟩ expected digest)
      (fun _ fs' => Spares fs fs' ⟨fs.ino destinationParent, stagingName⟩)
      (fun fs' => Spares fs fs' ⟨fs.ino destinationParent, stagingName⟩) fs := by
  obtain ⟨hempty, hdot, -, hslash⟩ := Path.isName_iff.mp hname
  have hstay : Path.isStay stagingName = false := by simp [Path.isStay, hempty, hdot]
  apply verifiedStageCopyAt_wp (fun _ ht => ht) (Spares.refl _) (fun _ => Spares.refl _) hslash hstay
  · exact fun fs' j copied hstaged => ⟨hstaged.spares, fun _ => hstaged.spares⟩
  · intro fs' j inode content hinode hexpected hsize hcontent hstaged
    have hnode : inode.node = .regular content := by
      cases hn : inode.node with
      | regular data =>
        rw [hn] at hcontent
        rw [Option.some.inj hcontent]
      | _ => rw [hn] at hcontent; cases hcontent
    have hlength : inode.node.size = content.length := congrArg Node.size hnode
    refine ⟨hstaged.spares, hstaged.free, inode, content, j, hinode, hexpected, hnode, ?_, ?_, ?_,
      hstaged.content, rfl⟩
    · rw [← hexpected, ← hlength]
      rfl
    · rwa [← hlength]
    · rw [hstaged.entry, if_pos rfl]

theorem Faithful.not_doomed {s : Slot} {digest : String} (h : Faithful P fs fs' source s expected digest) :
    ¬ Doomed fs source s expected := by
  obtain ⟨inode, content, j, hinode, hexpected, hnode, hlength, -⟩ := h.copy
  rintro (hother | htaken | ⟨data, hdata, hne⟩)
  · exact hother inode hinode hexpected
  · exact htaken h.free
  · unfold content? node? at hdata
    rw [hinode, Option.map_some, hnode] at hdata
    obtain rfl : content = data := Option.some.inj hdata
    exact hne hlength

/-- **A staged copy is faithful, or reported.** -/
theorem staged_copy_faithful (hname : Path.isName stagingName = true) :
    (∀ ticks : List Tick, (∀ t ∈ ticks, t.Alone) →
      Spares fs ((ExceptT.run (verifiedStageCopyAt P source destinationParent stagingName
        expected)).after ticks fs).2 ⟨fs.ino destinationParent, stagingName⟩ ∧
      ∀ r fs', (ExceptT.run (verifiedStageCopyAt P source destinationParent stagingName
          expected)).after ticks fs = (.done r, fs') →
        (∀ digest, r = .ok digest →
          Faithful P fs fs' source ⟨fs.ino destinationParent, stagingName⟩ expected digest) ∧
        (Doomed fs source ⟨fs.ino destinationParent, stagingName⟩ expected → ∃ e, r = .error e)) ∧
    ∀ (ticks : List Tick) (copied : Bytes) (fs₁ : FileSystem),
      (ExceptT.run (copyStage source destinationParent stagingName expected)).after ticks fs =
        (.done (.ok copied), fs₁) →
      ∃ taken, taken <+: ticks ∧ ∀ more,
        (copied.length ≠ expected.size →
          (ExceptT.run (verifiedStageCopyAt P source destinationParent stagingName expected)).after
            (taken ++ more) fs = (.done (.error .identityChanged), fs₁)) ∧
        ∀ readBack fs₂, (ExceptT.run (stagedDigest P destinationParent stagingName)).after more fs₁ =
          (.done (.ok readBack), fs₂) → copied.length = expected.size →
          readBack ≠ hexDigest P copied →
          (ExceptT.run (verifiedStageCopyAt P source destinationParent stagingName expected)).after
            (taken ++ more) fs = (.done (.error .verificationFailed), fs₂) := by
  refine ⟨fun ticks hticks => ?_, fun ticks copied fs₁ h => compared h⟩
  have hwp : wpE Tick.Alone (verifiedStageCopyAt P source destinationParent stagingName expected)
      _ _ _ fs := verifiedStageCopyAt_faithful hname
  have hholds := Prog.wp_after hwp ticks hticks
  generalize (ExceptT.run (verifiedStageCopyAt P source destinationParent stagingName
    expected)).after ticks fs = run at hholds
  obtain ⟨p, fs'⟩ := run
  cases p with
  | step u n => exact ⟨hholds, fun r fs' h => nomatch h⟩
  | done r =>
    cases r with
    | error e =>
      refine ⟨hholds, ?_⟩
      rintro _ _ ⟨rfl, rfl⟩
      exact ⟨nofun, fun _ => ⟨e, rfl⟩⟩
    | ok digest =>
      obtain ⟨hspares, hfaithful⟩ := hholds
      refine ⟨hspares, ?_⟩
      rintro _ _ ⟨rfl, rfl⟩
      refine ⟨?_, fun hdoomed => absurd hdoomed hfaithful.not_doomed⟩
      rintro _ ⟨rfl⟩
      exact hfaithful

end

/-- The file `/w/a`, copied to `/d` a byte at a time. -/
theorem staged_copy_faithful_sample : ∃ digest fs',
    (ExceptT.run (verifiedStageCopyAt .sample [(bytes "a", ⟨0, 4⟩), (bytes "w", ⟨0, 2⟩)]
      [(bytes "d", ⟨0, 3⟩)] (bytes "stage") ⟨0, 4, 2, 5⟩)).after (quietAt 0) sampleFiles =
        (.done (.ok digest), fs') ∧
    Faithful .sample sampleFiles fs' [(bytes "a", ⟨0, 4⟩), (bytes "w", ⟨0, 2⟩)]
      ⟨⟨0, 3⟩, bytes "stage"⟩ ⟨0, 4, 2, 5⟩ digest := by
  generalize hcopy : (ExceptT.run (verifiedStageCopyAt .sample
    [(bytes "a", ⟨0, 4⟩), (bytes "w", ⟨0, 2⟩)] [(bytes "d", ⟨0, 3⟩)] (bytes "stage")
    ⟨0, 4, 2, 5⟩)).after (quietAt 0) sampleFiles = copied
  have hanswer : copied.1.result?.any Except.isOk = true := by
    rw [← hcopy]
    decide +kernel
  obtain ⟨u | r, fs'⟩ := copied
  · obtain e | digest := u
    · cases hanswer
    · have hfaithful := ((staged_copy_faithful (by decide)).1 (quietAt 0) quietAt_alone).2 _ _ hcopy
      exact ⟨digest, fs', rfl, hfaithful.1 digest rfl⟩
  · cases hanswer

end SortingHat
