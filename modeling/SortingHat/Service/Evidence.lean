import SortingHat.Service.Steps
import SortingHat.Service.Recovery
import SortingHat.Posix.Walk

/-!
# What the disk shows

What `verifyRecoveryDestination` and `sourceAbsent` say about the files. They
swallow every error, so a `false` means something only when no call fails.

* `Plain`: what a path must name for `Identity.read` to accept it;
* `Shows`: the evidence for a finished move;
* `moveEvidence_wp`: what the recovery's evidence is worth.
-/

namespace SortingHat
open Posix Effect Text

/-- The path names a single-link regular file within the size limit. -/
structure Plain (fs : FileSystem) (path : Bytes) (i : InodeId) (inode : Inode) (content : Bytes) :
    Prop where
  stat : fs.stat false path = .ok (i, inode)
  node : inode.node = .regular content
  links : inode.links = 1
  small : content.length ≤ maxFileSize

section
variable {A : Tick → Prop} {P : Platform} {fs : FileSystem} {path : Bytes}
  {K : FileSystem → Prop}

/-! ## Reading a file -/

theorem identity_wp {Q : Identity → FileSystem → Prop} {E : FsError → FileSystem → Prop}
    (hA : Quiet A) (hK : K fs)
    (hQ : ∀ i inode content, Plain fs path i inode content → Q (Identity.of i inode) fs)
    (hE : ∀ e, (Faultless A → ∀ i inode content, ¬ Plain fs path i inode content) → E e fs) :
    wpE A (Identity.read path) Q E K fs := by
  unfold Identity.read
  refine (wpE_bind _ _).mpr ((wpE_recast _ _).mpr (look_wp hA hK ?_ ?_ ?_))
  · intro t e ht hf
    refine hE _ fun hs => ?_
    have := (hs t ht).2
    rw [hf] at this
    cases this
  · rintro ⟨i, inode⟩ hstat
    refine (wpE_bind _ _).mpr ((wpE_failIf _ _).mpr ⟨fun hbad => hE _ fun _ => ?_, fun hgood => ?_⟩)
    · rintro i' inode' content hp
      obtain ⟨rfl, rfl⟩ := Prod.mk.inj (Except.ok.inj (hstat.symm.trans hp.stat))
      rcases hbad with h | h
      · rw [hp.node] at h
        cases h
      · exact h hp.links
    refine (wpE_bind _ _).mpr ((wpE_failIf _ _).mpr ⟨fun hbig => hE _ fun _ => ?_, fun hsmall => ?_⟩)
    · rintro i' inode' content hp
      obtain ⟨rfl, rfl⟩ := Prod.mk.inj (Except.ok.inj (hstat.symm.trans hp.stat))
      rw [hp.node] at hbig
      exact absurd hp.small (Nat.not_le.mpr hbig)
    rw [not_or] at hgood
    cases hn : inode.node with
    | regular content =>
      refine hQ i inode content ⟨hstat, hn, not_not.mp hgood.2, ?_⟩
      rw [hn] at hsmall
      exact Nat.not_lt.mp hsmall
    | directory entries => rw [hn] at hgood; exact absurd rfl hgood.1
    | symlink target => rw [hn] at hgood; exact absurd rfl hgood.1
    | special => rw [hn] at hgood; exact absurd rfl hgood.1
  · intro e herr
    refine hE _ fun _ i inode content hp => ?_
    rw [hp.stat] at herr
    cases herr

/-- Reading to the end gives the whole file, however the reads are cut. -/
theorem hashFrom_wp {fd : Fd} {content hashed : Bytes} {fuel : Nat}
    {Q : Bytes → FileSystem → Prop} {E : FsError → FileSystem → Prop}
    (hA : Quiet A) (hK : K fs) (hE : ∀ e, ¬ Faultless A → E e fs)
    (hn : fs.node? (fs.ino fd) = some (.regular content)) (hh : hashed <+: content)
    (hfuel : content.length < fuel + hashed.length) (hQ : Q content fs) :
    wpE A (hashFrom fd fuel hashed) Q E K fs := by
  induction fuel generalizing hashed with
  | zero =>
    have := hh.length_le
    omega
  | succ fuel ih =>
    unfold hashFrom
    have hread : ∀ count, fs.read fd hashed.length count =
        .ok ((content.drop hashed.length).take count) := fun count => by
      unfold FileSystem.read
      rw [hn]
    refine (wpE_bind _ _).mpr ((wpE_recast _ _).mpr (lookWith_wp hA hK ?_ fun t ht hf => ⟨?_, ?_⟩))
    · intro t e ht hf
      refine hE _ fun hs => ?_
      have := (hs t ht).2
      rw [hf] at this
      cases this
    · intro chunk hchunk
      rw [hread] at hchunk
      obtain ⟨rest, rfl⟩ := hh
      rw [List.drop_left] at hchunk
      cases hchunk
      by_cases he : List.take (1 + t.pick % 65536) rest = []
      · rw [if_pos he]
        rw [List.take_eq_nil_iff] at he
        rcases he with he | rfl
        · omega
        · rw [List.append_nil] at hQ
          exact hQ
      · rw [if_neg he]
        refine ih ?_ ?_
        · exact (List.prefix_append_right_inj _).mpr (List.take_prefix _ _)
        · have := List.length_pos_iff.mpr he
          simp only [List.length_append] at hfuel ⊢
          omega
    · intro e herr
      rw [hread] at herr
      cases herr

theorem Plain.resolve {i : InodeId} {inode : Inode} {content : Bytes}
    (h : Plain fs path i inode content) :
    ∃ fd, fs.resolve true path = .ok fd ∧ fs.ino fd = i ∧ fs.node? i = some inode.node := by
  have hs := h.stat
  unfold FileSystem.stat at hs
  cases hr : fs.resolve false path with
  | error e => rw [hr] at hs; cases hs
  | ok fd =>
    rw [hr] at hs
    cases hi : fs.inodes (fs.ino fd) with
    | none => simp [hi, bind, Except.bind] at hs
    | some found =>
      simp only [hi, bind, Except.bind, Except.ok.injEq, Prod.mk.injEq] at hs
      obtain ⟨rfl, rfl⟩ := hs
      have hnode : fs.node? (fs.ino fd) = some found.node := by
        unfold FileSystem.node?
        rw [hi]
        rfl
      refine ⟨fd, FileSystem.resolve_follow hr ?_, rfl, hnode⟩
      unfold FileSystem.target?
      rw [hnode, h.node]
      rfl

theorem sha256_wp {i : InodeId} {inode : Inode} {content : Bytes}
    {Q : String → FileSystem → Prop} {E : FsError → FileSystem → Prop} (hA : Quiet A) (hK : K fs)
    (hE : ∀ e, ¬ Faultless A → E e fs) (hp : Plain fs path i inode content)
    (hQ : Q (hexDigest P content) fs) : wpE A (sha256 P path) Q E K fs := by
  unfold sha256
  obtain ⟨fd, hr, hi, hnode⟩ := hp.resolve
  refine (wpE_bind _ _).mpr ((wpE_recast _ _).mpr (look_wp hA hK ?_ ?_ ?_))
  · intro t e ht hf
    refine hE _ fun hs => ?_
    have := (hs t ht).2
    rw [hf] at this
    cases this
  · intro fd' hfd
    obtain rfl := Except.ok.inj (hr.symm.trans hfd)
    unfold sha256File
    refine (wpE_bind _ _).mpr (hashFrom_wp hA hK hE ?_ List.nil_prefix ?_ hQ)
    · rw [hi, hnode, hp.node]
    · have := hp.small
      unfold maxFileSize at this
      simp only [List.length_nil]
      omega
  · intro e herr
    rw [hr] at herr
    cases herr

/-! ## Evidence -/

/-- The destination is the recorded file: by its digest when there is one, else by
its identity. -/
def Verified (P : Platform) (fs : FileSystem) (destination : Bytes) (proposal : Proposal)
    (expectedSha256 : Option String) : Prop :=
  ∃ i inode content, Plain fs destination i inode content ∧ content.length = proposal.size ∧
    (∀ digest, expectedSha256 = some digest → hexDigest P content = digest) ∧
    (expectedSha256 = none → Identity.of i inode = proposalIdentity proposal)

/-- The disk shows that the move of the entry is done. -/
def Shows (P : Platform) (fs : FileSystem) (entry : Journal.Entry) (proposal : Proposal) : Prop :=
  fs.stat false entry.sourceToken = .error .NOENT ∧
    Verified P fs entry.destinationToken proposal entry.sha256

theorem Plain.unique {i i' : InodeId} {inode inode' : Inode} {content content' : Bytes}
    (h : Plain fs path i inode content) (h' : Plain fs path i' inode' content') :
    i = i' ∧ inode = inode' ∧ content = content' := by
  obtain ⟨rfl, rfl⟩ := Prod.mk.inj (Except.ok.inj (h.stat.symm.trans h'.stat))
  exact ⟨rfl, rfl, Node.regular.inj (h.node.symm.trans h'.node)⟩

theorem verifyRecoveryDestination_wp {destination : Bytes} {proposal : Proposal}
    {expectedSha256 : Option String} (hA : Quiet A) :
    wpE A (verifyRecoveryDestination P destination proposal expectedSha256)
      (fun b fs' => fs' = fs ∧ (b = true → Verified P fs destination proposal expectedSha256) ∧
        (Faultless A → b = false → ¬ Verified P fs destination proposal expectedSha256))
      (fun _ fs' => fs' = fs) (fun fs' => fs' = fs) fs := by
  unfold verifyRecoveryDestination
  refine (wpE_bind _ _).mpr ((wpE_observe _).mpr (identity_wp hA rfl ?_ ?_))
  · intro i inode content hp
    have hsize : (Identity.of i inode).size = content.length := by
      unfold Identity.of
      rw [hp.node]
      rfl
    dsimp only
    by_cases hs : (Identity.of i inode).size ≠ proposal.size
    · rw [if_pos hs]
      refine ⟨rfl, (fun h => by cases h), fun _ _ hv => ?_⟩
      obtain ⟨i', inode', content', hp', hlen, -⟩ := hv
      obtain ⟨rfl, rfl, rfl⟩ := hp.unique hp'
      exact hs (hsize.trans hlen)
    · rw [if_neg hs]
      have hs := not_not.mp hs
      cases expectedSha256 with
      | some expected =>
        refine (wpE_bind _ _).mpr ((wpE_observe _).mpr (sha256_wp hA rfl ?_ hp ?_))
        · intro e hf
          exact ⟨rfl, (fun h => by cases h), fun hfl => absurd hfl hf⟩
        · refine ⟨rfl, fun h => ?_, fun _ h hv => ?_⟩
          · refine ⟨i, inode, content, hp, hsize.symm.trans hs, fun digest hd => ?_, fun h => by cases h⟩
            obtain rfl := Option.some.inj hd
            simpa [Except.toOption] using h
          · obtain ⟨i', inode', content', hp', -, hd, -⟩ := hv
            obtain ⟨rfl, rfl, rfl⟩ := hp.unique hp'
            rw [hd expected rfl] at h
            simp [Except.toOption] at h
      | none =>
        refine ⟨rfl, fun h => ?_, fun _ h hv => ?_⟩
        · exact ⟨i, inode, content, hp, hsize.symm.trans hs, (fun d hd => by cases hd),
            fun _ => by simpa using h⟩
        · obtain ⟨i', inode', content', hp', -, -, hid⟩ := hv
          obtain ⟨rfl, rfl, rfl⟩ := hp.unique hp'
          rw [hid rfl] at h
          simp at h
  · intro e hno
    refine ⟨rfl, (fun h => by cases h), fun hfl _ hv => ?_⟩
    obtain ⟨i, inode, content, hp, -⟩ := hv
    exact hno hfl i inode content hp

theorem sourceAbsent_wp {E : Errno → FileSystem → Prop} (hA : Quiet A) :
    wpE A (sourceAbsent path)
      (fun b fs' => fs' = fs ∧ (Honest A → b = true → fs.stat false path = .error .NOENT) ∧
        (Faultless A → b = false → fs.stat false path ≠ .error .NOENT))
      E (fun fs' => fs' = fs) fs := by
  unfold sourceAbsent
  refine (wpE_bind _ _).mpr ((wpE_observe _).mpr (look_wp hA rfl ?_ ?_ ?_))
  · intro t e ht hf
    have hfl : ¬ Faultless A := fun hs => by
      have := (hs t ht).2
      rw [hf] at this
      cases this
    split
    · next heq =>
      obtain rfl : e = .NOENT := by injection heq
      exact ⟨rfl, fun hh => absurd hf (hh t ht).2, fun hs => absurd hs hfl⟩
    · exact ⟨rfl, (fun _ h => nomatch h), fun hs => absurd hs hfl⟩
  · rintro ⟨i, inode⟩ hok
    refine ⟨rfl, (fun _ h => nomatch h), fun _ _ herr => ?_⟩
    rw [hok] at herr
    cases herr
  · intro e herr
    split
    · next heq =>
      obtain rfl : e = .NOENT := by injection heq
      exact ⟨rfl, fun _ _ => herr, fun _ h => by cases h⟩
    · next hne =>
      refine ⟨rfl, (fun _ h => nomatch h), fun _ _ he => hne ?_⟩
      rw [herr] at he
      obtain rfl : e = .NOENT := by injection he
      rfl

end

/-! ## The recovery's evidence -/

section
variable {A : Tick → Prop} {P : Platform} {s : Service} {w : World}

/-- **The evidence is sound** when no call lies, and complete when none fails. -/
theorem moveEvidence_wp (entry : Journal.Entry) :
    wpS A (moveEvidence P entry)
      (fun b s' w' => s' = s ∧ Untouched A w w' ∧
        (Honest A → b = true → ∃ p, s.state.findProposal entry.id = some p ∧
          Shows P w.fs entry p) ∧
        (Faultless A → b = false → ∀ p, s.state.findProposal entry.id = some p →
          ¬ Shows P w.fs entry p))
      (fun _ s' w' => s' = s ∧ Untouched A w w') (fun w' => Untouched A w w') s w := by
  unfold moveEvidence
  refine (wpS_bind _ _).mpr (wpS_mono (looks_wp fun hq => sourceAbsent_wp hq) ?_
    (fun _ _ _ h => h) fun _ h => h)
  rintro absent s₁ w₁ ⟨rfl, hu₁, habsent⟩
  refine (wpS_bind _ _).mpr (wpS_getState.mpr ((wpS_bind _ _).mpr ?_))
  cases hfind : s₁.state.findProposal entry.id with
  | none =>
    refine ⟨rfl, hu₁, fun _ hb => ?_, fun _ _ p hp => nomatch hp⟩
    simp at hb
  | some p =>
    refine wpS_mono (looks_wp fun hq => verifyRecoveryDestination_wp hq) ?_ ?_ ?_
    · rintro verified s₂ w₂ ⟨rfl, hu₂, hverified⟩
      refine ⟨rfl, hu₁.trans hu₂, fun hh hb => ?_, fun hf hb p' hp' hshows => ?_⟩
      · simp only [Bool.and_eq_true] at hb
        have hfs := hu₁.fs hh.quiet
        refine ⟨p, rfl, (habsent hh.quiet).1 hh hb.1, ?_⟩
        exact hfs ▸ (hverified hh.quiet).1 hb.2
      · obtain rfl := Option.some.inj hp'
        have hq := hf.honest.quiet
        have hfs := hu₁.fs hq
        rw [Bool.and_eq_false_iff] at hb
        rcases hb with hb | hb
        · exact (habsent hq).2 hf hb hshows.1
        · exact (hverified hq).2 hf hb (hfs ▸ hshows.2)
    · rintro e s₂ w₂ ⟨rfl, hu₂⟩
      exact ⟨rfl, hu₁.trans hu₂⟩
    · rintro w₂ hu₂
      exact hu₁.trans hu₂

end
end SortingHat
