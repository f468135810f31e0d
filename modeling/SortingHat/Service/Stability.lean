import SortingHat.Replay

/-!
# Settling

A tracker remembers the sample before and when it was taken.

* `Samples`: samples of one path, one after the other;
* `Window`: the file has been the same for as long as it should;
* `stability_window`: when a sample says just that;
* `stable_starved`: a file that is sampled often never settles.
-/

namespace SortingHat
open Posix Effect

/-- What one sample has read, and what it has said. -/
structure Sample where
  identity : Identity
  now : Int
  stable : Bool
  deriving DecidableEq, Repr

/-- Samples that have been taken of a path, oldest first, and the tracker they leave. -/
inductive Samples (path : Bytes) (settleNs : Int) : List Sample → StabilityTracker → Prop where
  | nil : Samples path settleNs [] .default
  | snoc {past : List Sample} {tracker : StabilityTracker} {s : Sample} {ticks : List Tick}
      {fs fs' : FileSystem} : Samples path settleNs past tracker →
      (ExceptT.run (tracker.sample path settleNs)).after ticks fs =
        (.done (.ok (s.stable, ⟨some (s.identity, s.now)⟩)), fs') →
      Samples path settleNs (past ++ [s]) ⟨some (s.identity, s.now)⟩

/-- The file has read the same since a sample that is old enough. -/
def Window (settleNs : Int) (past : List Sample) (s : Sample) : Prop :=
  ∃ before m after, past = before ++ m :: after ∧ settleNs ≤ s.now - m.now ∧
    ∀ x ∈ m :: after, x.identity = s.identity

/-- If the file has been the same for as long as it should, then since the sample before
at the latest. -/
def Spaced (settleNs : Int) (past : List Sample) (s : Sample) : Prop :=
  ∀ last, past.getLast? = some last → Window settleNs past s → settleNs ≤ s.now - last.now

section
variable {path : Bytes} {settleNs : Int} {past later : List Sample} {tracker : StabilityTracker}
  {s : Sample}

/-- What a sample says, from the one before. -/
def Sample.follows (settleNs : Int) (last s : Sample) : Bool :=
  last.identity == s.identity && durationSince s.now last.now ≥ settleNs

theorem sample_answer {ticks : List Tick} {fs fs' : FileSystem}
    (h : (ExceptT.run (tracker.sample path settleNs)).after ticks fs =
      (.done (.ok (s.stable, ⟨some (s.identity, s.now)⟩)), fs')) :
    s.stable = tracker.previous.any fun (old, since) =>
      old == s.identity && durationSince s.now since ≥ settleNs := by
  have hwp : wpE (fun _ => True) (tracker.sample path settleNs)
      (fun r _ => ∃ identity now, r = (tracker.previous.any (fun (old, since) =>
        old == identity && durationSince now since ≥ settleNs), ⟨some (identity, now)⟩))
      (fun _ _ => True) (fun _ => True) fs := by
    unfold StabilityTracker.sample
    refine (wpE_bind _ _).mpr (Prog.wp_trivial ?_ fun _ => trivial)
    rintro (e | identity) fs₁
    · trivial
    · refine (wpE_bind _ _).mpr ⟨trivial, fun t _ => ?_⟩
      exact ⟨identity, t.clockNs, rfl⟩
  have hafter := Prog.wp_after hwp ticks fun _ _ => trivial
  rw [h] at hafter
  obtain ⟨identity, now, hr⟩ := hafter
  obtain ⟨hstable, htracker⟩ := Prod.mk.inj hr
  obtain ⟨rfl, rfl⟩ := Prod.mk.inj (Option.some.inj (StabilityTracker.mk.inj htracker))
  exact hstable

theorem Samples.previous (h : Samples path settleNs past tracker) :
    tracker.previous = past.getLast?.map fun last => (last.identity, last.now) := by
  cases h with
  | nil => rfl
  | snoc h hs => rw [List.getLast?_concat, Option.map_some]

/-- What every sample says, from the one before. -/
theorem Samples.answer {readings : List Sample} (h : Samples path settleNs readings tracker)
    (hsplit : readings = past ++ s :: later) :
    s.stable = past.getLast?.any fun last => last.follows settleNs s := by
  induction h generalizing later with
  | nil => simp at hsplit
  | @snoc before tracker x ticks fs fs' h hx ih =>
    rcases List.eq_nil_or_concat' later with rfl | ⟨later, y, rfl⟩
    · obtain ⟨rfl, hs⟩ := List.append_inj' hsplit rfl
      obtain rfl := List.singleton_inj.mp hs
      rw [sample_answer hx, h.previous, Option.any_map]
      rfl
    · rw [← List.cons_append, ← List.append_assoc] at hsplit
      exact ih (List.append_inj' hsplit rfl).1

/-- **A sample says that the file has settled exactly when it has**, unless the sample
before is too recent to tell. -/
theorem stability_window {readings : List Sample} (h : Samples path settleNs readings tracker)
    (hsplit : readings = past ++ s :: later)
    (hclock : (past ++ [s]).Pairwise fun a b => a.now ≤ b.now) :
    (s.stable = true ↔ Window settleNs past s) ↔ Spaced settleNs past s := by
  have hpast : ∀ x ∈ past, x.now ≤ s.now := fun x hx =>
    (List.pairwise_append.mp hclock).2.2 x hx s (List.mem_singleton_self s)
  rw [h.answer hsplit]
  rcases List.eq_nil_or_concat' past with rfl | ⟨before, last, rfl⟩
  · -- the first sample says nothing, and there is none before it
    have hnone : ¬ Window settleNs [] s := by
      rintro ⟨before, m, after, he, -⟩
      simp at he
    simp [Spaced, hnone]
  have hduration : durationSince s.now last.now = s.now - last.now :=
    if_pos (hpast last (by simp))
  have hanswer : ((before ++ [last]).getLast?.any fun last => last.follows settleNs s) = true ↔
      last.identity = s.identity ∧ settleNs ≤ s.now - last.now := by
    rw [List.getLast?_concat, Option.any_some, Sample.follows, hduration]
    simp
  have hlast : last.identity = s.identity → settleNs ≤ s.now - last.now →
      Window settleNs (before ++ [last]) s := by
    intro hsame hlong
    refine ⟨before, last, [], rfl, hlong, fun x hx => ?_⟩
    rw [List.mem_singleton.mp hx, hsame]
  have hsame : Window settleNs (before ++ [last]) s → last.identity = s.identity := by
    rintro ⟨first, m, after, he, -, hall⟩
    apply hall
    rcases List.eq_nil_or_concat' after with rfl | ⟨after, x, rfl⟩
    · obtain rfl := List.singleton_inj.mp (List.append_inj' he rfl).2
      exact List.mem_cons_self
    · rw [← List.cons_append, ← List.append_assoc] at he
      obtain rfl := List.singleton_inj.mp (List.append_inj' he rfl).2
      simp
  rw [hanswer]
  unfold Spaced
  constructor
  · rintro hiff last' hl hwindow
    rw [List.getLast?_concat, Option.some.injEq] at hl
    exact hl ▸ (hiff.mpr hwindow).2
  · intro hspaced
    constructor
    · exact fun ⟨hid, hlong⟩ => hlast hid hlong
    · exact fun hwindow => ⟨hsame hwindow, hspaced last List.getLast?_concat hwindow⟩

end

/-- The file `/w/a`, read at this time. -/
def sampleAt (now : Int) (stable : Bool) : Sample := ⟨⟨0, 4, 2, 5⟩, now, stable⟩

/-- The next sample of `/w/a` answers this. -/
def answers (tracker : StabilityTracker) (now : Int) (stable : Bool) : Bool :=
  ((ExceptT.run (tracker.sample (bytes "/w/a") 1000000000)).after
    [Tick.quiet now, Tick.quiet now] sampleFiles).1.result?.any fun r =>
      r.toOption == some (stable, ⟨some (⟨0, 4, 2, 5⟩, now)⟩)

theorem Samples.step {past : List Sample} {tracker : StabilityTracker} {now : Int} {stable : Bool}
    (h : Samples (bytes "/w/a") 1000000000 past tracker) (hs : answers tracker now stable = true) :
    Samples (bytes "/w/a") 1000000000 (past ++ [sampleAt now stable]) ⟨some (⟨0, 4, 2, 5⟩, now)⟩ := by
  unfold answers at hs
  cases hr : (ExceptT.run (tracker.sample (bytes "/w/a") 1000000000)).after
      [Tick.quiet now, Tick.quiet now] sampleFiles with
  | mk p fs' =>
    rw [hr] at hs
    cases p with
    | step u n => cases hs
    | done r =>
      cases r with
      | error e => cases hs
      | ok a =>
        have ha : a = (stable, ⟨some (⟨0, 4, 2, 5⟩, now)⟩) := by
          simpa [Prog.result?, Except.toOption] using hs
        rw [ha] at hr
        exact .snoc h hr

/-- Two samples a second apart: the file has settled. -/
theorem stability_window_settled :
    Window 1000000000 [sampleAt 0 false] (sampleAt 1000000000 true) := by
  have h₁ : Samples (bytes "/w/a") 1000000000 ([] ++ [sampleAt 0 false]) ⟨some (⟨0, 4, 2, 5⟩, 0)⟩ :=
    .step .nil (by decide +kernel)
  have h₂ : Samples _ _ ([] ++ [sampleAt 0 false] ++ [sampleAt 1000000000 true]) _ :=
    h₁.step (by decide +kernel)
  have hsplit : [] ++ [sampleAt 0 false] ++ [sampleAt 1000000000 true] =
    [sampleAt 0 false] ++ sampleAt 1000000000 true :: [] := rfl
  have hspaced : Spaced 1000000000 [sampleAt 0 false] (sampleAt 1000000000 true) := by
    intro last hl _
    obtain rfl := Option.some.inj hl
    decide
  exact ((stability_window h₂ hsplit (by decide)).mpr hspaced).mp rfl

/-- Sampled every six tenths of a second, a file that never changes has not settled
after more than a second. -/
theorem stable_starved : ∃ readings tracker,
    Samples (bytes "/w/a") 1000000000 readings tracker ∧
      readings = [sampleAt 0 false, sampleAt 600000000 false, sampleAt 1200000000 false] ∧
      Window 1000000000 [sampleAt 0 false, sampleAt 600000000 false] (sampleAt 1200000000 false) := by
  have h₁ : Samples (bytes "/w/a") 1000000000 ([] ++ [sampleAt 0 false]) ⟨some (⟨0, 4, 2, 5⟩, 0)⟩ :=
    .step .nil (by decide +kernel)
  have h₂ : Samples _ _ ([] ++ [sampleAt 0 false] ++ [sampleAt 600000000 false]) _ :=
    h₁.step (by decide +kernel)
  have h₃ : Samples _ _ ([] ++ [sampleAt 0 false] ++ [sampleAt 600000000 false] ++
      [sampleAt 1200000000 false]) _ := h₂.step (by decide +kernel)
  exact ⟨_, _, h₃, rfl, [], sampleAt 0 false, [sampleAt 600000000 false], rfl, by decide, by decide⟩

end SortingHat
