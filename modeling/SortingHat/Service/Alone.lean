import SortingHat.Service.Opening
import SortingHat.Service.Evidence

/-!
# A scan that is alone with the files

While no other process is at work the files stay as they are, and what a scan proposes
is there.

* `alone_wp`, `observed_wp`: calls that only look;
* `agentOrFallback_alone`, `decideDestination_alone`: a decision.
-/

namespace SortingHat
open Posix Effect Text
open Journal (Row Database State)

/-! ## Calls that only look -/

section
variable {α δ : Type} {P : Platform} {s : Service} {w : World}

theorem lookWith_alone (f : Tick → FileSystem → Except Errno α) : InertE Tick.Alone (lookWith f) :=
  Prog.Inert.atomic fun _ fs ht => ht.found fs

theorem identity_alone (path : Bytes) : InertE Tick.Alone (Identity.read path) := by
  unfold Identity.read
  refine inertE_bind (inertE_recast _ (lookWith_alone _)) fun r => ?_
  refine inertE_bind (inertE_failIf _ _) fun _ => ?_
  exact inertE_bind (inertE_failIf _ _) fun _ => inertE_pure _

theorem sample_alone (tracker : StabilityTracker) (path : Bytes) (settleNs : Int) :
    InertE Tick.Alone (tracker.sample path settleNs) := by
  unfold StabilityTracker.sample
  refine inertE_bind (identity_alone path) fun identity => ?_
  exact inertE_bind (Prog.Inert.atomic fun _ _ _ => rfl) fun now => inertE_pure _

theorem sniffMime_alone (path : Bytes) : InertE Tick.Alone (sniffMime path) := by
  unfold sniffMime
  refine inertE_bind (inertE_observe (inertE_bind ?_ fun fd => ?_)) fun found => inertE_pure _
  · exact inertE_recast _ (lookWith_alone _)
  · exact inertE_recast _ (lookWith_alone _)

theorem moveWarning_alone (source destination : Bytes) :
    InertE Tick.Alone (moveWarning source destination) := by
  unfold moveWarning
  refine inertE_bind (identity_alone source) fun identity => ?_
  refine inertE_bind (inertE_orFail _ _) fun parent => ?_
  exact inertE_bind (inertE_recast _ (lookWith_alone _)) fun r => inertE_pure _

/-- Asking the agent leaves the files as they are. -/
theorem classify_alone {executable : Option String} {request : AgentRequest} {fs : FileSystem} :
    wpE Tick.Alone (classify P executable request) (fun _ fs' => fs' = fs) (fun _ fs' => fs' = fs)
      (fun fs' => fs' = fs) fs := by
  unfold classify
  rw [wpE_bind, wpE_orFail]
  refine ⟨fun _ => rfl, fun _ _ => ?_⟩
  rw [wpE_bind, wpE_failIf]
  refine ⟨fun _ => rfl, fun _ => ?_⟩
  rw [wpE_bind]
  refine ⟨rfl, fun t ht => ?_⟩
  dsimp only
  rw [ht.found, Prog.wp_done]
  cases t.fault with
  | some e => exact rfl
  | none =>
    cases t.child with
    | notStarted => exact rfl
    | timedOut => exact rfl
    | exited success stdout =>
      dsimp only
      cases acceptResponse P request success stdout <;> exact rfl

theorem alone_wp {f : δ → ServiceError} {y : Fallible Tick FileSystem δ α}
    {Q : α → Service → World → Prop} {E : ServiceError → Service → World → Prop} {K : World → Prop}
    (hK : K w) (hy : InertE Tick.Alone y) (hQ : ∀ a, Q a s w) (hE : ∀ e, E (f e) s w) :
    wpS Tick.Alone (embed f (inPart World.files y)) Q E K s w := by
  refine (wpS_embed _ _).mpr ((wpE_inPart _ _).mpr (wpE_mono (hy.wp _) ?_ ?_ ?_))
  · rintro a fs rfl
    exact hQ a
  · rintro e fs rfl
    exact hE e
  · rintro fs rfl
    exact hK

/-- The same, where an error is an answer too. -/
theorem observed_wp {ε : Type} {f : ε → ServiceError} {y : Fallible Tick FileSystem δ α}
    {Q : Except δ α → Service → World → Prop} {E : ServiceError → Service → World → Prop}
    {K : World → Prop} (hK : K w)
    (hy : wpE Tick.Alone y (fun _ fs => fs = w.fs) (fun _ fs => fs = w.fs) (fun fs => fs = w.fs) w.fs)
    (hQ : ∀ r, Q r s w) :
    wpS Tick.Alone (embed f (inPart World.files (observe y))) Q E K s w := by
  refine (wpS_embed _ _).mpr ((wpE_inPart _ _).mpr ((wpE_observe _).mpr (wpE_mono hy ?_ ?_ ?_)))
  · rintro a fs rfl
    exact hQ (.ok a)
  · rintro e fs rfl
    exact hQ (.error e)
  · rintro fs rfl
    exact hK

-- what is sent to the agent is not computed here
seal classify in
/-- Asking the agent draws an id at most, and does not fail. -/
theorem agentOrFallback_alone (facts : FileFacts) (size : Nat) (reason provenance : String) :
    wpS Tick.Alone (agentOrFallback P s.state facts size reason provenance)
      (fun _ s' w' => s' = s ∧ ∃ drawn, w' = { w with drawn }) (fun _ _ _ => False)
      (fun w' => ∃ drawn, w' = { w with drawn }) s w := by
  have hsame : s = s ∧ ∃ drawn, w = { w with drawn } := ⟨rfl, w.drawn, rfl⟩
  unfold agentOrFallback
  split
  · exact (wpS_pure _).mpr hsame
  split
  · exact (wpS_pure _).mpr hsame
  dsimp only
  split
  · exact (wpS_pure _).mpr hsame
  rw [wpS_bind]
  apply draw_wp ⟨w.drawn, rfl⟩
  rw [wpS_bind]
  apply observed_wp
  · exact ⟨w.drawn + 1, rfl⟩
  · exact classify_alone
  · intro answer
    cases answer with
    | error e => exact (wpS_pure _).mpr ⟨rfl, w.drawn + 1, rfl⟩
    | ok response =>
      dsimp only
      split <;> exact (wpS_pure _).mpr ⟨rfl, w.drawn + 1, rfl⟩

theorem decideDestination_alone (facts : FileFacts) (size : Nat) (ruled : RuleDecision) :
    wpS Tick.Alone (decideDestination P s.state facts size ruled)
      (fun _ s' w' => s' = s ∧ ∃ drawn, w' = { w with drawn }) (fun _ _ _ => False)
      (fun w' => ∃ drawn, w' = { w with drawn }) s w := by
  cases ruled with
  | destination d ruleIds reason => exact (wpS_pure _).mpr ⟨rfl, w.drawn, rfl⟩
  | tie _ _ reason => exact agentOrFallback_alone _ _ _ _
  | abstain reason => exact agentOrFallback_alone _ _ _ _

end
end SortingHat
