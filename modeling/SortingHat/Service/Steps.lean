import SortingHat.Service.Base
import SortingHat.Journal.Specs

/-!
# What single steps of a request do to the world

* `Quiet`, `Honest`, `Faultless`: what the environment is assumed to refrain from;
* `looks_wp`: a program that only looks at the files;
* `save_wp`: the saved state is replaced at once or not at all.
-/

namespace SortingHat
open Posix Effect

/-- No other process touches the files in the steps `A` allows. -/
def Quiet (A : Tick → Prop) : Prop := ∀ t, A t → t.Alone

/-- No call reports a file missing that is there. -/
def Honest (A : Tick → Prop) : Prop := ∀ t, A t → t.Alone ∧ t.fault ≠ some .NOENT

/-- No call fails. -/
def Faultless (A : Tick → Prop) : Prop := ∀ t, A t → t.Sound

theorem Honest.quiet {A : Tick → Prop} (h : Honest A) : Quiet A := fun t ht => (h t ht).1

theorem Faultless.honest {A : Tick → Prop} (h : Faultless A) : Honest A := fun t ht =>
  ⟨(h t ht).1, by rw [(h t ht).2]; exact fun h => by cases h⟩

/-- The stores are as they were, and so are the files when nobody else is there. -/
structure Untouched (A : Tick → Prop) (w w' : World) : Prop where
  db : w'.db = w.db
  stateJson : w'.stateJson = w.stateJson
  drawn : w'.drawn = w.drawn
  fs : Quiet A → w'.fs = w.fs

theorem Untouched.refl {A : Tick → Prop} (w : World) : Untouched A w w :=
  ⟨rfl, rfl, rfl, fun _ => rfl⟩

theorem Untouched.trans {A : Tick → Prop} {w w' w'' : World} (h : Untouched A w w')
    (h' : Untouched A w' w'') : Untouched A w w'' :=
  ⟨h'.db.trans h.db, h'.stateJson.trans h.stateJson, h'.drawn.trans h.drawn,
    fun hq => (h'.fs hq).trans (h.fs hq)⟩

section
variable {A : Tick → Prop} {P : Platform} {s : Service} {w : World}

/-- A program that only looks at the files leaves the world untouched. -/
theorem looks_wp {α δ : Type} {x : Fallible Tick FileSystem δ α} {f : δ → ServiceError}
    {R : α → Prop}
    (h : Quiet A → wpE A x (fun a fs' => fs' = w.fs ∧ R a) (fun _ fs' => fs' = w.fs)
      (fun fs' => fs' = w.fs) w.fs) :
    wpS A (embed f (inPart World.files x))
      (fun a s' w' => s' = s ∧ Untouched A w w' ∧ (Quiet A → R a))
      (fun _ s' w' => s' = s ∧ Untouched A w w') (fun w' => Untouched A w w') s w := by
  by_cases hq : Quiet A
  · refine (wpS_embed _ _).mpr ((wpE_inPart _ _).mpr (wpE_mono (h hq) ?_ ?_ ?_))
    · rintro a fs ⟨rfl, hr⟩
      exact ⟨rfl, Untouched.refl w, fun _ => hr⟩
    · rintro e fs rfl
      exact ⟨rfl, Untouched.refl w⟩
    · rintro fs rfl
      exact Untouched.refl w
  · have hu : ∀ fs, Untouched A w { w with fs } := fun fs =>
      ⟨rfl, rfl, rfl, fun hq' => absurd hq' hq⟩
    exact wpS_inPart (fun a fs => ⟨rfl, hu fs, fun hq' => absurd hq' hq⟩)
      (fun e fs => ⟨rfl, hu fs⟩) fun fs => hu fs

/-- Only the saved state has changed, to the running one. -/
structure Saved (A : Tick → Prop) (s : Service) (w w' : World) : Prop where
  db : w'.db = w.db
  stateJson : w'.stateJson = some ⟨s.state.bodyLength, some s.state⟩
  drawn : w'.drawn = w.drawn
  fs : Quiet A → w'.fs = w.fs
  fits : s.state.bodyLength ≤ maxStateBytes

theorem Saved.after {w' w'' : World} (h : Saved A s w w') (hu : Untouched A w' w'') :
    Saved A s w w'' :=
  ⟨hu.db.trans h.db, hu.stateJson.trans h.stateJson, hu.drawn.trans h.drawn,
    fun hq => (hu.fs hq).trans (h.fs hq), h.fits⟩

/-- A call whose effect is not kept. -/
theorem touch_wp {w₁ : World} (hu : Untouched A w w₁) :
    wpS A (ofIo touch) (fun _ s' w' => s' = s ∧ Untouched A w w')
      (fun _ s' w' => s' = s ∧ Untouched A w w') (fun w' => Untouched A w w') s w₁ := by
  have htouch : wpS A (ofIo touch)
      (fun _ s' w' => s' = s ∧ Untouched A w₁ w' ∧ (Quiet A → True))
      (fun _ s' w' => s' = s ∧ Untouched A w₁ w') (fun w' => Untouched A w₁ w') s w₁ :=
    looks_wp fun hq => look_wp hq rfl (fun _ _ _ _ => rfl) (fun _ _ => ⟨rfl, trivial⟩)
      fun _ _ => rfl
  exact wpS_mono htouch (fun _ _ _ h => ⟨h.1, hu.trans h.2.1⟩) (fun _ _ _ h => ⟨h.1, hu.trans h.2⟩)
    fun _ h => hu.trans h

/-- The same before the rest of an action. -/
theorem touch_bind {w₁ : World} {f : Unit → ServiceM Unit} {Q : Unit → Service → World → Prop}
    {E : ServiceError → Service → World → Prop} {K : World → Prop} (hu : Untouched A w w₁)
    (hE : ∀ e w', Untouched A w w' → E e s w') (hK : ∀ w', Untouched A w w' → K w')
    (hf : ∀ w', Untouched A w w' → wpS A (f ()) Q E K s w') :
    wpS A (ofIo touch >>= f) Q E K s w₁ := by
  refine (wpS_bind _ _).mpr (wpS_mono (touch_wp hu) ?_ ?_ hK)
  · rintro _ s' w' ⟨rfl, h⟩
    exact hf w' h
  · rintro e s' w' ⟨rfl, h⟩
    exact hE e w' h

/-- **The saved state is replaced at once or not at all.** -/
theorem save_wp : wpS A save (fun _ s' w' => s' = s ∧ Saved A s w w')
    (fun _ s' w' => s' = s ∧ (Untouched A w w' ∨ Saved A s w w'))
    (fun w' => Untouched A w w' ∨ Saved A s w w') s w := by
  have hE : ∀ (e : ServiceError) w', Untouched A w w' →
      s = s ∧ (Untouched A w w' ∨ Saved A s w w') := fun _ _ h => ⟨rfl, .inl h⟩
  have hK : ∀ w', Untouched A w w' → Untouched A w w' ∨ Saved A s w w' := fun _ h => .inl h
  unfold save
  rw [wpS_bind, wpS_getState, wpS_bind]
  rw [wpS_failIf]
  constructor
  · exact fun _ => hE .limit w (Untouched.refl w)
  intro hfits
  refine touch_bind (Untouched.refl w) hE hK fun w₁ hu₁ => ?_
  refine touch_bind hu₁ hE hK fun w₂ hu₂ => ?_
  refine touch_bind hu₂ hE hK fun w₃ hu₃ => ?_
  refine (wpS_bind _ _).mpr ((wpS_embed _ _).mpr ((wpE_inPart _ _).mpr
    (And.intro (.inl hu₃) fun t _ => ?_)))
  dsimp only [install]
  cases t.fault with
  | some e => exact ⟨rfl, .inl hu₃⟩
  | none =>
    have hsaved : Saved A s w { w₃ with stateJson := some ⟨s.state.bodyLength, some s.state⟩ } :=
      ⟨hu₃.db, rfl, hu₃.drawn, hu₃.fs, Nat.not_lt.mp hfits⟩
    have hE' : ∀ (e : ServiceError) w', Untouched A
        { w₃ with stateJson := some ⟨s.state.bodyLength, some s.state⟩ } w' →
        s = s ∧ (Untouched A w w' ∨ Saved A s w w') := fun _ _ h => ⟨rfl, .inr (hsaved.after h)⟩
    have hK' : ∀ w', Untouched A
        { w₃ with stateJson := some ⟨s.state.bodyLength, some s.state⟩ } w' →
        Untouched A w w' ∨ Saved A s w w' := fun _ h => .inr (hsaved.after h)
    refine touch_bind (Untouched.refl _) hE' hK' fun w₄ hu₄ => ?_
    refine wpS_mono (touch_wp hu₄) ?_ ?_ ?_
    · rintro _ s' w' ⟨rfl, h⟩
      exact ⟨rfl, hsaved.after h⟩
    · rintro e s' w' ⟨rfl, h⟩
      exact hE' e w' h
    · exact fun w' h => hK' w' h

end
end SortingHat
