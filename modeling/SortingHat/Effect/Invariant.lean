import SortingHat.Effect.Rules

/-!
# Programs that keep an invariant

An invariant that holds before each step of a program, whatever the choices, and what
the program returns while it does.

* `KeepsE`, `KeepsS`: for fallible programs and for actions, with their rules;
* `keepsS_inPart`: the invariant of a part kept by a program over that part.
-/

namespace Effect

section
variable {C W S ε α β : Type} {A : C → Prop}

/-- Each step of `x` keeps `I`, and what `x` returns satisfies `R`. -/
def KeepsE (A : C → Prop) (I : W → Prop) (x : Fallible C W ε α) (R : α → Prop) : Prop :=
  ∀ w, I w → wpE A x (fun a w' => I w' ∧ R a) (fun _ => I) I w

/-- The same for an action; where it is cut, the volatile state is not known. -/
def KeepsS (A : C → Prop) (I : S → W → Prop) (x : Action C W S ε α) (R : α → Prop) : Prop :=
  ∀ s w, I s w → wpS A x (fun a s' w' => I s' w' ∧ R a) (fun _ => I) (fun w' => ∃ s', I s' w') s w

section
variable {I : W → Prop} {x : Fallible C W ε α} {R R' : α → Prop} {Q : β → Prop}

theorem KeepsE.mono (h : KeepsE A I x R) (hR : ∀ a, R a → R' a) : KeepsE A I x R' := by
  intro w hw
  apply wpE_mono (h w hw)
  · exact fun a w' ha => ⟨ha.1, hR a ha.2⟩
  · exact fun _ _ he => he
  · exact fun _ hk => hk

theorem keepsE_pure {a : α} (h : R a) : KeepsE A I (pure a : Fallible C W ε α) R :=
  fun _ hw => ⟨hw, h⟩

theorem keepsE_bind {f : α → Fallible C W ε β} (h : KeepsE A I x R)
    (hf : ∀ a, R a → KeepsE A I (f a) Q) : KeepsE A I (x >>= f) Q := by
  intro w hw
  rw [wpE_bind]
  apply wpE_mono (h w hw)
  · exact fun a w' ha => hf a ha.2 w' ha.1
  · exact fun _ _ he => he
  · exact fun _ hk => hk

theorem keepsE_orFail (o : Option α) (e : ε) :
    KeepsE A I (orFail o e : Fallible C W ε α) (fun a => o = some a) := by
  intro w hw
  rw [wpE_orFail]
  exact ⟨fun _ => hw, fun _ ha => ⟨hw, ha⟩⟩

theorem keepsE_failIf (c : Prop) [Decidable c] (e : ε) :
    KeepsE A I (failIf c e : Fallible C W ε Unit) (fun _ => ¬ c) := by
  intro w hw
  rw [wpE_failIf]
  exact ⟨fun _ => hw, fun hc => ⟨hw, hc⟩⟩

theorem keepsE_recast {δ : Type} (f : ε → δ) (h : KeepsE A I x R) :
    KeepsE A I (recast f x) R :=
  fun w hw => (wpE_recast f x).mpr (h w hw)

theorem keepsE_observe {δ : Type} (h : KeepsE A I x R) :
    KeepsE A I (observe x : Fallible C W δ (Except ε α)) (fun r => ∀ a, r = .ok a → R a) := by
  intro w hw
  rw [wpE_observe]
  apply wpE_mono (h w hw)
  · rintro a w' ⟨hw', ha⟩
    exact ⟨hw', fun b hb => Except.ok.inj hb ▸ ha⟩
  · exact fun e w' hw' => ⟨hw', nofun⟩
  · exact fun _ hk => hk

end

section
variable {I : S → W → Prop} {x : Action C W S ε α} {R R' : α → Prop} {Q : β → Prop}

theorem KeepsS.mono (h : KeepsS A I x R) (hR : ∀ a, R a → R' a) : KeepsS A I x R' := by
  intro s w hw
  apply wpS_mono (h s w hw)
  · exact fun a s' w' ha => ⟨ha.1, hR a ha.2⟩
  · exact fun _ _ _ he => he
  · exact fun _ hk => hk

theorem keepsS_pure {a : α} (h : R a) : KeepsS A I (pure a : Action C W S ε α) R :=
  fun _ _ hw => ⟨hw, h⟩

theorem keepsS_throw (e : ε) : KeepsS A I (throw e : Action C W S ε α) R := fun _ _ hw => hw

theorem keepsS_bind {f : α → Action C W S ε β} (h : KeepsS A I x R)
    (hf : ∀ a, R a → KeepsS A I (f a) Q) : KeepsS A I (x >>= f) Q := by
  intro s w hw
  rw [wpS_bind]
  apply wpS_mono (h s w hw)
  · exact fun a s' w' ha => hf a ha.2 s' w' ha.1
  · exact fun _ _ _ he => he
  · exact fun _ hk => hk

/-- What follows whatever the value. -/
theorem keepsS_then {f : α → Action C W S ε β} (h : KeepsS A I x R)
    (hf : ∀ a, KeepsS A I (f a) Q) : KeepsS A I (x >>= f) Q :=
  keepsS_bind h fun a _ => hf a

theorem keepsS_get : KeepsS A I (get : Action C W S ε S) (fun _ => True) :=
  fun _ _ hw => ⟨hw, trivial⟩

theorem keepsS_modify {f : S → S} (hf : ∀ s w, I s w → I (f s) w) :
    KeepsS A I (modify f : Action C W S ε PUnit) (fun _ => True) :=
  fun s w hw => ⟨hf s w hw, trivial⟩

theorem keepsS_failIf (c : Prop) [Decidable c] (e : ε) :
    KeepsS A I (failIf c e : Action C W S ε Unit) (fun _ => ¬ c) := by
  intro s w hw
  rw [wpS_failIf]
  exact ⟨fun _ => hw, fun hc => ⟨hw, hc⟩⟩

/-- A program over a part keeps `I` as it keeps the invariant `N` of the part. -/
theorem keepsS_inPart {V δ : Type} {part : Prog.Part W V} {f : δ → ε} {y : Fallible C V δ α}
    {N : V → Prop} (hget : ∀ s w, I s w → N (part.get w))
    (hput : ∀ s w v, I s w → N v → I s (part.put v w)) (h : KeepsE A N y R) :
    KeepsS A I (embed f (inPart part y)) R := by
  intro s w hw
  refine (wpS_embed _ _).mpr ((wpE_inPart _ _).mpr (wpE_mono (h _ (hget s w hw)) ?_ ?_ ?_))
  · exact fun a v ha => ⟨hput s w v hw ha.1, ha.2⟩
  · exact fun e v hv => hput s w v hw hv
  · exact fun v hv => ⟨s, hput s w v hw hv⟩

/-- Every round keeps the invariant. -/
theorem keepsS_foldlM {f : β → α → Action C W S ε β} {l : List α}
    (hf : ∀ b, ∀ a ∈ l, KeepsS A I (f b a) (fun _ => True)) (b : β) :
    KeepsS A I (l.foldlM f b) (fun _ => True) := by
  induction l generalizing b with
  | nil => exact keepsS_pure trivial
  | cons a l ih =>
    rw [List.foldlM_cons]
    have hrest := ih fun b a' ha => hf b a' (List.mem_cons_of_mem _ ha)
    exact keepsS_then (hf b a List.mem_cons_self) hrest

end
end
end Effect
