import SortingHat.Effect.Rules

/-!
# Programs under a monitor

A monitor sees each step of a program: the choice, the world that was found and the world
that was left. It has a state of its own, and refuses what it has no transition for.

* `Each`: every single step is in a relation, wherever the others have left the world;
* `Obeys`: a monitor that is never in the way, with its rules;
* `Obeys.accepts`: the steps of every run, finished or cut, are steps of the monitor.
-/

namespace Effect

/-- A step with its choice, the world it found and the world it left. -/
abbrev Trail (C W : Type) := List (C × W × W)

/-- Where a monitor in a state goes on a step. -/
abbrev Monitor (C W σ : Type) := σ → C → W → W → σ → Prop

/-- The monitor takes every step of the trail. -/
inductive Accepts {C W σ : Type} (M : Monitor C W σ) : σ → Trail C W → σ → Prop where
  | nil {g : σ} : Accepts M g [] g
  | cons {g g' g'' : σ} {c : C} {w w' : W} {rest : Trail C W} :
      M g c w w' g' → Accepts M g' rest g'' → Accepts M g ((c, w, w') :: rest) g''

namespace Prog
variable {C W σ α β : Type}

/-- The steps of a run. -/
def trail : Prog C W α → List C → W → Trail C W
  | done _, _, _ => []
  | step _ _, [], _ => []
  | step u n, c :: cs, w => (c, w, u c w) :: (n c w).trail cs (u c w)

/-! ## Single steps -/

/-- Every step is in `G`, from whatever world. -/
def Each (G : C → W → W → Prop) : Prog C W α → Prop
  | done _ => True
  | step u n => ∀ c w, G c w (u c w) ∧ (n c w).Each G

section
variable {G G' : C → W → W → Prop} {p : Prog C W α}

theorem Each.mono (h : p.Each G) (hG : ∀ c w w', G c w w' → G' c w w') : p.Each G' := by
  induction p with
  | done a => exact trivial
  | step u n ih => exact fun c w => ⟨hG _ _ _ (h c w).1, ih c w (h c w).2⟩

theorem Each.bind {f : α → Prog C W β} (h : p.Each G) (hf : ∀ a, (f a).Each G) :
    (p >>= f).Each G := by
  induction p with
  | done a => exact hf a
  | step u n ih => exact fun c w => ⟨(h c w).1, ih c w (h c w).2⟩

theorem Each.atomic {act : C → W → α × W} (h : ∀ c w, G c w (act c w).2) :
    (Prog.atomic act).Each G := fun c w => ⟨h c w, trivial⟩

/-- A program over a part, one of whose steps is a step of the whole. -/
theorem Each.inPart {V : Type} {part : Part W V} {T : C → V → V → Prop} {p : Prog C V α}
    (h : p.Each T) (hT : ∀ c w v, T c (part.get w) v → G c w (part.put v w)) :
    (p.inPart part).Each G := by
  induction p with
  | done a => exact trivial
  | step u n ih => exact fun c w => ⟨hT _ _ _ (h c _).1, ih c _ (h c _).2⟩

theorem Each.trail (h : p.Each G) (cs : List C) (w : W) :
    ∀ x ∈ p.trail cs w, G x.1 x.2.1 x.2.2 := by
  induction p generalizing cs w with
  | done a => exact nofun
  | step u n ih =>
    cases cs with
    | nil => exact nofun
    | cons c cs => exact List.forall_mem_cons.mpr ⟨(h c w).1, ih c w (h c w).2 cs (u c w)⟩

theorem Each.any (p : Prog C W α) : p.Each fun _ _ _ => True := by
  induction p with
  | done a => exact trivial
  | step u n ih => exact fun c w => ⟨trivial, ih c w⟩

end

/-! ## Obeying a monitor -/

/-- The monitor takes every step of every run, and where the program finishes, `Q` holds of
the result, the monitor and the world. -/
def Obeys (M : Monitor C W σ) (Q : α → σ → W → Prop) : Prog C W α → σ → W → Prop
  | done a, g, w => Q a g w
  | step u n, g, w => ∀ c, ∃ g', M g c w (u c w) g' ∧ (n c w).Obeys M Q g' (u c w)

section
variable {M : Monitor C W σ} {Q Q' : α → σ → W → Prop} {p : Prog C W α} {g : σ} {w : W}

/-- **What obeys a monitor does nothing the monitor does not know.** -/
theorem Obeys.accepts (h : p.Obeys M Q g w) (cs : List C) :
    ∃ g', Accepts M g (p.trail cs w) g' ∧ ∀ a w', p.after cs w = (done a, w') → Q a g' w' := by
  induction p generalizing g w cs with
  | done a =>
    refine ⟨g, .nil, fun b w' hafter => ?_⟩
    obtain ⟨hsame, rfl⟩ := Prod.mk.inj hafter
    obtain rfl := Prog.done.inj hsame
    exact h
  | step u n ih =>
    cases cs with
    | nil => exact ⟨g, .nil, nofun⟩
    | cons c cs =>
      obtain ⟨g', hstep, hrest⟩ := h c
      obtain ⟨g'', haccepts, hresult⟩ := ih c w hrest cs
      exact ⟨g'', .cons hstep haccepts, hresult⟩

theorem Obeys.mono (h : p.Obeys M Q g w) (hQ : ∀ a g' w', Q a g' w' → Q' a g' w') :
    p.Obeys M Q' g w := by
  induction p generalizing g w with
  | done a => exact hQ a g w h
  | step u n ih =>
    intro c
    obtain ⟨g', hstep, hrest⟩ := h c
    exact ⟨g', hstep, ih c w hrest⟩

theorem Obeys.bind {f : α → Prog C W β} {Q : β → σ → W → Prop}
    (h : p.Obeys M (fun a g' w' => (f a).Obeys M Q g' w') g w) : (p >>= f).Obeys M Q g w := by
  induction p generalizing g w with
  | done a => exact h
  | step u n ih =>
    intro c
    obtain ⟨g', hstep, hrest⟩ := h c
    exact ⟨g', hstep, ih c w hrest⟩

/-- A program of which the monitor only knows the single steps, and stays where it is. -/
theorem Each.obeys {G : C → W → W → Prop} {R : α → W → Prop} {K : W → Prop} (h : p.Each G)
    (hp : p.wp (fun _ => True) R K w) (hM : ∀ c w w', G c w w' → M g c w w' g) :
    p.Obeys M (fun a g' w' => g' = g ∧ R a w') g w := by
  induction p generalizing w with
  | done a => exact ⟨rfl, hp⟩
  | step u n ih =>
    exact fun c => ⟨g, hM _ _ _ (h c w).1, ih c w (h c w).2 (hp.2 c trivial)⟩

/-- A program over a part, under a monitor of the whole. -/
theorem Obeys.inPart {V : Type} {part : Part W V} {N : Monitor C V σ} {R : α → σ → V → Prop}
    {p : Prog C V α} (h : p.Obeys N R g (part.get w))
    (hM : ∀ g c v v' g', N g c v v' g' → M g c (part.put v w) (part.put v' w) g') :
    (p.inPart part).Obeys M (fun a g' w' => ∃ v, w' = part.put v w ∧ R a g' v) g w := by
  have key : ∀ (p : Prog C V α) (g : σ) (v : V), p.Obeys N R g v →
      (p.inPart part).Obeys M (fun a g' w' => ∃ v, w' = part.put v w ∧ R a g' v) g
        (part.put v w) := by
    intro p
    induction p with
    | done a => exact fun g v hv => ⟨v, rfl, hv⟩
    | step u n ih =>
      intro g v hv c
      obtain ⟨g', hstep, hrest⟩ := hv c
      refine ⟨g', ?_, ?_⟩
      · simp only [part.get_put, part.put_put]
        exact hM _ _ _ _ _ hstep
      · simp only [part.get_put, part.put_put]
        exact ih c v g' _ hrest
  have hself := key p g (part.get w) h
  rwa [part.put_get] at hself

end
end Prog

/-! ## Programs that fail -/

section
variable {C W S σ ε α β : Type} {G : C → W → W → Prop} {M : Monitor C W σ}

def EachE (G : C → W → W → Prop) (x : Fallible C W ε α) : Prop := (ExceptT.run x).Each G

def EachS (G : C → W → W → Prop) (x : Action C W S ε α) : Prop := ∀ s, (x.start s).Each G

section
variable {x : Fallible C W ε α} {y : Action C W S ε α}

theorem eachE_pure (a : α) : EachE G (pure a : Fallible C W ε α) := trivial

theorem eachE_throw (e : ε) : EachE G (throw e : Fallible C W ε α) := trivial

theorem eachE_bind {f : α → Fallible C W ε β} (h : EachE G x) (hf : ∀ a, EachE G (f a)) :
    EachE G (x >>= f) := by
  apply Prog.Each.bind h
  intro r
  cases r with
  | error e => exact trivial
  | ok a => exact hf a

theorem eachE_orFail (o : Option α) (e : ε) : EachE G (orFail o e : Fallible C W ε α) := by
  cases o <;> exact trivial

theorem eachE_failIf (c : Prop) [Decidable c] (e : ε) :
    EachE G (failIf c e : Fallible C W ε Unit) := by
  unfold failIf
  split <;> exact trivial

theorem eachE_recast {δ : Type} (f : ε → δ) (h : EachE G x) : EachE G (recast f x) :=
  Prog.Each.bind h fun _ => trivial

theorem eachE_observe {δ : Type} (h : EachE G x) :
    EachE G (observe x : Fallible C W δ (Except ε α)) := Prog.Each.bind h fun _ => trivial

theorem eachE_within (h : EachS G y) (s : S) : EachE G (y.within s) := by
  apply Prog.Each.bind (h s)
  intro r
  obtain ⟨r, s'⟩ := r
  cases r <;> exact trivial

theorem eachS_pure (a : α) : EachS G (pure a : Action C W S ε α) := fun _ => trivial

theorem eachS_throw (e : ε) : EachS G (throw e : Action C W S ε α) := fun _ => trivial

theorem eachS_get : EachS G (get : Action C W S ε S) := fun _ => trivial

theorem eachS_modify (f : S → S) : EachS G (modify f : Action C W S ε PUnit) := fun _ => trivial

theorem eachS_bind {f : α → Action C W S ε β} (h : EachS G y) (hf : ∀ a, EachS G (f a)) :
    EachS G (y >>= f) := by
  intro s
  apply Prog.Each.bind (h s)
  intro r
  obtain ⟨r, s'⟩ := r
  cases r with
  | error e => exact trivial
  | ok a => exact hf a s'

theorem eachS_orFail (o : Option α) (e : ε) : EachS G (orFail o e : Action C W S ε α) := by
  cases o <;> exact fun _ => trivial

theorem eachS_failIf (c : Prop) [Decidable c] (e : ε) :
    EachS G (failIf c e : Action C W S ε Unit) := by
  unfold failIf
  split <;> exact fun _ => trivial

theorem eachS_embed {δ : Type} (f : δ → ε) {x : Fallible C W δ α} (h : EachE G x) :
    EachS G (embed f x : Action C W S ε α) := fun _ => Prog.Each.bind h fun _ => trivial

theorem eachS_foldlM {f : β → α → Action C W S ε β} (hf : ∀ b a, EachS G (f b a)) (b : β)
    (l : List α) : EachS G (l.foldlM f b) := by
  induction l generalizing b with
  | nil => exact eachS_pure b
  | cons a l ih =>
    rw [List.foldlM_cons]
    exact eachS_bind (hf b a) ih

theorem eachS_forM {f : β → Action C W S ε PUnit} (hf : ∀ b, EachS G (f b)) (l : List β) :
    EachS G (l.forM f) := by
  induction l with
  | nil => exact eachS_pure _
  | cons b l ih => exact eachS_bind (hf b) fun _ => ih

end

/-- `Obeys` for a program that can fail; nothing is asked for where it does. -/
def obeysE (M : Monitor C W σ) (x : Fallible C W ε α) (Q : α → σ → W → Prop) (g : σ) (w : W) :
    Prop :=
  Prog.Obeys M (fun r g' w' => ∀ a, r = .ok a → Q a g' w') (ExceptT.run x) g w

/-- The same for an action. -/
def obeysS (M : Monitor C W σ) (x : Action C W S ε α) (Q : α → σ → S → W → Prop) (g : σ) (s : S)
    (w : W) : Prop :=
  Prog.Obeys M (fun r g' w' => ∀ a, r.1 = .ok a → Q a g' r.2 w') (x.start s) g w

section
variable {Q : α → σ → W → Prop} {g : σ} {w : W}

theorem obeysE_pure {a : α} (h : Q a g w) : obeysE M (pure a : Fallible C W ε α) Q g w := by
  intro b hb
  obtain rfl := Except.ok.inj hb
  exact h

theorem obeysE_throw (e : ε) : obeysE M (throw e : Fallible C W ε α) Q g w := by
  intro b hb
  cases hb

theorem obeysE_bind {x : Fallible C W ε α} {f : α → Fallible C W ε β} {Q : β → σ → W → Prop}
    (h : obeysE M x (fun a g' w' => obeysE M (f a) Q g' w') g w) : obeysE M (x >>= f) Q g w := by
  apply Prog.Obeys.bind
  apply Prog.Obeys.mono h
  intro r g' w' hr
  cases r with
  | error e => exact obeysE_throw e
  | ok a => exact hr a rfl

/-- What follows a program of which this is known. -/
theorem obeysE_then {x : Fallible C W ε α} {f : α → Fallible C W ε β} {R : α → σ → W → Prop}
    {Q : β → σ → W → Prop} (h : obeysE M x R g w)
    (hf : ∀ a g' w', R a g' w' → obeysE M (f a) Q g' w') : obeysE M (x >>= f) Q g w := by
  apply obeysE_bind
  apply Prog.Obeys.mono h
  intro r g' w' hr a ha
  exact hf a g' w' (hr a ha)

theorem obeysE_recast {δ : Type} {f : δ → ε} {x : Fallible C W δ α} (h : obeysE M x Q g w) :
    obeysE M (recast f x) Q g w := by
  apply Prog.Obeys.bind
  apply Prog.Obeys.mono h
  intro r g' w' hr
  cases r with
  | error e => exact nofun
  | ok a =>
    intro b hb
    obtain rfl := Except.ok.inj hb
    exact hr a rfl

/-- The steps of a program that the monitor passes over. -/
theorem EachE.obeys {x : Fallible C W ε α} {R : α → W → Prop} {K : W → Prop} (h : EachE G x)
    (hx : wpE (fun _ => True) x R (fun _ _ => True) K w) (hM : ∀ c w w', G c w w' → M g c w w' g)
    (hQ : ∀ a w', R a w' → Q a g w') : obeysE M x Q g w := by
  apply Prog.Obeys.mono (Prog.Each.obeys h hx hM)
  rintro r g' w' ⟨rfl, hr⟩ a rfl
  exact hQ a w' hr

end

section
variable {Q : α → σ → S → W → Prop} {g : σ} {s : S} {w : W}

theorem obeysS_pure {a : α} (h : Q a g s w) : obeysS M (pure a : Action C W S ε α) Q g s w := by
  intro b hb
  obtain rfl := Except.ok.inj hb
  exact h

theorem obeysS_throw (e : ε) : obeysS M (throw e : Action C W S ε α) Q g s w := by
  intro b hb
  cases hb

theorem obeysS_bind {x : Action C W S ε α} {f : α → Action C W S ε β} {Q : β → σ → S → W → Prop}
    (h : obeysS M x (fun a g' s' w' => obeysS M (f a) Q g' s' w') g s w) :
    obeysS M (x >>= f) Q g s w := by
  apply Prog.Obeys.bind
  apply Prog.Obeys.mono h
  intro r g' w' hr
  obtain ⟨r, s'⟩ := r
  cases r with
  | error e => exact obeysS_throw e
  | ok a => exact hr a rfl

theorem obeysS_then {x : Action C W S ε α} {f : α → Action C W S ε β} {R : α → σ → S → W → Prop}
    {Q : β → σ → S → W → Prop} (h : obeysS M x R g s w)
    (hf : ∀ a g' s' w', R a g' s' w' → obeysS M (f a) Q g' s' w') : obeysS M (x >>= f) Q g s w := by
  apply obeysS_bind
  apply Prog.Obeys.mono h
  intro r g' w' hr a ha
  exact hf a g' r.2 w' (hr a ha)

theorem obeysS_orFail {o : Option α} {e : ε} (h : ∀ a, o = some a → Q a g s w) :
    obeysS M (orFail o e : Action C W S ε α) Q g s w := by
  cases o with
  | none => exact obeysS_throw e
  | some a => exact obeysS_pure (h a rfl)

/-- A program over a part of the world, under a monitor of that part. -/
theorem obeysS_inPart {V δ : Type} {part : Prog.Part W V} {f : δ → ε} {x : Fallible C V δ α}
    {N : Monitor C V σ} {R : α → σ → V → Prop} (h : obeysE N x R g (part.get w))
    (hM : ∀ g c v v' g', N g c v v' g' → M g c (part.put v w) (part.put v' w) g')
    (hQ : ∀ a g' v, R a g' v → Q a g' s (part.put v w)) :
    obeysS M (embed f (inPart part x)) Q g s w := by
  apply Prog.Obeys.bind
  apply Prog.Obeys.mono (Prog.Obeys.inPart h hM)
  rintro r g' w' ⟨v, rfl, hr⟩ a ha
  cases r with
  | error e => cases ha
  | ok b =>
    obtain rfl := Except.ok.inj ha
    exact hQ b g' v (hr b rfl)

/-- The steps of an action that the monitor passes over. -/
theorem EachS.obeys {x : Action C W S ε α} {R : α → S → W → Prop} {K : W → Prop} (h : EachS G x)
    (hx : wpS (fun _ => True) x R (fun _ _ _ => True) K s w)
    (hM : ∀ c w w', G c w w' → M g c w w' g) (hQ : ∀ a s' w', R a s' w' → Q a g s' w') :
    obeysS M x Q g s w := by
  apply Prog.Obeys.mono (Prog.Each.obeys (h s) hx hM)
  rintro ⟨r, s'⟩ g' w' ⟨rfl, hr⟩ a rfl
  exact hQ a s' w' hr

end
end
end Effect
