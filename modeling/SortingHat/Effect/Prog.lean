import Mathlib.Order.Basic

/-!
# Resumable programs

Programs over a shared world `W` that take one atomic step at a time. Each step
reads a choice `C` of the environment (an injected fault, a clock reading, a
short read) and changes the world at once; between two steps the program can be
cut, or another program can run.

* `Prog.after`: the configuration a program reaches under a list of choices;
* `Prog.wp`: weakest precondition with a condition `K` on every point where the
  program can be cut;
* `wp_bind`: the rule all others are built on;
* `wp_after`: what the rules prove of every run;
* `Prog.inPart`, `wp_inPart`: a program over a part of the world, and its frame rule;
* `Prog.Inert`: choices under which no step does anything.
-/

namespace Effect

/-- A step changes the world by `update` and goes on as `next`, both reading the
choice and the world the step found. -/
inductive Prog (C W α : Type) where
  | done (a : α)
  | step (update : C → W → W) (next : C → W → Prog C W α)

namespace Prog
variable {C W α β γ : Type}

def bind : Prog C W α → (α → Prog C W β) → Prog C W β
  | done a, f => f a
  | step update next, f => step update fun c w => (next c w).bind f

instance : Monad (Prog C W) where
  pure := done
  bind := bind

@[simp] theorem pure_eq (a : α) : (pure a : Prog C W α) = done a := rfl

@[simp] theorem done_bind (a : α) (f : α → Prog C W β) : (done a >>= f) = f a := rfl

@[simp] theorem step_bind (u : C → W → W) (n : C → W → Prog C W α) (f : α → Prog C W β) :
    (step u n >>= f) = step u fun c w => n c w >>= f := rfl

theorem bind_done (p : Prog C W α) : p >>= done = p := by
  induction p with
  | done a => rfl
  | step u n ih => simp only [step_bind, ih]

theorem bind_assoc (p : Prog C W α) (f : α → Prog C W β) (g : β → Prog C W γ) :
    p >>= f >>= g = p >>= fun a => f a >>= g := by
  induction p with
  | done a => rfl
  | step u n ih => simp only [step_bind, ih]

instance : LawfulMonad (Prog C W) :=
  LawfulMonad.mk' _ (fun p => bind_done p) (fun _ _ => rfl) bind_assoc

/-- One atomic action. -/
def atomic (act : C → W → α × W) : Prog C W α :=
  step (fun c w => (act c w).2) fun c w => done (act c w).1

/-- Run along a list of choices, one a step. A shorter list is a cut. -/
def after : Prog C W α → List C → W → Prog C W α × W
  | done a, _, w => (done a, w)
  | step u n, [], w => (step u n, w)
  | step u n, c :: cs, w => (n c w).after cs (u c w)

/-- The value a finished program holds. -/
def result? : Prog C W α → Option α
  | done a => some a
  | step _ _ => none

@[simp] theorem after_nil (p : Prog C W α) (w : W) : p.after [] w = (p, w) := by
  cases p <;> rfl

/-- Every program finishes, whatever choices it is given. -/
theorem exists_finish_along (choices : Nat → C) (p : Prog C W α) (w : W) :
    ∃ (n : Nat) (a : α) (w' : W), p.after ((List.range n).map choices) w = (done a, w') := by
  induction p generalizing choices w with
  | done a => exact ⟨0, a, w, rfl⟩
  | step u n ih =>
    obtain ⟨k, a, w', h⟩ := ih (choices 0) w (fun m => choices (m + 1)) (u (choices 0) w)
    refine ⟨k + 1, a, w', ?_⟩
    rw [List.range_succ_eq_map, List.map_cons, List.map_map]
    exact h

/-- Every program finishes, whatever the one choice it is given again and again. -/
theorem exists_finish (c : C) (p : Prog C W α) (w : W) :
    ∃ (n : Nat) (a : α) (w' : W), p.after (List.replicate n c) w = (done a, w') := by
  obtain ⟨n, a, w', h⟩ := exists_finish_along (fun _ => c) p w
  rw [List.map_const', List.length_range] at h
  exact ⟨n, a, w', h⟩

/-- What follows a program runs where the program has finished. -/
theorem after_bind {p : Prog C W α} {f : α → Prog C W β} {cs : List C} {w w' : W} {a : α}
    (h : p.after cs w = (done a, w')) :
    ∃ taken, taken <+: cs ∧ ∀ ds, (p >>= f).after (taken ++ ds) w = (f a).after ds w' := by
  induction p generalizing cs w with
  | done b =>
    obtain ⟨hdone, rfl⟩ := Prod.mk.inj h
    obtain rfl := Prog.done.inj hdone
    exact ⟨[], List.nil_prefix, fun ds => rfl⟩
  | step u n ih =>
    cases cs with
    | nil => cases h
    | cons c cs =>
      obtain ⟨taken, hprefix, htaken⟩ := ih c w h
      exact ⟨c :: taken, (List.cons_prefix_cons).mpr ⟨rfl, hprefix⟩, htaken⟩

/-- The choices that are not used when the program finishes. -/
def left : Prog C W α → List C → W → List C
  | done _, cs, _ => cs
  | step _ _, [], _ => []
  | step u n, c :: cs, w => (n c w).left cs (u c w)

/-- What follows a program goes on with what is left. -/
theorem after_bind_left {p : Prog C W α} {f : α → Prog C W β} {cs : List C} {w w' : W} {a : α}
    (h : p.after cs w = (done a, w')) : (p >>= f).after cs w = (f a).after (p.left cs w) w' := by
  induction p generalizing cs w with
  | done b =>
    obtain ⟨hdone, rfl⟩ := Prod.mk.inj h
    obtain rfl := Prog.done.inj hdone
    rfl
  | step u n ih =>
    cases cs with
    | nil => cases h
    | cons c cs => exact ih c w h

/-- A run of two programs has ended in the first, or the first has finished and the second goes
on with what is left. -/
theorem after_bind_cases {p : Prog C W α} {f : α → Prog C W β} {cs : List C} {w w' : W}
    {rest : Prog C W β} (h : (p >>= f).after cs w = (rest, w')) :
    (∃ rest', p.after cs w = (rest', w')) ∨
      ∃ a w₁, p.after cs w = (done a, w₁) ∧ (f a).after (p.left cs w) w₁ = (rest, w') := by
  induction p generalizing cs w with
  | done a =>
    cases cs with
    | nil => exact .inr ⟨a, w, rfl, h⟩
    | cons c cs => exact .inr ⟨a, w, rfl, h⟩
  | step u n ih =>
    cases cs with
    | nil => exact .inl ⟨step u n, congrArg (Prod.mk _) (congrArg Prod.snd h)⟩
    | cons c cs => exact ih c w h

/-- Where the whole has finished, its first part has. -/
theorem finished_of_bind {p : Prog C W α} {f : α → Prog C W β} {cs : List C} {w w' : W} {b : β}
    (h : (p >>= f).after cs w = (done b, w')) : ∃ a w₁, p.after cs w = (done a, w₁) := by
  induction p generalizing cs w with
  | done a => exact ⟨a, w, rfl⟩
  | step u n ih =>
    cases cs with
    | nil => cases h
    | cons c cs => exact ih c w h

theorem after_append (p : Prog C W α) (cs ds : List C) (w : W) :
    p.after (cs ++ ds) w = (p.after cs w).1.after ds (p.after cs w).2 := by
  induction cs generalizing p w with
  | nil => simp
  | cons c cs ih =>
    cases p with
    | done a => simp [after]
    | step u n => exact ih _ _

/-- A run that has finished is not changed by more choices. -/
theorem after_finished {p : Prog C W α} {cs : List C} {w w' : W} {a : α} (more : List C)
    (h : p.after cs w = (done a, w')) : p.after (cs ++ more) w = (done a, w') := by
  rw [after_append, h]
  cases more <;> rfl

/-- A run whose result is mapped. -/
theorem after_map (f : α → β) (p : Prog C W α) (cs : List C) (w : W) :
    (p >>= fun a => done (f a)).after cs w =
      ((p.after cs w).1 >>= fun a => done (f a), (p.after cs w).2) := by
  induction p generalizing cs w with
  | done a => cases cs <;> rfl
  | step u n ih =>
    cases cs with
    | nil => rfl
    | cons c cs => exact ih c w cs (u c w)

/-- The weakest precondition of `p`: `Q` holds of what it returns and `K` of
every world in which it can be cut before a step, for choices that satisfy `A`. -/
def wp (A : C → Prop) (Q : α → W → Prop) (K : W → Prop) : Prog C W α → W → Prop
  | done a, w => Q a w
  | step u n, w => K w ∧ ∀ c, A c → (n c w).wp A Q K (u c w)

section
variable {A : C → Prop} {Q Q' : α → W → Prop} {K K' : W → Prop} {p : Prog C W α} {w : W}

@[simp] theorem wp_done (a : α) : (done a : Prog C W α).wp A Q K w ↔ Q a w := Iff.rfl

theorem wp_bind (f : α → Prog C W β) {Q : β → W → Prop} :
    (p >>= f).wp A Q K w ↔ p.wp A (fun a w' => (f a).wp A Q K w') K w := by
  induction p generalizing w with
  | done a => rfl
  | step u n ih => simp only [step_bind, wp, ih]

theorem wp_mono (h : p.wp A Q K w) (hQ : ∀ a w', Q a w' → Q' a w') (hK : ∀ w', K w' → K' w') :
    p.wp A Q' K' w := by
  induction p generalizing w with
  | done a => exact hQ a w h
  | step u n ih => exact ⟨hK w h.1, fun c hc => ih c w (h.2 c hc)⟩

theorem wp_and (h : p.wp A Q K w) (h' : p.wp A Q' K' w) :
    p.wp A (fun a w' => Q a w' ∧ Q' a w') (fun w' => K w' ∧ K' w') w := by
  induction p generalizing w with
  | done a => exact ⟨h, h'⟩
  | step u n ih => exact ⟨⟨h.1, h'.1⟩, fun c hc => ih c w (h.2 c hc) (h'.2 c hc)⟩

theorem wp_trivial (hQ : ∀ a w', Q a w') (hK : ∀ w', K w') : p.wp A Q K w := by
  induction p generalizing w with
  | done a => exact hQ a w
  | step u n ih => exact ⟨hK w, fun c _ => ih c w⟩

/-- Fewer choices of the environment leave less to prove. -/
theorem wp_weaken {B : C → Prop} (h : p.wp A Q K w) (hB : ∀ c, B c → A c) : p.wp B Q K w := by
  induction p generalizing w with
  | done a => exact h
  | step u n ih => exact ⟨h.1, fun c hc => ih c w (h.2 c (hB c hc))⟩

/-- Every program is specified by its own runs. -/
theorem wp_runs (p : Prog C W α) (w : W) : p.wp A (fun a w' => ∃ cs : List C, (∀ c ∈ cs, A c) ∧
    p.after cs w = (done a, w')) (fun _ => True) w := by
  induction p generalizing w with
  | done a => exact ⟨[], nofun, rfl⟩
  | step u n ih =>
    refine ⟨trivial, fun c hc => wp_mono (ih c w (u c w)) ?_ fun _ h => h⟩
    rintro a w' ⟨cs, hcs, hrun⟩
    exact ⟨c :: cs, List.forall_mem_cons.mpr ⟨hc, hcs⟩, hrun⟩

/-- What a configuration must satisfy: `Q` when finished, `K` when cut. -/
def Holds (Q : α → W → Prop) (K : W → Prop) : Prog C W α × W → Prop
  | (done a, w) => Q a w
  | (step _ _, w) => K w

theorem Holds.mono {Q' : α → W → Prop} {K' : W → Prop} {end_ : Prog C W α × W}
    (h : Holds Q K end_) (hQ : ∀ a w, Q a w → Q' a w) (hK : ∀ w, K w → K' w) :
    Holds Q' K' end_ := by
  obtain ⟨p, w⟩ := end_
  cases p with
  | done a => exact hQ a w h
  | step u n => exact hK w h

theorem wp_after (h : p.wp A Q K w) (cs : List C) (hcs : ∀ c ∈ cs, A c) :
    Holds Q K (p.after cs w) := by
  induction cs generalizing p w with
  | nil =>
    cases p with
    | done a => exact h
    | step u n => exact h.1
  | cons c cs ih =>
    cases p with
    | done a => exact h
    | step u n =>
      exact ih (h.2 c (hcs c List.mem_cons_self)) fun d hd => hcs d (List.mem_cons_of_mem c hd)

/-- What is proved of a program happens. -/
theorem wp_finish {c : C} (hc : A c) (h : p.wp A Q K w) :
    ∃ (cs : List C) (a : α) (w' : W), (∀ d ∈ cs, A d) ∧ p.after cs w = (done a, w') ∧ Q a w' := by
  obtain ⟨n, a, w', hafter⟩ := exists_finish c p w
  have hcs : ∀ d ∈ List.replicate n c, A d := fun d hd => List.eq_of_mem_replicate hd ▸ hc
  have hholds := wp_after h (List.replicate n c) hcs
  rw [hafter] at hholds
  exact ⟨List.replicate n c, a, w', hcs, hafter, hholds⟩

end

/-! ## Parts of a world -/

/-- A part `V` of `W` that can be read and replaced. -/
structure Part (W V : Type) where
  get : W → V
  put : V → W → W
  get_put : ∀ v w, get (put v w) = v
  put_get : ∀ w, put (get w) w = w
  put_put : ∀ v v' w, put v (put v' w) = put v w

/-- Run a program over a part; it cannot touch the rest. -/
def inPart {V : Type} (part : Part W V) : Prog C V α → Prog C W α
  | done a => done a
  | step u n => step (fun c w => part.put (u c (part.get w)) w) fun c w =>
      (n c (part.get w)).inPart part

/-- The frame rule. -/
theorem wp_inPart {V : Type} {part : Part W V} {p : Prog C V α} {A : C → Prop}
    {Q : α → W → Prop} {K : W → Prop} {w : W} :
    (p.inPart part).wp A Q K w ↔
      p.wp A (fun a v => Q a (part.put v w)) (fun v => K (part.put v w)) (part.get w) := by
  have key : ∀ (p : Prog C V α) (v : V), (p.inPart part).wp A Q K (part.put v w) ↔
      p.wp A (fun a v => Q a (part.put v w)) (fun v => K (part.put v w)) v := by
    intro p
    induction p with
    | done a => exact fun v => Iff.rfl
    | step u n ih =>
      intro v
      simp only [inPart, wp, part.get_put, part.put_put]
      exact and_congr_right fun _ => forall₂_congr fun c _ => ih c v _
  have := key p (part.get w)
  rwa [part.put_get] at this

/-! ## Choices that change nothing -/

/-- No step changes the world under a choice in `F`. -/
def Inert (F : C → Prop) : Prog C W α → Prop
  | done _ => True
  | step u n => (∀ c w, F c → u c w = w) ∧ ∀ c w, (n c w).Inert F

section
variable {F : C → Prop} {p : Prog C W α}

theorem Inert.bind {f : α → Prog C W β} (h : p.Inert F) (hf : ∀ a, (f a).Inert F) :
    (p >>= f).Inert F := by
  induction p with
  | done a => exact hf a
  | step u n ih => exact ⟨h.1, fun c w => ih c w (h.2 c w)⟩

theorem Inert.inPart {V : Type} {part : Part W V} {p : Prog C V α} (h : p.Inert F) :
    (p.inPart part).Inert F := by
  induction p with
  | done a => exact trivial
  | step u n ih =>
    refine ⟨fun c w hc => ?_, fun c w => ih c _ (h.2 c _)⟩
    dsimp only
    rw [h.1 c _ hc, part.put_get]

theorem Inert.atomic {act : C → W → α × W} (h : ∀ c w, F c → (act c w).2 = w) :
    (Prog.atomic act).Inert F := ⟨h, fun _ _ => trivial⟩

/-- Where all choices are in `F`, the world stays. -/
theorem Inert.wp (h : p.Inert F) (w : W) : p.wp F (fun _ w' => w' = w) (fun w' => w' = w) w := by
  induction p generalizing w with
  | done a => exact rfl
  | step u n ih =>
    refine ⟨rfl, fun c hc => ?_⟩
    rw [h.1 c w hc]
    exact ih c w (h.2 c w) w

/-- A last choice in `F` is as if it had not been taken. -/
theorem Inert.after_snoc (h : p.Inert F) (cs : List C) {c : C} (hc : F c) (w : W) :
    (p.after (cs ++ [c]) w).2 = (p.after cs w).2 := by
  induction cs generalizing p w with
  | nil =>
    cases p with
    | done a => rfl
    | step u n =>
      show ((n c w).after [] (u c w)).2 = w
      rw [after_nil, h.1 c w hc]
  | cons d cs ih =>
    cases p with
    | done a => rfl
    | step u n => exact ih (h.2 d w) (u d w)

end

end Prog
end Effect
