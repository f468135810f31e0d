import SortingHat.Effect.Prog
import Mathlib.Data.List.Forall2

/-!
# Rules for programs that fail and keep volatile state

`Fallible` programs can return an error; an `Action` also carries a volatile
state that survives an error and is lost at a cut. Both get a weakest
precondition with one postcondition for each way to end.

* `wpE_bind`, `wpS_bind`: sequencing;
* `Reads`: a program that leaves the world alone, with what it can return;
* `Moves`: a program whose every step stays in a preorder on worlds.
-/

namespace Effect

/-- The value, or the error `e` where there is none. -/
def orFail {m : Type → Type} [Monad m] {ε α : Type} [MonadExcept ε m] (o : Option α) (e : ε) : m α :=
  match o with
  | some a => pure a
  | none => throw e

/-- Stop with `e` where `c` holds. -/
def failIf {m : Type → Type} [Monad m] {ε : Type} [MonadExcept ε m] (c : Prop) [Decidable c]
    (e : ε) : m Unit :=
  if c then throw e else pure ()

/-- A program that returns a value or an error. -/
abbrev Fallible (C W ε α : Type) := ExceptT ε (Prog C W) α

/-- A fallible program with a volatile state `S`. -/
abbrev Action (C W S ε α : Type) := ExceptT ε (StateT S (Prog C W)) α

section
variable {C W S ε α β : Type} {A : C → Prop}

/-- Start an action in volatile state `s`. -/
def Action.start (x : Action C W S ε α) (s : S) : Prog C W (Except ε α × S) :=
  StateT.run (ExceptT.run x) s

def wpE (A : C → Prop) (x : Fallible C W ε α) (Q : α → W → Prop) (E : ε → W → Prop)
    (K : W → Prop) (w : W) : Prop :=
  Prog.wp A (fun r w' => match r with | .ok a => Q a w' | .error e => E e w') K (ExceptT.run x) w

def wpS (A : C → Prop) (x : Action C W S ε α) (Q : α → S → W → Prop) (E : ε → S → W → Prop)
    (K : W → Prop) (s : S) (w : W) : Prop :=
  Prog.wp A
    (fun r w' => match r with | (.ok a, s') => Q a s' w' | (.error e, s') => E e s' w')
    K (x.start s) w

/-- Carry a fallible program into an action, its errors renamed by `f`. -/
def embed {δ : Type} (f : δ → ε) (x : Fallible C W δ α) : Action C W S ε α :=
  ExceptT.mk fun s => ExceptT.run x >>= fun r => Prog.done (r.mapError f, s)

/-- Rename the errors of a fallible program. -/
def recast {δ : Type} (f : δ → ε) (x : Fallible C W δ α) : Fallible C W ε α :=
  ExceptT.mk (ExceptT.run x >>= fun r => Prog.done (r.mapError f))

/-- A fallible program over a part of the world. -/
def inPart {V : Type} (part : Prog.Part W V) (x : Fallible C V ε α) : Fallible C W ε α :=
  ExceptT.mk ((ExceptT.run x).inPart part)

/-- Run a fallible program for its outcome, error or value. -/
def observe {δ : Type} (x : Fallible C W δ α) : Fallible C W ε (Except δ α) :=
  ExceptT.mk (ExceptT.run x >>= fun r => Prog.done (.ok r))

/-- Run an action as a fallible program that returns its final volatile state. -/
def Action.within (x : Action C W S ε α) (s : S) : Fallible C W ε (α × S) :=
  ExceptT.mk (x.start s >>= fun r => match r with
    | (.ok a, s') => Prog.done (.ok (a, s'))
    | (.error e, _) => Prog.done (.error e))

section
variable {Q : α → W → Prop} {E : ε → W → Prop} {K : W → Prop} {w : W}

@[simp] theorem wpE_pure (a : α) : wpE A (pure a : Fallible C W ε α) Q E K w ↔ Q a w := Iff.rfl

@[simp] theorem wpE_throw (e : ε) :
    wpE A (throw e : Fallible C W ε α) Q E K w ↔ E e w := Iff.rfl

theorem wpE_bind (x : Fallible C W ε α) (f : α → Fallible C W ε β) {Q : β → W → Prop} :
    wpE A (x >>= f) Q E K w ↔ wpE A x (fun a w' => wpE A (f a) Q E K w') E K w := by
  refine (Prog.wp_bind _).trans (iff_of_eq ?_)
  unfold wpE
  congr 1
  funext r w'
  cases r <;> rfl

@[simp] theorem wpE_orFail (o : Option α) (e : ε) :
    wpE A (orFail o e : Fallible C W ε α) Q E K w ↔
      (o = none → E e w) ∧ ∀ a, o = some a → Q a w := by
  cases o <;> simp [orFail]

@[simp] theorem wpE_failIf (c : Prop) [Decidable c] (e : ε) {Q : Unit → W → Prop} :
    wpE A (failIf c e : Fallible C W ε Unit) Q E K w ↔ (c → E e w) ∧ (¬ c → Q () w) := by
  by_cases h : c <;> simp [failIf, h]

theorem wpE_recast {δ : Type} (f : δ → ε) (x : Fallible C W δ α) :
    wpE A (recast f x) Q E K w ↔ wpE A x Q (fun e => E (f e)) K w := by
  refine (Prog.wp_bind _).trans (iff_of_eq ?_)
  unfold wpE
  congr 1
  funext r w'
  cases r <;> rfl

theorem wpE_inPart {V : Type} (part : Prog.Part W V) (x : Fallible C V ε α) :
    wpE A (inPart part x) Q E K w ↔
      wpE A x (fun a v => Q a (part.put v w)) (fun e v => E e (part.put v w))
        (fun v => K (part.put v w)) (part.get w) := by
  refine Prog.wp_inPart.trans (iff_of_eq ?_)
  unfold wpE
  congr 1

theorem wpE_observe {δ : Type} (x : Fallible C W δ α) {Q : Except δ α → W → Prop} :
    wpE A (observe x : Fallible C W ε (Except δ α)) Q E K w ↔
      wpE A x (fun a => Q (.ok a)) (fun e => Q (.error e)) K w := by
  refine (Prog.wp_bind _).trans (iff_of_eq ?_)
  unfold wpE
  congr 1
  funext r w'
  cases r <;> rfl

theorem wpE_mono {x : Fallible C W ε α} {Q' : α → W → Prop} {E' : ε → W → Prop} {K' : W → Prop}
    (h : wpE A x Q E K w) (hQ : ∀ a w', Q a w' → Q' a w') (hE : ∀ e w', E e w' → E' e w')
    (hK : ∀ w', K w' → K' w') : wpE A x Q' E' K' w := by
  refine Prog.wp_mono h ?_ hK
  rintro (e | a) w' hw
  · exact hE e w' hw
  · exact hQ a w' hw

end

/-- One step of a run whose first step is atomic. -/
theorem atomic_after {c : C} {cs : List C} {w : W} (act : C → W → Except ε α × W)
    (f : α → Fallible C W ε β) :
    (ExceptT.run (ExceptT.mk (Prog.atomic act) >>= f)).after (c :: cs) w =
      match (act c w).1 with
      | .error e => (.done (.error e), (act c w).2)
      | .ok a => (ExceptT.run (f a)).after cs (act c w).2 := by
  show (ExceptT.bindCont f (act c w).1).after cs (act c w).2 = _
  cases (act c w).1 with
  | error e => rfl
  | ok a => rfl

section
variable {Q : α → S → W → Prop} {E : ε → S → W → Prop} {K : W → Prop} {s : S} {w : W}

@[simp] theorem wpS_pure (a : α) : wpS A (pure a : Action C W S ε α) Q E K s w ↔ Q a s w := Iff.rfl

@[simp] theorem wpS_throw (e : ε) :
    wpS A (throw e : Action C W S ε α) Q E K s w ↔ E e s w := Iff.rfl

theorem wpS_bind (x : Action C W S ε α) (f : α → Action C W S ε β) {Q : β → S → W → Prop} :
    wpS A (x >>= f) Q E K s w ↔ wpS A x (fun a s' w' => wpS A (f a) Q E K s' w') E K s w := by
  refine (Prog.wp_bind _).trans (iff_of_eq ?_)
  unfold wpS
  congr 1
  funext ⟨r, s'⟩ w'
  cases r <;> rfl

@[simp] theorem wpS_get {Q : S → S → W → Prop} :
    wpS A (get : Action C W S ε S) Q E K s w ↔ Q s s w := Iff.rfl

@[simp] theorem wpS_set (t : S) {Q : PUnit → S → W → Prop} :
    wpS A (set t : Action C W S ε PUnit) Q E K s w ↔ Q ⟨⟩ t w := Iff.rfl

@[simp] theorem wpS_modify (f : S → S) {Q : PUnit → S → W → Prop} :
    wpS A (modify f : Action C W S ε PUnit) Q E K s w ↔ Q ⟨⟩ (f s) w := Iff.rfl

@[simp] theorem wpS_orFail (o : Option α) (e : ε) :
    wpS A (orFail o e : Action C W S ε α) Q E K s w ↔
      (o = none → E e s w) ∧ ∀ a, o = some a → Q a s w := by
  cases o <;> simp [orFail]

@[simp] theorem wpS_failIf (c : Prop) [Decidable c] (e : ε) {Q : Unit → S → W → Prop} :
    wpS A (failIf c e : Action C W S ε Unit) Q E K s w ↔ (c → E e s w) ∧ (¬ c → Q () s w) := by
  by_cases h : c <;> simp [failIf, h]

theorem wpS_embed {δ : Type} (f : δ → ε) (x : Fallible C W δ α) :
    wpS A (embed f x : Action C W S ε α) Q E K s w ↔
      wpE A x (fun a => Q a s) (fun e => E (f e) s) K w := by
  refine (Prog.wp_bind _).trans (iff_of_eq ?_)
  unfold wpE
  congr 1
  funext r w'
  cases r <;> rfl

theorem wpE_within (x : Action C W S ε α) {Q : α × S → W → Prop} {E : ε → W → Prop} :
    wpE A (x.within s) Q E K w ↔
      wpS A x (fun a s' => Q (a, s')) (fun e _ => E e) K s w := by
  refine (Prog.wp_bind _).trans (iff_of_eq ?_)
  unfold wpS
  congr 1
  funext ⟨r, s'⟩ w'
  cases r <;> rfl

theorem wpS_mono {x : Action C W S ε α} {Q' : α → S → W → Prop} {E' : ε → S → W → Prop}
    {K' : W → Prop} (h : wpS A x Q E K s w) (hQ : ∀ a s' w', Q a s' w' → Q' a s' w')
    (hE : ∀ e s' w', E e s' w' → E' e s' w') (hK : ∀ w', K w' → K' w') :
    wpS A x Q' E' K' s w := by
  refine Prog.wp_mono h ?_ hK
  rintro ⟨e | a, s'⟩ w' hw
  · exact hE e s' w' hw
  · exact hQ a s' w' hw

theorem wpS_and {x : Action C W S ε α} {Q' : α → S → W → Prop} {E' : ε → S → W → Prop}
    {K' : W → Prop} (h : wpS A x Q E K s w) (h' : wpS A x Q' E' K' s w) :
    wpS A x (fun a s' w' => Q a s' w' ∧ Q' a s' w') (fun e s' w' => E e s' w' ∧ E' e s' w')
      (fun w' => K w' ∧ K' w') s w := by
  refine Prog.wp_mono (Prog.wp_and h h') ?_ fun _ hw => hw
  rintro ⟨e | a, s'⟩ w' hw <;> exact hw

end

/-- A program over a part of the world, where nothing that is asked for depends
on that part. -/
theorem wpS_inPart {V δ : Type} {part : Prog.Part W V} {f : δ → ε} {x : Fallible C V δ α}
    {Q : α → S → W → Prop} {E : ε → S → W → Prop} {K : W → Prop} {s : S} {w : W}
    (hQ : ∀ a v, Q a s (part.put v w)) (hE : ∀ e v, E e s (part.put v w))
    (hK : ∀ v, K (part.put v w)) : wpS A (embed f (inPart part x)) Q E K s w := by
  rw [wpS_embed, wpE_inPart]
  refine Prog.wp_trivial ?_ hK
  rintro (e | a) v
  · exact hE (f e) v
  · exact hQ a v

/-- What follows a call that has returned. -/
theorem after_bindE {x : Fallible C W ε α} {f : α → Fallible C W ε β} {cs : List C} {w w' : W}
    {a : α} (h : (ExceptT.run x).after cs w = (.done (.ok a), w')) :
    ∃ taken, taken <+: cs ∧ ∀ ds, (ExceptT.run (x >>= f)).after (taken ++ ds) w =
      (ExceptT.run (f a)).after ds w' :=
  Prog.after_bind (f := ExceptT.bindCont f) h

theorem start_bind (x : Action C W S ε α) (f : α → Action C W S ε β) (s : S) :
    (x >>= f).start s = x.start s >>= fun r => match r with
      | (.ok a, s₁) => (f a).start s₁
      | (.error e, s₁) => .done (.error e, s₁) := by
  refine congrArg (x.start s >>= ·) ?_
  funext r
  obtain ⟨r, s₁⟩ := r
  cases r <;> rfl

/-- A run of two actions: the first fails, or the second goes on with what is left. -/
theorem after_bindS {x : Action C W S ε α} {f : α → Action C W S ε β} {cs : List C} {s s' : S}
    {w w' : W} {r : Except ε β} (h : ((x >>= f).start s).after cs w = (.done (r, s'), w')) :
    (∃ e, r = .error e ∧ (x.start s).after cs w = (.done (.error e, s'), w')) ∨
    ∃ a s₁ w₁, (x.start s).after cs w = (.done (.ok a, s₁), w₁) ∧
      ((f a).start s₁).after ((x.start s).left cs w) w₁ = (.done (r, s'), w') := by
  rw [start_bind] at h
  obtain ⟨⟨a, s₁⟩, w₁, hfirst⟩ := Prog.finished_of_bind h
  rw [Prog.after_bind_left hfirst] at h
  cases a with
  | ok a => exact .inr ⟨a, s₁, w₁, hfirst, h⟩
  | error e =>
    obtain ⟨hdone, rfl⟩ := Prod.mk.inj h
    obtain ⟨rfl, rfl⟩ := Prod.mk.inj (Prog.done.inj hdone)
    exact .inl ⟨e, rfl, hfirst⟩

/-- A run whose first step is atomic and acts on a part of the world. -/
theorem after_atomicS {V δ : Type} {part : Prog.Part W V} {f : δ → ε}
    {act : C → V → Except δ α × V} {g : α → Action C W S ε β} {cs : List C} {s s' : S} {w w' : W}
    {r : Except ε β}
    (h : ((embed f (inPart part (ExceptT.mk (Prog.atomic act))) >>= g).start s).after cs w =
      (.done (r, s'), w')) :
    ∃ c ds, cs = c :: ds ∧
      ((∃ e, (act c (part.get w)).1 = .error e ∧ r = .error (f e) ∧ s' = s ∧
          w' = part.put (act c (part.get w)).2 w) ∨
        ∃ a, (act c (part.get w)).1 = .ok a ∧
          ((g a).start s).after ds (part.put (act c (part.get w)).2 w) = (.done (r, s'), w')) := by
  cases cs with
  | nil => cases h
  | cons c ds =>
    refine ⟨c, ds, rfl, ?_⟩
    rw [start_bind] at h
    change (match (((act c (part.get w)).1.mapError f), s) with
      | (.ok a, s₁) => (g a).start s₁
      | (.error e, s₁) => Prog.done (.error e, s₁)).after ds _ = _ at h
    cases hact : (act c (part.get w)).1 with
    | error e =>
      rw [hact] at h
      obtain ⟨hdone, rfl⟩ := Prod.mk.inj h
      obtain ⟨rfl, rfl⟩ := Prod.mk.inj (Prog.done.inj hdone)
      exact .inl ⟨e, rfl, rfl, rfl, rfl⟩
    | ok a =>
      rw [hact] at h
      exact .inr ⟨a, rfl, h⟩

/-! ## Programs that only read -/

/-- `x` leaves the world as it is, and what it returns from `w` satisfies `P w`. -/
def Reads (A : C → Prop) (x : Fallible C W ε α) (P : W → α → Prop) : Prop :=
  ∀ w, wpE A x (fun a w' => w' = w ∧ P w a) (fun _ w' => w' = w) (fun w' => w' = w) w

namespace Reads
variable {x : Fallible C W ε α} {P P' : W → α → Prop}

theorem wpE {Q : α → W → Prop} {E : ε → W → Prop} {K : W → Prop} {w : W}
    (h : Reads A x P) (hK : K w) (hE : ∀ e, E e w) (hQ : ∀ a, P w a → Q a w) :
    Effect.wpE A x Q E K w := by
  refine wpE_mono (h w) ?_ ?_ ?_
  · rintro a _ ⟨rfl, ha⟩; exact hQ a ha
  · rintro e _ rfl; exact hE e
  · rintro _ rfl; exact hK

theorem wpS {δ : Type} {f : ε → δ} {Q : α → S → W → Prop} {E : δ → S → W → Prop} {K : W → Prop}
    {s : S} {w : W} (h : Reads A x P) (hK : K w) (hE : ∀ e, E e s w)
    (hQ : ∀ a, P w a → Q a s w) : Effect.wpS A (embed f x) Q E K s w :=
  (wpS_embed f x).mpr (h.wpE hK (fun e => hE (f e)) hQ)

theorem mono (h : Reads A x P) (hP : ∀ w a, P w a → P' w a) : Reads A x P' :=
  fun w => wpE_mono (h w) (fun a _ ha => ⟨ha.1, hP w a ha.2⟩) (fun _ _ h => h) fun _ h => h

theorem pure (a : α) : Reads A (Pure.pure a : Fallible C W ε α) (fun _ b => b = a) :=
  fun _ => ⟨rfl, rfl⟩

theorem throw (e : ε) : Reads A (MonadExcept.throw e : Fallible C W ε α) (fun _ _ => False) :=
  fun _ => rfl

theorem bind {f : α → Fallible C W ε β} {R : α → W → β → Prop} (h : Reads A x P)
    (hf : ∀ a, Reads A (f a) (R a)) :
    Reads A (x >>= f) (fun w b => ∃ a, P w a ∧ R a w b) := by
  intro w
  refine (wpE_bind x f).mpr (h.wpE rfl (fun _ => rfl) fun a ha => ?_)
  exact wpE_mono (hf a w) (fun b _ hb => ⟨hb.1, a, ha, hb.2⟩) (fun _ _ h => h) fun _ h => h

theorem orFail (o : Option α) (e : ε) :
    Reads A (Effect.orFail o e : Fallible C W ε α) (fun _ a => o = some a) := by
  intro w
  simp

theorem failIf (c : Prop) [Decidable c] (e : ε) :
    Reads A (Effect.failIf c e : Fallible C W ε Unit) (fun _ _ => ¬ c) := by
  intro w
  simp

theorem recast {δ : Type} (f : ε → δ) (h : Reads A x P) : Reads A (Effect.recast f x) P :=
  fun w => (wpE_recast f x).mpr (wpE_mono (h w) (fun _ _ h => h) (fun _ _ h => h) fun _ h => h)

theorem observe {δ : Type} (h : Reads A x P) :
    Reads A (Effect.observe x : Fallible C W δ (Except ε α))
      (fun w r => ∀ a, r = .ok a → P w a) := by
  refine fun w => (wpE_observe x).mpr (wpE_mono (h w) ?_ ?_ fun _ h => h)
  · rintro a _ ⟨rfl, ha⟩
    exact ⟨rfl, fun b hb => Except.ok.inj hb ▸ ha⟩
  · rintro e _ rfl
    exact ⟨rfl, fun b hb => by cases hb⟩

theorem mapM {β : Type} {f : β → Fallible C W ε α} {P : β → W → α → Prop} (l : List β)
    (h : ∀ b ∈ l, Reads A (f b) (P b)) :
    Reads A (l.mapM f) (fun w as => List.Forall₂ (fun b a => P b w a) l as) := by
  induction l with
  | nil =>
    rw [List.mapM_nil]
    exact (Reads.pure []).mono fun w as h => h ▸ .nil
  | cons b l ih =>
    rw [List.mapM_cons]
    have htail := ih fun c hc => h c (List.mem_cons_of_mem b hc)
    refine ((h b List.mem_cons_self).bind fun a => htail.bind fun as => Reads.pure (a :: as)).mono ?_
    rintro w _ ⟨a, ha, as, has, rfl⟩
    exact .cons ha has

theorem inPart {V : Type} {part : Prog.Part W V} {x : Fallible C V ε α} {P : V → α → Prop}
    (h : Reads A x P) : Reads A (Effect.inPart part x) (fun w => P (part.get w)) := by
  refine fun w => (wpE_inPart part x).mpr (wpE_mono (h (part.get w)) ?_ ?_ ?_)
  · rintro a _ ⟨rfl, ha⟩
    exact ⟨part.put_get w, ha⟩
  · rintro e _ rfl
    exact part.put_get w
  · rintro _ rfl
    exact part.put_get w

/-- A single look at the world. -/
theorem atomic {act : C → W → Except ε α} (h : ∀ c w a, A c → act c w = .ok a → P w a) :
    Reads A (ExceptT.mk (Prog.atomic fun c w => (act c w, w))) P := by
  refine fun w => ⟨rfl, fun c hc => ?_⟩
  show match act c w with | .ok a => w = w ∧ P w a | .error _ => w = w
  cases he : act c w with
  | error e => rfl
  | ok a => exact ⟨rfl, h c w a hc he⟩

end Reads

/-! ## Programs that stay in a preorder -/

/-- Every world `x` passes through is above the one it started in, and what it
returns satisfies `P` there. -/
def Moves (A : C → Prop) (R : W → W → Prop) (x : Fallible C W ε α) (P : W → α → W → Prop) : Prop :=
  ∀ w, wpE A x (fun a w' => R w w' ∧ P w a w') (fun _ w' => R w w') (fun w' => R w w') w

namespace Moves
variable {R : W → W → Prop} {x : Fallible C W ε α} {P : W → α → W → Prop}

theorem bind {f : α → Fallible C W ε β} {T : α → W → β → W → Prop}
    (hR : ∀ a b c, R a b → R b c → R a c) (h : Moves A R x P) (hf : ∀ a, Moves A R (f a) (T a)) :
    Moves A R (x >>= f) (fun w b w' => ∃ a v, R w v ∧ P w a v ∧ T a v b w') := by
  intro w
  refine (wpE_bind x f).mpr (wpE_mono (h w) (fun a v hv => ?_) (fun _ _ h => h) fun _ h => h)
  refine wpE_mono (hf a v) (fun b w' hw => ?_) (fun _ w' hw => hR _ _ _ hv.1 hw) fun w' hw =>
    hR _ _ _ hv.1 hw
  exact ⟨hR _ _ _ hv.1 hw.1, a, v, hv.1, hv.2, hw.2⟩

end Moves

/-! ## Failing calls -/

/-- No step of `x` changes the world under a choice in `F`. -/
def InertE (F : C → Prop) (x : Fallible C W ε α) : Prop := (ExceptT.run x).Inert F

def InertS (F : C → Prop) (x : Action C W S ε α) : Prop := ∀ s, (x.start s).Inert F

section
variable {F : C → Prop} {x : Fallible C W ε α} {y : Action C W S ε α}

/-- Where all choices are in `F`, the program leaves the world as it is. -/
theorem InertE.wp (h : InertE F x) (w : W) :
    wpE F x (fun _ w' => w' = w) (fun _ w' => w' = w) (fun w' => w' = w) w := by
  refine Prog.wp_mono (Prog.Inert.wp h w) ?_ fun _ hw => hw
  rintro (e | a) w' hw <;> exact hw

theorem inertE_pure (a : α) : InertE F (pure a : Fallible C W ε α) := trivial

theorem inertE_throw (e : ε) : InertE F (throw e : Fallible C W ε α) := trivial

theorem inertE_bind {f : α → Fallible C W ε β} (h : InertE F x) (hf : ∀ a, InertE F (f a)) :
    InertE F (x >>= f) := by
  refine Prog.Inert.bind h fun r => ?_
  cases r with
  | error e => exact trivial
  | ok a => exact hf a

theorem inertE_orFail (o : Option α) (e : ε) : InertE F (orFail o e : Fallible C W ε α) := by
  cases o <;> exact trivial

theorem inertE_failIf (c : Prop) [Decidable c] (e : ε) :
    InertE F (failIf c e : Fallible C W ε Unit) := by
  unfold failIf
  split <;> exact trivial

theorem inertE_recast {δ : Type} (f : ε → δ) (h : InertE F x) : InertE F (recast f x) :=
  Prog.Inert.bind h fun _ => trivial

theorem inertE_observe {δ : Type} (h : InertE F x) :
    InertE F (observe x : Fallible C W δ (Except ε α)) := Prog.Inert.bind h fun _ => trivial

theorem inertE_inPart {V : Type} {part : Prog.Part W V} {x : Fallible C V ε α} (h : InertE F x) :
    InertE F (inPart part x) := Prog.Inert.inPart h

theorem inertE_mapM {f : β → Fallible C W ε α} (hf : ∀ b, InertE F (f b)) (l : List β) :
    InertE F (l.mapM f) := by
  induction l with
  | nil => exact inertE_pure []
  | cons b l ih =>
    rw [List.mapM_cons]
    exact inertE_bind (hf b) fun a => inertE_bind ih fun as => inertE_pure _

theorem inertE_within (h : InertS F y) (s : S) : InertE F (y.within s) := by
  refine Prog.Inert.bind (h s) fun r => ?_
  obtain ⟨r, s'⟩ := r
  cases r <;> exact trivial

theorem inertS_pure (a : α) : InertS F (pure a : Action C W S ε α) := fun _ => trivial

theorem inertS_bind {f : α → Action C W S ε β} (h : InertS F y) (hf : ∀ a, InertS F (f a)) :
    InertS F (y >>= f) := by
  refine fun s => Prog.Inert.bind (h s) fun r => ?_
  obtain ⟨r, s'⟩ := r
  cases r with
  | error e => exact trivial
  | ok a => exact hf a s'

theorem inertS_failIf (c : Prop) [Decidable c] (e : ε) :
    InertS F (failIf c e : Action C W S ε Unit) := by
  unfold failIf
  split <;> exact fun _ => trivial

theorem inertS_embed {δ : Type} {f : δ → ε} {x : Fallible C W δ α} (h : InertE F x) :
    InertS F (embed f x : Action C W S ε α) := fun _ => Prog.Inert.bind h fun _ => trivial

theorem inertS_forM {f : β → Action C W S ε PUnit} (hf : ∀ b, InertS F (f b)) (l : List β) :
    InertS F (l.forM f) := by
  induction l with
  | nil => exact inertS_pure _
  | cons b l ih => exact inertS_bind (hf b) fun _ => ih

end
end
end Effect
