import SortingHat.Effect.Rules

/-!
# Programs that interleave

Programs over one world, each taking its steps whenever it is scheduled. A
program is proved against a rely `R`, what the others may do between its steps,
and a guarantee `G` for each step of its own; an invariant `I` holds throughout.

* `Prog.Guarded`: a program that keeps its guarantee under the rely;
* `Guarded.bind`, `guardE_bind`: sequencing;
* `Pool`: programs with labels, started and interleaved at will;
* `Pool.Reachable.guarded`: what every schedule keeps.
-/

namespace Effect

/-- Under interference `R` within `I`, every step of the program is in `G` and
what it returns satisfies `Q`. -/
def Prog.Guarded {C W α : Type} (I : W → Prop) (R G : W → W → Prop) (Q : α → W → Prop) :
    Prog C W α → W → Prop
  | .done a, w => ∀ w', I w' → R w w' → Q a w'
  | .step u n, w => ∀ w', I w' → R w w' → ∀ c,
      G w' (u c w') ∧ (I (u c w') → (n c w').Guarded I R G Q (u c w'))

section
variable {C W α β ε : Type} {I : W → Prop} {R G : W → W → Prop}

namespace Prog.Guarded
variable {Q : α → W → Prop} {p : Prog C W α} {w w' : W}

/-- What others do in between takes nothing away. -/
theorem interfered (hR : ∀ a b c, R a b → R b c → R a c) (h : p.Guarded I R G Q w)
    (hw : R w w') : p.Guarded I R G Q w' := by
  cases p with
  | done a => exact fun v hv hr => h v hv (hR _ _ _ hw hr)
  | step u n => exact fun v hv hr => h v hv (hR _ _ _ hw hr)

/-- It is enough to be guarded wherever the others may leave the world. -/
theorem of_interfered (hR : ∀ a, R a a) (h : ∀ w', I w' → R w w' → p.Guarded I R G Q w') :
    p.Guarded I R G Q w := by
  cases p with
  | done a => exact fun v hv hr => h v hv hr v hv (hR v)
  | step u n => exact fun v hv hr => h v hv hr v hv (hR v)

theorem mono {Q' : α → W → Prop} (h : p.Guarded I R G Q w) (hQ : ∀ a w', I w' → Q a w' → Q' a w') :
    p.Guarded I R G Q' w := by
  induction p generalizing w with
  | done a => exact fun v hv hr => hQ a v hv (h v hv hr)
  | step u n ih =>
    exact fun v hv hr c => ⟨(h v hv hr c).1, fun hi => ih c v ((h v hv hr c).2 hi)⟩

theorem bind (hR : ∀ a, R a a) {f : α → Prog C W β} {Q : β → W → Prop}
    (h : p.Guarded I R G (fun a w' => (f a).Guarded I R G Q w') w) :
    (p >>= f).Guarded I R G Q w := by
  induction p generalizing w with
  | done a => exact of_interfered hR h
  | step u n ih => exact fun v hv hr c => ⟨(h v hv hr c).1, fun hi => ih c v ((h v hv hr c).2 hi)⟩

/-- One step of a guarded program, taken from where it is. -/
theorem step (hR : ∀ a, R a a) {u : C → W → W} {n : C → W → Prog C W α}
    (h : (Prog.step u n).Guarded I R G Q w) (hw : I w) (c : C) :
    G w (u c w) ∧ (I (u c w) → (n c w).Guarded I R G Q (u c w)) :=
  h w hw (hR w) c

end Prog.Guarded

/-- `Guarded` for a program that can fail. -/
def guardE (I : W → Prop) (R G : W → W → Prop) (x : Fallible C W ε α) (Q : α → W → Prop) (w : W) :
    Prop :=
  Prog.Guarded I R G (fun r w' => ∀ a, r = .ok a → Q a w') (ExceptT.run x) w

section
variable {Q : α → W → Prop} {w : W}

theorem guardE_pure {a : α} (h : ∀ w', I w' → R w w' → Q a w') :
    guardE I R G (pure a : Fallible C W ε α) Q w := by
  intro w' hi hr b hb
  cases hb
  exact h w' hi hr

theorem guardE_throw (e : ε) : guardE I R G (throw e : Fallible C W ε α) Q w := by
  intro w' hi hr b hb
  cases hb

theorem guardE_bind (hR : ∀ a, R a a) {x : Fallible C W ε α} {f : α → Fallible C W ε β}
    {Q : β → W → Prop} (h : guardE I R G x (fun a w' => guardE I R G (f a) Q w') w) :
    guardE I R G (x >>= f) Q w := by
  refine Prog.Guarded.bind hR (Prog.Guarded.mono h ?_)
  rintro (e | a) w' hi ha
  · exact guardE_throw e
  · exact ha a rfl

theorem guardE_orFail {o : Option α} {e : ε} (h : ∀ a, o = some a → ∀ w', I w' → R w w' → Q a w') :
    guardE I R G (orFail o e : Fallible C W ε α) Q w := by
  cases o with
  | none => exact guardE_throw e
  | some a => exact guardE_pure (h a rfl)

theorem guardE_failIf {c : Prop} [Decidable c] {e : ε} {Q : Unit → W → Prop}
    (h : ¬ c → ∀ w', I w' → R w w' → Q () w') :
    guardE I R G (failIf c e : Fallible C W ε Unit) Q w := by
  unfold failIf
  split
  · exact guardE_throw e
  · next hc => exact guardE_pure (h hc)

/-- One atomic step, in the worst world the others can leave. The result must
stay true whatever they do next. -/
theorem guardE_atomic {act : C → W → Except ε α × W}
    (h : ∀ w', I w' → R w w' → ∀ c, G w' (act c w').2 ∧
      ∀ a, (act c w').1 = .ok a → ∀ v, I (act c w').2 → I v → R (act c w').2 v → Q a v) :
    guardE I R G (ExceptT.mk (Prog.atomic act)) Q w := by
  intro w' hi hr c
  obtain ⟨hg, hq⟩ := h w' hi hr c
  exact ⟨hg, fun hi' v hv hrv a ha => hq a ha v hi' hv hrv⟩

end

/-! ## Pools -/

/-- Programs in execution, each under the label of what it was started for.
`trace` keeps every step taken, with the worlds around it. -/
structure Pool (ι L C W : Type) where
  world : W
  running : ι → Option (L × Prog C W Unit)
  trace : List (L × W × W)

namespace Pool
variable {ι L : Type} [DecidableEq ι]

/-- The pool with another program, or none, at `i`. -/
def put (pool : Pool ι L C W) (i : ι) (p : Option (L × Prog C W Unit)) : Pool ι L C W :=
  { pool with running := fun j => if j = i then p else pool.running j }

/-- One move of the scheduler; `Admissible` is what is assumed of every step. -/
inductive Step (program : L → Prog C W Unit) (Admissible : W → W → Prop) :
    Pool ι L C W → Pool ι L C W → Prop where
  | start {pool : Pool ι L C W} (i : ι) (l : L) (h : pool.running i = none) :
      Step program Admissible pool (pool.put i (some (l, program l)))
  | act {pool : Pool ι L C W} (i : ι) (l : L) (u : C → W → W) (n : C → W → Prog C W Unit) (c : C)
      (h : pool.running i = some (l, .step u n)) (ha : Admissible pool.world (u c pool.world)) :
      Step program Admissible pool
        { pool.put i (some (l, n c pool.world)) with
          world := u c pool.world
          trace := pool.trace ++ [(l, pool.world, u c pool.world)] }
  | finish {pool : Pool ι L C W} (i : ι) (l : L) (h : pool.running i = some (l, .done ())) :
      Step program Admissible pool (pool.put i none)

inductive Reachable (program : L → Prog C W Unit) (Admissible : W → W → Prop) (w : W) :
    Pool ι L C W → Prop where
  | init : Reachable program Admissible w ⟨w, fun _ => none, []⟩
  | step {pool pool' : Pool ι L C W} : Reachable program Admissible w pool →
      Step program Admissible pool pool' → Reachable program Admissible w pool'

variable {program : L → Prog C W Unit} {Admissible : W → W → Prop} {Guarantee : L → W → W → Prop}

/-- The invariant, and every running program still guarded. -/
structure Sound (I : W → Prop) (R : W → W → Prop) (Guarantee : L → W → W → Prop)
    (pool : Pool ι L C W) : Prop where
  invariant : I pool.world
  guarded : ∀ i l p, pool.running i = some (l, p) →
    p.Guarded I R (Guarantee l) (fun _ _ => True) pool.world

theorem Step.sound (hrefl : ∀ a, R a a) (htrans : ∀ a b c, R a b → R b c → R a c)
    (hstart : ∀ l w, I w → (program l).Guarded I R (Guarantee l) (fun _ _ => True) w)
    (hkeep : ∀ l w w', I w → Guarantee l w w' → Admissible w w' → I w' ∧ R w w')
    {pool pool' : Pool ι L C W} (h : Step program Admissible pool pool')
    (hs : pool.Sound I R Guarantee) : pool'.Sound I R Guarantee := by
  cases h with
  | start i l h =>
    refine ⟨hs.invariant, fun j l' p hj => ?_⟩
    by_cases hji : j = i
    · simp only [put, hji, if_true, Option.some.injEq, Prod.mk.injEq] at hj
      obtain ⟨rfl, rfl⟩ := hj
      exact hstart _ _ hs.invariant
    · simp only [put, hji, if_false] at hj
      exact hs.guarded j l' p hj
  | act i l u n c h ha =>
    have hg := (hs.guarded i l _ h).step hrefl hs.invariant c
    obtain ⟨hi, hr⟩ := hkeep l _ _ hs.invariant hg.1 ha
    refine ⟨hi, fun j l' p hj => ?_⟩
    by_cases hji : j = i
    · simp only [put, hji, if_true, Option.some.injEq, Prod.mk.injEq] at hj
      obtain ⟨rfl, rfl⟩ := hj
      exact hg.2 hi
    · simp only [put, hji, if_false] at hj
      exact (hs.guarded j l' p hj).interfered htrans hr
  | finish i l h =>
    refine ⟨hs.invariant, fun j l' p hj => ?_⟩
    by_cases hji : j = i
    · simp [put, hji] at hj
    · simp only [put, hji, if_false] at hj
      exact hs.guarded j l' p hj

/-- **Under every schedule the invariant holds and every program keeps its
guarantee.** -/
theorem Reachable.guarded {w : W} (hrefl : ∀ a, R a a)
    (htrans : ∀ a b c, R a b → R b c → R a c)
    (hstart : ∀ l w, I w → (program l).Guarded I R (Guarantee l) (fun _ _ => True) w)
    (hkeep : ∀ l w w', I w → Guarantee l w w' → Admissible w w' → I w' ∧ R w w')
    (hw : I w) {pool : Pool ι L C W} (h : Reachable program Admissible w pool) :
    pool.Sound I R Guarantee := by
  induction h with
  | init => exact ⟨hw, fun i l p hj => by simp at hj⟩
  | step _ hstep ih => exact hstep.sound hrefl htrans hstart hkeep ih

end Pool
end
end Effect
