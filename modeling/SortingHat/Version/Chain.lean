import Mathlib.Data.List.Chain

/-!
# Histories of versioned values

A history in which every commit either keeps the version together with all that
the version decides, or advances it by one. Then a version decides its value over
the whole history, which is what a compare-and-set on the version rests on.
-/

namespace Version
variable {α κ : Type} {version : α → Int} {decided : α → κ} {R : α → α → Prop}

/-- What a commit of kind `R` may do to the version and to what it decides. -/
def Disciplined (version : α → Int) (decided : α → κ) (R : α → α → Prop) : Prop :=
  ∀ a b, R a b → (version b = version a ∧ decided b = decided a) ∨ version b = version a + 1

theorem Disciplined.le (hR : Disciplined version decided R) {a b : α} (h : R a b) :
    version a ≤ version b := by
  rcases hR a b h with ⟨h, -⟩ | h <;> omega

theorem Disciplined.first_le (hR : Disciplined version decided R) {a : α} {l : List α}
    (h : (a :: l).IsChain R) : ∀ b ∈ l, version a ≤ version b := by
  induction l generalizing a with
  | nil => simp
  | cons c l ih =>
    rw [List.isChain_cons_cons] at h
    intro b hb
    have hac := hR.le h.1
    rcases List.mem_cons.mp hb with rfl | hb
    · exact hac
    · exact Int.le_trans hac (ih h.2 b hb)

/-- The last commit has the greatest version. -/
theorem Disciplined.le_last (hR : Disciplined version decided R) {l : List α} (h : l.IsChain R)
    {z : α} (hz : l.getLast? = some z) : ∀ a ∈ l, version a ≤ version z := by
  induction l with
  | nil => simp
  | cons c l ih =>
    intro a ha
    cases l with
    | nil =>
      obtain rfl : c = z := by simpa using hz
      obtain rfl : a = c := by simpa using ha
      exact Int.le_refl _
    | cons d l =>
      have hz' : (d :: l).getLast? = some z := by simpa using hz
      rcases List.mem_cons.mp ha with rfl | ha
      · exact hR.first_le h z (List.mem_of_getLast? hz')
      · exact ih (List.isChain_cons_cons.mp h).2 hz' a ha

/-- **A version decides its value over the whole history.** -/
theorem Disciplined.decided_eq (hR : Disciplined version decided R) {l : List α}
    (h : l.IsChain R) {a b : α} (ha : a ∈ l) (hb : b ∈ l) (hab : version a = version b) :
    decided a = decided b := by
  -- the head agrees with whatever later commit has its version
  have head : ∀ (c : α) (l : List α), (c :: l).IsChain R →
      ∀ d ∈ l, version c = version d → decided c = decided d := by
    intro c l
    induction l generalizing c with
    | nil => simp
    | cons e l ih =>
      intro hc d hd hcd
      rw [List.isChain_cons_cons] at hc
      rcases hR c e hc.1 with ⟨hv, hk⟩ | hv
      · rcases List.mem_cons.mp hd with rfl | hd
        · exact hk.symm
        · exact hk.symm.trans (ih e hc.2 d hd (hv.trans hcd))
      · have : version e ≤ version d := by
          rcases List.mem_cons.mp hd with rfl | hd
          · exact Int.le_refl _
          · exact hR.first_le hc.2 d hd
        omega
  induction l with
  | nil => simp at ha
  | cons c l ih =>
    rcases List.mem_cons.mp ha with rfl | ha' <;> rcases List.mem_cons.mp hb with rfl | hb'
    · rfl
    · exact head _ l h b hb' hab
    · exact (head _ l h a ha' hab.symm).symm
    · exact ih (List.isChain_cons.mp h).2 ha' hb'

end Version
