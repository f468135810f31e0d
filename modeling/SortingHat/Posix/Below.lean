import SortingHat.Posix.Names

/-!
# Paths made of names

What a walk joins, name by name, below a directory.

* `below`: the relative path of a list of names;
* `join_below`, `parent_below`: the last name is added and taken away.
-/

namespace Posix
namespace Path

/-- The names with slashes between them. -/
def below (names : List Bytes) : Bytes := [slash].intercalate names

variable {name : Bytes} {ns : List Bytes}

theorem isName_iff : isName name = true ↔
    name ≠ [] ∧ name ≠ dot ∧ name ≠ dotDot ∧ slash ∉ name := by
  unfold isName
  simp [and_assoc]

theorem below_nil : below [] = [] := rfl

theorem below_singleton (name : Bytes) : below [name] = name := by
  unfold below
  simp

theorem below_concat (h : ns ≠ []) (name : Bytes) :
    below (ns ++ [name]) = below ns ++ slash :: name := by
  unfold below
  induction ns with
  | nil => exact absurd rfl h
  | cons first rest ih =>
    cases rest with
    | nil => simp
    | cons second rest =>
      have hrest := ih (List.cons_ne_nil second rest)
      simp only [List.cons_append, List.intercalate_cons_cons, List.append_assoc] at hrest ⊢
      rw [hrest]

/-- The names are what stands between the slashes. -/
theorem segments_below (hns : ∀ n ∈ ns, isName n = true) (h : ns ≠ []) : segments (below ns) = ns :=
  segments_intercalate (fun n hn => (isName_iff.mp (hns n hn)).2.2.2) h

theorem names_below (hns : ∀ n ∈ ns, isName n = true) : names (below ns) = ns := by
  by_cases h : ns = []
  · rw [h]
    rfl
  · unfold names
    rw [segments_below hns h, List.filter_eq_self]
    intro n hn
    obtain ⟨hempty, hdot, -⟩ := isName_iff.mp (hns n hn)
    simp [isStay, hempty, hdot]

theorem isAbsolute_name (h : isName name = true) : isAbsolute name = false := by
  obtain ⟨-, -, -, hslash⟩ := isName_iff.mp h
  cases name with
  | nil => rfl
  | cons b rest =>
    have hb : b ≠ slash := fun he => hslash (he ▸ List.mem_cons_self)
    simp [isAbsolute, hb]

theorem below_inj {ns' : List Bytes} (hns : ∀ n ∈ ns, isName n = true)
    (hns' : ∀ n ∈ ns', isName n = true) (h : below ns = below ns') : ns = ns' := by
  rw [← names_below hns, h, names_below hns']

/-- Joining a name adds it. -/
theorem join_below (hns : ∀ n ∈ ns, isName n = true) (hname : isName name = true) :
    join (below ns) name = below (ns ++ [name]) := by
  unfold join
  rw [isAbsolute_name hname, if_neg Bool.false_ne_true]
  rcases List.eq_nil_or_concat' ns with rfl | ⟨rest, last, rfl⟩
  · rw [if_pos (.inl below_nil), below_nil, List.nil_append, List.nil_append, below_singleton]
  · have hlast := isName_iff.mp (hns last (by simp))
    have hend : (below (rest ++ [last])).getLast? = last.getLast? := by
      by_cases hrest : rest = []
      · rw [hrest, List.nil_append, below_singleton]
      · rw [below_concat hrest, List.getLast?_append, List.getLast?_cons]
        cases hl : last.getLast? with
        | none => exact absurd (List.getLast?_eq_none_iff.mp hl) hlast.1
        | some b => rfl
    have hne : rest ++ [last] ≠ [] := by simp
    rw [below_concat hne, if_neg]
    rintro (h | h)
    · rw [h] at hend
      exact hlast.1 (List.getLast?_eq_none_iff.mp hend.symm)
    · rw [hend] at h
      exact hlast.2.2.2 (List.mem_of_getLast? h)

theorem isAbsolute_below (hns : ∀ n ∈ ns, isName n = true) : isAbsolute (below ns) = false := by
  cases ns with
  | nil => rfl
  | cons first rest =>
    apply Bool.eq_false_iff.mpr
    intro habs
    obtain ⟨seg, others, hs⟩ := isAbsolute_iff.mp habs
    rw [segments_below hns (List.cons_ne_nil first rest)] at hs
    exact (isName_iff.mp (hns first List.mem_cons_self)).1 (List.cons.inj hs).1

theorem components_below (hns : ∀ n ∈ ns, isName n = true) :
    components (below ns) = ns.map Component.normal := by
  have hlead : lead (below ns) = [] := by
    unfold lead
    cases ns with
    | nil => rfl
    | cons first rest =>
      have hfirst := isName_iff.mp (hns first List.mem_cons_self)
      have hsegs := segments_below hns (List.cons_ne_nil first rest)
      rw [isAbsolute_below hns, if_neg Bool.false_ne_true, if_neg]
      rw [hsegs, List.head?_cons, Option.some.injEq]
      exact hfirst.2.1
  rw [components_eq, hlead, List.nil_append, names_below hns]
  apply List.map_congr_left
  intro n hn
  unfold component
  rw [if_neg (isName_iff.mp (hns n hn)).2.2.1]

theorem ofComponents_below : ofComponents (ns.map Component.normal) = below ns := by
  cases ns with
  | nil => rfl
  | cons first rest =>
    have hne : (first :: rest).map Component.normal ≠ [] := List.cons_ne_nil _ _
    have hroot : (first :: rest).map Component.normal ≠ [.rootDir] := by
      intro he
      cases (List.cons.inj he).1
    rw [ofComponents_eq hne hroot, List.map_map, below]
    congr 1
    exact List.map_id (first :: rest)

theorem parent_below (hns : ∀ n ∈ ns ++ [name], isName n = true) :
    parent (below (ns ++ [name])) = some (below ns) := by
  unfold parent
  rw [components_below hns, List.map_append, List.map_singleton, List.getLast?_concat,
    List.dropLast_concat]
  dsimp only
  rw [ofComponents_below]

end Path
end Posix
