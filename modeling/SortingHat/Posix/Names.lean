import SortingHat.Posix.Path

/-!
# The names in a path

What a walk sees of a path: its segments, less those that stay where they are.

* `names_join`: joining adds the names;
* `parent_names`: the parent drops the last name and keeps the start;
* `fileName_names`: the file name is the last one.
-/

namespace Posix.Path

/-- The segments that move. -/
def names (p : Bytes) : List Bytes := (segments p).filter fun seg => !isStay seg

variable {p q name seg : Bytes}

theorem not_mem_segments (h : seg ∈ segments p) : slash ∉ seg := by
  unfold segments at h
  induction p generalizing seg with
  | nil =>
    rw [List.splitOn_nil, List.mem_singleton] at h
    rw [h]
    exact List.not_mem_nil
  | cons b p ih =>
    rw [List.splitOn_cons_eq_if_modifyHead] at h
    split at h
    · rcases List.mem_cons.mp h with rfl | h
      · exact List.not_mem_nil
      · exact ih h
    · next hb =>
      cases hs : p.splitOn slash with
      | nil => exact absurd hs (List.splitOn_ne_nil _ _)
      | cons s rest =>
        rw [hs, List.modifyHead_cons] at h
        rcases List.mem_cons.mp h with rfl | h
        · have hs' : slash ∉ s := ih (hs ▸ List.mem_cons_self)
          intro hm
          rcases List.mem_cons.mp hm with rfl | hm
          · exact hb (beq_self_eq_true _)
          · exact hs' hm
        · exact ih (hs ▸ List.mem_cons_of_mem _ h)

theorem not_mem_names (h : seg ∈ names p) : slash ∉ seg ∧ isStay seg = false := by
  obtain ⟨hm, hs⟩ := List.mem_filter.mp h
  exact ⟨not_mem_segments hm, by simpa using hs⟩

theorem body_segments (p : Bytes) : body (segments p) = (names p).map component := rfl

theorem names_append_slash (p q : Bytes) : names (p ++ slash :: q) = names p ++ names q := by
  rw [names, segments_append, List.filter_append]
  rfl

theorem names_nil : names [] = [] := rfl

/-- Joining a relative path adds its names. -/
theorem names_join (hq : isAbsolute q = false) : names (join p q) = names p ++ names q := by
  unfold join
  rw [hq, if_neg Bool.false_ne_true]
  split
  · next h =>
    rcases h with rfl | h
    · rw [names_nil]
      rfl
    · obtain ⟨p', rfl⟩ : ∃ p', p = p' ++ [slash] := by
        obtain ⟨hne, hl⟩ := List.getLast?_eq_some_iff.mp h
        exact ⟨hne, hl⟩
      rw [List.append_assoc, List.singleton_append, names_append_slash]
      have : names (p' ++ [slash]) = names p' := by
        rw [names_append_slash, names_nil, List.append_nil]
      rw [this]
  · exact names_append_slash p q

theorem isAbsolute_join (hq : isAbsolute q = false) : isAbsolute (join p q) = isAbsolute p := by
  unfold join
  rw [hq, if_neg Bool.false_ne_true]
  cases p with
  | nil => exact hq
  | cons b p => split <;> rfl

theorem isAbsolute_iff : isAbsolute p = true ↔ ∃ seg rest, segments p = [] :: seg :: rest := by
  unfold isAbsolute segments
  cases p with
  | nil => simp [List.splitOn_nil]
  | cons b p =>
    rw [List.splitOn_cons_eq_if_modifyHead]
    cases hs : p.splitOn slash with
    | nil => exact absurd hs (List.splitOn_ne_nil _ _)
    | cons seg rest =>
      by_cases hb : b = slash
      · simp [hb]
      · simp [hb]

theorem spell_component (seg : Bytes) : (component seg).spell = seg := by
  unfold component
  split
  · next h => exact h.symm
  · rfl

/-- What stands before the names. -/
def lead (p : Bytes) : List Component :=
  if isAbsolute p then [.rootDir]
  else if (segments p).head? = some dot then [.curDir] else []

theorem components_eq (p : Bytes) : components p = lead p ++ (names p).map component := by
  unfold components lead
  rw [body_segments]
  split
  · rfl
  · split <;> rfl

theorem lead_cases (p : Bytes) :
    (lead p = [.rootDir] ∧ isAbsolute p = true) ∨
      ((lead p = [.curDir] ∨ lead p = []) ∧ isAbsolute p = false) := by
  unfold lead
  split
  · next h => exact .inl ⟨rfl, h⟩
  · next h =>
    refine .inr ⟨?_, Bool.eq_false_iff.mpr h⟩
    split
    · exact .inl rfl
    · exact .inr rfl

/-- The file name is the last name. -/
theorem fileName_names (h : fileName p = some name) :
    ∃ rest, names p = rest ++ [name] ∧ name ≠ dotDot := by
  unfold fileName at h
  rw [components_eq] at h
  rcases List.eq_nil_or_concat (names p) with hn | ⟨rest, last, hn⟩
  · rw [hn, List.map_nil, List.append_nil] at h
    rcases lead_cases p with ⟨hl, -⟩ | ⟨hl | hl, -⟩ <;> rw [hl] at h <;> cases h
  · rw [List.concat_eq_append] at hn
    rw [hn, List.map_append, List.map_singleton, ← List.append_assoc, List.getLast?_concat] at h
    unfold component at h
    by_cases hd : last = dotDot
    · rw [if_pos hd] at h
      cases h
    · rw [if_neg hd] at h
      cases h
      exact ⟨rest, hn, hd⟩

theorem fileName_of_names {rest : List Bytes} (h : names p = rest ++ [name])
    (hd : name ≠ dotDot) : fileName p = some name := by
  unfold fileName
  rw [components_eq, h, List.map_append, List.map_singleton, ← List.append_assoc,
    List.getLast?_concat, component, if_neg hd]

theorem spell_components (cs : List Bytes) : (cs.map component).map Component.spell = cs := by
  rw [List.map_map]
  conv_rhs => rw [← List.map_id cs]
  exact List.map_congr_left fun seg _ => spell_component seg

theorem segments_intercalate {ls : List Bytes} (h : ∀ l ∈ ls, slash ∉ l) (hne : ls ≠ []) :
    segments ([slash].intercalate ls) = ls := List.splitOn_intercalate slash h hne

theorem ofComponents_eq {cs : List Component} (hne : cs ≠ []) (hroot : cs ≠ [.rootDir]) :
    ofComponents cs = [slash].intercalate (cs.map Component.spell) := by
  unfold ofComponents
  split
  · exact absurd rfl hne
  · exact absurd rfl hroot
  · rfl

/-- What leads up to the names of a parent only stays. -/
theorem parent_names (h : parent p = some q) :
    isAbsolute q = isAbsolute p ∧
      ∃ stays, (∀ seg ∈ stays, isStay seg = true) ∧ segments q = stays ++ (names p).dropLast := by
  have hclean : ∀ seg ∈ (names p).dropLast, slash ∉ seg ∧ isStay seg = false := fun seg hm =>
    not_mem_names (List.dropLast_subset _ hm)
  unfold parent at h
  rw [components_eq] at h
  rcases List.eq_nil_or_concat (names p) with hn | ⟨rest, last, hn⟩
  · -- no name: only `.` has a parent, the empty path
    rw [hn, List.map_nil, List.append_nil] at h
    rcases lead_cases p with ⟨hl, -⟩ | ⟨hl | hl, ha⟩ <;> rw [hl] at h <;> cases h
    exact ⟨ha.symm, [[]], by decide, by rw [hn]; rfl⟩
  · rw [List.concat_eq_append] at hn
    rw [hn, List.dropLast_concat] at hclean ⊢
    have hq : ofComponents (lead p ++ rest.map component) = q := by
      rw [hn, List.map_append, List.map_singleton, ← List.append_assoc, List.getLast?_concat,
        List.dropLast_concat] at h
      unfold component at h
      by_cases hd : last = dotDot
      · rw [if_pos hd] at h
        exact Option.some.inj h
      · rw [if_neg hd] at h
        exact Option.some.inj h
    rcases lead_cases p with ⟨hl, ha⟩ | ⟨hl | hl, ha⟩ <;> rw [hl] at hq <;> subst hq
    · -- an absolute path
      have hsegs : ∃ seg rest', segments (ofComponents ([.rootDir] ++ rest.map component)) =
          [] :: seg :: rest' ∧ ∃ stays, (∀ seg ∈ stays, isStay seg = true) ∧
            [] :: seg :: rest' = stays ++ rest := by
        cases rest with
        | nil => exact ⟨[], [], by decide, [[], []], by decide, rfl⟩
        | cons r rs =>
          refine ⟨r, rs, ?_, [[]], by decide, rfl⟩
          rw [ofComponents_eq (by simp) (by simp), List.map_append, spell_components]
          refine segments_intercalate (fun l hl => ?_) (by simp)
          rcases List.mem_cons.mp hl with rfl | hl
          · exact List.not_mem_nil
          · exact (hclean l hl).1
      obtain ⟨seg, rest', hs, stays, hstays, heq⟩ := hsegs
      exact ⟨(isAbsolute_iff.mpr ⟨seg, rest', hs⟩).trans ha.symm, stays, hstays, hs.trans heq⟩
    · -- a relative path that starts with `.`
      have hs : segments (ofComponents ([.curDir] ++ rest.map component)) = dot :: rest := by
        rw [ofComponents_eq (by simp) (by simp), List.map_append, spell_components]
        refine segments_intercalate (fun l hl => ?_) (by simp)
        rcases List.mem_cons.mp hl with rfl | hl
        · decide
        · exact (hclean l hl).1
      refine ⟨?_, [dot], by decide, hs⟩
      rw [ha, Bool.eq_false_iff, Ne, isAbsolute_iff, hs]
      rintro ⟨seg, rest', h⟩
      cases h
    · -- any other relative path
      cases rest with
      | nil => exact ⟨ha.symm, [[]], by decide, rfl⟩
      | cons r rs =>
        have hs : segments (ofComponents ([] ++ (r :: rs).map component)) = r :: rs := by
          rw [ofComponents_eq (by simp) ?_, List.nil_append, spell_components]
          · exact segments_intercalate (fun l hl => (hclean l hl).1) (by simp)
          · intro h
            have := congrArg (List.map Component.spell) h
            rw [List.nil_append, spell_components] at this
            cases this
            exact absurd (hclean [] List.mem_cons_self).2 (by decide)
        refine ⟨?_, [], by simp, hs⟩
        rw [ha, Bool.eq_false_iff, Ne, isAbsolute_iff, hs]
        rintro ⟨seg, rest', h⟩
        cases h
        exact absurd (hclean [] List.mem_cons_self).2 (by decide)

theorem names_parent (h : parent p = some q) : names q = (names p).dropLast := by
  obtain ⟨-, stays, hstays, hsegs⟩ := parent_names h
  have hnone : stays.filter (fun seg => !isStay seg) = [] :=
    List.filter_eq_nil_iff.mpr fun seg hm => by simp [hstays seg hm]
  have hall : (names p).dropLast.filter (fun seg => !isStay seg) = (names p).dropLast :=
    List.filter_eq_self.mpr fun seg hm => by
      simp [(not_mem_names (List.dropLast_subset _ hm)).2]
  rw [names, hsegs, List.filter_append, hnone, hall, List.nil_append]

/-- What has a file name has a parent. -/
theorem exists_parent (h : fileName p = some name) : ∃ q, parent p = some q := by
  unfold fileName at h
  unfold parent
  cases hl : (components p).getLast? with
  | none => rw [hl] at h; cases h
  | some c =>
    rw [hl] at h
    cases c <;> first | exact ⟨_, rfl⟩ | cases h

end Posix.Path
