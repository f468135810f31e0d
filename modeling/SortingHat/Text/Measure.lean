import SortingHat.Text.Json

/-!
# How long a JSON text is
-/

namespace Text.Json

theorem byteLength_cons (c : Char) (text : List Char) :
    byteLength (c :: text) = c.utf8Size + byteLength text := rfl

theorem byteLength_append (text text' : List Char) :
    byteLength (text ++ text') = byteLength text + byteLength text' := by
  unfold byteLength
  rw [List.map_append, List.sum_append]

/-- The items of a list, one below the other. -/
theorem byteLength_prettyItems (depth : Nat) (items : List Json) :
    byteLength (prettyItems depth items) =
      (items.map fun item => 1 + byteLength (newline depth) + byteLength (item.pretty depth)).sum := by
  induction items with
  | nil => rfl
  | cons item items ih =>
    rw [prettyItems, byteLength_append, byteLength_append, byteLength_cons, ih]
    rfl

/-- A list that is not empty, written in lines. -/
theorem byteLength_pretty_arr {items : List Json} (depth : Nat) (h : items ≠ []) :
    byteLength ((arr items).pretty depth) = 1 + byteLength (newline depth) +
      (items.map fun item =>
        1 + byteLength (newline (depth + 1)) + byteLength (item.pretty (depth + 1))).sum := by
  cases items with
  | nil => exact absurd rfl h
  | cons item items =>
    simp only [pretty, byteLength_append, byteLength_cons, byteLength_prettyItems, List.map_cons,
      List.sum_cons]
    have hopen : Char.utf8Size '[' = 1 := rfl
    have hclose : Char.utf8Size ']' = 1 := rfl
    have hnil : byteLength [] = 0 := rfl
    omega

/-- The fields of an object, one below the other. -/
theorem byteLength_prettyFields (depth : Nat) (fields : List (String × Json)) :
    byteLength (prettyFields depth fields) = fields.length * (3 + byteLength (newline depth)) +
      (fields.map fun field => byteLength (quote field.1)).sum +
      (fields.map fun field => byteLength (field.2.pretty depth)).sum := by
  induction fields with
  | nil =>
    rw [List.length_nil, Nat.zero_mul]
    rfl
  | cons field fields ih =>
    obtain ⟨key, item⟩ := field
    have hcomma : Char.utf8Size ',' = 1 := rfl
    have hcolon : byteLength [':', ' '] = 2 := rfl
    rw [prettyFields, byteLength_append, byteLength_append, byteLength_append, byteLength_append,
      byteLength_cons, ih, hcomma, hcolon, List.length_cons, Nat.succ_mul, List.map_cons,
      List.sum_cons, List.map_cons, List.sum_cons]
    dsimp only
    omega

/-- An object that is not empty, written in lines. -/
theorem byteLength_pretty_obj {fields : List (String × Json)} (depth : Nat) (h : fields ≠ []) :
    byteLength ((obj fields).pretty depth) = 1 + byteLength (newline depth) +
      fields.length * (3 + byteLength (newline (depth + 1))) +
      (fields.map fun field => byteLength (quote field.1)).sum +
      (fields.map fun field => byteLength (field.2.pretty (depth + 1))).sum := by
  cases fields with
  | nil => exact absurd rfl h
  | cons field fields =>
    obtain ⟨key, item⟩ := field
    have hopen : Char.utf8Size '\x7b' = 1 := rfl
    have hcolon : byteLength [':', ' '] = 2 := rfl
    have hclose : byteLength ['\x7d'] = 1 := rfl
    simp only [pretty, byteLength_append, byteLength_cons, byteLength_prettyFields, List.map_cons,
      List.sum_cons, List.length_cons, Nat.succ_mul, hopen, hcolon, hclose]
    omega

/-- A character that needs no escape and one byte. -/
def Bare (c : Char) : Prop := escape c = [c] ∧ c.utf8Size = 1

instance (c : Char) : Decidable (Bare c) := inferInstanceAs (Decidable (_ ∧ _))

theorem byteLength_escape {chars : List Char} (h : ∀ c ∈ chars, Bare c) :
    byteLength (chars.flatMap escape) = chars.length := by
  induction chars with
  | nil => rfl
  | cons c rest ih =>
    obtain ⟨⟨hescape, hsize⟩, hrest⟩ := List.forall_mem_cons.mp h
    rw [List.flatMap_cons, byteLength_append, hescape, ih hrest, byteLength_cons, hsize,
      List.length_cons]
    change 1 + 0 + _ = _
    omega

theorem byteLength_escape_le (c : Char) : byteLength (escape c) ≤ 12 := by
  have hone : ∀ a : Char, byteLength [a] ≤ 4 := Char.utf8Size_le_four
  have hunicode : ∀ a b : Char, byteLength ['\\', 'u', '0', '0', a, b] ≤ 12 := by
    intro a b
    have hfront : byteLength ['\\', 'u', '0', '0'] = 4 := by decide
    have ha := hone a
    have hb := hone b
    change byteLength (['\\', 'u', '0', '0'] ++ ([a] ++ [b])) ≤ 12
    rw [byteLength_append, byteLength_append, hfront]
    omega
  unfold escape
  split <;> try decide
  split
  · decide
  split
  · decide
  split
  · exact hunicode _ _
  · exact Nat.le_trans (hone _) (by decide)

/-- Any text in quotes. -/
theorem byteLength_quote_le (text : String) : byteLength (quote text) ≤ 2 + 12 * text.toList.length := by
  have hquote : Char.utf8Size '"' = 1 := rfl
  have hend : byteLength ['"'] = 1 := rfl
  have hchars : ∀ chars : List Char, byteLength (chars.flatMap escape) ≤ 12 * chars.length := by
    intro chars
    induction chars with
    | nil => exact Nat.le_refl 0
    | cons c chars ih =>
      have hc := byteLength_escape_le c
      rw [List.flatMap_cons, byteLength_append, List.length_cons]
      omega
  have := hchars text.toList
  unfold quote
  rw [byteLength_append, byteLength_cons, hquote, hend]
  omega

/-- A text of such characters, in quotes. -/
theorem byteLength_quote {text : String} (h : ∀ c ∈ text.toList, Bare c) :
    byteLength (quote text) = text.toList.length + 2 := by
  have hquote : Char.utf8Size '"' = 1 := rfl
  have hend : byteLength ['"'] = 1 := rfl
  unfold quote
  rw [byteLength_append, byteLength_cons, byteLength_escape h, hquote, hend]
  omega

end Text.Json
