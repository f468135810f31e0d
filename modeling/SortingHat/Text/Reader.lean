import SortingHat.Text.Json
import Mathlib.Data.List.Sort
import Mathlib.Data.List.TakeWhile

/-!
# JSON text read back

* `Json.write`: both ways of writing are one, with different blanks;
* `Json.read`: a reader of what is written, whatever the blanks;
* `read_compact`, `read_pretty`: it reads back the value that was written, so that a text
  stands for one value;
* `compact_clean`: a value written compact is one line;
* `Json.sorted`: a value as `serde_json::Value` keeps it, the fields in the order of their keys.
-/

namespace Text.Json

/-- Values, one layer at a time. -/
theorem induct {motive : Json → Prop} (null : motive null) (bool : ∀ b, motive (bool b))
    (int : ∀ n, motive (int n)) (str : ∀ s, motive (str s))
    (arr : ∀ items, (∀ item ∈ items, motive item) → motive (arr items))
    (obj : ∀ fields, (∀ field ∈ fields, motive field.2) → motive (obj fields)) (value : Json) :
    motive value := by
  apply @Json.rec motive (fun items => ∀ item ∈ items, motive item)
    (fun fields => ∀ field ∈ fields, motive field.2) (fun field => motive field.2) null bool int str
    arr obj
  · exact nofun
  · exact fun item items hitem hitems => List.forall_mem_cons.mpr ⟨hitem, hitems⟩
  · exact nofun
  · exact fun field fields hfield hfields => List.forall_mem_cons.mpr ⟨hfield, hfields⟩
  · exact fun _ _ h => h

/-! ## Writing -/

/-- The blanks: `gap` before an item, at its depth, and `colon` between a key and its value. -/
structure Layout where
  gap : Nat → List Char
  colon : List Char

def Layout.compact : Layout := { gap := fun _ => [], colon := [':'] }

def Layout.pretty : Layout := { gap := newline, colon := [':', ' '] }

mutual
def write (l : Layout) (depth : Nat) : Json → List Char
  | null => ['n', 'u', 'l', 'l']
  | bool true => ['t', 'r', 'u', 'e']
  | bool false => ['f', 'a', 'l', 's', 'e']
  | int n => number n
  | str s => quote s
  | arr [] => ['[', ']']
  | arr (item :: items) =>
    '[' :: l.gap (depth + 1) ++ item.write l (depth + 1) ++ writeItems l (depth + 1) items ++
      l.gap depth ++ [']']
  | obj [] => ['\x7b', '\x7d']
  | obj ((key, item) :: fields) =>
    '\x7b' :: l.gap (depth + 1) ++ quote key ++ l.colon ++ item.write l (depth + 1) ++
      writeFields l (depth + 1) fields ++ l.gap depth ++ ['\x7d']

def writeItems (l : Layout) (depth : Nat) : List Json → List Char
  | [] => []
  | item :: items => ',' :: l.gap depth ++ item.write l depth ++ writeItems l depth items

def writeFields (l : Layout) (depth : Nat) : List (String × Json) → List Char
  | [] => []
  | (key, item) :: fields =>
    ',' :: l.gap depth ++ quote key ++ l.colon ++ item.write l depth ++ writeFields l depth fields
end

theorem writeItems_pretty {items : List Json} {depth : Nat}
    (h : ∀ item ∈ items, ∀ depth, item.write .pretty depth = item.pretty depth) :
    writeItems .pretty depth items = prettyItems depth items := by
  induction items with
  | nil => rfl
  | cons item items ih =>
    obtain ⟨hitem, hitems⟩ := List.forall_mem_cons.mp h
    rw [writeItems, prettyItems, hitem, ih hitems]
    rfl

theorem writeFields_pretty {fields : List (String × Json)} {depth : Nat}
    (h : ∀ field ∈ fields, ∀ depth, field.2.write .pretty depth = field.2.pretty depth) :
    writeFields .pretty depth fields = prettyFields depth fields := by
  induction fields with
  | nil => rfl
  | cons field fields ih =>
    obtain ⟨hfield, hfields⟩ := List.forall_mem_cons.mp h
    rw [writeFields, prettyFields, hfield, ih hfields]
    rfl

theorem write_pretty (value : Json) (depth : Nat) :
    value.write .pretty depth = value.pretty depth := by
  induction value using induct generalizing depth with
  | null | int _ | str _ => rfl
  | bool b => cases b <;> rfl
  | arr items ih =>
    cases items with
    | nil => rfl
    | cons item items =>
      obtain ⟨hitem, hitems⟩ := List.forall_mem_cons.mp ih
      rw [write, pretty, hitem, writeItems_pretty hitems]
      rfl
  | obj fields ih =>
    cases fields with
    | nil => rfl
    | cons field fields =>
      obtain ⟨hfield, hfields⟩ := List.forall_mem_cons.mp ih
      rw [write, pretty, hfield, writeFields_pretty hfields]
      rfl

theorem writeItems_compact {items : List Json} {depth : Nat}
    (h : ∀ item ∈ items, ∀ depth, item.write .compact depth = item.compact) :
    writeItems .compact depth items = compactItems items := by
  induction items with
  | nil => rfl
  | cons item items ih =>
    obtain ⟨hitem, hitems⟩ := List.forall_mem_cons.mp h
    rw [writeItems, compactItems, hitem, ih hitems]
    rfl

theorem writeFields_compact {fields : List (String × Json)} {depth : Nat}
    (h : ∀ field ∈ fields, ∀ depth, field.2.write .compact depth = field.2.compact) :
    writeFields .compact depth fields = compactFields fields := by
  induction fields with
  | nil => rfl
  | cons field fields ih =>
    obtain ⟨hfield, hfields⟩ := List.forall_mem_cons.mp h
    rw [writeFields, compactFields, hfield, ih hfields]
    rfl

theorem write_compact (value : Json) (depth : Nat) :
    value.write .compact depth = value.compact := by
  induction value using induct generalizing depth with
  | null | int _ | str _ => rfl
  | bool b => cases b <;> rfl
  | arr items ih =>
    cases items with
    | nil => rfl
    | cons item items =>
      obtain ⟨hitem, hitems⟩ := List.forall_mem_cons.mp ih
      rw [write, compact, hitem, writeItems_compact hitems]
      simp [Layout.compact]
  | obj fields ih =>
    cases fields with
    | nil => rfl
    | cons field fields =>
      obtain ⟨hfield, hfields⟩ := List.forall_mem_cons.mp ih
      rw [write, compact, hfield, writeFields_compact hfields]
      simp [Layout.compact]

/-! ## Reading -/

def blank (c : Char) : Bool := c = ' ' || c = '\n' || c = '\r' || c = '\t'

def skip (text : List Char) : List Char := text.dropWhile blank

/-- The rest of the text behind a word. -/
def keyword (word text : List Char) : Option (List Char) :=
  if text.take word.length = word then some (text.drop word.length) else none

def hexValue (c : Char) : Option Nat :=
  if '0' ≤ c ∧ c ≤ '9' then some (c.toNat - 48)
  else if 'a' ≤ c ∧ c ≤ 'f' then some (c.toNat - 87)
  else if 'A' ≤ c ∧ c ≤ 'F' then some (c.toNat - 55)
  else none

/-- The character behind a backslash, save for the `u` escapes. -/
def unescape (c : Char) : Option Char :=
  if c = '"' ∨ c = '\\' ∨ c = '/' then some c
  else if c = 'n' then some '\n'
  else if c = 'r' then some '\r'
  else if c = 't' then some '\t'
  else if c = 'b' then some (Char.ofNat 8)
  else if c = 'f' then some (Char.ofNat 12)
  else none

/-- The four digits of an escape outside the surrogates. -/
def unicode (a b c d : Char) : Option Char := do
  let a ← hexValue a
  let b ← hexValue b
  let c ← hexValue c
  let d ← hexValue d
  let n := ((a * 16 + b) * 16 + c) * 16 + d
  if n < 0xD800 ∨ 0xDFFF < n then some (Char.ofNat n) else none

/-- A string from behind its first quote. -/
def readChars : List Char → Option (List Char × List Char)
  | [] => none
  | '\\' :: 'u' :: a :: b :: c :: d :: rest => do
    let first ← unicode a b c d
    let (chars, rest) ← readChars rest
    some (first :: chars, rest)
  | '\\' :: c :: rest => do
    let first ← unescape c
    let (chars, rest) ← readChars rest
    some (first :: chars, rest)
  | c :: rest =>
    if c = '"' then some ([], rest)
    else if c.toNat < 32 then none
    else do
      let (chars, rest) ← readChars rest
      some (c :: chars, rest)

def readNat (text : List Char) : Option (Nat × List Char) :=
  let digits := text.takeWhile Char.isDigit
  if digits = [] then none else some (Nat.ofDigitChars 10 digits 0, text.dropWhile Char.isDigit)

def readNumber : List Char → Option (Int × List Char)
  | [] => none
  | c :: rest => do
    if c = '-' then
      let (n, rest) ← readNat rest
      some (-n, rest)
    else
      let (n, rest) ← readNat (c :: rest)
      some (n, rest)

/-- A key and its colon. -/
def readKey : List Char → Option (String × List Char)
  | [] => none
  | c :: rest => do
    if c = '"' then
      let (chars, rest) ← readChars rest
      let rest ← keyword [':'] (skip rest)
      some (String.ofList chars, skip rest)
    else none

mutual
def readValue : Nat → List Char → Option (Json × List Char)
  | 0, _ => none
  | _ + 1, [] => none
  | fuel + 1, c :: rest =>
    if c = 'n' then (keyword ['u', 'l', 'l'] rest).map fun rest => (null, rest)
    else if c = 't' then (keyword ['r', 'u', 'e'] rest).map fun rest => (bool true, rest)
    else if c = 'f' then (keyword ['a', 'l', 's', 'e'] rest).map fun rest => (bool false, rest)
    else if c = '"' then
      (readChars rest).map fun (chars, rest) => (str (String.ofList chars), rest)
    else if c = '[' then
      match keyword [']'] (skip rest) with
      | some rest => some (arr [], rest)
      | none => (readItems fuel (skip rest)).map fun (items, rest) => (arr items, rest)
    else if c = '\x7b' then
      match keyword ['\x7d'] (skip rest) with
      | some rest => some (obj [], rest)
      | none => (readFields fuel (skip rest)).map fun (fields, rest) => (obj fields, rest)
    else (readNumber (c :: rest)).map fun (n, rest) => (int n, rest)

/-- Items, and the bracket behind them. -/
def readItems : Nat → List Char → Option (List Json × List Char)
  | 0, _ => none
  | fuel + 1, text => do
    let (item, rest) ← readValue fuel text
    match keyword [','] (skip rest) with
    | some rest => (readItems fuel (skip rest)).map fun (items, rest) => (item :: items, rest)
    | none => (keyword [']'] (skip rest)).map fun rest => ([item], rest)

/-- Fields, and the brace behind them. -/
def readFields : Nat → List Char → Option (List (String × Json) × List Char)
  | 0, _ => none
  | fuel + 1, text => do
    let (key, rest) ← readKey text
    let (item, rest) ← readValue fuel rest
    match keyword [','] (skip rest) with
    | some rest =>
      (readFields fuel (skip rest)).map fun (fields, rest) => ((key, item) :: fields, rest)
    | none => (keyword ['\x7d'] (skip rest)).map fun rest => ([(key, item)], rest)
end

/-- The value of a text that holds one, with blanks around it. -/
def read (text : List Char) : Option Json := do
  let (value, rest) ← readValue text.length (skip text)
  if skip rest = [] then some value else none

/-! ## The reader reads what is written -/

section
variable {l : Layout} {text rest gap : List Char}

theorem skip_gap (h : ∀ c ∈ gap, blank c = true) : skip (gap ++ text) = skip text :=
  List.dropWhile_append_of_pos h

theorem skip_cons {c : Char} (h : blank c = false) : skip (c :: text) = c :: text :=
  List.dropWhile_cons_of_neg (Bool.eq_false_iff.mp h)

theorem keyword_append (word : List Char) : keyword word (word ++ rest) = some rest := by
  unfold keyword
  rw [List.take_left, List.drop_left, if_pos rfl]

theorem keyword_cons (a : Char) : keyword [a] (a :: rest) = some rest := keyword_append [a]

theorem keyword_ne {a b : Char} (h : b ≠ a) : keyword [a] (b :: rest) = none := by
  unfold keyword
  exact if_neg fun he => h (List.cons.inj he).1

theorem hexValue_hexDigit {n : Nat} (h : n < 16) : hexValue (hexDigit n) = some n := by
  have hall : ∀ n < 16, hexValue (hexDigit n) = some n := by decide
  exact hall n h

theorem readChars_plain {c : Char} (hquote : c ≠ '"') (hslash : c ≠ '\\') (hlow : ¬ c.toNat < 32) :
    readChars (c :: text) = (readChars text).map fun p => (c :: p.1, p.2) := by
  rw [readChars.eq_def]
  split
  · next h => cases h
  · next h => exact absurd (List.cons.inj h).1 hslash
  · next h => exact absurd (List.cons.inj h).1 hslash
  · next h =>
    obtain ⟨rfl, rfl⟩ := List.cons.inj h
    rw [if_neg hquote, if_neg hlow]
    cases readChars text <;> rfl

theorem readChars_escaped {c e : Char} (hu : e ≠ 'u') (he : unescape e = some c) :
    readChars ('\\' :: e :: text) = (readChars text).map fun p => (c :: p.1, p.2) := by
  rw [readChars.eq_def]
  split
  · next h => cases h
  · next h => exact absurd (List.cons.inj (List.cons.inj h).2).1 hu
  · next h =>
    obtain ⟨rfl, rfl⟩ := List.cons.inj (List.cons.inj h).2
    rw [he]
    cases readChars text <;> rfl
  · next hne h =>
    obtain ⟨rfl, rfl⟩ := List.cons.inj h
    exact (hne _ _ rfl rfl).elim

theorem readChars_unicode {a b c d e : Char} (h : unicode a b c d = some e) :
    readChars ('\\' :: 'u' :: a :: b :: c :: d :: text) =
      (readChars text).map fun p => (e :: p.1, p.2) := by
  rw [readChars, h]
  cases readChars text <;> rfl

/-- Every escape stands for its character. -/
theorem readChars_escape (c : Char) :
    readChars (escape c ++ text) = (readChars text).map fun p => (c :: p.1, p.2) := by
  unfold escape
  split
  · exact readChars_escaped (by decide) (by decide)
  · exact readChars_escaped (by decide) (by decide)
  · exact readChars_escaped (by decide) (by decide)
  · exact readChars_escaped (by decide) (by decide)
  · exact readChars_escaped (by decide) (by decide)
  · next hquote hslash _ _ _ =>
    split
    · next h8 =>
      obtain rfl : c = Char.ofNat 8 := (Char.ofNat_toNat c).symm.trans (congrArg Char.ofNat h8)
      exact readChars_escaped (by decide) (by decide)
    split
    · next h12 =>
      obtain rfl : c = Char.ofNat 12 := (Char.ofNat_toNat c).symm.trans (congrArg Char.ofNat h12)
      exact readChars_escaped (by decide) (by decide)
    split
    · next hlow =>
      apply readChars_unicode
      have hzero : hexValue '0' = some 0 := by decide
      unfold unicode
      rw [hzero, hexValue_hexDigit (by omega), hexValue_hexDigit (by omega)]
      have hvalue : ((0 * 16 + 0) * 16 + c.toNat / 16) * 16 + c.toNat % 16 = c.toNat := by omega
      change (if ((0 * 16 + 0) * 16 + c.toNat / 16) * 16 + c.toNat % 16 < 0xD800 ∨ _ then _
        else none) = _
      rw [hvalue, if_pos (Or.inl (by omega)), Char.ofNat_toNat]
    · next hlow => exact readChars_plain hquote hslash hlow

theorem readChars_quote (chars : List Char) :
    readChars (chars.flatMap escape ++ '"' :: rest) = some (chars, rest) := by
  induction chars with
  | nil =>
    rw [List.flatMap_nil, List.nil_append, readChars.eq_def]
    rfl
  | cons c chars ih =>
    rw [List.flatMap_cons, List.append_assoc, readChars_escape, ih]
    rfl

/-- No digit stands first. -/
def Stops (text : List Char) : Prop := ∀ c ∈ text.head?, c.isDigit = false

theorem stops_cons {c : Char} (h : c.isDigit = false) : Stops (c :: text) := by
  rintro d hd
  obtain rfl := Option.mem_some.mp hd
  exact h

theorem readNat_toDigits (h : Stops rest) (n : Nat) :
    readNat (Nat.toDigits 10 n ++ rest) = some (n, rest) := by
  have hdigits : ∀ c ∈ Nat.toDigits 10 n, Char.isDigit c = true :=
    fun c hc => Nat.isDigit_of_mem_toDigits (by decide) (by decide) hc
  have hstop : rest.takeWhile Char.isDigit = [] ∧ rest.dropWhile Char.isDigit = rest := by
    cases rest with
    | nil => exact ⟨rfl, rfl⟩
    | cons c rest =>
      have hc : ¬ c.isDigit = true := Bool.eq_false_iff.mp (h c rfl)
      exact ⟨List.takeWhile_cons_of_neg hc, List.dropWhile_cons_of_neg hc⟩
  unfold readNat
  rw [List.takeWhile_append_of_pos hdigits, List.dropWhile_append_of_pos hdigits, hstop.1, hstop.2,
    List.append_nil]
  dsimp only
  rw [if_neg Nat.toDigits_ne_nil, Nat.ofDigitChars_ten_toDigits]

/-- A digit or a minus sign. -/
def Opens (c : Char) : Prop := c = '-' ∨ c.isDigit = true

theorem toDigits_cons (n : Nat) :
    ∃ c digits, Nat.toDigits 10 n = c :: digits ∧ c.isDigit = true := by
  obtain ⟨c, digits, hcons⟩ := List.exists_cons_of_ne_nil (Nat.toDigits_ne_nil (b := 10) (n := n))
  have hmem : c ∈ Nat.toDigits 10 n := hcons ▸ List.mem_cons_self
  exact ⟨c, digits, hcons, Nat.isDigit_of_mem_toDigits (by decide) (by decide) hmem⟩

theorem number_cons (n : Int) : ∃ c digits, number n = c :: digits ∧ Opens c := by
  unfold number
  split
  · exact ⟨_, _, rfl, Or.inl rfl⟩
  · obtain ⟨c, digits, hcons, hdigit⟩ := toDigits_cons n.natAbs
    exact ⟨c, digits, hcons, Or.inr hdigit⟩

theorem Opens.ne {c d : Char} (h : Opens c) (hminus : d ≠ '-') (hdigit : d.isDigit = false) :
    c ≠ d := by
  rintro rfl
  rcases h with he | hc
  · exact hminus he
  · rw [hdigit] at hc
    cases hc

theorem readNumber_number (h : Stops rest) (n : Int) :
    readNumber (number n ++ rest) = some (n, rest) := by
  unfold number
  split
  · next hneg =>
    rw [List.cons_append, readNumber, if_pos rfl, readNat_toDigits h]
    have hvalue : -(n.natAbs : Int) = n := by omega
    exact congrArg some (Prod.ext hvalue rfl)
  · next hpos =>
    obtain ⟨c, digits, hcons, hdigit⟩ := toDigits_cons n.natAbs
    have hminus : c ≠ '-' := fun he => absurd (he ▸ hdigit) (by decide)
    rw [hcons, List.cons_append, readNumber, if_neg hminus, ← List.cons_append, ← hcons,
      readNat_toDigits h]
    have hvalue : (n.natAbs : Int) = n := by omega
    exact congrArg some (Prod.ext hvalue rfl)

/-- Nothing but blanks stands between the tokens. -/
structure Layout.Blank (l : Layout) : Prop where
  gap : ∀ depth, ∀ c ∈ l.gap depth, blank c = true
  colon : ∃ blanks, l.colon = ':' :: blanks ∧ ∀ c ∈ blanks, blank c = true

/-- A value neither starts with a blank nor with a closing bracket. -/
theorem write_cons (l : Layout) (depth : Nat) (value : Json) :
    ∃ c text, value.write l depth = c :: text ∧ blank c = false ∧ c ≠ ']' := by
  cases value with
  | null | str _ => exact ⟨_, _, rfl, by decide, by decide⟩
  | bool b => cases b <;> exact ⟨_, _, rfl, by decide, by decide⟩
  | int n =>
    obtain ⟨c, digits, hcons, hopens⟩ := number_cons n
    refine ⟨c, digits, hcons, ?_, hopens.ne (by decide) (by decide)⟩
    unfold blank
    simp [hopens.ne]
  | arr items => cases items <;> exact ⟨_, _, rfl, by decide, by decide⟩
  | obj fields =>
    cases fields with
    | nil => exact ⟨_, _, rfl, by decide, by decide⟩
    | cons field fields => exact ⟨_, _, rfl, by decide, by decide⟩

theorem skip_write (hl : l.Blank) (value : Json) (depth depth' : Nat) :
    skip (l.gap depth' ++ (value.write l depth ++ text)) = value.write l depth ++ text := by
  obtain ⟨c, more, hcons, hblank, -⟩ := write_cons l depth value
  rw [skip_gap (hl.gap depth'), hcons, List.cons_append, skip_cons hblank]

theorem skip_quote (key : String) : skip (quote key ++ text) = quote key ++ text :=
  skip_cons (by decide)

theorem readKey_quote (hl : l.Blank) (key : String) (value : Json) (depth : Nat) :
    readKey (quote key ++ (l.colon ++ (value.write l depth ++ text))) =
      some (key, value.write l depth ++ text) := by
  obtain ⟨blanks, hcolon, hblanks⟩ := hl.colon
  obtain ⟨c, more, hcons, hblank, -⟩ := write_cons l depth value
  unfold quote
  rw [List.cons_append, List.cons_append, List.append_assoc, List.cons_append, List.nil_append,
    readKey, if_pos rfl, readChars_quote, hcolon]
  dsimp only [Option.bind_eq_bind, Option.bind]
  rw [List.cons_append, skip_cons (by decide), keyword_cons]
  dsimp only
  rw [skip_gap hblanks, hcons, List.cons_append, skip_cons hblank, String.ofList_toList]

/-- The reader reads the value, whatever stands behind it. -/
def Reads (l : Layout) (value : Json) : Prop :=
  ∀ depth fuel rest, Stops rest → (value.write l depth).length ≤ fuel →
    readValue fuel (value.write l depth ++ rest) = some (value, rest)

theorem stops_blank {c : Char} (h : blank c = true) : Stops (c :: rest) := by
  apply stops_cons
  unfold blank at h
  simp only [Bool.or_eq_true, decide_eq_true_eq] at h
  rcases h with ((rfl | rfl) | rfl) | rfl <;> decide

theorem stops_gap (hl : l.Blank) (depth : Nat) {c : Char} (hc : c.isDigit = false) :
    Stops (l.gap depth ++ c :: rest) := by
  cases hgap : l.gap depth with
  | nil => exact stops_cons hc
  | cons b gap => exact stops_blank (hl.gap depth b (hgap ▸ List.mem_cons_self))

theorem readItems_write (hl : l.Blank) {item : Json} {items : List Json} {depth depth' fuel : Nat}
    (hitem : Reads l item) (hitems : ∀ item ∈ items, Reads l item)
    (hfuel : (item.write l depth).length + (writeItems l depth items).length < fuel) :
    readItems fuel (item.write l depth ++ (writeItems l depth items ++ (l.gap depth' ++ ']' :: rest))) =
      some (item :: items, rest) := by
  induction items generalizing item fuel with
  | nil =>
    obtain ⟨fuel, rfl⟩ := Nat.exists_eq_add_one_of_ne_zero (Nat.ne_zero_of_lt hfuel)
    rw [readItems, writeItems, List.nil_append,
      hitem _ _ _ (stops_gap hl depth' (by decide)) (by omega)]
    dsimp only [Option.bind_eq_bind, Option.bind]
    rw [skip_gap (hl.gap depth'), skip_cons (by decide), keyword_ne (by decide)]
    dsimp only
    rw [keyword_cons]
    rfl
  | cons next items ih =>
    obtain ⟨fuel, rfl⟩ := Nat.exists_eq_add_one_of_ne_zero (Nat.ne_zero_of_lt hfuel)
    obtain ⟨hnext, hitems⟩ := List.forall_mem_cons.mp hitems
    obtain ⟨c, more, hcons, -, -⟩ := write_cons l depth item
    rw [writeItems] at hfuel ⊢
    have hlength := congrArg List.length hcons
    simp only [List.length_append, List.length_cons] at hfuel hlength
    rw [readItems, List.cons_append, List.cons_append, List.cons_append,
      hitem _ _ _ (stops_cons (by decide)) (by omega)]
    dsimp only [Option.bind_eq_bind, Option.bind]
    rw [skip_cons (by decide), keyword_cons]
    dsimp only
    rw [List.append_assoc, List.append_assoc, skip_write hl, ih hnext hitems (by omega)]
    rfl

theorem readFields_write (hl : l.Blank) {field : String × Json} {fields : List (String × Json)}
    {depth depth' fuel : Nat} (hfield : Reads l field.2) (hfields : ∀ field ∈ fields, Reads l field.2)
    (hfuel : (field.2.write l depth).length + (writeFields l depth fields).length < fuel) :
    readFields fuel (quote field.1 ++ (l.colon ++ (field.2.write l depth ++
        (writeFields l depth fields ++ (l.gap depth' ++ '\x7d' :: rest))))) =
      some (field :: fields, rest) := by
  induction fields generalizing field fuel with
  | nil =>
    obtain ⟨fuel, rfl⟩ := Nat.exists_eq_add_one_of_ne_zero (Nat.ne_zero_of_lt hfuel)
    rw [readFields, readKey_quote hl, writeFields, List.nil_append]
    dsimp only [Option.bind_eq_bind, Option.bind]
    rw [hfield _ _ _ (stops_gap hl depth' (by decide)) (by omega)]
    dsimp only
    rw [skip_gap (hl.gap depth'), skip_cons (by decide), keyword_ne (by decide)]
    dsimp only
    rw [keyword_cons]
    rfl
  | cons next fields ih =>
    obtain ⟨fuel, rfl⟩ := Nat.exists_eq_add_one_of_ne_zero (Nat.ne_zero_of_lt hfuel)
    obtain ⟨hnext, hfields⟩ := List.forall_mem_cons.mp hfields
    obtain ⟨c, more, hcons, -, -⟩ := write_cons l depth field.2
    rw [writeFields] at hfuel ⊢
    have hlength := congrArg List.length hcons
    simp only [List.length_append, List.length_cons] at hfuel hlength
    rw [readFields, readKey_quote hl]
    dsimp only [Option.bind_eq_bind, Option.bind]
    rw [List.cons_append, List.cons_append, List.cons_append, List.cons_append, List.cons_append,
      hfield _ _ _ (stops_cons (by decide)) (by omega)]
    dsimp only
    rw [skip_cons (by decide), keyword_cons]
    dsimp only
    simp only [List.append_assoc]
    rw [skip_gap (hl.gap depth), skip_quote, ih hnext hfields (by omega)]
    rfl

/-- A value takes a step of the reader. -/
theorem reads_of_succ {value : Json} (h : ∀ depth fuel rest, Stops rest →
    (value.write l depth).length ≤ fuel + 1 →
      readValue (fuel + 1) (value.write l depth ++ rest) = some (value, rest)) : Reads l value := by
  intro depth fuel rest hstops hfuel
  obtain ⟨c, more, hcons, -, -⟩ := write_cons l depth value
  have hpos : fuel ≠ 0 := by
    rintro rfl
    rw [hcons] at hfuel
    cases hfuel
  obtain ⟨fuel, rfl⟩ := Nat.exists_eq_add_one_of_ne_zero hpos
  exact h depth fuel rest hstops hfuel

/-- **Every value is read back**, written either way. -/
theorem reads (hl : l.Blank) (value : Json) : Reads l value := by
  induction value using induct with
  | null => exact reads_of_succ fun _ _ _ _ _ => rfl
  | bool b => cases b <;> exact reads_of_succ fun _ _ _ _ _ => rfl
  | int n =>
    apply reads_of_succ
    intro depth fuel rest hstops hfuel
    obtain ⟨c, digits, hcons, hopens⟩ := number_cons n
    have hread := readNumber_number hstops n
    rw [hcons, List.cons_append] at hread
    rw [write, hcons, List.cons_append, readValue, if_neg (hopens.ne (by decide) (by decide)),
      if_neg (hopens.ne (by decide) (by decide)), if_neg (hopens.ne (by decide) (by decide)),
      if_neg (hopens.ne (by decide) (by decide)), if_neg (hopens.ne (by decide) (by decide)),
      if_neg (hopens.ne (by decide) (by decide)), hread]
    rfl
  | str s =>
    apply reads_of_succ
    intro depth fuel rest hstops hfuel
    rw [write, quote, List.cons_append, List.cons_append, List.append_assoc, readValue,
      if_neg (by decide), if_neg (by decide), if_neg (by decide), if_pos rfl, List.cons_append,
      List.nil_append, readChars_quote]
    exact congrArg (fun s => some (str s, rest)) String.ofList_toList
  | arr items ih =>
    apply reads_of_succ
    intro depth fuel rest hstops hfuel
    cases items with
    | nil => rfl
    | cons item items =>
      obtain ⟨hitem, hitems⟩ := List.forall_mem_cons.mp ih
      obtain ⟨c, more, hcons, -, hclose⟩ := write_cons l (depth + 1) item
      rw [write] at hfuel ⊢
      simp only [List.length_append, List.length_cons, List.length_nil] at hfuel
      simp only [List.append_assoc, List.cons_append, List.nil_append]
      rw [readValue, if_neg (by decide), if_neg (by decide), if_neg (by decide),
        if_neg (by decide), if_pos rfl, skip_write hl, readItems_write hl hitem hitems (by omega),
        hcons, List.cons_append, keyword_ne hclose]
      rfl
  | obj fields ih =>
    apply reads_of_succ
    intro depth fuel rest hstops hfuel
    cases fields with
    | nil => rfl
    | cons field fields =>
      obtain ⟨hfield, hfields⟩ := List.forall_mem_cons.mp ih
      rw [write] at hfuel ⊢
      simp only [List.length_append, List.length_cons, List.length_nil] at hfuel
      simp only [List.append_assoc, List.cons_append, List.nil_append]
      rw [readValue, if_neg (by decide), if_neg (by decide), if_neg (by decide),
        if_neg (by decide), if_neg (by decide), if_pos rfl, skip_gap (hl.gap _), skip_quote,
        readFields_write hl hfield hfields (by omega), quote, List.cons_append, List.cons_append,
        keyword_ne (by decide)]
      rfl

theorem read_write (hl : l.Blank) (value : Json) (depth : Nat)
    (hrest : ∀ c ∈ rest, blank c = true) :
    read (value.write l depth ++ rest) = some value := by
  have hskip : skip rest = [] := by
    unfold skip
    rwa [List.dropWhile_eq_nil_iff]
  have hstops : Stops rest := by
    cases rest with
    | nil => exact nofun
    | cons c rest => exact stops_blank (hrest c List.mem_cons_self)
  obtain ⟨c, more, hcons, hblank, -⟩ := write_cons l depth value
  have hread := reads hl value depth (value.write l depth ++ rest).length rest hstops
    (by rw [List.length_append]; exact Nat.le_add_right _ _)
  unfold read
  rw [hcons, List.cons_append, skip_cons hblank, ← List.cons_append, ← hcons, hread]
  exact if_pos hskip

end

theorem Layout.compact_blank : Layout.compact.Blank where
  gap := fun _ => nofun
  colon := ⟨[], rfl, nofun⟩

theorem Layout.pretty_blank : Layout.pretty.Blank where
  gap := by
    intro depth c hc
    rcases List.mem_cons.mp hc with rfl | hc
    · rfl
    · rw [List.eq_of_mem_replicate hc]
      rfl
  colon := ⟨[' '], rfl, List.forall_mem_singleton.mpr rfl⟩

theorem read_compact (value : Json) {rest : List Char} (hrest : ∀ c ∈ rest, blank c = true) :
    read (value.compact ++ rest) = some value := by
  rw [← write_compact value 0]
  exact read_write Layout.compact_blank value 0 hrest

theorem read_pretty (value : Json) : read (value.pretty 0) = some value := by
  have hread : read (value.write Layout.pretty 0 ++ []) = some value :=
    read_write Layout.pretty_blank value 0 nofun
  rwa [List.append_nil, write_pretty] at hread

/-! ## One line -/

/-- No control character. -/
def Clean (text : List Char) : Prop := ∀ c ∈ text, 32 ≤ c.toNat

instance (text : List Char) : Decidable (Clean text) := List.decidableBAll _ text

section
variable {text text' : List Char}

theorem Clean.append (h : Clean text) (h' : Clean text') : Clean (text ++ text') :=
  List.forall_mem_append.mpr ⟨h, h'⟩

theorem Clean.cons {c : Char} (hc : 32 ≤ c.toNat) (h : Clean text) : Clean (c :: text) :=
  List.forall_mem_cons.mpr ⟨hc, h⟩

theorem clean_hexDigit {n : Nat} (h : n < 16) : 32 ≤ (hexDigit n).toNat := by
  have hall : ∀ n < 16, 32 ≤ (hexDigit n).toNat := by decide
  exact hall n h

theorem clean_escape (c : Char) : Clean (escape c) := by
  unfold escape
  split <;> try decide
  split
  · decide
  split
  · decide
  split
  · next hlow =>
    have hfront : Clean ['\\', 'u', '0', '0'] := by decide
    apply hfront.append
    have hlast : Clean [hexDigit (c.toNat % 16)] :=
      List.forall_mem_singleton.mpr (clean_hexDigit (by omega))
    exact hlast.cons (clean_hexDigit (by omega))
  · next hlow =>
    intro d hd
    rw [List.mem_singleton.mp hd]
    exact Nat.not_lt.mp hlow

theorem clean_quote (s : String) : Clean (quote s) := by
  have hchars : Clean (s.toList.flatMap escape) := by
    intro c hc
    obtain ⟨d, -, hd⟩ := List.mem_flatMap.mp hc
    exact clean_escape d c hd
  exact (hchars.cons (by decide)).append (by decide)

theorem clean_number (n : Int) : Clean (number n) := by
  have hdigits : Clean (Nat.toDigits 10 n.natAbs) := by
    intro c hc
    have hdigit := Nat.isDigit_of_mem_toDigits (by decide) (by decide) hc
    unfold Char.isDigit at hdigit
    rw [Bool.and_eq_true, decide_eq_true_eq] at hdigit
    exact Nat.le_trans (by decide) (UInt32.le_iff_toNat_le.mp hdigit.1)
  unfold number
  split
  · exact hdigits.cons (by decide)
  · exact hdigits

/-- **A value written compact is one line.** -/
theorem compact_clean (value : Json) : Clean value.compact := by
  induction value using induct with
  | null => decide
  | bool b => cases b <;> decide
  | int n => exact clean_number n
  | str s => exact clean_quote s
  | arr items ih =>
    cases items with
    | nil => decide
    | cons item items =>
      obtain ⟨hitem, hitems⟩ := List.forall_mem_cons.mp ih
      have hmore : Clean (compactItems items) := by
        clear ih
        induction items with
        | nil => exact nofun
        | cons item items ih =>
          obtain ⟨hitem, hitems⟩ := List.forall_mem_cons.mp hitems
          exact (hitem.cons (by decide)).append (ih hitems)
      exact ((hitem.cons (by decide)).append hmore).append (by decide)
  | obj fields ih =>
    cases fields with
    | nil => decide
    | cons field fields =>
      obtain ⟨hfield, hfields⟩ := List.forall_mem_cons.mp ih
      have hmore : Clean (compactFields fields) := by
        clear ih
        induction fields with
        | nil => exact nofun
        | cons field fields ih =>
          obtain ⟨hfield, hfields⟩ := List.forall_mem_cons.mp hfields
          exact ((((clean_quote _).cons (by decide)).append (by decide)).append hfield).append
            (ih hfields)
      exact (((((clean_quote _).cons (by decide)).append (by decide)).append hfield).append
        hmore).append (by decide)

end

/-! ## Values as they are kept -/

/-- The order of keys: bytewise, which is that of their characters. -/
def KeyLe (a b : String × Json) : Prop := String.le a.1 b.1

instance : DecidableRel KeyLe := fun a b => String.decLE a.1 b.1

mutual
/-- Every object with its fields in the order of their keys. -/
def sorted : Json → Json
  | arr items => arr (sortedItems items)
  | obj fields => obj ((sortedFields fields).insertionSort KeyLe)
  | value => value

def sortedItems : List Json → List Json
  | [] => []
  | item :: items => item.sorted :: sortedItems items

def sortedFields : List (String × Json) → List (String × Json)
  | [] => []
  | (key, item) :: fields => (key, item.sorted) :: sortedFields fields
end

/-- Every number of the value satisfies `p`, and the keys of every object `q`. -/
inductive Keeps (p : Int → Prop) (q : List String → Prop) : Json → Prop where
  | null : Keeps p q null
  | bool (b : Bool) : Keeps p q (bool b)
  | int {n : Int} (h : p n) : Keeps p q (int n)
  | str (s : String) : Keeps p q (str s)
  | arr {items : List Json} (h : ∀ item ∈ items, Keeps p q item) : Keeps p q (arr items)
  | obj {fields : List (String × Json)} (hkeys : q (fields.map Prod.fst))
      (h : ∀ field ∈ fields, Keeps p q field.2) : Keeps p q (obj fields)

section
variable {p p' : Int → Prop} {q q' : List String → Prop} {value : Json}

/-- The numbers of the one, the keys of the other. -/
theorem Keeps.keys (h : Keeps p q value) (h' : Keeps p' q' value) : Keeps p q' value := by
  induction value using induct with
  | null => exact .null
  | bool b => exact .bool b
  | int n =>
    obtain _ | _ | hn := h
    exact .int hn
  | str s => exact .str s
  | arr items ih =>
    cases h with
    | arr h =>
      cases h' with
      | arr h' => exact .arr fun item hm => ih item hm (h item hm) (h' item hm)
  | obj fields ih =>
    cases h with
    | obj hkeys h =>
      cases h' with
      | obj hkeys' h' => exact .obj hkeys' fun field hm => ih field hm (h field hm) (h' field hm)

theorem sortedItems_eq_map (items : List Json) : sortedItems items = items.map sorted := by
  induction items with
  | nil => rfl
  | cons item items ih => rw [sortedItems, ih, List.map_cons]

theorem sortedFields_eq_map (fields : List (String × Json)) :
    sortedFields fields = fields.map fun field => (field.1, field.2.sorted) := by
  induction fields with
  | nil => rfl
  | cons field fields ih => rw [sortedFields, ih, List.map_cons]

/-- One key stands strictly before another. -/
def KeyLt (a b : String) : Prop := String.le a b ∧ a ≠ b

instance : Std.Total KeyLe := ⟨fun a b => String.le_total a.1 b.1⟩

instance : IsTrans (String × Json) KeyLe := ⟨fun _ _ _ => String.le_trans⟩

/-- Keys that differ come to stand one after the other. -/
theorem sorted_keeps (h : Keeps p List.Nodup value) :
    Keeps p (fun keys => keys.Pairwise KeyLt) value.sorted := by
  induction value using induct with
  | null => exact .null
  | bool b => exact .bool b
  | int n =>
    obtain _ | _ | hn := h
    exact .int hn
  | str s => exact .str s
  | arr items ih =>
    cases h with
    | arr h =>
      rw [sorted, sortedItems_eq_map]
      apply Keeps.arr
      intro sorted hm
      obtain ⟨item, hitem, rfl⟩ := List.mem_map.mp hm
      exact ih item hitem (h item hitem)
  | obj fields ih =>
    cases h with
    | obj hkeys h =>
      rw [sorted, sortedFields_eq_map]
      have hperm := List.perm_insertionSort KeyLe
        (fields.map fun field => (field.1, field.2.sorted))
      apply Keeps.obj
      · have hnodup : (((fields.map fun field => (field.1, field.2.sorted)).insertionSort
            KeyLe).map Prod.fst).Nodup := by
          rw [(hperm.map Prod.fst).nodup_iff, List.map_map]
          exact hkeys
        exact List.Pairwise.and (List.pairwise_map.mpr (List.pairwise_insertionSort KeyLe _)) hnodup
      · intro sorted hm
        obtain ⟨field, hfield, rfl⟩ := List.mem_map.mp (hperm.mem_iff.mp hm)
        exact ih field hfield (h field hfield)

end

example : (obj [("b", null), ("a", arr [])]).sorted.compact = "\x7b\"a\":[],\"b\":null\x7d".toList := by
  decide

example : (read " [ \"a\\u00e9\" , -12 ] ".toList).map compact = some "[\"aé\",-12]".toList := by
  decide +kernel

end Text.Json
