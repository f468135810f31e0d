import SortingHat.Posix.Path

/-!
# Base64, URL-safe alphabet, no padding

RFC 4648 without padding, strict: the unused bits of the last character must be
zero.
-/

namespace Text.Base64
open Posix (Bytes bytes)

/-- The character of a six-bit value. -/
def digit (n : Nat) : Char :=
  if n < 26 then Char.ofNat (65 + n)
  else if n < 52 then Char.ofNat (97 + (n - 26))
  else if n < 62 then Char.ofNat (48 + (n - 52))
  else if n = 62 then '-' else '_'

def value? (c : Char) : Option Nat :=
  if 'A' ≤ c ∧ c ≤ 'Z' then some (c.toNat - 65)
  else if 'a' ≤ c ∧ c ≤ 'z' then some (c.toNat - 97 + 26)
  else if '0' ≤ c ∧ c ≤ '9' then some (c.toNat - 48 + 52)
  else if c = '-' then some 62
  else if c = '_' then some 63
  else none

def encodeChars : Bytes → List Char
  | [] => []
  | [a] => [digit (a.toNat / 4), digit (a.toNat % 4 * 16)]
  | [a, b] =>
    [digit (a.toNat / 4), digit (a.toNat % 4 * 16 + b.toNat / 16), digit (b.toNat % 16 * 4)]
  | a :: b :: c :: rest =>
    digit (a.toNat / 4) :: digit (a.toNat % 4 * 16 + b.toNat / 16) ::
      digit (b.toNat % 16 * 4 + c.toNat / 64) :: digit (c.toNat % 64) :: encodeChars rest

def decodeChars : List Char → Option Bytes
  | [] => some []
  | [_] => none
  | [w, x] => do
    let w ← value? w
    let x ← value? x
    if x % 16 = 0 then some [UInt8.ofNat (w * 4 + x / 16)] else none
  | [w, x, y] => do
    let w ← value? w
    let x ← value? x
    let y ← value? y
    if y % 4 = 0 then
      some [UInt8.ofNat (w * 4 + x / 16), UInt8.ofNat (x % 16 * 16 + y / 4)]
    else none
  | w :: x :: y :: z :: rest => do
    let w ← value? w
    let x ← value? x
    let y ← value? y
    let z ← value? z
    let tail ← decodeChars rest
    some (UInt8.ofNat (w * 4 + x / 16) :: UInt8.ofNat (x % 16 * 16 + y / 4) ::
      UInt8.ofNat (y % 4 * 64 + z) :: tail)

def encode (b : Bytes) : String := String.ofList (encodeChars b)

def decode (s : String) : Option Bytes := decodeChars s.toList

theorem value?_digit {n : Nat} (h : n < 64) : value? (digit n) = some n := by
  have hall : ∀ m : Fin 64, value? (digit m) = some m.val := by decide
  exact hall ⟨n, h⟩

theorem decodeChars_encodeChars (b : Bytes) : decodeChars (encodeChars b) = some b := by
  induction b using encodeChars.induct with
  | case1 => rfl
  | case2 a =>
    have ha := a.toNat_lt
    have hw := value?_digit (n := a.toNat / 4) (by omega)
    have hx := value?_digit (n := a.toNat % 4 * 16) (by omega)
    have hback : a.toNat / 4 * 4 + a.toNat % 4 * 16 / 16 = a.toNat := by omega
    have hrest : a.toNat % 4 * 16 % 16 = 0 := by omega
    simp only [encodeChars, decodeChars, hw, hx, Option.bind_eq_bind, Option.bind_some, hrest,
      if_true, hback, UInt8.ofNat_toNat]
  | case3 a b =>
    have ha := a.toNat_lt
    have hb := b.toNat_lt
    have hw := value?_digit (n := a.toNat / 4) (by omega)
    have hx := value?_digit (n := a.toNat % 4 * 16 + b.toNat / 16) (by omega)
    have hy := value?_digit (n := b.toNat % 16 * 4) (by omega)
    have hfirst : a.toNat / 4 * 4 + (a.toNat % 4 * 16 + b.toNat / 16) / 16 = a.toNat := by omega
    have hsecond : (a.toNat % 4 * 16 + b.toNat / 16) % 16 * 16 + b.toNat % 16 * 4 / 4 = b.toNat := by
      omega
    have hrest : b.toNat % 16 * 4 % 4 = 0 := by omega
    simp only [encodeChars, decodeChars, hw, hx, hy, Option.bind_eq_bind, Option.bind_some, hrest,
      if_true, hfirst, hsecond, UInt8.ofNat_toNat]
  | case4 a b c rest ih =>
    have ha := a.toNat_lt
    have hb := b.toNat_lt
    have hc := c.toNat_lt
    have hw := value?_digit (n := a.toNat / 4) (by omega)
    have hx := value?_digit (n := a.toNat % 4 * 16 + b.toNat / 16) (by omega)
    have hy := value?_digit (n := b.toNat % 16 * 4 + c.toNat / 64) (by omega)
    have hz := value?_digit (n := c.toNat % 64) (by omega)
    have hfirst : a.toNat / 4 * 4 + (a.toNat % 4 * 16 + b.toNat / 16) / 16 = a.toNat := by omega
    have hsecond : (a.toNat % 4 * 16 + b.toNat / 16) % 16 * 16 +
        (b.toNat % 16 * 4 + c.toNat / 64) / 4 = b.toNat := by omega
    have hthird : (b.toNat % 16 * 4 + c.toNat / 64) % 4 * 64 + c.toNat % 64 = c.toNat := by omega
    simp only [encodeChars, decodeChars, hw, hx, hy, hz, ih, Option.bind_eq_bind, Option.bind_some,
      hfirst, hsecond, hthird, UInt8.ofNat_toNat]

/-- **Round trip.** -/
theorem decode_encode (b : Bytes) : decode (encode b) = some b := by
  unfold decode encode
  rw [String.toList_ofList]
  exact decodeChars_encodeChars b

theorem toNat_le_of_le {a b : Char} (h : a ≤ b) : a.toNat ≤ b.toNat := UInt32.le_iff_toNat_le.mp h

/-- A character stands for one value, and no other character does. -/
theorem digit_value? {c : Char} {n : Nat} (h : value? c = some n) : n < 64 ∧ digit n = c := by
  have hback : Char.ofNat c.toNat = c := Char.ofNat_toNat c
  unfold value? at h
  by_cases hupper : 'A' ≤ c ∧ c ≤ 'Z'
  · rw [if_pos hupper] at h
    have hlow : 65 ≤ c.toNat := toNat_le_of_le hupper.1
    have hhigh : c.toNat ≤ 90 := toNat_le_of_le hupper.2
    obtain rfl := Option.some.inj h
    have hn : c.toNat - 65 < 26 := by omega
    have hsum : 65 + (c.toNat - 65) = c.toNat := by omega
    unfold digit
    rw [if_pos hn, hsum]
    exact ⟨by omega, hback⟩
  rw [if_neg hupper] at h
  by_cases hlower : 'a' ≤ c ∧ c ≤ 'z'
  · rw [if_pos hlower] at h
    have hlow : 97 ≤ c.toNat := toNat_le_of_le hlower.1
    have hhigh : c.toNat ≤ 122 := toNat_le_of_le hlower.2
    obtain rfl := Option.some.inj h
    have hnot : ¬ c.toNat - 97 + 26 < 26 := by omega
    have hn : c.toNat - 97 + 26 < 52 := by omega
    have hsum : 97 + (c.toNat - 97 + 26 - 26) = c.toNat := by omega
    unfold digit
    rw [if_neg hnot, if_pos hn, hsum]
    exact ⟨by omega, hback⟩
  rw [if_neg hlower] at h
  by_cases hdigit : '0' ≤ c ∧ c ≤ '9'
  · rw [if_pos hdigit] at h
    have hlow : 48 ≤ c.toNat := toNat_le_of_le hdigit.1
    have hhigh : c.toNat ≤ 57 := toNat_le_of_le hdigit.2
    obtain rfl := Option.some.inj h
    have hnot : ¬ c.toNat - 48 + 52 < 26 := by omega
    have hnot' : ¬ c.toNat - 48 + 52 < 52 := by omega
    have hn : c.toNat - 48 + 52 < 62 := by omega
    have hsum : 48 + (c.toNat - 48 + 52 - 52) = c.toNat := by omega
    unfold digit
    rw [if_neg hnot, if_neg hnot', if_pos hn, hsum]
    exact ⟨by omega, hback⟩
  rw [if_neg hdigit] at h
  by_cases hminus : c = '-'
  · rw [if_pos hminus] at h
    obtain rfl := Option.some.inj h
    exact ⟨by omega, hminus ▸ rfl⟩
  rw [if_neg hminus] at h
  by_cases hlast : c = '_'
  · rw [if_pos hlast] at h
    obtain rfl := Option.some.inj h
    exact ⟨by omega, hlast ▸ rfl⟩
  · rw [if_neg hlast] at h
    cases h

theorem toNat_ofNat {n : Nat} (h : n < 256) : (UInt8.ofNat n).toNat = n :=
  UInt8.toNat_ofNat_of_lt' h

/-- **Only what the encoder writes is decoded.** -/
theorem encodeChars_decodeChars {cs : List Char} {b : Bytes} (h : decodeChars cs = some b) :
    encodeChars b = cs := by
  induction cs using decodeChars.induct generalizing b with
  | case1 =>
    obtain rfl := Option.some.inj h
    rfl
  | case2 c => cases h
  | case3 c d =>
    simp only [decodeChars, Option.bind_eq_bind, Option.bind_eq_some_iff] at h
    obtain ⟨w, hw, x, hx, h⟩ := h
    obtain ⟨hw64, rfl⟩ := digit_value? hw
    obtain ⟨hx64, rfl⟩ := digit_value? hx
    by_cases hzero : x % 16 = 0
    · rw [if_pos hzero] at h
      obtain rfl := Option.some.inj h
      have hv : (UInt8.ofNat (w * 4 + x / 16)).toNat = w * 4 + x / 16 := toNat_ofNat (by omega)
      have hfirst : (w * 4 + x / 16) / 4 = w := by omega
      have hsecond : (w * 4 + x / 16) % 4 * 16 = x := by omega
      simp only [encodeChars, hv, hfirst, hsecond]
    · rw [if_neg hzero] at h
      cases h
  | case4 c d e =>
    simp only [decodeChars, Option.bind_eq_bind, Option.bind_eq_some_iff] at h
    obtain ⟨w, hw, x, hx, y, hy, h⟩ := h
    obtain ⟨hw64, rfl⟩ := digit_value? hw
    obtain ⟨hx64, rfl⟩ := digit_value? hx
    obtain ⟨hy64, rfl⟩ := digit_value? hy
    by_cases hzero : y % 4 = 0
    · rw [if_pos hzero] at h
      obtain rfl := Option.some.inj h
      have hv : (UInt8.ofNat (w * 4 + x / 16)).toNat = w * 4 + x / 16 := toNat_ofNat (by omega)
      have hv' : (UInt8.ofNat (x % 16 * 16 + y / 4)).toNat = x % 16 * 16 + y / 4 :=
        toNat_ofNat (by omega)
      have hfirst : (w * 4 + x / 16) / 4 = w := by omega
      have hsecond : (w * 4 + x / 16) % 4 * 16 + (x % 16 * 16 + y / 4) / 16 = x := by omega
      have hthird : (x % 16 * 16 + y / 4) % 16 * 4 = y := by omega
      simp only [encodeChars, hv, hv', hfirst, hsecond, hthird]
    · rw [if_neg hzero] at h
      cases h
  | case5 c d e f rest ih =>
    simp only [decodeChars, Option.bind_eq_bind, Option.bind_eq_some_iff] at h
    obtain ⟨w, hw, x, hx, y, hy, z, hz, tail, htail, h⟩ := h
    obtain ⟨hw64, rfl⟩ := digit_value? hw
    obtain ⟨hx64, rfl⟩ := digit_value? hx
    obtain ⟨hy64, rfl⟩ := digit_value? hy
    obtain ⟨hz64, rfl⟩ := digit_value? hz
    obtain rfl := Option.some.inj h
    have hv : (UInt8.ofNat (w * 4 + x / 16)).toNat = w * 4 + x / 16 := toNat_ofNat (by omega)
    have hv' : (UInt8.ofNat (x % 16 * 16 + y / 4)).toNat = x % 16 * 16 + y / 4 :=
      toNat_ofNat (by omega)
    have hv'' : (UInt8.ofNat (y % 4 * 64 + z)).toNat = y % 4 * 64 + z := toNat_ofNat (by omega)
    have hfirst : (w * 4 + x / 16) / 4 = w := by omega
    have hsecond : (w * 4 + x / 16) % 4 * 16 + (x % 16 * 16 + y / 4) / 16 = x := by omega
    have hthird : (x % 16 * 16 + y / 4) % 16 * 4 + (y % 4 * 64 + z) / 64 = y := by omega
    have hfourth : (y % 4 * 64 + z) % 64 = z := by omega
    simp only [encodeChars, hv, hv', hv'', hfirst, hsecond, hthird, hfourth, ih htail]

/-- **Decoding is strict**: the text is the encoding of what it decodes to. -/
theorem encode_decode {text : String} {b : Bytes} (h : decode text = some b) : encode b = text := by
  unfold decode at h
  unfold encode
  rw [encodeChars_decodeChars h, String.ofList_toList]

example : encode (bytes "report.pdf") = "cmVwb3J0LnBkZg" := by decide
example : decode "cmVwb3J0LnBkZg" = some (bytes "report.pdf") := by decide

end Text.Base64
