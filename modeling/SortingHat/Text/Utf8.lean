import SortingHat.Posix.Path
import Mathlib.Data.List.Basic

/-!
# Text of arbitrary bytes

`to_string_lossy`, hexadecimal digits, and the character escapes `std` offers for
display.
-/

namespace Text
open Posix (Bytes bytes)

def replacement : Char := Char.ofNat 0xFFFD

/-- A continuation byte between `lo` and `hi`. -/
def within (lo hi b : UInt8) : Bool := lo ≤ b && b ≤ hi

/-- Two, three or four bytes that are well-formed UTF-8, as a scalar value. -/
def scalar2 (a b : UInt8) : Nat := (a.toNat - 0xC0) * 64 + (b.toNat - 0x80)
def scalar3 (a b c : UInt8) : Nat :=
  (a.toNat - 0xE0) * 4096 + (b.toNat - 0x80) * 64 + (c.toNat - 0x80)
def scalar4 (a b c d : UInt8) : Nat :=
  (a.toNat - 0xF0) * 262144 + (b.toNat - 0x80) * 4096 + (c.toNat - 0x80) * 64 + (d.toNat - 0x80)

/-- The second bytes a three-byte lead accepts. -/
def second3 (a b : UInt8) : Bool :=
  if a = 0xE0 then within 0xA0 0xBF b
  else if a = 0xED then within 0x80 0x9F b
  else within 0x80 0xBF b

/-- The second bytes a four-byte lead accepts. -/
def second4 (a b : UInt8) : Bool :=
  if a = 0xF0 then within 0x90 0xBF b
  else if a = 0xF4 then within 0x80 0x8F b
  else within 0x80 0xBF b

/-- `to_string_lossy`: every maximal ill-formed stretch becomes U+FFFD. -/
def lossy : Bytes → List Char
  | [] => []
  | a :: rest =>
    if a < 0x80 then Char.ofNat a.toNat :: lossy rest
    else if within 0xC2 0xDF a then
      match rest with
      | [] => [replacement]
      | b :: rest' =>
        if within 0x80 0xBF b then Char.ofNat (scalar2 a b) :: lossy rest'
        else replacement :: lossy (b :: rest')
    else if within 0xE0 0xEF a then
      match rest with
      | [] => [replacement]
      | [b] => if second3 a b then [replacement] else replacement :: lossy [b]
      | b :: c :: rest' =>
        if !second3 a b then replacement :: lossy (b :: c :: rest')
        else if within 0x80 0xBF c then Char.ofNat (scalar3 a b c) :: lossy rest'
        else replacement :: lossy (c :: rest')
    else if within 0xF0 0xF4 a then
      match rest with
      | [] => [replacement]
      | [b] => if second4 a b then [replacement] else replacement :: lossy [b]
      | [b, c] =>
        if !second4 a b then replacement :: lossy [b, c]
        else if within 0x80 0xBF c then [replacement]
        else replacement :: lossy [c]
      | b :: c :: d :: rest' =>
        if !second4 a b then replacement :: lossy (b :: c :: d :: rest')
        else if !within 0x80 0xBF c then replacement :: lossy (c :: d :: rest')
        else if within 0x80 0xBF d then Char.ofNat (scalar4 a b c d) :: lossy rest'
        else replacement :: lossy (d :: rest')
    else replacement :: lossy rest

def toStringLossy (p : Bytes) : String := String.ofList (lossy p)

/-- `str::to_ascii_lowercase`. -/
def toAsciiLowercase (s : String) : String := String.ofList (s.toList.map Char.toLower)

def hexDigit (n : Nat) : Char := if n < 10 then Char.ofNat (48 + n) else Char.ofNat (87 + n)

theorem hexDigit_ne_slash (n : Nat) : hexDigit (n % 16) ≠ '/' := by
  have : ∀ k < 16, hexDigit k ≠ '/' := by decide
  exact this _ (Nat.mod_lt n (by omega))

/-- `hex::encode`. -/
def hexEncode (b : Bytes) : String :=
  String.ofList (b.flatMap fun x => [hexDigit (x.toNat / 16), hexDigit (x.toNat % 16)])

/-- `u8::is_ascii_hexdigit`. -/
def isHexDigit (c : Char) : Bool :=
  ('0' ≤ c && c ≤ '9') || ('a' ≤ c && c ≤ 'f') || ('A' ≤ c && c ≤ 'F')

/-- `char::escape_default`. -/
def escapeDefault (c : Char) : List Char :=
  match c with
  | '\t' => ['\\', 't']
  | '\r' => ['\\', 'r']
  | '\n' => ['\\', 'n']
  | '\'' => ['\\', '\'']
  | '"' => ['\\', '"']
  | '\\' => ['\\', '\\']
  | c =>
    if 0x20 ≤ c.toNat ∧ c.toNat ≤ 0x7E then [c]
    else ['\\', 'u', '\x7b'] ++ Nat.toDigits 16 c.toNat ++ ['\x7d']

example : toStringLossy [97, 0xFF, 98] = "a\uFFFDb" := by decide
example : lossy [0xE2, 0x82, 0xAC, 0xF0, 0x9F] = ['€', replacement] := by decide
example : hexEncode [0, 255, 16] = "00ff10" := by decide

end Text
