import SortingHat.Text.Reader
import SortingHat.Text.Lossy

/-!
# Lines of a byte stream

`read_until(b'\n')` through `take`, and that a value written compact is one line.
-/

namespace Text
open Posix (Bytes bytes)

def lineFeed : UInt8 := 10

/-- What can be read of a connection: the bytes that arrive, and the error that comes behind
them where they do not simply end. -/
structure Stream (ε : Type) where
  data : Bytes
  fault : Option ε

/-- Up to and with the first line feed. -/
def untilLineFeed : Bytes → Bytes
  | [] => []
  | b :: rest => if b = lineFeed then [b] else b :: untilLineFeed rest

/-- `read_until(b'\n')` through `take(limit)`. An error counts where neither the line feed nor
the limit comes before it. -/
def Stream.readLine {ε : Type} (stream : Stream ε) (limit : Nat) : Except ε Bytes :=
  match stream.fault with
  | none => .ok (untilLineFeed (stream.data.take limit))
  | some e =>
    if lineFeed ∈ stream.data.take limit ∨ limit ≤ stream.data.length then
      .ok (untilLineFeed (stream.data.take limit))
    else .error e

section
variable {ε : Type} {line more : Bytes} {limit : Nat}

theorem untilLineFeed_line (h : lineFeed ∉ line) :
    untilLineFeed (line ++ lineFeed :: more) = line ++ [lineFeed] := by
  induction line with
  | nil => exact if_pos rfl
  | cons b line ih =>
    obtain ⟨hb, hline⟩ := not_or.mp (mt List.mem_cons.mpr h)
    rw [List.cons_append, untilLineFeed, if_neg (Ne.symm hb), ih hline]
    rfl

theorem untilLineFeed_none (h : lineFeed ∉ line) : untilLineFeed line = line := by
  induction line with
  | nil => rfl
  | cons b line ih =>
    obtain ⟨hb, hline⟩ := not_or.mp (mt List.mem_cons.mpr h)
    rw [untilLineFeed, if_neg (Ne.symm hb), ih hline]

/-- A line below the limit is read whole, whatever comes behind it. -/
theorem readLine_line (h : lineFeed ∉ line) (hlimit : line.length < limit) (fault : Option ε) :
    Stream.readLine ⟨line ++ lineFeed :: more, fault⟩ limit = .ok (line ++ [lineFeed]) := by
  obtain ⟨k, rfl⟩ := Nat.exists_eq_add_of_lt hlimit
  have htake : (line ++ lineFeed :: more).take (line.length + k + 1) =
      line ++ lineFeed :: more.take k := by
    rw [List.take_append, List.take_of_length_le (by omega),
      show line.length + k + 1 - line.length = k + 1 by omega, List.take_succ_cons]
  unfold Stream.readLine
  dsimp only
  rw [htake, untilLineFeed_line h]
  cases fault with
  | none => rfl
  | some e => exact if_pos (Or.inl (by simp))

/-- Of a longer line the first bytes are read. -/
theorem readLine_long (h : lineFeed ∉ line) (hlimit : limit ≤ line.length) (fault : Option ε) :
    Stream.readLine ⟨line ++ lineFeed :: more, fault⟩ limit = .ok (line.take limit) := by
  have htake : (line ++ lineFeed :: more).take limit = line.take limit :=
    List.take_append_of_le_length hlimit
  unfold Stream.readLine
  dsimp only
  rw [htake, untilLineFeed_none fun hm => h (List.mem_of_mem_take hm)]
  cases fault with
  | none => rfl
  | some e =>
    apply if_pos (Or.inr _)
    rw [List.length_append]
    exact Nat.le_add_right_of_le hlimit

end

/-! ## Text -/

/-- Only the characters of ASCII are written with its bytes. -/
theorem toNat_of_mem_encode {c : Char} {b : UInt8} (hb : b.toNat < 128)
    (h : b ∈ String.utf8EncodeChar c) : c.toNat = b.toNat := by
  have hofNat : ∀ n, n < 256 → b = UInt8.ofNat n → b.toNat = n := by
    intro n hn heq
    rw [heq, toNat_ofNat hn]
  have hhigh : ∀ n, 128 ≤ n → n < 256 → ¬ b = UInt8.ofNat n := by
    intro n hlow hn heq
    have := hofNat n hn heq
    omega
  unfold String.utf8EncodeChar at h
  dsimp only at h
  split at h
  · next hv => exact (hofNat _ (by omega) (List.mem_singleton.mp h)).symm
  · exfalso
    revert h
    split
    · simp only [List.mem_cons, List.not_mem_nil, or_false, not_or, imp_false]
      exact ⟨hhigh _ (by omega) (by omega), hhigh _ (by omega) (by omega)⟩
    · split
      · simp only [List.mem_cons, List.not_mem_nil, or_false, not_or, imp_false]
        exact ⟨hhigh _ (by omega) (by omega), hhigh _ (by omega) (by omega),
          hhigh _ (by omega) (by omega)⟩
      · simp only [List.mem_cons, List.not_mem_nil, or_false, not_or, imp_false]
        exact ⟨hhigh _ (by omega) (by omega), hhigh _ (by omega) (by omega),
          hhigh _ (by omega) (by omega), hhigh _ (by omega) (by omega)⟩

/-- **A value written compact is one line.** -/
theorem lineFeed_not_mem_compact (value : Json) :
    lineFeed ∉ bytes (String.ofList value.compact) := by
  rw [bytes_ofList, List.mem_flatMap]
  rintro ⟨c, hc, hm⟩
  have hclean := Json.compact_clean value c hc
  have hlow := toNat_of_mem_encode (by decide) hm
  rw [hlow] at hclean
  exact absurd hclean (by decide)

end Text
