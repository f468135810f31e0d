import SortingHat.Text.Utf8

/-!
# File names as text

A `FileName` is a text that `std::path` reads as one normal component; it may
still end in `/` or `/.`. The lossy text of a file name is one.
-/

namespace Text
open Posix (Bytes bytes)
open Posix.Path

theorem bytes_ofList (cs : List Char) :
    bytes (String.ofList cs) = cs.flatMap String.utf8EncodeChar := by
  simp [bytes, String.toUTF8, String.ofList, List.utf8Encode]

/-- Only the slash itself is written with a slash byte. -/
theorem eq_slash_of_mem {c : Char} (h : slash ∈ String.utf8EncodeChar c) : c = '/' := by
  have hofNat : ∀ n, n < 256 → slash = UInt8.ofNat n → n = 47 := by
    intro n hn heq
    have := congrArg UInt8.toNat heq
    rw [UInt8.toNat_ofNat_of_lt' hn] at this
    exact this.symm
  have hhigh : ∀ n, 128 ≤ n → n < 256 → ¬ slash = UInt8.ofNat n := by
    intro n hlow hn heq
    have := hofNat n hn heq
    omega
  unfold String.utf8EncodeChar at h
  dsimp only at h
  split at h
  · next hv =>
    have hc := hofNat _ (by omega) (List.mem_singleton.mp h)
    apply Char.ext
    apply UInt32.toNat_inj.mp
    rw [hc]
    rfl
  · exfalso
    revert h
    split
    · simp only [List.mem_cons, List.not_mem_nil, or_false, not_or, imp_false]
      exact ⟨hhigh _ (by omega) (by omega), hhigh _ (by omega) (by omega)⟩
    · split
      · simp only [List.mem_cons, List.not_mem_nil, or_false, not_or, imp_false]
        exact ⟨hhigh _ (by omega) (by omega), hhigh _ (by omega) (by omega),
          hhigh _ (by omega) (by omega)⟩
      · simp only [List.mem_cons, List.not_mem_nil, or_false, not_or, imp_false]
        exact ⟨hhigh _ (by omega) (by omega), hhigh _ (by omega) (by omega),
          hhigh _ (by omega) (by omega), hhigh _ (by omega) (by omega)⟩

/-- A text without a slash is a path without one. -/
theorem slash_not_mem_bytes {s : String} (h : '/' ∉ s.toList) : slash ∉ bytes s := by
  have hs : bytes s = s.toList.flatMap String.utf8EncodeChar := by
    rw [← bytes_ofList, String.ofList_toList]
  rw [hs, List.mem_flatMap]
  rintro ⟨c, hc, hm⟩
  exact h (eq_slash_of_mem hm ▸ hc)

structure FileName where
  text : String
  name : Bytes
  single : components (bytes text) = [.normal name]
  deriving DecidableEq

namespace FileName

/-- A text as a file name, when it is one. -/
def ofString? (text : String) : Option FileName :=
  match h : components (bytes text) with
  | [.normal name] => some ⟨text, name, h⟩
  | _ => none

theorem text_of_ofString {text : String} {name : FileName} (h : ofString? text = some name) :
    name.text = text := by
  unfold ofString? at h
  split at h
  · cases h
    rfl
  · cases h

/-- `to_string_lossy` of a file name. -/
def ofLossy (name : Bytes) : Option FileName := ofString? (toStringLossy name)

end FileName
end Text
