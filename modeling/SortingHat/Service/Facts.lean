import SortingHat.Rules
import SortingHat.Service.Scan
import SortingHat.Posix.Below
import SortingHat.Text.Lossy

/-!
# What rules see of a file

The facts of a relative path, against what the predicates of a rule name.

* `InDirectory`: what a source directory means;
* `source_directory_matches`: when it matches just that;
* `source_directory_root`: it does not for a file in the root itself.
-/

namespace SortingHat
open Posix Effect Text

/-- The file with these names lies in directory `d` of its root, `.` being the root. -/
def InDirectory (names : List Bytes) (d : String) : Prop :=
  names.dropLast = if d = "." then [] else Path.segments (bytes d)

instance (names : List Bytes) (d : String) : Decidable (InDirectory names d) :=
  inferInstanceAs (Decidable (_ = _))

section
variable {names : List Bytes} {text d : String} {name : Bytes}

theorem validateRelativeDirectory_ok (h : validateRelativeDirectory d = .ok ()) (hdot : d ≠ ".") :
    ∀ part ∈ Path.segments (bytes d), Path.isName part = true := by
  unfold validateRelativeDirectory at h
  rw [if_neg hdot] at h
  dsimp only at h
  split at h
  · cases h
  · next hgood =>
    intro part hm
    have hany := List.any_eq_false.mp (Bool.eq_false_iff.mpr fun he => hgood (.inr (.inr he))) part hm
    simp only [Bool.or_eq_true, beq_iff_eq, not_or] at hany
    exact Path.isName_iff.mpr ⟨hany.1.1, hany.1.2, hany.2, Path.not_mem_segments hm⟩

/-- A text is the path of its parts. -/
theorem bytes_eq_below (d : String) : bytes d = Path.below (Path.segments (bytes d)) :=
  (List.intercalate_splitOn Path.slash).symm

theorem segments_ne_nil (p : Bytes) : Path.segments p ≠ [] := List.splitOn_ne_nil Path.slash p

theorem names_of_utf8 {ns : List Bytes} (hne : ns ≠ [])
    (hutf8 : Path.below (ns ++ [name]) = bytes text) : ∃ parent, Path.below ns = bytes parent := by
  rw [Path.below_concat hne] at hutf8
  obtain ⟨parent, _, hparent, -⟩ := split_at_slash hutf8.symm
  exact ⟨parent, hparent⟩

/-- **A source directory matches the directory it names**, save that `.` does not match
a file in the root itself. -/
theorem source_directory_matches {glob : Glob} {rootId : Uuid} {completed : Bool}
    (hnames : ∀ n ∈ names, Path.isName n = true) (hne : names ≠ [])
    (hutf8 : Path.below names = bytes text) (hd : validateRelativeDirectory d = .ok ()) :
    (predicateMatches glob (factsFor (Path.below names) rootId completed) (.sourceDirectory d) = true ↔
      InDirectory names d) ↔ ¬ (names.length = 1 ∧ d = ".") := by
  obtain ⟨ns, name, rfl⟩ := (List.eq_nil_or_concat' names).resolve_left hne
  have hns : ∀ n ∈ ns, Path.isName n = true := fun n hn => hnames n (List.mem_append_left _ hn)
  have hfacts : (factsFor (Path.below (ns ++ [name])) rootId completed).sourceDirectory =
      toStringLossy (Path.below ns) := by
    unfold factsFor
    rw [Path.parent_below hnames]
    rfl
  unfold predicateMatches InDirectory
  dsimp only
  rw [hfacts, beq_iff_eq, List.dropLast_concat, List.length_append, List.length_singleton]
  by_cases hroot : ns = []
  · -- the path has no parent but the empty one
    obtain rfl := hroot
    have hempty : toStringLossy (Path.below []) = "" := rfl
    have hnot : "" ≠ d := by
      rintro rfl
      exact absurd hd (by decide)
    rw [hempty]
    by_cases hdot : d = "."
    · simp [hdot]
    · simp [hdot, hnot, (segments_ne_nil (bytes d)).symm]
  · obtain ⟨parent, hparent⟩ := names_of_utf8 hroot hutf8
    have hlength : ns.length ≠ 0 := fun h => hroot (List.length_eq_zero_iff.mp h)
    rw [hparent, toStringLossy_bytes]
    have hmatches : parent = d ↔ Path.below ns = bytes d := by
      rw [hparent]
      exact bytes_injective.eq_iff.symm
    rw [hmatches]
    by_cases hdot : d = "."
    · have hnot : Path.below ns ≠ bytes d := by
        intro he
        have := Path.names_below hns
        rw [he, hdot] at this
        exact hroot this.symm
      simp [hdot, hroot, hlength, hdot ▸ hnot]
    · have hsame : Path.below ns = bytes d ↔ ns = Path.segments (bytes d) := by
        constructor
        · intro he
          rw [← he, Path.segments_below hns hroot]
        · intro he
          rw [bytes_eq_below d, ← he]
      rw [hsame, if_neg hdot]
      simp [hdot]

end

/-- A file below a folder of the root. -/
theorem source_directory_matches_nested :
    predicateMatches (fun _ => none)
        (factsFor (Path.below [bytes "in", bytes "a"]) ⟨0⟩ true) (.sourceDirectory "in") = true ↔
      InDirectory [bytes "in", bytes "a"] "in" := by
  have hnames : ∀ n ∈ [bytes "in", bytes "a"], Path.isName n = true := by decide
  have hutf8 : Path.below [bytes "in", bytes "a"] = bytes "in/a" := by decide
  have hd : validateRelativeDirectory "in" = .ok () := by decide
  exact (source_directory_matches hnames (by decide) hutf8 hd).mpr (by decide)

/-- A file in the root itself is not in `.`. -/
theorem source_directory_root : InDirectory [bytes "a"] "." ∧
    validateRelativeDirectory "." = .ok () ∧
    predicateMatches (fun _ => none) (factsFor (bytes "a") ⟨0⟩ true) (.sourceDirectory ".") = false := by
  decide

end SortingHat
