import SortingHat.Text.FileName
import SortingHat.Posix.Below

/-!
# Text that is read back

`to_string_lossy` of the bytes of a text is the text, so `to_str` succeeds on them.

* `toStringLossy_bytes`: nothing is replaced;
* `split_at_slash`, `segments_text`: what lies between the slashes of a text is text;
* `lossy_ascii`: a low character of a lossy text is a byte of its source;
* `isName_toStringLossy`: the lossy text of a name is a name.
-/

namespace Text
open Posix (Bytes bytes)
open Posix.Path

theorem toNat_ofNat {n : Nat} (hn : n < 256) : (UInt8.ofNat n).toNat = n :=
  UInt8.toNat_ofNat_of_lt' hn

theorem within_ofNat {lo hi : UInt8} {n : Nat} (hn : n < 256) :
    within lo hi (UInt8.ofNat n) = true ↔ lo.toNat ≤ n ∧ n ≤ hi.toNat := by
  unfold within
  rw [Bool.and_eq_true, decide_eq_true_eq, decide_eq_true_eq, UInt8.le_iff_toNat_le,
    UInt8.le_iff_toNat_le, toNat_ofNat hn]

theorem not_within_ofNat {lo hi : UInt8} {n : Nat} (hn : n < 256)
    (h : n < lo.toNat ∨ hi.toNat < n) :
    within lo hi (UInt8.ofNat n) = false := by
  rw [Bool.eq_false_iff, ne_eq, within_ofNat hn]
  omega

theorem ofNat_not_ascii {n : Nat} (hn : n < 256) (h : 128 ≤ n) : ¬ UInt8.ofNat n < 0x80 := by
  rw [UInt8.lt_iff_toNat_lt, toNat_ofNat hn]
  exact Nat.not_lt.mpr h

theorem ofNat_inj {n m : Nat} (hn : n < 256) (hm : m < 256) :
    UInt8.ofNat n = UInt8.ofNat m ↔ n = m := by
  rw [← UInt8.toNat_inj, toNat_ofNat hn, toNat_ofNat hm]

variable {v : Nat} (rest : Bytes)

theorem lossy_one (h : v ≤ 0x7f) : lossy (UInt8.ofNat v :: rest) = Char.ofNat v :: lossy rest := by
  have hascii : UInt8.ofNat v < 0x80 := by
    rw [UInt8.lt_iff_toNat_lt, toNat_ofNat (by omega)]
    exact Nat.lt_succ_of_le h
  rw [lossy.eq_def]
  dsimp only
  rw [if_pos hascii, toNat_ofNat (by omega)]

theorem lossy_two (hlow : 0x7f < v) (h : v ≤ 0x7ff) :
    lossy (UInt8.ofNat (v / 64 % 32 + 192) :: UInt8.ofNat (v % 64 + 128) :: rest) =
      Char.ofNat v :: lossy rest := by
  have hlead : within 0xC2 0xDF (UInt8.ofNat (v / 64 % 32 + 192)) = true :=
    (within_ofNat (by omega)).mpr (by simp; omega)
  have hnext : within 0x80 0xBF (UInt8.ofNat (v % 64 + 128)) = true :=
    (within_ofNat (by omega)).mpr (by simp; omega)
  have hscalar : scalar2 (UInt8.ofNat (v / 64 % 32 + 192)) (UInt8.ofNat (v % 64 + 128)) = v := by
    unfold scalar2
    rw [toNat_ofNat (by omega), toNat_ofNat (by omega)]
    omega
  rw [lossy, if_neg (ofNat_not_ascii (by omega) (by omega)), if_pos hlead, if_pos hnext, hscalar]

theorem lossy_three (hlow : 0x7ff < v) (h : v ≤ 0xffff) (hv : v < 0xD800 ∨ 0xDFFF < v) :
    lossy (UInt8.ofNat (v / 4096 % 16 + 224) :: UInt8.ofNat (v / 64 % 64 + 128) ::
        UInt8.ofNat (v % 64 + 128) :: rest) = Char.ofNat v :: lossy rest := by
  have hnot : within 0xC2 0xDF (UInt8.ofNat (v / 4096 % 16 + 224)) = false :=
    not_within_ofNat (by omega) (by simp)
  have hlead : within 0xE0 0xEF (UInt8.ofNat (v / 4096 % 16 + 224)) = true :=
    (within_ofNat (by omega)).mpr (by simp; omega)
  have hsecond : second3 (UInt8.ofNat (v / 4096 % 16 + 224))
      (UInt8.ofNat (v / 64 % 64 + 128)) = true := by
    unfold second3
    split
    · next he =>
      have := (ofNat_inj (by omega) (by omega)).mp
        (he.trans (by rfl : (0xE0 : UInt8) = UInt8.ofNat 0xE0))
      exact (within_ofNat (by omega)).mpr (by simp; omega)
    · split
      · next he =>
        have := (ofNat_inj (by omega) (by omega)).mp
          (he.trans (by rfl : (0xED : UInt8) = UInt8.ofNat 0xED))
        exact (within_ofNat (by omega)).mpr (by simp; omega)
      · exact (within_ofNat (by omega)).mpr (by simp; omega)
  have hthird : within 0x80 0xBF (UInt8.ofNat (v % 64 + 128)) = true :=
    (within_ofNat (by omega)).mpr (by simp; omega)
  have hscalar : scalar3 (UInt8.ofNat (v / 4096 % 16 + 224)) (UInt8.ofNat (v / 64 % 64 + 128))
      (UInt8.ofNat (v % 64 + 128)) = v := by
    unfold scalar3
    rw [toNat_ofNat (by omega), toNat_ofNat (by omega),
      toNat_ofNat (by omega)]
    omega
  rw [lossy, if_neg (ofNat_not_ascii (by omega) (by omega)), hnot, if_neg Bool.false_ne_true,
    if_pos hlead]
  dsimp only
  rw [hsecond, if_neg (by decide), if_pos hthird, hscalar]

theorem lossy_four (hlow : 0xffff < v) (h : v ≤ 0x10FFFF) :
    lossy (UInt8.ofNat (v / 262144 % 8 + 240) :: UInt8.ofNat (v / 4096 % 64 + 128) ::
        UInt8.ofNat (v / 64 % 64 + 128) :: UInt8.ofNat (v % 64 + 128) :: rest) =
      Char.ofNat v :: lossy rest := by
  have hnot : within 0xC2 0xDF (UInt8.ofNat (v / 262144 % 8 + 240)) = false :=
    not_within_ofNat (by omega) (by simp)
  have hnot' : within 0xE0 0xEF (UInt8.ofNat (v / 262144 % 8 + 240)) = false :=
    not_within_ofNat (by omega) (by simp)
  have hlead : within 0xF0 0xF4 (UInt8.ofNat (v / 262144 % 8 + 240)) = true :=
    (within_ofNat (by omega)).mpr (by simp; omega)
  have hsecond : second4 (UInt8.ofNat (v / 262144 % 8 + 240))
      (UInt8.ofNat (v / 4096 % 64 + 128)) = true := by
    unfold second4
    split
    · next he =>
      have := (ofNat_inj (by omega) (by omega)).mp
        (he.trans (by rfl : (0xF0 : UInt8) = UInt8.ofNat 0xF0))
      exact (within_ofNat (by omega)).mpr (by simp; omega)
    · split
      · next he =>
        have := (ofNat_inj (by omega) (by omega)).mp
          (he.trans (by rfl : (0xF4 : UInt8) = UInt8.ofNat 0xF4))
        exact (within_ofNat (by omega)).mpr (by simp; omega)
      · exact (within_ofNat (by omega)).mpr (by simp; omega)
  have hthird : within 0x80 0xBF (UInt8.ofNat (v / 64 % 64 + 128)) = true :=
    (within_ofNat (by omega)).mpr (by simp; omega)
  have hfourth : within 0x80 0xBF (UInt8.ofNat (v % 64 + 128)) = true :=
    (within_ofNat (by omega)).mpr (by simp; omega)
  have hscalar : scalar4 (UInt8.ofNat (v / 262144 % 8 + 240)) (UInt8.ofNat (v / 4096 % 64 + 128))
      (UInt8.ofNat (v / 64 % 64 + 128)) (UInt8.ofNat (v % 64 + 128)) = v := by
    unfold scalar4
    rw [toNat_ofNat (by omega), toNat_ofNat (by omega),
      toNat_ofNat (by omega), toNat_ofNat (by omega)]
    omega
  rw [lossy, if_neg (ofNat_not_ascii (by omega) (by omega)), hnot, if_neg Bool.false_ne_true,
    hnot', if_neg Bool.false_ne_true, if_pos hlead]
  dsimp only
  rw [hsecond, if_neg (by decide), hthird, if_neg (by decide), if_pos hfourth, hscalar]

theorem lossy_char (c : Char) : lossy (String.utf8EncodeChar c ++ rest) = c :: lossy rest := by
  have hc : Char.ofNat c.val.toNat = c := Char.ofNat_toNat c
  have hvalid : c.val.toNat < 0xD800 ∨ 0xDFFF < c.val.toNat ∧ c.val.toNat < 0x110000 := c.valid
  unfold String.utf8EncodeChar
  dsimp only
  split
  · next h =>
    rw [List.singleton_append, lossy_one rest h, hc]
  · next hlow =>
    split
    · next h =>
      rw [List.cons_append, List.cons_append, List.nil_append, lossy_two rest (by omega) h, hc]
    · next hlow =>
      split
      · next h =>
        rw [List.cons_append, List.cons_append, List.cons_append, List.nil_append,
          lossy_three rest (by omega) h (by omega), hc]
      · next hlow =>
        rw [List.cons_append, List.cons_append, List.cons_append, List.cons_append, List.nil_append,
          lossy_four rest (by omega) (by omega), hc]

theorem lossy_flatMap (cs : List Char) : lossy (cs.flatMap String.utf8EncodeChar) = cs := by
  induction cs with
  | nil => rfl
  | cons c cs ih => rw [List.flatMap_cons, lossy_char, ih]

theorem bytes_eq_flatMap (s : String) : bytes s = s.toList.flatMap String.utf8EncodeChar := by
  rw [← bytes_ofList, String.ofList_toList]

/-- **Nothing of a text is replaced.** -/
theorem toStringLossy_bytes (s : String) : toStringLossy (bytes s) = s := by
  unfold toStringLossy
  rw [bytes_eq_flatMap, lossy_flatMap, String.ofList_toList]

theorem encode_slash : String.utf8EncodeChar '/' = [slash] := rfl

theorem split_encoded {cs : List Char} {a b : Bytes}
    (h : cs.flatMap String.utf8EncodeChar = a ++ slash :: b) :
    ∃ before after : List Char, a = before.flatMap String.utf8EncodeChar ∧
      b = after.flatMap String.utf8EncodeChar := by
  induction cs generalizing a with
  | nil => exact absurd h (by simp)
  | cons c cs ih =>
    rw [List.flatMap_cons] at h
    by_cases hc : c = '/'
    · obtain rfl := hc
      rw [encode_slash, List.singleton_append] at h
      cases a with
      | nil => exact ⟨[], cs, rfl, (List.cons.inj h).2.symm⟩
      | cons x a =>
        obtain ⟨rfl, hrest⟩ := List.cons.inj h
        obtain ⟨before, after, rfl, rfl⟩ := ih hrest
        exact ⟨'/' :: before, after, rfl, rfl⟩
    · -- the slash is behind the first character
      have hnot : slash ∉ String.utf8EncodeChar c := fun hm => hc (eq_slash_of_mem hm)
      rcases List.append_eq_append_iff.mp h with ⟨mid, rfl, hrest⟩ | ⟨mid, henc, hrest⟩
      · obtain ⟨before, after, rfl, rfl⟩ := ih hrest
        exact ⟨c :: before, after, rfl, rfl⟩
      · cases mid with
        | nil =>
          rw [List.append_nil] at henc
          obtain ⟨before, after, hnil, rfl⟩ := ih (a := []) hrest.symm
          refine ⟨[c], after, ?_, rfl⟩
          rw [List.flatMap_singleton, henc]
        | cons x mid =>
          obtain ⟨rfl, -⟩ := List.cons.inj hrest
          exact absurd (henc ▸ List.mem_append_right _ List.mem_cons_self) hnot

/-- A text that is cut at a slash. -/
theorem split_at_slash {s : String} {a b : Bytes} (h : bytes s = a ++ slash :: b) :
    ∃ before after, a = bytes before ∧ b = bytes after := by
  rw [bytes_eq_flatMap] at h
  obtain ⟨before, after, rfl, rfl⟩ := split_encoded h
  exact ⟨String.ofList before, String.ofList after, (bytes_ofList before).symm,
    (bytes_ofList after).symm⟩

/-- What lies between the slashes of a text is text. -/
theorem segments_text {s : String} {seg : Bytes} (h : seg ∈ segments (bytes s)) :
    ∃ t, seg = bytes t := by
  generalize hn : (bytes s).length = n
  induction n using Nat.strongRecOn generalizing s with
  | ind n ih =>
    by_cases hslash : slash ∈ bytes s
    · obtain ⟨a, b, hsplit, hfirst⟩ := List.eq_append_cons_of_mem hslash
      obtain ⟨before, after, rfl, rfl⟩ := split_at_slash hsplit
      rw [hsplit, segments_append] at h
      have hlength := congrArg List.length hsplit
      rw [List.length_append, List.length_cons] at hlength
      rcases List.mem_append.mp h with h | h
      · exact ih _ (by omega) h rfl
      · exact ih _ (by omega) h rfl
    · have hsegs : segments (bytes s) = [bytes s] := List.splitOn_eq_singleton hslash
      rw [hsegs] at h
      exact ⟨s, List.mem_singleton.mp h⟩

/-! ## Characters below 128 -/

theorem toNat_ofNat_char {n : Nat} (h : n.isValidChar) : (Char.ofNat n).toNat = n := by
  unfold Char.ofNat
  rw [dif_pos h]
  rfl

/-- The characters below 128 of a text are bytes of its source. -/
structure AsciiOf (cs : List Char) (bs : Bytes) : Prop where
  mem : ∀ c ∈ cs, c.toNat < 128 → UInt8.ofNat c.toNat ∈ bs
  all : (∀ c ∈ cs, c.toNat < 128) → bs = cs.map fun c => UInt8.ofNat c.toNat

theorem ascii_high {c : Char} {cs : List Char} (front : Bytes) {bs : Bytes} (hc : 128 ≤ c.toNat)
    (h : AsciiOf cs bs) :
    AsciiOf (c :: cs) (front ++ bs) where
  mem d hd hlow := by
    rcases List.mem_cons.mp hd with rfl | hd
    · omega
    · exact List.mem_append_right _ (h.mem d hd hlow)
  all hall := by
    have := hall c List.mem_cons_self
    omega

theorem ascii_low {a : UInt8} {cs : List Char} {bs : Bytes} (ha : a < 0x80) (h : AsciiOf cs bs) :
    AsciiOf (Char.ofNat a.toNat :: cs) (a :: bs) := by
  have hlt : a.toNat < 128 := UInt8.lt_iff_toNat_lt.mp ha
  have hback : UInt8.ofNat (Char.ofNat a.toNat).toNat = a := by
    rw [toNat_ofNat_char (.inl (by omega))]
    exact UInt8.ofNat_toNat
  constructor
  · intro d hd hlow
    rcases List.mem_cons.mp hd with rfl | hd
    · rw [hback]
      exact List.mem_cons_self
    · exact List.mem_cons_of_mem _ (h.mem d hd hlow)
  · intro hall
    rw [List.map_cons, hback, ← h.all fun d hd => hall d (List.mem_cons_of_mem _ hd)]

theorem ascii_nil : AsciiOf [] [] where
  mem _ hm := nomatch hm
  all _ := rfl

theorem scalar2_high {a b : UInt8} (ha : within 0xC2 0xDF a = true)
    (hb : within 0x80 0xBF b = true) :
    128 ≤ (Char.ofNat (scalar2 a b)).toNat := by
  simp only [within, Bool.and_eq_true, decide_eq_true_eq, UInt8.le_iff_toNat_le] at ha hb
  have hs : 128 ≤ scalar2 a b ∧ scalar2 a b < 0xD800 := by
    unfold scalar2
    simp at ha hb
    omega
  rw [toNat_ofNat_char (.inl hs.2)]
  exact hs.1

theorem scalar3_high {a b c : UInt8} (ha : within 0xE0 0xEF a = true) (hb : second3 a b = true)
    (hc : within 0x80 0xBF c = true) : 128 ≤ (Char.ofNat (scalar3 a b c)).toNat := by
  have hs : 128 ≤ scalar3 a b c ∧
      (scalar3 a b c < 0xD800 ∨ 0xDFFF < scalar3 a b c ∧ scalar3 a b c < 0x110000) := by
    unfold second3 at hb
    unfold scalar3
    simp only [within, Bool.and_eq_true, decide_eq_true_eq, UInt8.le_iff_toNat_le,
      ← UInt8.toNat_inj] at ha hb hc
    simp at ha hb hc
    split at hb
    · omega
    · split at hb
      · omega
      · omega
  rw [toNat_ofNat_char hs.2]
  exact hs.1

theorem scalar4_high {a b c d : UInt8} (ha : within 0xF0 0xF4 a = true) (hb : second4 a b = true)
    (hc : within 0x80 0xBF c = true) (hd : within 0x80 0xBF d = true) :
    128 ≤ (Char.ofNat (scalar4 a b c d)).toNat := by
  have hs : 0xDFFF < scalar4 a b c d ∧ scalar4 a b c d < 0x110000 := by
    unfold second4 at hb
    unfold scalar4
    simp only [within, Bool.and_eq_true, decide_eq_true_eq, UInt8.le_iff_toNat_le,
      ← UInt8.toNat_inj] at ha hb hc hd
    simp at ha hb hc hd
    split at hb
    · omega
    · split at hb
      · omega
      · omega
  rw [toNat_ofNat_char (.inr hs)]
  omega

theorem replacement_high : 128 ≤ replacement.toNat := by decide

/-- **A low character of a lossy text is a byte of its source**, and a low text is its source. -/
theorem lossy_ascii (bs : Bytes) : AsciiOf (lossy bs) bs := by
  have hreplaced : ∀ {cs : List Char} (front : Bytes) {rest : Bytes}, AsciiOf cs rest →
      AsciiOf (replacement :: cs) (front ++ rest) :=
        fun front _ h => ascii_high front replacement_high h
  fun_induction lossy bs with
  | case1 => exact ascii_nil
  | case2 a rest ha ih => exact ascii_low ha ih
  | case3 a => exact hreplaced [a] ascii_nil
  | case4 a ha ha' b rest hb ih => exact ascii_high [a, b] (scalar2_high ha' hb) ih
  | case5 a ha ha' b rest hb ih => exact hreplaced [a] ih
  | case6 a => exact hreplaced [a] ascii_nil
  | case7 a ha ha' ha'' b hb => exact hreplaced [a, b] ascii_nil
  | case8 a ha ha' ha'' b hb ih => exact hreplaced [a] ih
  | case9 a ha ha' ha'' b c rest hb ih => exact hreplaced [a] ih
  | case10 a ha ha' ha'' b c rest hb hc ih =>
    exact ascii_high [a, b, c] (scalar3_high ha'' (by simpa using hb) hc) ih
  | case11 a ha ha' ha'' b c rest hb hc ih => exact hreplaced [a, b] ih
  | case12 a => exact hreplaced [a] ascii_nil
  | case13 a ha ha' ha'' ha₃ b hb => exact hreplaced [a, b] ascii_nil
  | case14 a ha ha' ha'' ha₃ b hb ih => exact hreplaced [a] ih
  | case15 a ha ha' ha'' ha₃ b c hb ih => exact hreplaced [a] ih
  | case16 a ha ha' ha'' ha₃ b c => exact hreplaced [a, b, c] ascii_nil
  | case17 a ha ha' ha'' ha₃ b c hb hc ih => exact hreplaced [a, b] ih
  | case18 a ha ha' ha'' ha₃ b c d rest hb ih => exact hreplaced [a] ih
  | case19 a ha ha' ha'' ha₃ b c d rest hb hc ih => exact hreplaced [a, b] ih
  | case20 a ha ha' ha'' ha₃ b c d rest hb hc hd ih =>
    exact ascii_high [a, b, c, d]
      (scalar4_high ha₃ (by simpa using hb) (by simpa using hc) hd) ih
  | case21 a ha ha' ha'' ha₃ b c d rest hb hc hd ih => exact hreplaced [a, b, c] ih
  | case22 a rest ha ha' ha'' ha₃ ih => exact hreplaced [a] ih

/-! ## Names -/

theorem toStringLossy_of_ascii {name : Bytes} {t : String} (h : toStringLossy name = t)
    (ht : ∀ c ∈ t.toList, c.toNat < 128) :
    name = t.toList.map fun c => UInt8.ofNat c.toNat := by
  have hlist : lossy name = t.toList := by
    rw [← h, toStringLossy, String.toList_ofList]
  rw [← hlist]
  exact (lossy_ascii name).all (hlist ▸ ht)

/-- **The lossy text of a name is a name.** -/
theorem isName_toStringLossy {name : Bytes} (h : isName name = true) :
    isName (bytes (toStringLossy name)) = true := by
  obtain ⟨hempty, hdot, hup, hslash⟩ := isName_iff.mp h
  -- a low text is its source, so a special text comes from a special name
  have hback : ∀ t : String, (t.toList.all fun c => c.toNat < 128) = true →
      (t.toList.map fun c => UInt8.ofNat c.toNat) ≠ name →
        bytes (toStringLossy name) ≠ bytes t := by
    intro t hall hne he
    have hlow : ∀ c ∈ t.toList, c.toNat < 128 := fun c hc =>
      of_decide_eq_true (List.all_eq_true.mp hall c hc)
    have htext : toStringLossy name = t := by
      rw [← toStringLossy_bytes (toStringLossy name), he, toStringLossy_bytes]
    exact hne (toStringLossy_of_ascii htext hlow).symm
  refine isName_iff.mpr ⟨?_, ?_, ?_, ?_⟩
  · exact hback "" (by decide) (Ne.symm hempty)
  · exact hback "." (by decide) (Ne.symm hdot)
  · exact hback ".." (by decide) (Ne.symm hup)
  · apply slash_not_mem_bytes
    intro hm
    rw [toStringLossy, String.toList_ofList] at hm
    exact hslash ((lossy_ascii name).mem '/' hm (by decide))

/-- A text that is a name is a file name, and is that name. -/
theorem FileName.exists_ofString {text : String} (h : isName (bytes text) = true) :
    ∃ file, FileName.ofString? text = some file ∧ file.name = bytes text := by
  have hnames : ∀ n ∈ [bytes text], isName n = true := by simpa using h
  have hcomponents : components (bytes text) = [.normal (bytes text)] := by
    simpa [below] using components_below hnames
  unfold FileName.ofString?
  split
  · next name hname =>
    refine ⟨_, rfl, ?_⟩
    exact Component.normal.inj (List.cons.inj (hname.symm.trans hcomponents)).1
  · next hother => exact absurd hcomponents (hother _)

/-- What a file name names is text. -/
theorem FileName.exists_text (file : FileName) : ∃ text, file.name = bytes text := by
  have hmem : Component.normal file.name ∈ components (bytes file.text) := by
    rw [file.single]
    exact List.mem_singleton_self _
  rw [components_eq] at hmem
  rcases List.mem_append.mp hmem with hlead | hmem
  · rcases lead_cases (bytes file.text) with ⟨hl, -⟩ | ⟨hl | hl, -⟩
    all_goals rw [hl] at hlead; simp at hlead
  · obtain ⟨seg, hseg, hcomponent⟩ := List.mem_map.mp hmem
    obtain ⟨text, rfl⟩ := segments_text (List.mem_of_mem_filter hseg)
    refine ⟨text, ?_⟩
    have hspell := spell_component (bytes text)
    rw [hcomponent] at hspell
    exact hspell

end Text
