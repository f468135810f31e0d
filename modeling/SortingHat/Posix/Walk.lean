import SortingHat.Posix.FileSystem
import SortingHat.Posix.Names

/-!
# Facts about path walks

* `resolve_follow`: a walk that ends at something else than a link does not
  depend on whether a last link is followed;
* `walk_thin`, `walk_stays`: segments that stay can be left out and put in front;
* `walk_beneath`: a confined walk goes where the kernel's own walk goes;
* `slotOf_eq`, `readDir_eq`: the entry and the directory a path leads to are the
  ones a confined walk has opened;
* `Leads`: the directory a path leads to, and the entries in it.
-/

namespace Posix.FileSystem

variable {fs : FileSystem} {fd fd' : Fd}

/-- What a walk that follows a last link makes of the outcome of one that does not. -/
def Followed (fs : FileSystem) (result : Walk) : Walk → Prop
  | .arrived fd => fs.target? (fs.ino fd) = none → result = .arrived fd
  | other => result = other

theorem descend_follow (segs : List Bytes) :
    Followed fs (fs.descend true fd segs) (fs.descend false fd segs) := by
  induction segs generalizing fd with
  | nil => exact fun _ => rfl
  | cons seg rest ih =>
    rw [descend, descend]
    cases he : fs.entries? (fs.ino fd) with
    | none => exact rfl
    | some entries =>
      dsimp only
      by_cases hs : Path.isStay seg = true
      · rw [if_pos hs, if_pos hs]
        exact ih
      · rw [if_neg hs, if_neg hs]
        by_cases hd : seg = Path.dotDot
        · rw [if_pos hd, if_pos hd]
          exact ih
        · rw [if_neg hd, if_neg hd]
          cases hi : entries.lookup seg with
          | none => exact rfl
          | some i =>
            dsimp only
            cases ht : fs.target? i with
            | none => exact ih
            | some target =>
              simp only [Bool.true_eq_false, and_false, if_false, and_true]
              by_cases hr : rest = []
              · simp only [hr, if_true]
                intro hn
                rw [show fs.ino ((seg, i) :: fd) = i from rfl, ht] at hn
                cases hn
              · simp only [hr, if_false]
                exact rfl

theorem walk_follow {budget : Nat} {segs : List Bytes} (h : fs.walk false budget fd segs = .ok fd')
    (ht : fs.target? (fs.ino fd') = none) : fs.walk true budget fd segs = .ok fd' := by
  induction budget generalizing fd segs with
  | zero =>
    have hf := @descend_follow fs fd segs
    unfold walk at h ⊢
    cases hd : fs.descend false fd segs with
    | arrived fd₁ =>
      rw [hd] at h hf
      cases h
      rw [hf ht]
    | failed e => rw [hd] at h; cases h
    | link fd₁ target rest => rw [hd] at h; cases h
  | succ budget ih =>
    have hf := @descend_follow fs fd segs
    unfold walk at h ⊢
    cases hd : fs.descend false fd segs with
    | arrived fd₁ =>
      rw [hd] at h hf
      cases h
      rw [hf ht]
    | failed e => rw [hd] at h; cases h
    | link fd₁ target rest =>
      rw [hd] at h hf
      rw [show fs.descend true fd segs = _ from hf]
      dsimp only at h ⊢
      by_cases hne : target = []
      · rw [if_pos hne] at h; cases h
      · rw [if_neg hne] at h ⊢
        exact ih h

/-- A walk that ends at something else than a link follows none there. -/
theorem resolve_follow {path : Bytes} (h : fs.resolve false path = .ok fd)
    (ht : fs.target? (fs.ino fd) = none) : fs.resolve true path = .ok fd := by
  unfold resolve at h ⊢
  cases ha : admissible path with
  | error e => rw [ha] at h; cases h
  | ok u => rw [ha] at h; exact walk_follow h ht

/-! ## Segments that stay -/

/-- `segs'` is `segs` without some of the segments that stay. -/
inductive Thins : List Bytes → List Bytes → Prop where
  | nil : Thins [] []
  | keep {segs segs' : List Bytes} (seg : Bytes) : Thins segs segs' → Thins (seg :: segs) (seg :: segs')
  | skip {segs segs' : List Bytes} {seg : Bytes} (h : Path.isStay seg = true) :
      Thins segs segs' → Thins (seg :: segs) segs'

theorem Thins.refl (segs : List Bytes) : Thins segs segs := by
  induction segs with
  | nil => exact .nil
  | cons seg segs ih => exact .keep seg ih

theorem Thins.append_left {segs segs' : List Bytes} (h : Thins segs segs') (front : List Bytes) :
    Thins (front ++ segs) (front ++ segs') := by
  induction front with
  | nil => exact h
  | cons seg front ih => exact .keep seg ih

theorem thins_filter (segs : List Bytes) : Thins segs (segs.filter fun seg => !Path.isStay seg) := by
  induction segs with
  | nil => exact .nil
  | cons seg segs ih =>
    cases hs : Path.isStay seg with
    | true =>
      rw [List.filter_cons_of_neg (by simp [hs])]
      exact .skip hs ih
    | false =>
      rw [List.filter_cons_of_pos (by simp [hs])]
      exact .keep seg ih

/-- What a thinner list makes of the outcome of a walk. -/
def Thinned (result : Walk) : Walk → Prop
  | .arrived fd => result = .arrived fd
  | .link fd target rest => ∃ rest', Thins rest rest' ∧ result = .link fd target rest'
  | .failed _ => True

theorem descend_thin {segs segs' : List Bytes} (h : Thins segs segs') :
    Thinned (fs.descend true fd segs') (fs.descend true fd segs) := by
  induction h generalizing fd with
  | nil => exact rfl
  | @keep segs segs' seg h ih =>
    rw [descend, descend]
    cases he : fs.entries? (fs.ino fd) with
    | none => exact trivial
    | some entries =>
      dsimp only
      by_cases hs : Path.isStay seg = true
      · rw [if_pos hs, if_pos hs]
        exact ih
      · rw [if_neg hs, if_neg hs]
        by_cases hd : seg = Path.dotDot
        · rw [if_pos hd, if_pos hd]
          exact ih
        · rw [if_neg hd, if_neg hd]
          cases hi : entries.lookup seg with
          | none => exact trivial
          | some i =>
            dsimp only
            cases ht : fs.target? i with
            | none => exact ih
            | some target =>
              simp only [Bool.true_eq_false, and_false, if_false]
              exact ⟨segs', h, rfl⟩
  | @skip segs segs' seg hs h ih =>
    rw [descend]
    cases he : fs.entries? (fs.ino fd) with
    | none => exact trivial
    | some entries =>
      dsimp only
      rw [if_pos hs]
      exact ih

theorem walk_thin {budget : Nat} {segs segs' : List Bytes} (h : Thins segs segs')
    (hw : fs.walk true budget fd segs = .ok fd') : fs.walk true budget fd segs' = .ok fd' := by
  induction budget generalizing fd segs segs' with
  | zero =>
    have ht := @descend_thin fs fd _ _ h
    unfold walk at hw ⊢
    cases hd : fs.descend true fd segs with
    | arrived fd₁ =>
      rw [hd] at hw ht
      rw [show fs.descend true fd segs' = .arrived fd₁ from ht]
      exact hw
    | failed e => rw [hd] at hw; cases hw
    | link fd₁ target rest => rw [hd] at hw; cases hw
  | succ budget ih =>
    have ht := @descend_thin fs fd _ _ h
    unfold walk at hw ⊢
    cases hd : fs.descend true fd segs with
    | arrived fd₁ =>
      rw [hd] at hw ht
      rw [show fs.descend true fd segs' = .arrived fd₁ from ht]
      exact hw
    | failed e => rw [hd] at hw; cases hw
    | link fd₁ target rest =>
      rw [hd] at hw ht
      obtain ⟨rest', hthin, heq⟩ := ht
      rw [heq]
      dsimp only at hw ⊢
      by_cases hne : target = []
      · rw [if_pos hne] at hw; cases hw
      · rw [if_neg hne] at hw ⊢
        exact ih (hthin.append_left _) hw

/-- In a directory a segment that stays may stand in front. -/
theorem descend_stays {stays segs : List Bytes} (hs : ∀ seg ∈ stays, Path.isStay seg = true)
    (hdir : fs.isDirectory (fs.ino fd) = true) :
    fs.descend true fd (stays ++ segs) = fs.descend true fd segs := by
  induction stays with
  | nil => rfl
  | cons seg stays ih =>
    obtain ⟨entries, he⟩ := Option.isSome_iff_exists.mp hdir
    rw [List.cons_append, descend, he]
    dsimp only
    rw [if_pos (hs seg List.mem_cons_self)]
    exact ih fun other ho => hs other (List.mem_cons_of_mem seg ho)

theorem isDirectory_of_walk {budget : Nat} {segs : List Bytes}
    (hw : fs.walk true budget fd segs = .ok fd') (hdir : fs.isDirectory (fs.ino fd') = true) :
    fs.isDirectory (fs.ino fd) = true := by
  cases segs with
  | nil =>
    unfold walk descend at hw
    cases hw
    exact hdir
  | cons seg segs =>
    unfold walk descend at hw
    cases he : fs.entries? (fs.ino fd) with
    | none => rw [he] at hw; cases hw
    | some entries => simp [isDirectory, he]

theorem walk_stays {budget : Nat} {stays segs : List Bytes}
    (hs : ∀ seg ∈ stays, Path.isStay seg = true) (hw : fs.walk true budget fd segs = .ok fd')
    (hdir : fs.isDirectory (fs.ino fd') = true) :
    fs.walk true budget fd (stays ++ segs) = .ok fd' := by
  have := @descend_stays fs fd stays segs hs (isDirectory_of_walk hw hdir)
  unfold walk at hw ⊢
  rw [this]
  exact hw

/-! ## Confined walks -/

theorem beneath_append {noXdev : Bool} {segs segs' : List Bytes} :
    fs.beneath noXdev fd (segs ++ segs') = fs.beneath noXdev fd segs >>= fun fd₁ =>
      fs.beneath noXdev fd₁ segs' := by
  induction segs generalizing fd with
  | nil => rfl
  | cons seg segs ih =>
    rw [List.cons_append, beneath, beneath]
    cases fs.entries? (fs.ino fd) with
    | none => rfl
    | some entries =>
      dsimp only
      split
      · exact ih
      · split
        · rfl
        · cases entries.lookup seg with
          | none => rfl
          | some i =>
            dsimp only
            split
            · rfl
            · split
              · rfl
              · exact ih

theorem beneath_filter {noXdev : Bool} {segs : List Bytes}
    (h : fs.beneath noXdev fd segs = .ok fd') :
    fs.beneath noXdev fd (segs.filter fun seg => !Path.isStay seg) = .ok fd' := by
  induction segs generalizing fd with
  | nil => exact h
  | cons seg segs ih =>
    rw [beneath] at h
    cases he : fs.entries? (fs.ino fd) with
    | none => rw [he] at h; cases h
    | some entries =>
      rw [he] at h
      dsimp only at h
      by_cases hs : Path.isStay seg = true
      · rw [if_pos hs] at h
        rw [List.filter_cons_of_neg (by simp [hs])]
        exact ih h
      · rw [if_neg hs] at h
        rw [List.filter_cons_of_pos (by simp [hs]), beneath, he]
        dsimp only
        rw [if_neg hs]
        split at h
        · cases h
        · next hd =>
          rw [if_neg hd]
          cases hi : entries.lookup seg with
          | none => rw [hi] at h; cases h
          | some i =>
            rw [hi] at h
            dsimp only at h ⊢
            split at h
            · cases h
            · next ht =>
              rw [if_neg ht]
              split at h
              · cases h
              · next hx =>
                rw [if_neg hx]
                exact ih h

/-- The last name of a confined walk is an entry of the directory before it. -/
theorem beneath_snoc {noXdev : Bool} {segs : List Bytes} {name : Bytes}
    (hn : Path.isStay name = false) (h : fs.beneath noXdev fd (segs ++ [name]) = .ok fd') :
    ∃ fd₁, fs.beneath noXdev fd segs = .ok fd₁ ∧ fs.isDirectory (fs.ino fd₁) = true ∧
      fs.linkAt? ⟨fs.ino fd₁, name⟩ = some (fs.ino fd') ∧ fs.target? (fs.ino fd') = none := by
  rw [beneath_append] at h
  cases hb : fs.beneath noXdev fd segs with
  | error e => rw [hb] at h; cases h
  | ok fd₁ =>
    rw [hb] at h
    change fs.beneath noXdev fd₁ [name] = .ok fd' at h
    rw [beneath] at h
    cases he : fs.entries? (fs.ino fd₁) with
    | none => rw [he] at h; cases h
    | some entries =>
      rw [he] at h
      dsimp only at h
      rw [hn, if_neg Bool.false_ne_true] at h
      split at h
      · cases h
      · cases hi : entries.lookup name with
        | none => rw [hi] at h; cases h
        | some i =>
          rw [hi] at h
          dsimp only at h
          split at h
          · cases h
          · next ht =>
            split at h
            · cases h
            · rw [beneath] at h
              cases h
              refine ⟨fd₁, rfl, by simp [isDirectory, he], ?_, ?_⟩
              · show (fs.entries? (fs.ino fd₁)).bind _ = some i
                rw [he]
                exact hi
              · show fs.target? i = none
                exact Option.isNone_iff_eq_none.mp (by simpa using ht)

/-- The kernel's walk goes on where a confined one would go. -/
theorem descend_beneath {noXdev : Bool} {segs : List Bytes}
    (h : fs.beneath noXdev fd segs = .ok fd') : fs.descend true fd segs = .arrived fd' := by
  induction segs generalizing fd with
  | nil =>
    rw [beneath] at h
    cases h
    rfl
  | cons seg segs ih =>
    rw [beneath] at h
    rw [descend]
    cases he : fs.entries? (fs.ino fd) with
    | none => rw [he] at h; cases h
    | some entries =>
      rw [he] at h
      dsimp only at h ⊢
      split at h
      · next hs =>
        rw [if_pos hs]
        exact ih h
      · next hs =>
        rw [if_neg hs]
        split at h
        · cases h
        · next hd =>
          rw [if_neg hd]
          cases hi : entries.lookup seg with
          | none => rw [hi] at h; cases h
          | some i =>
            rw [hi] at h
            dsimp only at h ⊢
            split at h
            · cases h
            · next ht =>
              have ht : fs.target? i = none := by simpa using ht
              rw [ht]
              split at h
              · cases h
              · exact ih h

/-- What more segments make of the outcome of a walk. -/
def Extended (fs : FileSystem) (more : List Bytes) (result : Walk) : Walk → Prop
  | .arrived fd => result = fs.descend true fd more
  | .link fd target rest => result = .link fd target (rest ++ more)
  | .failed _ => True

theorem descend_append (segs more : List Bytes) :
    Extended fs more (fs.descend true fd (segs ++ more)) (fs.descend true fd segs) := by
  induction segs generalizing fd with
  | nil => exact rfl
  | cons seg segs ih =>
    rw [List.cons_append, descend, descend]
    cases he : fs.entries? (fs.ino fd) with
    | none => exact trivial
    | some entries =>
      dsimp only
      by_cases hs : Path.isStay seg = true
      · rw [if_pos hs, if_pos hs]
        exact ih
      · rw [if_neg hs, if_neg hs]
        by_cases hd : seg = Path.dotDot
        · rw [if_pos hd, if_pos hd]
          exact ih
        · rw [if_neg hd, if_neg hd]
          cases hi : entries.lookup seg with
          | none => exact trivial
          | some i =>
            dsimp only
            cases ht : fs.target? i with
            | none => exact ih
            | some target =>
              simp only [Bool.true_eq_false, and_false, if_false]
              exact rfl

theorem walk_beneath {noXdev : Bool} {budget : Nat} {segs more : List Bytes} {fd₁ : Fd}
    (hw : fs.walk true budget fd segs = .ok fd₁) (hb : fs.beneath noXdev fd₁ more = .ok fd') :
    fs.walk true budget fd (segs ++ more) = .ok fd' := by
  induction budget generalizing fd segs with
  | zero =>
    have ha := @descend_append fs fd segs more
    unfold walk at hw ⊢
    cases hd : fs.descend true fd segs with
    | arrived fd₂ =>
      rw [hd] at hw ha
      cases hw
      rw [show fs.descend true fd (segs ++ more) = _ from ha, descend_beneath hb]
    | failed e => rw [hd] at hw; cases hw
    | link fd₂ target rest => rw [hd] at hw; cases hw
  | succ budget ih =>
    have ha := @descend_append fs fd segs more
    unfold walk at hw ⊢
    cases hd : fs.descend true fd segs with
    | arrived fd₂ =>
      rw [hd] at hw ha
      cases hw
      rw [show fs.descend true fd (segs ++ more) = _ from ha, descend_beneath hb]
    | failed e => rw [hd] at hw; cases hw
    | link fd₂ target rest =>
      rw [hd] at hw ha
      rw [show fs.descend true fd (segs ++ more) = _ from ha]
      dsimp only at hw ⊢
      by_cases hne : target = []
      · rw [if_pos hne] at hw; cases hw
      · rw [if_neg hne] at hw ⊢
        rw [← List.append_assoc]
        exact ih hw

/-! ## The entry a path names -/

/-- A walk over a path's names ends where the walk over the path's parent does. -/
theorem walk_parent {path parent : Bytes} {segs : List Bytes}
    (hp : Path.parent path = some parent)
    (hn : (Path.names path).dropLast = segs.filter fun seg => !Path.isStay seg)
    (hw : fs.walk true 40 (start fs.cwd path) segs = .ok fd)
    (hdir : fs.isDirectory (fs.ino fd) = true) :
    fs.walk true 40 (start fs.cwd parent) (Path.segments parent) = .ok fd := by
  obtain ⟨habs, stays, hstays, hsegs⟩ := Path.parent_names hp
  have hstart : start fs.cwd parent = start fs.cwd path := by
    unfold start
    rw [habs]
  rw [hstart, hsegs, hn]
  exact walk_stays hstays (walk_thin (thins_filter segs) hw) hdir

theorem slotOf_eq {path parent name : Bytes} {segs : List Bytes}
    (hp : Path.parent path = some parent) (hname : Path.fileName path = some name)
    (hn : (Path.names path).dropLast = segs.filter fun seg => !Path.isStay seg)
    (hw : fs.walk true 40 (start fs.cwd path) segs = .ok fd)
    (hdir : fs.isDirectory (fs.ino fd) = true) :
    fs.slotOf path = some ⟨fs.ino fd, name⟩ := by
  unfold slotOf
  simp only [hp, hname, walk_parent hp hn hw hdir, Option.bind_eq_bind, Option.bind_some,
    Except.toOption]

theorem readDir_eq {path parent : Bytes} {segs : List Bytes} {entries : List (Bytes × InodeId)}
    (hp : Path.parent path = some parent)
    (hn : (Path.names path).dropLast = segs.filter fun seg => !Path.isStay seg)
    (hw : fs.walk true 40 (start fs.cwd path) segs = .ok fd)
    (hdir : fs.isDirectory (fs.ino fd) = true) (hread : fs.readDir parent = .ok entries) :
    fs.entries? (fs.ino fd) = some entries := by
  unfold readDir resolve at hread
  cases ha : admissible parent with
  | error e => rw [ha] at hread; cases hread
  | ok u =>
    rw [ha] at hread
    simp only [bind, Except.bind, walk_parent hp hn hw hdir] at hread
    cases he : fs.entries? (fs.ino fd) with
    | none => rw [he] at hread; cases hread
    | some found =>
      rw [he] at hread
      cases hread
      rfl

/-! ## Where a path leads -/

/-- The path leads to the open directory `fd`. -/
def Leads (fs : FileSystem) (path : Bytes) (fd : Fd) : Prop :=
  ∃ segs, Path.names path = segs.filter (fun seg => !Path.isStay seg) ∧
    fs.walk true 40 (start fs.cwd path) segs = .ok fd ∧ fs.isDirectory (fs.ino fd) = true

theorem leads_of_openDirectory {path : Bytes} (h : fs.openDirectory path = .ok fd) :
    Leads fs path fd := by
  unfold openDirectory resolve at h
  cases ha : admissible path with
  | error e => rw [ha] at h; cases h
  | ok u =>
    rw [ha] at h
    simp only [bind, Except.bind] at h
    cases hw : fs.walk true 40 (start fs.cwd path) (Path.segments path) with
    | error e => rw [hw] at h; cases h
    | ok fd₁ =>
      rw [hw] at h
      dsimp only at h
      split at h
      · next hdir =>
        obtain rfl := Except.ok.inj h
        exact ⟨Path.segments path, rfl, hw, hdir⟩
      · cases h

/-- What a confined open has gone through. -/
theorem beneath_of_openBeneath {path : Bytes} {directory noXdev : Bool}
    (h : fs.openBeneath fd path directory noXdev = .ok fd') :
    Path.isAbsolute path = false ∧ fs.beneath noXdev fd (Path.segments path) = .ok fd' ∧
      (directory = true → fs.isDirectory (fs.ino fd') = true) := by
  unfold openBeneath at h
  cases ha : admissible path with
  | error e => rw [ha] at h; cases h
  | ok u =>
    rw [ha] at h
    simp only [bind, Except.bind] at h
    split at h
    · cases h
    · next habs =>
      cases hb : fs.beneath noXdev fd (Path.segments path) with
      | error e => rw [hb] at h; cases h
      | ok fd₁ =>
        rw [hb] at h
        dsimp only at h
        split at h
        · cases h
        · next hdir =>
          obtain rfl := Except.ok.inj h
          refine ⟨Bool.eq_false_iff.mpr habs, rfl, fun hd => ?_⟩
          simpa [hd] using hdir

theorem Leads.directory {path : Bytes} (h : Leads fs path fd) : fs.isDirectory (fs.ino fd) = true := by
  obtain ⟨-, -, -, hdir⟩ := h
  exact hdir

theorem Leads.join {path more : Bytes} {noXdev : Bool} (h : Leads fs path fd)
    (hmore : Path.isAbsolute more = false)
    (hb : fs.beneath noXdev fd (Path.segments more) = .ok fd')
    (hdir : fs.isDirectory (fs.ino fd') = true) : Leads fs (Path.join path more) fd' := by
  obtain ⟨segs, hnames, hw, -⟩ := h
  refine ⟨segs ++ Path.segments more, ?_, ?_, hdir⟩
  · rw [Path.names_join hmore, hnames, List.filter_append]
    rfl
  · have hstart : start fs.cwd (Path.join path more) = start fs.cwd path := by
      unfold start
      rw [Path.isAbsolute_join hmore]
    rw [hstart]
    exact walk_beneath hw hb

/-- A path with one more name than a directory's names an entry of the directory. -/
theorem Leads.slotOf {dir path name : Bytes} (h : Leads fs dir fd)
    (habs : Path.isAbsolute path = Path.isAbsolute dir)
    (hnames : Path.names path = Path.names dir ++ [name]) (hd : name ≠ Path.dotDot) :
    fs.slotOf path = some ⟨fs.ino fd, name⟩ ∧ ∀ parent entries, Path.parent path = some parent →
      fs.readDir parent = .ok entries → fs.entries? (fs.ino fd) = some entries := by
  obtain ⟨segs, hsegs, hw, hdir⟩ := h
  have hfile := Path.fileName_of_names hnames hd
  have hstart : start fs.cwd path = start fs.cwd dir := by
    unfold start
    rw [habs]
  have hdrop : (Path.names path).dropLast = segs.filter fun seg => !Path.isStay seg := by
    rw [hnames, List.dropLast_concat, hsegs]
  have hw' : fs.walk true 40 (start fs.cwd path) segs = .ok fd := hstart ▸ hw
  refine ⟨?_, fun parent entries hp hread => readDir_eq hp hdrop hw' hdir hread⟩
  obtain ⟨parent, hp⟩ := Path.exists_parent hfile
  exact slotOf_eq hp hfile hdrop hw' hdir

end Posix.FileSystem
