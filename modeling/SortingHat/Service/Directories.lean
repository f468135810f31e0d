import SortingHat.Service.Facts
import SortingHat.Service.Integrity

/-!
# Directories that can be entered

The directory of a rule or a proposal is checked as a text when it is stored, and as a
path when it is entered.

* `parts`, `segments_bytes`: a text and its bytes are cut at the same slashes;
* `Enters`: what a checked text is as a path;
* `directories_enter`: every stored directory can be entered.
-/

namespace SortingHat
open Posix Effect Text
open Journal (Row Database State)

/-- `str::split('/')`. -/
def parts (value : String) : List String := (value.toList.splitOn '/').map String.ofList

/-- The text is the path of its parts, below whatever it is joined to. -/
structure Enters (d : String) : Prop where
  accepted : validateRelative (bytes d) = .ok ()
  components : Path.components (bytes d) = (parts d).map fun part => .normal (bytes part)
  joined : ∀ root, Path.components (Path.join root (bytes d)) =
    Path.components root ++ (parts d).map fun part => .normal (bytes part)

/-- The folder itself, or a path that `open_beneath` accepts. -/
def Enterable (d : String) : Prop := d = "." ∨ validateRelative (bytes d) = .ok ()

/-- All directories that rules and proposals hold can be entered. -/
structure Directed (state : PersistentState) : Prop where
  rules : ∀ rule ∈ state.rules, Enterable rule.destinationDirectory
  proposals : ∀ p ∈ state.proposals, ∀ c ∈ p.destination, Enterable c.directory

/-! ## Texts and their bytes -/

section
variable {d : String}

theorem splitOn_append_of_not_mem {a b : Bytes} (h : Path.slash ∉ a) :
    (a ++ b).splitOn Path.slash = (b.splitOn Path.slash).modifyHead (a ++ ·) := by
  induction a with
  | nil =>
    cases hb : b.splitOn Path.slash with
    | nil => exact absurd hb (List.splitOn_ne_nil _ _)
    | cons first rest => simp [hb]
  | cons x a ih =>
    have hx : (x == Path.slash) = false := by
      rw [beq_eq_false_iff_ne]
      rintro rfl
      exact h List.mem_cons_self
    have ha : Path.slash ∉ a := fun hm => h (List.mem_cons_of_mem x hm)
    rw [List.cons_append, List.splitOn_cons_eq_if_modifyHead, hx, ih ha]
    simp [List.modifyHead_modifyHead, Function.comp_def]

/-- UTF-8 has the byte of a slash for slashes alone. -/
theorem splitOn_encoded (cs : List Char) :
    (cs.flatMap String.utf8EncodeChar).splitOn Path.slash =
      (cs.splitOn '/').map fun part => part.flatMap String.utf8EncodeChar := by
  induction cs with
  | nil => rfl
  | cons c cs ih =>
    rw [List.flatMap_cons, List.splitOn_cons_eq_if_modifyHead]
    by_cases hc : c = '/'
    · obtain rfl := hc
      rw [encode_slash, List.singleton_append, List.splitOn_cons_eq_if_modifyHead, ih]
      simp
    · have hnot : Path.slash ∉ String.utf8EncodeChar c := fun hm => hc (eq_slash_of_mem hm)
      rw [splitOn_append_of_not_mem hnot, ih, if_neg (by simpa using hc)]
      cases cs.splitOn '/' with
      | nil => rfl
      | cons first rest => simp

theorem segments_bytes (d : String) : Path.segments (bytes d) = (parts d).map bytes := by
  unfold Path.segments parts
  rw [bytes_eq_flatMap, splitOn_encoded, List.map_map]
  apply List.map_congr_left
  intro part _
  exact (bytes_ofList part).symm

/-! ## The two checks -/

theorem validateRelativeDirectory_bounds (h : validateRelativeDirectory d = .ok ()) (hdot : d ≠ ".") :
    (bytes d).length ≤ 4096 ∧ Path.isAbsolute (bytes d) = false := by
  unfold validateRelativeDirectory at h
  rw [if_neg hdot] at h
  dsimp only at h
  split at h
  · cases h
  · next hgood =>
    simp only [not_or, not_lt] at hgood
    exact ⟨hgood.1, Bool.eq_false_iff.mpr hgood.2.1⟩

/-- What is joined to a path that is not empty leaves its start as it is. -/
theorem lead_join {root path : Bytes} (hrel : Path.isAbsolute path = false) (hne : root ≠ []) :
    Path.lead (Path.join root path) = Path.lead root := by
  have hhead : (Path.segments (Path.join root path)).head? = (Path.segments root).head? := by
    unfold Path.join
    rw [hrel, if_neg Bool.false_ne_true]
    by_cases hend : root.getLast? = some Path.slash
    · obtain ⟨front, rfl⟩ := List.getLast?_eq_some_iff.mp hend
      rw [if_pos (.inr hend), List.append_assoc, List.singleton_append, Path.segments_append,
        Path.segments_append, List.head?_append_of_ne_nil _ (segments_ne_nil front),
        List.head?_append_of_ne_nil _ (segments_ne_nil front)]
    · rw [if_neg (by simp [hne, hend]), Path.segments_append,
        List.head?_append_of_ne_nil _ (segments_ne_nil root)]
  unfold Path.lead
  rw [Path.isAbsolute_join hrel, hhead]

/-- Joining a relative path that starts with a name adds its names. -/
theorem components_join {root path : Bytes} (hrel : Path.isAbsolute path = false)
    (hlead : Path.lead path = []) :
    Path.components (Path.join root path) =
      Path.components root ++ (Path.names path).map Path.component := by
  rw [Path.components_eq, Path.components_eq, Path.names_join hrel, List.map_append]
  by_cases hne : root = []
  · obtain rfl := hne
    have hjoin : Path.join [] path = path := by
      unfold Path.join
      rw [hrel, if_neg Bool.false_ne_true, if_pos (.inl rfl), List.nil_append]
    have hempty : Path.lead [] = [] := by decide
    rw [hjoin, hlead, hempty]
    simp
  · rw [lead_join hrel hne, List.append_assoc]

/-- **What the rules accept, the file system accepts**, as the same path. -/
theorem enters_of_valid (h : validateRelativeDirectory d = .ok ()) (hdot : d ≠ ".") : Enters d := by
  obtain ⟨hlength, hrel⟩ := validateRelativeDirectory_bounds h hdot
  have hnames := validateRelativeDirectory_ok h hdot
  have hstays : Path.names (bytes d) = Path.segments (bytes d) := by
    apply List.filter_eq_self.mpr
    intro part hm
    obtain ⟨hempty, hstay, -⟩ := Path.isName_iff.mp (hnames part hm)
    simp [Path.isStay, hempty, hstay]
  have hlead : Path.lead (bytes d) = [] := by
    have hhead : (Path.segments (bytes d)).head? ≠ some Path.dot := by
      intro hh
      obtain ⟨-, hstay, -⟩ := Path.isName_iff.mp (hnames _ (List.mem_of_head? hh))
      exact hstay rfl
    unfold Path.lead
    rw [hrel, if_neg Bool.false_ne_true, if_neg hhead]
  have hnormal : (Path.names (bytes d)).map Path.component =
      (parts d).map fun part => .normal (bytes part) := by
    have hcomponent : ∀ part ∈ Path.segments (bytes d), Path.component part = .normal part := by
      intro part hm
      obtain ⟨-, -, hup, -⟩ := Path.isName_iff.mp (hnames part hm)
      unfold Path.component
      rw [if_neg hup]
    rw [hstays, List.map_congr_left hcomponent, segments_bytes, List.map_map]
    rfl
  have hcomponents : Path.components (bytes d) = (parts d).map fun part => .normal (bytes part) := by
    rw [Path.components_eq, hlead, hnormal, List.nil_append]
  constructor
  · have hne : bytes d ≠ [] := by
      intro he
      have hempty := hnames [] (by rw [he]; exact List.mem_cons_self)
      exact absurd hempty (by decide)
    unfold validateRelative
    rw [if_neg (by simp [hne, hrel]; omega), hcomponents, if_pos (by simp)]
  · exact hcomponents
  · intro root
    rw [components_join hrel hlead, hnormal]

end

/-! ## What is stored -/

section
variable {P : Platform} {fs : FileSystem} {m : Machine} {events : List Event}

/-- All directories that are held have passed the check of the rules. -/
structure Vetted (state : PersistentState) : Prop where
  rules : ∀ rule ∈ state.rules, validateRelativeDirectory rule.destinationDirectory = .ok ()
  proposals : ∀ p ∈ state.proposals, ∀ c ∈ p.destination,
    validateRelativeDirectory c.directory = .ok ()

theorem enterable_of_valid {d : String} (h : validateRelativeDirectory d = .ok ()) : Enterable d := by
  by_cases hdot : d = "."
  · exact .inl hdot
  · exact .inr (enters_of_valid h hdot).accepted

theorem Vetted.directed {state : PersistentState} (h : Vetted state) : Directed state :=
  ⟨fun rule hm => enterable_of_valid (h.rules rule hm),
    fun p hp c hc => enterable_of_valid (h.proposals p hp c hc)⟩

theorem Vetted.initial : Vetted .initial := ⟨(fun _ hm => nomatch hm), fun _ hm => nomatch hm⟩

/-- A proposal that is changed in place keeps its destination or is given one that passes. -/
theorem Vetted.revised {s : Service} {index : Nat} {f : Proposal → Proposal} (h : Vetted s.state)
    (hf : ∀ p ∈ s.state.proposals, (f p).destination = p.destination ∨
      ∀ c ∈ (f p).destination, validateRelativeDirectory c.directory = .ok ()) :
    Vetted (s.revised index f).state := by
  refine ⟨h.rules, fun q hq c hc => ?_⟩
  rcases mem_modify hq with ⟨old, ho, rfl⟩ | ⟨i, -, hi⟩
  · have hm := List.mem_of_getElem? ho
    rcases hf old hm with hsame | hnew
    · exact h.proposals old hm c (hsame ▸ hc)
    · exact hnew c hc
  · exact h.proposals q (List.mem_of_getElem? hi) c hc

theorem Vetted.settle {state : PersistentState} {id : Uuid} {f : Proposal → Proposal}
    (h : Vetted state) (hf : ∀ p, (f p).destination = p.destination) :
    Vetted (state.settle id f) := by
  unfold PersistentState.settle
  split
  · next index _ =>
    have hrevised : Vetted ((Service.fresh state).revised index f).state :=
      Vetted.revised h fun p _ => .inl (hf p)
    exact hrevised
  · exact h

theorem validateRule_directory {glob : Glob} {rule : Rule} (h : validateRule glob rule = .ok ()) :
    validateRelativeDirectory rule.destinationDirectory = .ok () := by
  unfold validateRule at h
  simp only [bind, Except.bind] at h
  split at h
  · cases h
  · split at h
    · cases h
    · next hdirectory => exact hdirectory

/-- **What a deed stores has passed**: the directory of a rule, of the rule or the agent
that a new proposal goes by, and the one that is chosen. -/
theorem Vetted.deed {A : Tick → Prop} {caller : Option Call} {lossy : Bool} {s s' : Service}
    {w w' : World} (h : Vetted s.state) (hd : Deed P A caller lossy s w s' w') : Vetted s'.state := by
  cases hd with
  | files | sampled | drew | paused | advised | rooted | unrooted | moved | hashed | aged | trimmed
  | installed | lost => exact ⟨h.rules, h.proposals⟩
  | @ruled rule p c hid hroom hp hc hroot hdirectory hvalid =>
    refine ⟨fun other ho => ?_, h.proposals⟩
    rcases List.mem_append.mp ho with ho | ho
    · exact h.rules other ho
    · obtain rfl := List.mem_singleton.mp ho
      exact validateRule_directory hvalid
  | @proposed p row db hb =>
    refine ⟨h.rules, fun q hq c hc => ?_⟩
    rcases List.mem_append.mp hq with hq | hq
    · exact h.proposals q hq c hc
    · obtain rfl := List.mem_singleton.mp hq
      rcases hb.chosen c hc with ⟨rule, hm, -, hdirectory⟩ | ⟨hdot, -⟩
      · exact hdirectory ▸ h.rules rule hm
      · exact hdot ▸ rfl
  | redirected hp hrev hnext hstate hroot huse hdirectory =>
    apply h.revised
    intro p _
    refine .inr fun c hc => ?_
    obtain rfl := Option.some.inj hc
    exact hdirectory
  | renamed | approved | finished => exact h.revised fun p _ => .inl rfl
  | settled | warned => exact h.settle fun _ => rfl
  | pruned =>
    exact ⟨h.rules, fun p hp => h.proposals p ((pruned_sublist s.state.proposals).subset hp)⟩

/-- What every deed keeps of the state, every run keeps, in memory and on disk. -/
theorem Run.stores {J : PersistentState → Prop} (h : Run P (Machine.initial fs) events m)
    (hinitial : J .initial)
    (hdeed : ∀ caller lossy s w s' w', J s.state →
      Deed P (fun _ => True) caller lossy s w s' w' → J s'.state) : m.Holds fun _ => J := by
  have hmeets : m.Meets (fun _ => True) fun s w => J s.state ∧
      ∀ file state, w.stateJson = some file → file.content = some state → J state := by
    apply h.keeps
    · rintro event - lossy s w s' w' ⟨hJ, hsaved⟩ hd
      refine ⟨hdeed _ _ _ _ _ _ hJ hd, fun file state hfile hcontent => ?_⟩
      rcases hd.stateJson with hj | hj
      · exact hsaved file state (hj ▸ hfile) hcontent
      · obtain rfl := Option.some.inj (hj.symm.trans hfile)
        obtain rfl := Option.some.inj hcontent
        exact hJ
    · rintro s w loaded ⟨-, hsaved⟩ (⟨rfl, -⟩ | ⟨file, hfile, hcontent⟩)
      · exact ⟨hinitial, hsaved⟩
      · exact ⟨hsaved file loaded hfile hcontent, hsaved⟩
    · rintro loaded (⟨rfl, -⟩ | ⟨file, hfile, -⟩)
      · exact ⟨hinitial, nofun⟩
      · cases hfile
  obtain ⟨w, service⟩ := m
  cases service with
  | some s =>
    have hmeets : J s.state ∧ _ := hmeets
    exact ⟨fun s' hs => Option.some.inj hs ▸ hmeets.1, hmeets.2⟩
  | none =>
    refine ⟨nofun, fun file state hfile hcontent => ?_⟩
    have hloaded := hmeets state (.inr ⟨file, hfile, hcontent⟩)
    exact hloaded.1

/-- **Every stored directory can be entered**, in every run, and what the rules accept is
the same path to the file system. -/
theorem directories_enter (P : Platform) (fs : FileSystem) :
    (∀ d, validateRelativeDirectory d = .ok () → d ≠ "." → Enters d) ∧
    ∀ events m, Run P (Machine.initial fs) events m → m.Holds fun _ => Directed := by
  refine ⟨fun d => enters_of_valid, fun events m h => ?_⟩
  have hvetted : m.Holds fun _ => Vetted :=
    h.stores .initial fun _ _ _ _ _ _ hJ hd => hJ.deed hd
  constructor
  · exact fun s hs => (hvetted.running s hs).directed
  · exact fun file state hfile hcontent => (hvetted.saved file state hfile hcontent).directed

end

/-- A text of two parts, and a folder `d` that is chosen below `/`. -/
theorem directories_enter_chosen :
    Enters "in/x" ∧ ∃ (m : Machine) (s : Service), m.service = some s ∧
      (s.state.proposals.map fun p => p.destination) = [some ⟨⟨1⟩, "d"⟩] ∧ Directed s.state := by
  obtain ⟨hagree, hstored⟩ := directories_enter .sample sampleFiles
  obtain ⟨events, m, hrun, htest⟩ := exists_run (P := .sample) (m := Machine.initial sampleFiles)
    (Command.enrol (bytes "/") ++ [.serve (.chooseDestination ⟨2⟩ 1 ⟨1⟩ "d") (quietAt 3)])
    (fun _ m => m.service.any fun s =>
      (s.state.proposals.map fun p => p.destination) = [some ⟨⟨1⟩, "d"⟩])
    (by decide +kernel)
  obtain ⟨s, hs, hchosen⟩ := (Option.any_eq_true _ _).mp htest
  constructor
  · exact hagree "in/x" (by decide) (by decide)
  · exact ⟨m, s, hs, of_decide_eq_true hchosen, (hstored events m hrun).running s hs⟩

end SortingHat
