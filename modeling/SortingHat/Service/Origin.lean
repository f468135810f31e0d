import SortingHat.Rules
import SortingHat.Service.Integrity
import SortingHat.Service.Opening

/-!
# Rules that are made of proposals

A rule is made of the extension and the destination of a proposal, and it is
evaluated once before it is stored.

* `Evaluable`, `evaluable`: every stored set of rules can be evaluated;
* `Originates`, `rule_means`: what the new rule decides.
-/

namespace SortingHat
open Posix Effect Text

/-- A set of rules that gives every file a decision. -/
def Evaluable (glob : Glob) (rules : List Rule) : Prop :=
  ∀ facts, ∃ decision, evaluateRules glob rules facts = .ok decision

/-- The extension of a path, where it is text. -/
def extensionOf (relative : Bytes) : Option String := (Path.extension relative).bind toStr

/-- The rule sends the files that share the proposal's extension to its destination, and
says nothing of the others. -/
structure Sends (glob : Glob) (rule : Rule) (extension : String) (c : DestinationChoice) : Prop where
  same : ∀ (relative : Bytes) (found : String) (rootId : Uuid) (completed : Bool)
    (mime : Option String), extensionOf relative = some found →
    eqIgnoreAsciiCase found extension = true →
    ∃ reason, evaluateRules glob [rule]
      { factsFor relative rootId completed with verifiedMime := mime } =
        .ok (.destination ⟨c.rootId, c.directory⟩ [rule.id] reason)
  other : ∀ (relative : Bytes) (rootId : Uuid) (completed : Bool) (mime : Option String),
    (∀ found, extensionOf relative = some found → eqIgnoreAsciiCase found extension = false) →
    ∃ reason, evaluateRules glob [rule]
      { factsFor relative rootId completed with verifiedMime := mime } = .ok (.abstain reason)

/-- The rule means what the proposal is. -/
def Originates (glob : Glob) (state : PersistentState) (id : Uuid) (rule : Rule) : Prop :=
  ∃ p c source extension, state.findProposal id = some p ∧ p.destination = some c ∧
    decodeRelative p.sourceRelative = .ok source ∧ extensionOf source = some extension ∧
    Sends glob rule extension c

section
variable {glob : Glob} {rule : Rule} {facts : FileFacts} {extension : String}

/-! ## One rule -/

theorem toLower_twice (c : Char) : c.toLower.toLower = c.toLower := by
  unfold Char.toLower
  split
  · next h =>
    rw [dif_neg]
    simp only [UInt32.le_iff_toNat_le, UInt32.toNat_add, seval] at h ⊢
    omega
  · rfl

theorem toAsciiLowercase_twice (text : String) :
    toAsciiLowercase (toAsciiLowercase text) = toAsciiLowercase text := by
  unfold toAsciiLowercase
  rw [String.toList_ofList, List.map_map]
  congr 1
  exact List.map_congr_left fun c _ => toLower_twice c

theorem eqIgnoreAsciiCase_lowered (a b : String) :
    eqIgnoreAsciiCase (toAsciiLowercase a) (toAsciiLowercase b) = eqIgnoreAsciiCase a b := by
  unfold eqIgnoreAsciiCase
  rw [toAsciiLowercase_twice, toAsciiLowercase_twice]

theorem matched_singleton :
    matched glob facts [rule] = if rule.fires glob facts = true then [rule] else [] := by
  unfold matched
  rw [List.filter_cons, List.filter_nil]

theorem evaluate_fired (hvalid : validateRule glob rule = .ok ()) (hfires : rule.fires glob facts = true) :
    ∃ reason, evaluateRules glob [rule] facts = .ok (.destination rule.target [rule.id] reason) := by
  rw [evaluateRules_valid (Nat.le_of_ble_eq_true rfl) (List.forall_mem_singleton.mpr hvalid)]
  have htop : top glob facts [rule] = [rule] := by
    unfold top
    rw [matched_singleton, if_pos hfires]
    simp [highest]
  rw [htop]
  exact ⟨_, rfl⟩

theorem evaluate_idle (hvalid : validateRule glob rule = .ok ()) (hidle : rule.fires glob facts = false) :
    ∃ reason, evaluateRules glob [rule] facts = .ok (.abstain reason) := by
  rw [evaluateRules_valid (Nat.le_of_ble_eq_true rfl) (List.forall_mem_singleton.mpr hvalid)]
  have htop : top glob facts [rule] = [] := by
    unfold top
    rw [matched_singleton, hidle]
    rfl
  rw [htop]
  exact ⟨_, rfl⟩

/-- A rule on an extension fires on it, in any case. -/
theorem fires_extension {relative : Bytes} {rootId : Uuid} {completed : Bool} {mime : Option String}
    (hrule : rule.predicates = [.extension (toAsciiLowercase extension)]) :
    rule.fires glob { factsFor relative rootId completed with verifiedMime := mime } =
      (extensionOf relative).any fun found => eqIgnoreAsciiCase found extension := by
  unfold Rule.fires
  rw [hrule, List.all_cons, List.all_nil, Bool.and_true]
  have hmatches : predicateMatches glob
      { factsFor relative rootId completed with verifiedMime := mime }
      (.extension (toAsciiLowercase extension)) = ((extensionOf relative).map toAsciiLowercase).any
        fun found => eqIgnoreAsciiCase found (toAsciiLowercase extension) := by
    unfold predicateMatches extensionOf factsFor
    exact Eq.refl _
  rw [hmatches, Option.any_map]
  simp only [eqIgnoreAsciiCase_lowered]

theorem sends_of_valid {c : DestinationChoice} (hvalid : validateRule glob rule = .ok ())
    (hrule : rule.predicates = [.extension (toAsciiLowercase extension)])
    (htarget : rule.target = ⟨c.rootId, c.directory⟩) : Sends glob rule extension c where
  same relative found rootId completed mime hfound heq := by
    rw [← htarget]
    apply evaluate_fired hvalid
    rw [fires_extension hrule, hfound]
    exact heq
  other relative rootId completed mime hnone := by
    apply evaluate_idle hvalid
    rw [fires_extension hrule]
    cases hfound : extensionOf relative with
    | none => rfl
    | some found => exact hnone found hfound

end

/-! ## What is stored -/

section
variable {P : Platform} {A : Tick → Prop} {s : Service} {w : World} {fs : FileSystem} {m : Machine}
  {events : List Event}

/-- The rules are few enough, and each is valid. -/
structure Sound (P : Platform) (state : PersistentState) : Prop where
  room : state.rules.length ≤ maxRules
  valid : ∀ rule ∈ state.rules, validateRule P.glob rule = .ok ()

theorem Sound.edit {caller : Option Call} {state : PersistentState} {n : Nat}
    (h : Sound P s.state) (he : Edit P caller s w state n) : Sound P state := by
  cases he with
  | set | rooted | unrooted | proposed | revised | pruned => exact ⟨h.room, h.valid⟩
  | ruled hroom _ _ _ _ hvalid =>
    constructor
    · rw [List.length_append]
      exact hroom
    · intro rule hm
      rcases List.mem_append.mp hm with hm | hm
      · exact h.valid rule hm
      · exact List.mem_singleton.mp hm ▸ hvalid

theorem evaluable (h : Run P (Machine.initial fs) events m) :
    m.Holds fun _ state => Evaluable P.glob state.rules := by
  have hsound : m.Holds fun _ => Sound P := by
    apply h.holds (fun _ _ _ _ h => h) fun _ => ⟨Nat.zero_le _, fun _ hm => nomatch hm⟩
    exact fun caller s w state n hs he => hs.edit he
  constructor
  · intro s hs facts
    have hsound := hsound.running s hs
    exact ⟨_, evaluateRules_valid hsound.room hsound.valid⟩
  · intro file state hfile hcontent facts
    have hsound := hsound.saved file state hfile hcontent
    exact ⟨_, evaluateRules_valid hsound.room hsound.valid⟩

theorem createRuleFromProposal_wp {id : Uuid} {priority : Int} :
    wpS A (createRuleFromProposal P id priority)
      (fun rule _ _ => Originates P.glob s.state id rule) (fun _ _ _ => True) (fun _ => True) s w := by
  unfold createRuleFromProposal
  apply wpS_looks (.refl w) looks_get
  rintro _ w₁ hu rfl
  apply wpS_looks hu looks_failIf
  intro _ w₁ hu _
  apply wpS_looks hu looks_orFail
  intro p w₁ hu hp
  apply wpS_looks hu looks_orFail
  intro c w₁ hu hc
  apply wpS_looks hu looks_check
  intro source w₁ hu hsource
  apply wpS_looks hu looks_orFail
  intro extension w₁ hu hextension
  refine (wpS_bind _ _).mpr (draw_wp trivial ?_)
  apply wpS_looks (.refl _) looks_check
  intro decision w₂ _ hdecision
  rw [wpS_bind, wpS_modifyState, wpS_bind]
  refine wpS_mono save_wp ?_ (fun _ _ _ _ => trivial) fun _ _ => trivial
  rintro _ s' w' -
  have hvalid := validateRule_of_evaluate (Except.ok_of_mapError hdecision) _
    (List.mem_singleton_self _)
  exact ⟨p, c, source, extension, hp, hc, hsource, hextension, sends_of_valid hvalid rfl rfl⟩

/-- **Stored rules can be evaluated, and a new one means what its proposal is.** -/
theorem rule_means (h : Run P (Machine.initial fs) events m) :
    (m.Holds fun _ state => Evaluable P.glob state.rules) ∧
    ∀ (s : Service) (w : World) (id : Uuid) (priority : Int) (ticks : List Tick) (rule : Rule)
      (s' : Service) (w' : World),
      ((createRuleFromProposal P id priority).start s).after ticks w = (.done (.ok rule, s'), w') →
      Originates P.glob s.state id rule := by
  refine ⟨evaluable h, fun s w id priority ticks rule s' w' hafter => ?_⟩
  have hwp : wpS (fun _ => True) (createRuleFromProposal P id priority)
      (fun rule _ _ => Originates P.glob s.state id rule) (fun _ _ _ => True) (fun _ => True) s w :=
    createRuleFromProposal_wp
  have := Prog.wp_after hwp ticks fun _ _ => trivial
  rwa [hafter] at this

end

/-- The watched folder holds the file `r.PDF`. -/
def extendedFiles : FileSystem :=
  sampleFiles.setNode ⟨0, 2⟩ (.directory [(bytes "r.PDF", ⟨0, 4⟩)])

/-- A rule made of the proposal for `/w/r.PDF`. -/
theorem rule_means_pdf : ∃ (events : List Event) (m : Machine) (s s' : Service) (w' : World)
    (rule : Rule), Run .sample (Machine.initial extendedFiles) events m ∧ m.service = some s ∧
      ((createRuleFromProposal .sample ⟨2⟩ 0).start s).after (quietAt 4) m.world =
        (.done (.ok rule, s'), w') ∧ rule.predicates = [.extension "pdf"] ∧
      (m.Holds fun _ state => Evaluable (fun _ => none) state.rules) ∧
      Originates (fun _ => none) s.state ⟨2⟩ rule := by
  obtain ⟨events, m, hrun, htest⟩ := exists_run (P := .sample) (m := Machine.initial extendedFiles)
    (Command.enrol (bytes "/d") ++ [.serve (.chooseDestination ⟨2⟩ 1 ⟨1⟩ ".") (quietAt 3)])
    (fun _ m => m.service.any fun s =>
      (((createRuleFromProposal .sample ⟨2⟩ 0).start s).after (quietAt 4) m.world).1.result?.any
        fun r => r.1.toOption.any fun rule => decide (rule.predicates = [Predicate.extension "pdf"]))
    (by decide +kernel)
  obtain ⟨s, hs, htest⟩ := (Option.any_eq_true _ _).mp htest
  generalize hafter : ((createRuleFromProposal .sample ⟨2⟩ 0).start s).after (quietAt 4) m.world =
    answer at htest
  obtain ⟨rule, s', hreturned, htest⟩ := exists_returned
    (fun (rule : Rule) (_ : Service) => decide (rule.predicates = [Predicate.extension "pdf"])) htest
  have hreturned : answer = (.done (.ok rule, s'), answer.2) := Prod.ext hreturned rfl
  have hafter := hafter.trans hreturned
  have hmeans := rule_means hrun
  exact ⟨events, m, s, s', _, rule, hrun, hs, hafter, of_decide_eq_true htest, hmeans.1,
    hmeans.2 s m.world ⟨2⟩ 0 (quietAt 4) rule s' _ hafter⟩

end SortingHat
