import SortingHat.Core
import Mathlib.Data.List.Perm.Lattice

/-!
# What a set of rules decides

Evaluation validates, filters, takes a maximum, filters again and collects a set.

* `matched`, `top`: the rules that match, and those of them no other one outranks;
* `evaluateRules_valid`: the decision is a function of `top`;
* `rule_evaluation`: the whole specification, with what does not matter.
-/

namespace SortingHat
open Posix (Bytes bytes)

/-! ## The order of destinations -/

theorem bytes_injective : Function.Injective bytes := by
  intro a b h
  unfold bytes at h
  rw [String.toUTF8_eq_toByteArray, String.toUTF8_eq_toByteArray] at h
  exact String.toByteArray_inj.mp (ByteArray.ext (Array.toList_inj.mp h))

theorem bytesLe_total (a b : Bytes) : bytesLe a b = true ∨ bytesLe b a = true := by
  induction a generalizing b with
  | nil => exact .inl rfl
  | cons x a ih =>
    cases b with
    | nil => exact .inr rfl
    | cons y b =>
      simp only [bytesLe, Bool.or_eq_true, decide_eq_true_eq, Bool.and_eq_true, beq_iff_eq]
      rcases Nat.lt_trichotomy x.toNat y.toNat with h | h | h
      · exact .inl (.inl (UInt8.lt_iff_toNat_lt.mpr h))
      · obtain rfl := UInt8.toNat_inj.mp h
        exact (ih b).imp (fun h => .inr ⟨rfl, h⟩) fun h => .inr ⟨rfl, h⟩
      · exact .inr (.inl (UInt8.lt_iff_toNat_lt.mpr h))

theorem bytesLe_trans {a b c : Bytes} (h : bytesLe a b = true) (h' : bytesLe b c = true) :
    bytesLe a c = true := by
  induction a generalizing b c with
  | nil => rfl
  | cons x a ih =>
    cases b with
    | nil => cases h
    | cons y b =>
      cases c with
      | nil => cases h'
      | cons z c =>
        simp only [bytesLe, Bool.or_eq_true, decide_eq_true_eq, Bool.and_eq_true, beq_iff_eq] at h h' ⊢
        rcases h with h | ⟨rfl, h⟩ <;> rcases h' with h' | ⟨rfl, h'⟩
        · exact .inl (UInt8.lt_trans h h')
        · exact .inl h
        · exact .inl h'
        · exact .inr ⟨rfl, ih h h'⟩

theorem bytesLe_antisymm {a b : Bytes} (h : bytesLe a b = true) (h' : bytesLe b a = true) :
    a = b := by
  induction a generalizing b with
  | nil =>
    cases b with
    | nil => rfl
    | cons y b => cases h'
  | cons x a ih =>
    cases b with
    | nil => cases h
    | cons y b =>
      simp only [bytesLe, Bool.or_eq_true, decide_eq_true_eq, Bool.and_eq_true, beq_iff_eq] at h h'
      rcases h with h | ⟨rfl, h⟩ <;> rcases h' with h' | ⟨heq, h'⟩
      · exact absurd (UInt8.lt_trans h h') (UInt8.lt_irrefl x)
      · exact absurd (heq ▸ h) (UInt8.lt_irrefl y)
      · exact absurd h' (UInt8.lt_irrefl x)
      · rw [ih h h']

theorem Destination.le_iff (a b : Destination) : a.le b = true ↔ a.rootId.value < b.rootId.value ∨
    a.rootId = b.rootId ∧ bytesLe (bytes a.directory) (bytes b.directory) = true := by
  unfold Destination.le
  simp only [Bool.or_eq_true, decide_eq_true_eq, Bool.and_eq_true, beq_iff_eq]

theorem Destination.le_total (a b : Destination) : a.le b = true ∨ b.le a = true := by
  rw [le_iff, le_iff]
  rcases lt_trichotomy a.rootId.value b.rootId.value with h | h | h
  · exact .inl (.inl h)
  · have hid : a.rootId = b.rootId := by
      obtain ⟨⟨n⟩, d⟩ := a
      obtain ⟨⟨m⟩, e⟩ := b
      exact congrArg Uuid.mk h
    exact (bytesLe_total (bytes a.directory) (bytes b.directory)).imp (fun h => .inr ⟨hid, h⟩)
      fun h => .inr ⟨hid.symm, h⟩
  · exact .inr (.inl h)

theorem Destination.le_trans {a b c : Destination} (h : a.le b = true) (h' : b.le c = true) :
    a.le c = true := by
  rw [le_iff] at h h' ⊢
  rcases h with h | ⟨hid, h⟩ <;> rcases h' with h' | ⟨hid', h'⟩
  · exact .inl (h.trans h')
  · exact .inl (hid' ▸ h)
  · exact .inl (hid ▸ h')
  · exact .inr ⟨hid.trans hid', bytesLe_trans h h'⟩

theorem Destination.le_antisymm {a b : Destination} (h : a.le b = true) (h' : b.le a = true) :
    a = b := by
  rw [le_iff] at h h'
  rcases h with h | ⟨hid, h⟩
  · rcases h' with h' | ⟨hid', -⟩
    · omega
    · rw [hid'] at h
      omega
  · rcases h' with h' | ⟨-, h'⟩
    · rw [hid] at h'
      omega
    · obtain ⟨root, directory⟩ := a
      obtain ⟨root', directory'⟩ := b
      obtain rfl : root = root' := hid
      exact congrArg (Destination.mk root) (bytes_injective (bytesLe_antisymm h h'))

/-- Before, and not the same. -/
def Destination.Before (a b : Destination) : Prop := a.le b = true ∧ a ≠ b

theorem mem_sortedSet {ds : List Destination} {d : Destination} : d ∈ sortedSet ds ↔ d ∈ ds := by
  unfold sortedSet
  rw [List.mem_insertionSort, List.mem_dedup]

theorem sortedSet_sorted (ds : List Destination) :
    (sortedSet ds).Pairwise fun a b => a.le b = true := by
  have : Std.Total fun a b : Destination => a.le b = true := ⟨Destination.le_total⟩
  have : IsTrans Destination fun a b => a.le b = true := ⟨fun _ _ _ => Destination.le_trans⟩
  exact List.pairwise_insertionSort _ _

theorem nodup_sortedSet (ds : List Destination) : (sortedSet ds).Nodup :=
  (List.perm_insertionSort _ _).nodup_iff.mpr (List.nodup_dedup ds)

theorem sortedSet_before (ds : List Destination) : (sortedSet ds).Pairwise Destination.Before :=
  (sortedSet_sorted ds).imp₂ (fun _ _ h hne => ⟨h, hne⟩) (nodup_sortedSet ds)

/-- Only one list names a set of destinations in order. -/
theorem eq_sortedSet {ds ds' : List Destination} (hsorted : ds'.Pairwise Destination.Before)
    (hmem : ∀ d, d ∈ ds' ↔ d ∈ ds) : ds' = sortedSet ds := by
  apply List.Perm.eq_of_pairwise (fun _ _ _ _ => Destination.le_antisymm)
    (hsorted.imp fun h => h.1) (sortedSet_sorted ds)
  refine (List.perm_ext_iff_of_nodup ?_ (nodup_sortedSet ds)).mpr fun d => ?_
  · exact hsorted.imp fun h => h.2
  · rw [hmem, mem_sortedSet]

/-! ## Matching and ranking -/

section
variable {glob : Glob} {facts : FileFacts} {rules rules' before after : List Rule} {rule : Rule}

/-- Every predicate matches. -/
def Rule.fires (glob : Glob) (facts : FileFacts) (rule : Rule) : Bool :=
  rule.predicates.all (predicateMatches glob facts)

def matched (glob : Glob) (facts : FileFacts) (rules : List Rule) : List Rule :=
  rules.filter (Rule.fires glob facts)

/-- The rules that no rule of the list outranks. -/
def highest (rules : List Rule) : List Rule :=
  rules.filter fun rule => rules.all fun other => decide (other.priority ≤ rule.priority)

/-- The matching rules of maximal priority. -/
def top (glob : Glob) (facts : FileFacts) (rules : List Rule) : List Rule :=
  highest (matched glob facts rules)

theorem mem_highest : rule ∈ highest rules ↔
    rule ∈ rules ∧ ∀ other ∈ rules, other.priority ≤ rule.priority := by
  unfold highest
  simp only [List.mem_filter, List.all_eq_true, decide_eq_true_eq]

theorem highest_priority (h : rule ∈ highest rules) {other : Rule} (ho : other ∈ highest rules) :
    other.priority = rule.priority :=
  le_antisymm ((mem_highest.mp h).2 other (mem_highest.mp ho).1)
    ((mem_highest.mp ho).2 rule (mem_highest.mp h).1)

/-- The maximum is reached. -/
theorem exists_highest {p : Int} (h : (rules.map Rule.priority).max? = some p) :
    ∃ most ∈ highest rules, most.priority = p := by
  obtain ⟨hp, hle⟩ := List.max?_eq_some_iff.mp h
  obtain ⟨most, hmost, rfl⟩ := List.mem_map.mp hp
  exact ⟨most, mem_highest.mpr ⟨hmost, fun other ho => hle _ (List.mem_map_of_mem ho)⟩, rfl⟩

theorem highest_eq_nil : highest rules = [] ↔ rules = [] := by
  constructor
  · intro h
    cases hmax : (rules.map Rule.priority).max? with
    | none => exact List.map_eq_nil_iff.mp (List.max?_eq_none_iff.mp hmax)
    | some p =>
      obtain ⟨most, hmost, -⟩ := exists_highest hmax
      rw [h] at hmost
      cases hmost
  · rintro rfl
    rfl

theorem highest_perm (h : rules.Perm rules') : (highest rules).Perm (highest rules') := by
  unfold highest
  have hsame : (fun rule : Rule => rules.all fun other => decide (other.priority ≤ rule.priority)) =
      fun rule : Rule => rules'.all fun other => decide (other.priority ≤ rule.priority) := by
    funext rule
    exact h.all_eq
  rw [hsame]
  exact h.filter _

/-- A rule that is outranked does not count. -/
theorem highest_insert {other : Rule} (ho : other ∈ before ++ after)
    (hlow : rule.priority < other.priority) :
    highest (before ++ rule :: after) = highest (before ++ after) := by
  unfold highest
  rw [List.filter_append, List.filter_append, List.filter_cons_of_neg]
  · congr 1 <;>
    · apply List.filter_congr
      intro r _
      simp only [List.all_append, List.all_cons]
      by_cases hr : rule.priority ≤ r.priority
      · simp [hr]
      · -- what the rule outranks, the other one outranks
        have hnot : ¬ ∀ x ∈ before ++ after, x.priority ≤ r.priority := fun hall =>
          hr ((le_of_lt hlow).trans (hall other ho))
        have hfalse : ((before ++ after).all fun x => decide (x.priority ≤ r.priority)) = false := by
          rw [Bool.eq_false_iff, ne_eq, List.all_eq_true]
          simpa using hnot
        rw [List.all_append] at hfalse
        simp [hr, hfalse]
  · simp only [List.all_eq_true, decide_eq_true_eq, not_forall]
    refine ⟨other, ?_, not_le.mpr hlow⟩
    rw [List.mem_append, List.mem_cons]
    exact (List.mem_append.mp ho).imp_right .inr

theorem max?_priority {p : Int} (h : (rules.map Rule.priority).max? = some p) :
    (rules.filter fun rule => rule.priority = p) = highest rules := by
  obtain ⟨most, hmost, rfl⟩ := exists_highest h
  obtain ⟨hm, hle⟩ := mem_highest.mp hmost
  unfold highest
  apply List.filter_congr
  intro r hr
  apply Bool.eq_iff_iff.mpr
  simp only [decide_eq_true_eq, List.all_eq_true]
  constructor
  · intro he other ho
    exact he ▸ hle other ho
  · exact fun hall => le_antisymm (hle r hr) (hall most hm)

/-! ## Evaluation -/

theorem matchingRules_valid (h : ∀ rule ∈ rules, validateRule glob rule = .ok ()) :
    matchingRules glob facts rules = .ok (matched glob facts rules) := by
  induction rules with
  | nil => rfl
  | cons rule rules ih =>
    rw [matchingRules, h rule List.mem_cons_self, ih fun r hr => h r (List.mem_cons_of_mem _ hr)]
    unfold matched
    rw [List.filter_cons]
    rfl

/-- The decision, from the rules that no matching rule outranks. -/
def conclusion : List Rule → RuleDecision
  | [] => .abstain "No deterministic rule matched"
  | rule :: rest =>
    match sortedSet ((rule :: rest).map Rule.target) with
    | [destination] =>
      .destination destination ((rule :: rest).map Rule.id)
        ("Unique destination from priority " ++ toString rule.priority ++ " rule set")
    | destinations =>
      .tie destinations ((rule :: rest).map Rule.id)
        ("Conflicting destinations at priority " ++ toString rule.priority)

/-- **The decision is a function of the highest matching rules.** -/
theorem evaluateRules_valid (hlen : rules.length ≤ maxRules)
    (h : ∀ rule ∈ rules, validateRule glob rule = .ok ()) :
    evaluateRules glob rules facts = .ok (conclusion (top glob facts rules)) := by
  unfold evaluateRules top
  rw [if_neg (Nat.not_lt.mpr hlen), matchingRules_valid h]
  generalize matched glob facts rules = found
  dsimp only [bind, Except.bind, pure, Except.pure]
  cases hmax : (found.map Rule.priority).max? with
  | none =>
    obtain rfl : found = [] := List.map_eq_nil_iff.mp (List.max?_eq_none_iff.mp hmax)
    rfl
  | some p =>
    dsimp only
    rw [max?_priority hmax]
    obtain ⟨most, hmem, rfl⟩ := exists_highest hmax
    cases hhigh : highest found with
    | nil => rw [hhigh] at hmem; cases hmem
    | cons rule rest =>
      have hrule : rule ∈ highest found := hhigh ▸ List.mem_cons_self
      rw [highest_priority hrule hmem]
      dsimp only [conclusion]
      cases sortedSet ((rule :: rest).map Rule.target) with
      | nil => rfl
      | cons d ds => cases ds <;> rfl

theorem evaluateRules_error (hlen : rules.length ≤ maxRules) :
    (∃ e, evaluateRules glob rules facts = .error e) ↔
      ∃ rule ∈ rules, validateRule glob rule ≠ .ok () := by
  constructor
  · rintro ⟨e, he⟩
    by_contra hall
    push Not at hall
    rw [evaluateRules_valid hlen hall] at he
    cases he
  · rintro ⟨rule, hm, hbad⟩
    cases heval : evaluateRules glob rules facts with
    | error e => exact ⟨e, rfl⟩
    | ok decision => exact absurd (validateRule_of_evaluate heval rule hm) hbad

/-! ## The specification -/

/-- The rules a decision is given for. -/
def RuleDecision.ruleIds : RuleDecision → Option (List Uuid)
  | .destination _ ruleIds _ | .tie _ ruleIds _ => some ruleIds
  | .abstain _ => none

/-- The decision is what these rules decide, none of which outranks another. -/
structure Decides (rules : List Rule) (decision : RuleDecision) : Prop where
  abstain : (∃ reason, decision = .abstain reason) ↔ rules = []
  destination : ∀ d, (∃ ruleIds reason, decision = .destination d ruleIds reason) ↔
    rules ≠ [] ∧ ∀ rule ∈ rules, rule.target = d
  tie : ∀ ds, (∃ ruleIds reason, decision = .tie ds ruleIds reason) ↔
    2 ≤ ds.length ∧ ds.Pairwise Destination.Before ∧ ∀ d, d ∈ ds ↔ d ∈ rules.map Rule.target
  ruleIds : ∀ ruleIds, decision.ruleIds = some ruleIds → ruleIds = rules.map Rule.id ∧ ruleIds ≠ []

/-- The same up to the order of the rule ids. -/
def RuleDecision.Same : RuleDecision → RuleDecision → Prop
  | .destination d ruleIds reason, .destination d' ruleIds' reason' =>
    d = d' ∧ ruleIds.Perm ruleIds' ∧ reason = reason'
  | .tie ds ruleIds reason, .tie ds' ruleIds' reason' =>
    ds = ds' ∧ ruleIds.Perm ruleIds' ∧ reason = reason'
  | .abstain reason, .abstain reason' => reason = reason'
  | _, _ => False

/-- Both fail, or both decide the same. -/
def SameAnswer : Except RuleError RuleDecision → Except RuleError RuleDecision → Prop
  | .ok decision, .ok decision' => decision.Same decision'
  | .error _, .error _ => True
  | _, _ => False

theorem RuleDecision.Same.refl (decision : RuleDecision) : decision.Same decision := by
  cases decision with
  | destination | tie => exact ⟨rfl, List.Perm.refl _, rfl⟩
  | abstain => exact rfl

theorem decides_nil (reason : String) : Decides [] (.abstain reason) where
  abstain := ⟨fun _ => rfl, fun _ => ⟨reason, rfl⟩⟩
  destination d := by
    constructor
    · rintro ⟨_, _, h⟩
      cases h
    · exact fun h => absurd rfl h.1
  tie ds := by
    constructor
    · rintro ⟨_, _, h⟩
      cases h
    · rintro ⟨hlen, -, hmem⟩
      cases ds with
      | nil => cases hlen
      | cons d ds => cases (hmem d).mp List.mem_cons_self
  ruleIds := nofun

/-- All rules have one destination. -/
theorem decides_destination {d : Destination} {reason : String} (hrules : rules ≠ [])
    (hset : sortedSet (rules.map Rule.target) = [d]) :
    Decides rules (.destination d (rules.map Rule.id) reason) where
  abstain := by
    constructor
    · rintro ⟨_, h⟩
      cases h
    · exact fun h => absurd h hrules
  destination d' := by
    have hsame : ∀ rule ∈ rules, rule.target = d := fun rule hr =>
      List.mem_singleton.mp (hset ▸ mem_sortedSet.mpr (List.mem_map_of_mem hr))
    constructor
    · rintro ⟨_, _, h⟩
      cases h
      exact ⟨hrules, hsame⟩
    · rintro ⟨-, hall⟩
      obtain ⟨rule, hr⟩ := List.exists_mem_of_ne_nil rules hrules
      rw [← hall rule hr, hsame rule hr]
      exact ⟨_, _, rfl⟩
  tie ds := by
    constructor
    · rintro ⟨_, _, h⟩
      cases h
    · rintro ⟨hlen, hsorted, hmem⟩
      rw [eq_sortedSet hsorted hmem, hset, List.length_singleton] at hlen
      omega
  ruleIds ids h := by
    cases h
    exact ⟨rfl, fun h => hrules (List.map_eq_nil_iff.mp h)⟩

/-- Two rules at least have different destinations. -/
theorem decides_tie {ds : List Destination} {reason : String} (hrules : rules ≠ [])
    (hset : sortedSet (rules.map Rule.target) = ds) (hlen : 2 ≤ ds.length) :
    Decides rules (.tie ds (rules.map Rule.id) reason) where
  abstain := by
    constructor
    · rintro ⟨_, h⟩
      cases h
    · exact fun h => absurd h hrules
  destination d := by
    constructor
    · rintro ⟨_, _, h⟩
      cases h
    · rintro ⟨-, hall⟩
      have hone : ∀ x ∈ ds, x = d := fun x hx => by
        obtain ⟨rule, hr, rfl⟩ := List.mem_map.mp (mem_sortedSet.mp (hset ▸ hx))
        exact hall rule hr
      have hnodup : ds.Nodup := hset ▸ nodup_sortedSet _
      rw [List.eq_replicate_of_mem hone, List.nodup_replicate] at hnodup
      omega
  tie ds' := by
    constructor
    · rintro ⟨_, _, h⟩
      cases h
      exact ⟨hlen, hset ▸ sortedSet_before _, fun d => hset ▸ mem_sortedSet⟩
    · rintro ⟨-, hsorted, hmem⟩
      rw [eq_sortedSet hsorted hmem, hset]
      exact ⟨_, _, rfl⟩
  ruleIds ids h := by
    cases h
    exact ⟨rfl, fun h => hrules (List.map_eq_nil_iff.mp h)⟩

theorem conclusion_decides (rules : List Rule) : Decides rules (conclusion rules) := by
  cases rules with
  | nil => exact decides_nil _
  | cons rule rest =>
    have hrules : rule :: rest ≠ [] := List.cons_ne_nil rule rest
    unfold conclusion
    dsimp only
    split
    · next d hset => exact decides_destination hrules hset
    · next hmany =>
      apply decides_tie hrules rfl
      cases hset : sortedSet ((rule :: rest).map Rule.target) with
      | nil =>
        have hhead : rule.target ∈ sortedSet ((rule :: rest).map Rule.target) :=
          mem_sortedSet.mpr List.mem_cons_self
        rw [hset] at hhead
        cases hhead
      | cons d ds =>
        cases ds with
        | nil => exact absurd hset (hmany d)
        | cons e ds => simp

/-- The order of rules of one priority does not matter. -/
theorem conclusion_perm (h : rules.Perm rules')
    (hrank : ∀ rule ∈ rules, ∀ other ∈ rules, other.priority = rule.priority) :
    (conclusion rules).Same (conclusion rules') := by
  cases rules with
  | nil =>
    rw [List.nil_perm.mp h]
    exact .refl _
  | cons rule rest =>
    cases rules' with
    | nil => cases List.perm_nil.mp h
    | cons rule' rest' =>
      have hset : sortedSet ((rule :: rest).map Rule.target) =
          sortedSet ((rule' :: rest').map Rule.target) :=
        eq_sortedSet (sortedSet_before _) fun d => mem_sortedSet.trans (h.map Rule.target).mem_iff
      have hpriority : rule'.priority = rule.priority :=
        hrank rule List.mem_cons_self rule' (h.mem_iff.mpr List.mem_cons_self)
      unfold conclusion
      dsimp only
      rw [hset, hpriority]
      split <;> exact ⟨rfl, h.map Rule.id, rfl⟩

theorem top_perm (h : rules.Perm rules') :
    (top glob facts rules).Perm (top glob facts rules') :=
  highest_perm (h.filter _)

/-- A rule that does not match, or that is outranked, changes nothing. -/
theorem top_insert (h : rule.fires glob facts = false ∨
      ∃ other ∈ matched glob facts (before ++ after), rule.priority < other.priority) :
    top glob facts (before ++ rule :: after) = top glob facts (before ++ after) := by
  unfold top
  cases hfires : rule.fires glob facts with
  | false =>
    unfold matched
    rw [List.filter_append, List.filter_cons_of_neg (by simp [hfires]), ← List.filter_append]
  | true =>
    obtain h | ⟨other, ho, hlow⟩ := h
    · rw [hfires] at h
      cases h
    · unfold matched at ho ⊢
      rw [List.filter_append, List.filter_cons_of_pos hfires, List.filter_append]
      rw [List.filter_append] at ho
      exact highest_insert ho hlow

/-- **Rule evaluation is its specification.** It fails exactly on an invalid rule, and
decides by the matching rules of highest priority; the order of the rules and the valid
rules that do not match or are outranked do not matter. -/
theorem rule_evaluation (hlen : rules.length ≤ maxRules) :
    ((∃ e, evaluateRules glob rules facts = .error e) ↔
      ∃ rule ∈ rules, validateRule glob rule ≠ .ok ()) ∧
    (∀ decision, evaluateRules glob rules facts = .ok decision →
      (top glob facts rules = [] ↔ matched glob facts rules = []) ∧
        Decides (top glob facts rules) decision) ∧
    (∀ rules', rules.Perm rules' →
      SameAnswer (evaluateRules glob rules facts) (evaluateRules glob rules' facts)) ∧
    ∀ before rule after, rules = before ++ rule :: after → validateRule glob rule = .ok () →
      (rule.fires glob facts = false ∨
        ∃ other ∈ matched glob facts rules, rule.priority < other.priority) →
      SameAnswer (evaluateRules glob rules facts) (evaluateRules glob (before ++ after) facts) := by
  have hsame : ∀ rules' : List Rule, rules'.length ≤ maxRules →
      ((∃ rule ∈ rules, validateRule glob rule ≠ .ok ()) ↔
        ∃ rule ∈ rules', validateRule glob rule ≠ .ok ()) →
      (top glob facts rules).Perm (top glob facts rules') →
      SameAnswer (evaluateRules glob rules facts) (evaluateRules glob rules' facts) := by
    intro rules' hlen' hbad hperm
    by_cases hvalid : ∀ rule ∈ rules, validateRule glob rule = .ok ()
    · have hvalid' : ∀ rule ∈ rules', validateRule glob rule = .ok () := by
        by_contra hnot
        push Not at hnot
        obtain ⟨rule, hm, hne⟩ := hbad.mpr hnot
        exact hne (hvalid rule hm)
      rw [evaluateRules_valid hlen hvalid, evaluateRules_valid hlen' hvalid']
      exact conclusion_perm hperm fun rule hr other ho => highest_priority hr ho
    · push Not at hvalid
      obtain ⟨e, he⟩ := (evaluateRules_error hlen).mpr hvalid
      obtain ⟨e', he'⟩ : ∃ e, evaluateRules glob rules' facts = .error e :=
        (evaluateRules_error hlen').mpr (hbad.mp hvalid)
      rw [he, he']
      trivial
  refine ⟨evaluateRules_error hlen, fun decision heval => ⟨?_, ?_⟩, fun rules' hperm => ?_, ?_⟩
  · exact highest_eq_nil
  · rw [evaluateRules_valid hlen (validateRule_of_evaluate heval)] at heval
    exact Except.ok.inj heval ▸ conclusion_decides _
  · exact hsame rules' (hperm.length_eq ▸ hlen)
      (by simp only [hperm.mem_iff]) (top_perm hperm)
  · rintro before rule after rfl hvalid hidle
    apply hsame (before ++ after)
    · rw [List.length_append] at hlen ⊢
      rw [List.length_cons] at hlen
      omega
    · constructor
      · rintro ⟨other, ho, hne⟩
        refine ⟨other, ?_, hne⟩
        rw [List.mem_append, List.mem_cons] at ho
        rcases ho with ho | rfl | ho
        · exact List.mem_append_left _ ho
        · exact absurd hvalid hne
        · exact List.mem_append_right _ ho
      · rintro ⟨other, ho, hne⟩
        refine ⟨other, ?_, hne⟩
        rw [List.mem_append, List.mem_cons]
        exact (List.mem_append.mp ho).imp_right .inr
    · rw [top_insert]
      refine hidle.imp_right fun ⟨other, ho, hlow⟩ => ⟨other, ?_, hlow⟩
      unfold matched at ho ⊢
      obtain ⟨ho, hfires⟩ := List.mem_filter.mp ho
      refine List.mem_filter.mpr ⟨?_, hfires⟩
      rw [List.mem_append, List.mem_cons] at ho
      rcases ho with ho | rfl | ho
      · exact List.mem_append_left _ ho
      · exact absurd hlow (lt_irrefl _)
      · exact List.mem_append_right _ ho

end

/-- Two rules of one priority, and one they outrank. -/
def sampleRules : List Rule :=
  [⟨⟨1⟩, 2, [.extension "pdf"], ⟨0⟩, "b"⟩, ⟨⟨2⟩, 1, [.completed], ⟨0⟩, "c"⟩,
   ⟨⟨3⟩, 2, [.completed], ⟨0⟩, "a"⟩]

def sampleFacts : FileFacts := ⟨some "PDF", none, "r.PDF", ⟨0⟩, "", true⟩

theorem rule_evaluation_tie :
    Decides (top (fun _ => none) sampleFacts sampleRules)
      (.tie [⟨⟨0⟩, "a"⟩, ⟨⟨0⟩, "b"⟩] [⟨1⟩, ⟨3⟩] "Conflicting destinations at priority 2") := by
  have hlen : sampleRules.length ≤ maxRules := by decide
  have heval : evaluateRules (fun _ => none) sampleRules sampleFacts =
      .ok (.tie [⟨⟨0⟩, "a"⟩, ⟨⟨0⟩, "b"⟩] [⟨1⟩, ⟨3⟩] "Conflicting destinations at priority 2") := by
    decide +kernel
  exact ((rule_evaluation hlen).2.1 _ heval).2

end SortingHat
