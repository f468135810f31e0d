import SortingHat.Text.Json
import Mathlib.Data.List.Dedup
import Mathlib.Data.List.Sort

/-!
# Rules

`sortinghat-core`: typed rules and their evaluation, without effects. Glob
syntax is the pattern library's; a rule set is evaluated against what it makes
of each pattern.
-/

namespace SortingHat
open Posix (Bytes bytes)
open Text

/-- A `Uuid`. Only equality, order and the printed form are used. -/
structure Uuid where
  value : Nat
  deriving DecidableEq, Repr

namespace Uuid

/-- The `count` low hexadecimal digits of `n`. -/
def digits : Nat → Nat → List Char
  | 0, _ => []
  | count + 1, n => digits count (n / 16) ++ [hexDigit (n % 16)]

/-- The hyphenated lower-case form. -/
def toText (id : Uuid) : String :=
  let d := digits 32 id.value
  String.ofList (d.take 8 ++ '-' :: (d.drop 8).take 4 ++ '-' :: (d.drop 12).take 4 ++
    '-' :: (d.drop 16).take 4 ++ '-' :: d.drop 20)

end Uuid

def maxRules : Nat := 1000

structure FileFacts where
  extension : Option String
  verifiedMime : Option String
  filename : String
  sourceRootId : Uuid
  sourceDirectory : String
  completed : Bool
  deriving DecidableEq, Repr

inductive Predicate where
  | extension (value : String)
  | verifiedMime (value : String)
  | filenameGlob (value : String)
  | sourceRoot (id : Uuid)
  | sourceDirectory (value : String)
  | completed
  deriving DecidableEq, Repr

structure Rule where
  id : Uuid
  priority : Int
  predicates : List Predicate
  destinationRootId : Uuid
  destinationDirectory : String
  deriving DecidableEq, Repr

structure Destination where
  rootId : Uuid
  directory : String
  deriving DecidableEq, Repr

inductive RuleDecision where
  | destination (destination : Destination) (ruleIds : List Uuid) (reason : String)
  | tie (destinations : List Destination) (ruleIds : List Uuid) (reason : String)
  | abstain (reason : String)
  deriving DecidableEq, Repr

inductive RuleError where
  | tooManyRules
  | invalidRule (text : String)
  deriving DecidableEq, Repr

/-- What the pattern library makes of a glob: nothing, or a matcher. -/
abbrev Glob := String → Option (String → Bool)

def validateRelativeDirectory (value : String) : Except RuleError Unit :=
  if value = "." then .ok ()
  else
    let b := bytes value
    if b.length > 4096 ∨ Posix.Path.isAbsolute b ∨
        (Posix.Path.segments b).any (fun part =>
          part == [] || part == Posix.Path.dot || part == Posix.Path.dotDot) then
      .error (.invalidRule "unsafe relative directory")
    else .ok ()

def validatePredicate (glob : Glob) : Predicate → Except RuleError Unit
  | .filenameGlob value =>
    if (glob value).isSome then .ok () else .error (.invalidRule "invalid glob")
  | .extension value | .verifiedMime value =>
    if value = "" ∨ value.utf8ByteSize > 255 then .error (.invalidRule "invalid predicate value")
    else .ok ()
  | .sourceDirectory value => validateRelativeDirectory value
  | .sourceRoot _ | .completed => .ok ()

def validateRule (glob : Glob) (rule : Rule) : Except RuleError Unit := do
  if rule.predicates = [] then throw (.invalidRule "predicates must not be empty")
  validateRelativeDirectory rule.destinationDirectory
  rule.predicates.forM (validatePredicate glob)

/-- `str::eq_ignore_ascii_case`. -/
def eqIgnoreAsciiCase (a b : String) : Bool := toAsciiLowercase a == toAsciiLowercase b

def predicateMatches (glob : Glob) (facts : FileFacts) : Predicate → Bool
  | .extension value => facts.extension.any fun v => eqIgnoreAsciiCase v value
  | .verifiedMime value => facts.verifiedMime == some value
  | .filenameGlob value => ((glob value).map fun matcher => matcher facts.filename).getD false
  | .sourceRoot id => facts.sourceRootId == id
  | .sourceDirectory value => facts.sourceDirectory == value
  | .completed => facts.completed

/-- Bytewise order, as `Ord` for `String`. -/
def bytesLe : Bytes → Bytes → Bool
  | [], _ => true
  | _ :: _, [] => false
  | a :: as, b :: bs => a < b || (a == b && bytesLe as bs)

/-- The derived order: root first, then directory. -/
def Destination.le (a b : Destination) : Bool :=
  a.rootId.value < b.rootId.value ||
    (a.rootId == b.rootId && bytesLe (bytes a.directory) (bytes b.directory))

/-- `collect::<BTreeSet<_>>`: sorted, each once. -/
def sortedSet (ds : List Destination) : List Destination :=
  ds.dedup.insertionSort fun a b => a.le b

/-- The rules whose predicates all match, validating each rule on the way. -/
def matchingRules (glob : Glob) (facts : FileFacts) : List Rule → Except RuleError (List Rule)
  | [] => .ok []
  | rule :: rules => do
    validateRule glob rule
    let rest ← matchingRules glob facts rules
    .ok (if rule.predicates.all (predicateMatches glob facts) then rule :: rest else rest)

def Rule.target (rule : Rule) : Destination := ⟨rule.destinationRootId, rule.destinationDirectory⟩

def evaluateRules (glob : Glob) (rules : List Rule) (facts : FileFacts) :
    Except RuleError RuleDecision := do
  if rules.length > maxRules then throw .tooManyRules
  let found ← matchingRules glob facts rules
  match (found.map Rule.priority).max? with
  | none => return .abstain "No deterministic rule matched"
  | some topPriority =>
    let top := found.filter fun rule => rule.priority = topPriority
    let ruleIds := top.map Rule.id
    match sortedSet (top.map Rule.target) with
    | [destination] =>
      return .destination destination ruleIds
        ("Unique destination from priority " ++ toString topPriority ++ " rule set")
    | destinations =>
      return .tie destinations ruleIds
        ("Conflicting destinations at priority " ++ toString topPriority)

/-! ## Where a decision comes from -/

section
variable {glob : Glob} {facts : FileFacts} {rules found : List Rule}

theorem matchingRules_sublist (h : matchingRules glob facts rules = .ok found) :
    found.Sublist rules := by
  induction rules generalizing found with
  | nil =>
    cases h
    exact List.Sublist.refl []
  | cons rule rules ih =>
    simp only [matchingRules, bind, Except.bind] at h
    split at h
    · cases h
    · split at h
      · cases h
      · next rest hrest =>
        cases h
        split
        · exact (ih hrest).cons_cons rule
        · exact (ih hrest).cons rule

theorem validateRule_of_matching (h : matchingRules glob facts rules = .ok found) :
    ∀ rule ∈ rules, validateRule glob rule = .ok () := by
  induction rules generalizing found with
  | nil => intro rule hr; cases hr
  | cons rule rules ih =>
    simp only [matchingRules, bind, Except.bind] at h
    split at h
    · cases h
    · next hvalid =>
      split at h
      · cases h
      · next rest hrest =>
        intro other ho
        rcases List.mem_cons.mp ho with rfl | ho
        · exact hvalid
        · exact ih hrest other ho

/-- Rules that are evaluated are valid. -/
theorem validateRule_of_evaluate {decision : RuleDecision}
    (h : evaluateRules glob rules facts = .ok decision) :
    ∀ rule ∈ rules, validateRule glob rule = .ok () := by
  unfold evaluateRules at h
  simp only [bind, Except.bind] at h
  split at h
  · cases h
  · split at h
    · cases h
    · next hfound => exact validateRule_of_matching hfound

/-- The destination decided on is the target of a rule. -/
theorem exists_rule_of_evaluate {d : Destination} {ruleIds : List Uuid} {reason : String}
    (h : evaluateRules glob rules facts = .ok (.destination d ruleIds reason)) :
    ∃ rule ∈ rules, rule.target = d := by
  unfold evaluateRules at h
  simp only [bind, Except.bind, pure, Except.pure] at h
  split at h
  · cases h
  · split at h
    · cases h
    · next found hfound =>
      split at h
      · cases h
      · next topPriority _ =>
        split at h
        · next destination hset =>
          cases h
          have hd : d ∈ sortedSet ((found.filter fun rule => rule.priority = topPriority).map
              Rule.target) := by
            rw [hset]
            exact List.mem_singleton_self d
          unfold sortedSet at hd
          rw [List.mem_insertionSort, List.mem_dedup] at hd
          obtain ⟨rule, hr, ht⟩ := List.mem_map.mp hd
          exact ⟨rule, (matchingRules_sublist hfound).subset (List.mem_of_mem_filter hr), ht⟩
        · cases h

end

end SortingHat
