import SortingHat.Daemon.Client

/-!
# The command line

`sortinghat`: its commands, the request each is sent as, and what is printed of the answer.

* `Cli.commandRequest`, `Cli.main`: the program as it is written, behind `clap`;
* `Cli.Command.call?`: what a command asks of the service;
* `request_asks`: by the request of a command the daemon understands what it asks;
* `command_carried_out`: a command is carried out once, or not at all.
-/

namespace SortingHat
open Posix Effect Text

namespace Cli

structure RevisionArgs where
  id : Uuid
  revision : Nat

inductive RootsCommand where
  | list
  | add (path : Bytes) (watch destination : Bool)
  | remove (id : Uuid)

inductive QueueCommand where
  | list

inductive ProposalCommand where
  | «show» (id : Uuid)
  | approve (args : RevisionArgs)
  | ignore (args : RevisionArgs)
  | destination (id : Uuid) (folder : String) (root : Uuid) (revision : Nat)
  | chooseFolder (id : Uuid) (folder : Bytes) (revision : Nat)
  | rename (id : Uuid) (name : String) (revision : Nat)

inductive RuleCommand where
  | list
  | create (proposal : Uuid) (priority : Int)

inductive AgentCommand where
  | status
  | enable (executable : String) (fixedArgs : List String)
  | disable

inductive Command where
  | status
  | pause
  | resume
  | scan
  | roots (command : RootsCommand)
  | queue (command : QueueCommand)
  | proposal (command : ProposalCommand)
  | rule (command : RuleCommand)
  | agent (command : AgentCommand)
  | undo (args : RevisionArgs)

/-- The parts of a request that depend on the command. -/
structure Parts where
  action : String
  proposalId : Option Uuid
  revision : Option Nat
  argument : Option String

def plain (action : String) : Parts := ⟨action, none, none, none⟩

def revisionRequest (action : String) (args : RevisionArgs) : Parts :=
  ⟨action, some args.id, some args.revision, none⟩

/-- `i32::to_string`. -/
def numberText (n : Int) : String := String.ofList (Json.number n)

/-- `command_request`, nothing where `json!` panics. -/
def commandRequest : Command → Option Parts
  | .status => some (plain "status")
  | .pause => some (plain "pause")
  | .resume => some (plain "resume")
  | .scan => some (plain "scan")
  | .roots .list => some (plain "roots_list")
  | .roots (.add path watch destination) =>
    (RootAdd.value? ⟨path, watch, destination⟩).map fun value =>
      ⟨"roots_add", none, none, some (jsonText value)⟩
  | .roots (.remove id) => some ⟨"roots_remove", some id, none, none⟩
  | .queue .list => some (plain "queue_list")
  | .proposal (.«show» id) => some ⟨"proposal_show", some id, none, none⟩
  | .proposal (.approve args) => some (revisionRequest "proposal_approve" args)
  | .proposal (.ignore args) => some (revisionRequest "proposal_ignore" args)
  | .proposal (.destination id folder root revision) =>
    some ⟨"proposal_destination", some id, some revision,
      some (jsonText (DestinationArg.value ⟨root, folder⟩))⟩
  -- A folder that is no text is left out of the request.
  | .proposal (.chooseFolder id folder revision) =>
    some ⟨"proposal_choose_folder", some id, some revision, toStr folder⟩
  | .proposal (.rename id name revision) =>
    some ⟨"proposal_rename", some id, some revision, some name⟩
  | .rule .list => some (plain "rules_list")
  | .rule (.create proposal priority) =>
    some ⟨"rule_create", some proposal, none, some (numberText priority)⟩
  | .agent .status => some (plain "agent_status")
  | .agent (.enable executable fixedArgs) =>
    some ⟨"agent_enable", none, none, some (jsonText (AgentArg.value ⟨executable, fixedArgs⟩))⟩
  | .agent .disable => some (plain "agent_disable")
  | .undo args => some (revisionRequest "undo" args)

def Parts.request (parts : Parts) (correlationId : Uuid) : Request :=
  ⟨1, correlationId, parts.action, parts.proposalId, parts.revision, parts.argument⟩

/-- What is printed where there is no answer. -/
def unavailable (correlationId : Uuid) (message : String) : Response :=
  { schemaVersion := 1, correlationId, ok := false, state := "runtime_unavailable", message
    data := .null }

/-- What the program prints, and the status it ends with. -/
structure Exit where
  printed : Bytes
  status : Nat

def Exit.of (texts : Texts) (correlationId : Uuid) (answer : Except ProtocolError Response) : Exit :=
  let response := match answer with
    | .ok response => response
    | .error e => unavailable correlationId (e.text texts)
  ⟨response.line, if response.ok then 0 else 1⟩

/-- `main` behind `Cli::parse`, with the id that is drawn for the request. -/
def main {m : Type → Type} [Monad m] (codec : Codec) (texts : Texts)
    (socket : Bytes → m (Except Errno (Stream Errno))) (correlationId : Uuid) (command : Command) :
    m Exit :=
  match commandRequest command with
  | none => pure ⟨[], 101⟩
  | some parts => do
    let answer ← Client.call codec socket (parts.request correlationId)
    return Exit.of texts correlationId answer

/-! ## What a command asks -/

/-- What a command asks of the service, nothing where it changes nothing or names a path that is
no text. -/
def Command.call? : Command → Option Call
  | .status | .roots .list | .queue .list | .proposal (.«show» _) | .rule .list
  | .agent .status => none
  | .pause => some (.setPaused true)
  | .resume => some (.setPaused false)
  | .scan => some .scanOnce
  | .roots (.add path watch destination) =>
    if (toStr path).isSome then some (.addRoot path watch destination) else none
  | .roots (.remove id) => some (.removeRoot id)
  | .proposal (.approve args) => some (.approve args.id args.revision)
  | .proposal (.ignore args) => some (.ignore args.id args.revision)
  | .proposal (.destination id folder root revision) =>
    some (.chooseDestination id revision root folder)
  | .proposal (.chooseFolder id folder revision) =>
    if (toStr folder).isSome then some (.chooseDestinationPath id revision folder) else none
  | .proposal (.rename id name revision) => some (.renameProposal id revision name)
  | .rule (.create id priority) => some (.createRuleFromProposal id priority)
  | .agent (.enable executable fixedArgs) => some (.configureMetadataAgent executable fixedArgs)
  | .agent .disable => some .disableAgent
  | .undo args => some (.undo args.id args.revision)

def RevisionArgs.Bounded (args : RevisionArgs) : Prop := args.id.Bounded ∧ args.revision < 2 ^ 64

/-- The numbers of a command are in the range of their types. -/
def Command.Bounded : Command → Prop
  | .roots (.remove id) | .proposal (.«show» id) => id.Bounded
  | .proposal (.approve args) | .proposal (.ignore args) | .undo args => args.Bounded
  | .proposal (.destination id _ root revision) => id.Bounded ∧ root.Bounded ∧ revision < 2 ^ 64
  | .proposal (.chooseFolder id _ revision) | .proposal (.rename id _ revision) =>
    id.Bounded ∧ revision < 2 ^ 64
  | .rule (.create id priority) => id.Bounded ∧ -(2 ^ 31) ≤ priority ∧ priority < 2 ^ 31
  | _ => True

theorem parse_numberText {n : Int} (h : -(2 ^ 31) ≤ n ∧ n < 2 ^ 31) :
    parseI32 (numberText n) = some n := by
  have hdigits : (Nat.toDigits 10 n.natAbs).any (fun c => !c.isDigit) = false := by
    rw [List.any_eq_false]
    intro c hc
    rw [Nat.isDigit_of_mem_toDigits (by decide) (by decide) hc]
    decide
  have hsize : (Nat.toDigits 10 n.natAbs).foldl (fun n c => 10 * n + (c.toNat - '0'.toNat)) 0 =
      n.natAbs := by
    rw [← Nat.ofDigitChars_eq_foldl, Nat.ofDigitChars_ten_toDigits]
  have hempty : ¬ (Nat.toDigits 10 n.natAbs = [] ∨
      (Nat.toDigits 10 n.natAbs).any (fun c => !c.isDigit) = true) := by
    rw [hdigits]
    exact fun h => h.elim Nat.toDigits_ne_nil nofun
  unfold parseI32 numberText Json.number
  rw [String.toList_ofList]
  by_cases hneg : n < 0
  · have hvalue : -(n.natAbs : Int) = n := by omega
    rw [if_pos hneg]
    split
    next negative rest heq =>
    obtain ⟨rfl, rfl⟩ := Prod.mk.inj heq
    rw [if_neg hempty, hsize]
    dsimp only
    rw [if_pos rfl, hvalue, if_pos h]
  · obtain ⟨c, digits, hcons, hdigit⟩ := Json.toDigits_cons n.natAbs
    have hminus : c ≠ '-' := fun he => absurd (he ▸ hdigit) (by decide)
    have hplus : c ≠ '+' := fun he => absurd (he ▸ hdigit) (by decide)
    have hvalue : (n.natAbs : Int) = n := by omega
    rw [hcons] at hempty hsize
    rw [if_neg hneg, hcons]
    split
    next negative rest heq =>
    split at heq
    · next he => exact absurd (List.cons.inj he).1 hminus
    · next he => exact absurd (List.cons.inj he).1 hplus
    · obtain ⟨rfl, rfl⟩ := Prod.mk.inj heq
      rw [if_neg hempty, hsize]
      dsimp only
      rw [if_neg Bool.false_ne_true, hvalue, if_pos h]

section
variable {P : Platform} {codec : Codec} {command : Command} {parts : Parts} {correlationId : Uuid}

theorem request_bounded (h : command.Bounded) (hid : correlationId.Bounded)
    (hparts : commandRequest command = some parts) : (parts.request correlationId).Bounded := by
  have hbounded : (∀ id ∈ parts.proposalId, id.Bounded) ∧
      ∀ revision ∈ parts.revision, revision < 2 ^ 64 := by
    unfold commandRequest at hparts
    split at hparts
    all_goals first
      | obtain ⟨value, -, rfl⟩ := Option.map_eq_some_iff.mp hparts
      | obtain rfl := Option.some.inj hparts
    all_goals simp_all [plain, revisionRequest, Command.Bounded, RevisionArgs.Bounded]
  exact ⟨Nat.one_lt_two_pow (by decide), hid, hbounded.1, hbounded.2⟩

theorem call_of_action {D : Decoders} (verb : Verb) (h : parts.action = verb.text) :
    (Verb.ofText? parts.action).bind ((parts.request correlationId).call? D) =
      (parts.request correlationId).call? D verb := by
  rw [h, Verb.ofText?_text, Option.bind_some]

/-- **By the request of a command the daemon understands what it asks.** -/
theorem request_asks (hcodec : codec.Exact) (h : command.Bounded)
    (hparts : commandRequest command = some parts) :
    (Verb.ofText? parts.action).bind ((parts.request correlationId).call? codec.arguments) =
      command.call? := by
  cases command with
  | status | pause | resume | scan | undo =>
    obtain rfl := Option.some.inj hparts
    rfl
  | roots command =>
    cases command with
    | list | remove =>
      obtain rfl := Option.some.inj hparts
      rfl
    | add path watch destination =>
      obtain ⟨value, hvalue, rfl⟩ := Option.map_eq_some_iff.mp hparts
      have htext : (toStr path).isSome = true := by
        obtain ⟨text, htext, -⟩ := Option.map_eq_some_iff.mp hvalue
        have htext : toStr path = some text := htext
        rw [htext]
        rfl
      have hread := hcodec.rootAdd _ _ hvalue
      rw [call_of_action .rootsAdd rfl]
      unfold Request.call? Command.call? Parts.request
      dsimp only [Option.bind]
      rw [hread, if_pos htext]
      rfl
  | queue command =>
    cases command
    obtain rfl := Option.some.inj hparts
    rfl
  | proposal command =>
    cases command with
    | «show» | approve | ignore | rename =>
      obtain rfl := Option.some.inj hparts
      rfl
    | destination id folder root revision =>
      obtain rfl := Option.some.inj hparts
      have hread := hcodec.destinationArg ⟨root, folder⟩ h.2.1
      rw [call_of_action .proposalDestination rfl]
      unfold Request.call? Command.call? Parts.request
      dsimp only [Option.bind]
      rw [hread]
      rfl
    | chooseFolder id folder revision =>
      obtain rfl := Option.some.inj hparts
      rw [call_of_action .proposalChooseFolder rfl]
      unfold Request.call? Command.call? Parts.request
      dsimp only
      cases htext : toStr folder with
      | none => rfl
      | some text =>
        have hfolder : bytes text = folder := bytes_of_toStr htext
        rw [if_pos Option.isSome_some, ← hfolder]
        rfl
  | rule command =>
    cases command with
    | list =>
      obtain rfl := Option.some.inj hparts
      rfl
    | create id priority =>
      obtain rfl := Option.some.inj hparts
      have hread := parse_numberText h.2
      rw [call_of_action .ruleCreate rfl]
      unfold Request.call? Command.call? Parts.request
      dsimp only [Option.bind]
      rw [hread]
      rfl
  | agent command =>
    cases command with
    | status | disable =>
      obtain rfl := Option.some.inj hparts
      rfl
    | enable executable fixedArgs =>
      obtain rfl := Option.some.inj hparts
      have hread := hcodec.agentArg ⟨executable, fixedArgs⟩
      rw [call_of_action .agentEnable rfl]
      unfold Request.call? Command.call? Parts.request
      dsimp only [Option.bind]
      rw [hread]
      rfl

/-! ## What becomes of a command -/

/-- Whether a command is sent, under the id that is drawn for it. -/
def Command.sent (correlationId : Uuid) (command : Command) : Bool :=
  (commandRequest command).any fun parts => Client.sends (parts.request correlationId)

theorem sent_eq (hparts : commandRequest command = some parts) :
    command.sent correlationId = Client.sends (parts.request correlationId) := by
  unfold Command.sent
  rw [hparts]
  rfl

theorem asks_of_valid {request : Request} {D : Decoders} (h : validateRequest request = true) :
    request.asks? D = (Verb.ofText? request.action).bind (request.call? D) := by
  unfold Request.asks?
  rw [if_pos h]
  rfl

theorem sends_valid {request : Request} (h : Client.sends request = true) :
    validateRequest request = true := (Bool.and_eq_true_iff.mp h).1

section
variable {s s' : Service} {w w' : World} {ticks : List Tick} {texts : Texts} {result : Exit}

theorem Exit.of_ok {response : Response} (h : response.ok = true) :
    Exit.of texts correlationId (.ok response) = ⟨response.line, 0⟩ := by
  unfold Exit.of
  dsimp only
  rw [if_pos h]

/-- The program succeeds on no answer but one that tells of a success. -/
theorem succeeds_only {response : Option Response} {ok : Bool}
    (h : (Exit.of texts correlationId (delivered response)).status = 0)
    (hreports : Reports response ok) : ok = true := by
  cases response with
  | none => cases h
  | some response =>
    by_cases hlong : response.line.length > maxIpcBytes
    · have hdelivered : delivered (some response) = .error .invalidResponse := if_pos hlong
      rw [hdelivered] at h
      cases h
    · have hdelivered : delivered (some response) = .ok response := if_neg hlong
      rw [hdelivered] at h
      have hok : response.ok = true := by
        by_contra hnot
        have hone : (Exit.of texts correlationId (.ok response)).status = 1 := if_neg hnot
        omega
      exact (hreports response rfl).symm.trans hok

/-- **A command is carried out once, or not at all.** A command that is not sent changes nothing
and fails. One that is sent is carried out once by the daemon, with just the arguments of the
command line; the program ends with the answer of the daemon, or with a failure where that is
too long or never comes, so that it succeeds only if the call has. -/
theorem command_carried_out (hcodec : codec.Exact) (hcommand : command.Bounded)
    (hid : correlationId.Bounded)
    (h : ((main codec texts (served P codec texts) correlationId command).run s).after ticks w =
      (.done (result, s'), w')) :
    (command.sent correlationId = false → s' = s ∧ w' = w ∧ result.status ≠ 0) ∧
    (command.sent correlationId = true → ∃ parts response, commandRequest command = some parts ∧
      (respond P codec texts (parts.request correlationId) s).after ticks w =
        (.done (response, s'), w') ∧
      CarriedOut P ticks s w s' w' (Reports response) command.call? ∧
      ((∀ r ∈ response, r.data.Keeps Fits fun _ => True) →
        result = Exit.of texts correlationId (delivered response) ∧
        (result.status = 0 → CarriedOut P ticks s w s' w' (· = true) command.call?))) := by
  unfold main at h
  unfold Command.sent
  cases hparts : commandRequest command with
  | none =>
    rw [hparts] at h
    obtain ⟨hdone, rfl⟩ := Prod.mk.inj h
    obtain ⟨rfl, rfl⟩ := Prod.mk.inj (Prog.done.inj hdone)
    exact ⟨fun _ => ⟨rfl, rfl, by decide⟩, nofun⟩
  | some parts =>
    rw [hparts] at h
    dsimp only at h
    rw [StateT.run_bind] at h
    obtain ⟨⟨answer, s₁⟩, w₁, hcall⟩ := Prog.finished_of_bind h
    rw [Prog.after_bind_left hcall] at h
    obtain ⟨hdone, rfl⟩ := Prod.mk.inj h
    obtain ⟨rfl, rfl⟩ := Prod.mk.inj (Prog.done.inj hdone)
    constructor
    · intro hsends
      obtain ⟨rfl, rfl, rfl⟩ := call_kept hsends hcall
      exact ⟨rfl, rfl, Nat.one_ne_zero⟩
    · intro hsends
      obtain ⟨response, hrespond, hcarried, hdelivered⟩ :=
        call_carried hcodec (request_bounded hcommand hid hparts) hsends hcall
      rw [asks_of_valid (sends_valid hsends)] at hcarried
      have hasks : (Verb.ofText? parts.action).bind
          ((parts.request correlationId).call? codec.arguments) = command.call? :=
        request_asks hcodec hcommand hparts
      have hcarried : CarriedOut P ticks s w _ _ (Reports response) command.call? :=
        hasks ▸ hcarried
      refine ⟨parts, response, rfl, hrespond, hcarried, fun hfits => ?_⟩
      obtain rfl := hdelivered hfits
      exact ⟨rfl, fun hstatus => hcarried.mono fun ok => succeeds_only hstatus⟩

theorem main_after {request : Parts} (hparts : commandRequest command = some request)
    {answer : Except ProtocolError Response}
    (h : ((Client.call codec (served P codec texts) (request.request correlationId)).run s).after
      ticks w = (.done (answer, s'), w')) :
    ((main codec texts (served P codec texts) correlationId command).run s).after ticks w =
      (.done (Exit.of texts correlationId answer, s'), w') := by
  unfold main
  rw [hparts]
  dsimp only
  rw [StateT.run_bind, Prog.after_bind_left h]
  rfl

end
end

/-- `sortinghat pause` succeeds, and the daemon has paused. -/
theorem command_carried_out_pause : ∃ (result : Exit) (s' : Service) (w' : World),
    s'.state.paused = true ∧ result = ⟨pausingAnswer.line, 0⟩ ∧
    CarriedOut .sample (quietAt 4) (.fresh (sampleState [sampleProposal 1 .proposed]))
      approvingMachine.world s' w' (· = true) (some (.setPaused true)) := by
  obtain ⟨s', w', hafter, hpaused⟩ := pausing
  have hbounded : pausingRequest.Bounded := ⟨by decide, by decide, nofun, nofun⟩
  have hsends : Client.sends pausingRequest = true := by decide +kernel
  have hparts : commandRequest .pause = some (plain "pause") := rfl
  have hmain := main_after hparts (call_after reader_exact hbounded hsends hafter)
  have hsent : Command.sent ⟨7⟩ .pause = true := by
    rw [sent_eq hparts]
    exact hsends
  have hid : Uuid.Bounded ⟨7⟩ := by decide
  have hcommand : Command.Bounded .pause := True.intro
  obtain ⟨-, hcarried⟩ := command_carried_out reader_exact hcommand hid hmain
  obtain ⟨parts, response, hparts', hrespond, -, hresult⟩ := hcarried hsent
  obtain rfl := Option.some.inj (hparts.symm.trans hparts')
  obtain ⟨hdone, -⟩ := Prod.mk.inj (hafter.symm.trans hrespond)
  obtain ⟨rfl, -⟩ := Prod.mk.inj (Prog.done.inj hdone)
  obtain ⟨hexit, hsucceeds⟩ := hresult pausingAnswer_fits
  rw [pausingAnswer_delivered] at hexit
  have hexit := hexit.trans (Exit.of_ok rfl)
  exact ⟨_, s', w', hpaused, hexit, hsucceeds (congrArg Exit.status hexit)⟩

end Cli
end SortingHat
