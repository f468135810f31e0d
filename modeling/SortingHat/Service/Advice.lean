import SortingHat.Service.Alone

/-!
# What the agent can suggest

The output of the agent is checked by the adapter and used where the rules do not
decide. What is proposed is compared with what a service without the agent decides on
the same facts.

* `Replies`: an answer that is taken;
* `Suggested`: where destination, reason and provenance come from;
* `Sniffs`: what `sniff_mime` says of the file;
* `agent_suggests`: every proposal is made so.
-/

namespace SortingHat
open Posix Effect Text
open Journal (Row Database State)

/-- What the agent is asked. -/
def requestFor (state : PersistentState) (facts : FileFacts) (size : Nat) (correlationId : Uuid) :
    AgentRequest :=
  { schemaVersion := 1, correlationId, filenameExtension := facts.extension
    verifiedMime := facts.verifiedMime, sizeBucket := sizeBucket size
    sourceRootId := facts.sourceRootId
    allowedDestinationIds := (state.roots.filter Root.destination).map Root.id }

/-- The agent is asked in this step and gives a well-formed answer. -/
structure Replies (P : Platform) (state : PersistentState) (facts : FileFacts) (size : Nat)
    (correlationId : Uuid) (t : Tick) (response : AgentResponse) : Prop where
  enabled : state.agent.enabled = true
  configured : state.agent.executable ≠ none
  fits : Json.byteLength (requestFor state facts size correlationId).json.compact ≤ maxMetadataBytes
  ran : t.fault = none
  output : ∃ stdout, t.child = .exited true stdout ∧ stdout.length ≤ maxOutputBytes ∧
    P.decodeResponse stdout = some response
  version : response.schemaVersion = 1
  correlated : response.correlationId = correlationId
  short : response.reason.utf8ByteSize ≤ 2048
  offered : ∀ id, response.destinationId = some id →
    ∃ root ∈ state.roots, root.destination = true ∧ root.id = id

/-- With these settings of the agent the service decides on destination, reason and
provenance of the proposal at once. -/
def DecidesAs (P : Platform) (state : PersistentState) (facts : FileFacts) (size : Nat)
    (ruled : RuleDecision) (p : Proposal) (agent : AgentSettings) : Prop :=
  ∃ warning, decideDestination P { state with agent } facts size ruled =
    pure ⟨p.destination, p.reason, p.provenance, warning⟩

/-- Where the destination of a proposal comes from: the rules, or an answer. -/
structure Suggested (P : Platform) (A : Tick → Prop) (state : PersistentState) (facts : FileFacts)
    (size : Nat) (correlationId : Uuid) (ruled : RuleDecision) (p : Proposal) : Prop where
  /-- The rules decide, whatever the agent. -/
  decided : ∀ d ruleIds reason, ruled = .destination d ruleIds reason →
    p.destination = some ⟨d.rootId, d.directory⟩ ∧
      ∀ agent, DecidesAs P state facts size ruled p agent
  /-- The rules do not decide: nothing, or the folder of a root that an answer names. -/
  undecided : (∀ d ruleIds reason, ruled ≠ .destination d ruleIds reason) →
    p.destination = none ∨ ∃ root ∈ state.roots, root.destination = true ∧
      p.destination = some ⟨root.id, "."⟩ ∧ ∃ t, A t ∧ ∃ response,
        Replies P state facts size correlationId t response ∧ response.destinationId = some root.id
  /-- Without an answer it is as without an agent. -/
  failed : (∀ t, A t → ∀ response, ¬ Replies P state facts size correlationId t response) →
    ∀ agent : AgentSettings, agent.enabled = false → DecidesAs P state facts size ruled p agent

section
variable {P : Platform} {A : Tick → Prop} {s : Service} {w : World} {facts : FileFacts} {size : Nat}
  {state : PersistentState} {correlationId : Uuid}

/-! ## The answer -/

theorem acceptResponse_eq_ok {request : AgentRequest} {success : Bool} {stdout : Bytes}
    {response : AgentResponse} (h : acceptResponse P request success stdout = .ok response) :
    success = true ∧ stdout.length ≤ maxOutputBytes ∧ P.decodeResponse stdout = some response ∧
      response.schemaVersion = 1 ∧ response.correlationId = request.correlationId ∧
      response.reason.utf8ByteSize ≤ 2048 := by
  unfold acceptResponse at h
  split at h
  · cases h
  · next hends =>
    rw [not_or, not_lt] at hends
    split at h
    · cases h
    · next decoded hdecoded =>
      split at h
      · cases h
      · next hshape =>
        split at h
        · cases h
        · cases h
          simp only [not_or, not_not, not_lt] at hshape
          exact ⟨by simpa using hends.1, hends.2, hdecoded, hshape⟩

theorem classify_replies {executable : String} {fs : FileSystem} (henabled : state.agent.enabled = true)
    (hexecutable : state.agent.executable = some executable) :
    wpE A (classify P (some executable) (requestFor state facts size correlationId))
      (fun response _ => ∃ t, A t ∧ Replies P state facts size correlationId t response)
      (fun _ _ => True) (fun _ => True) fs := by
  unfold classify
  rw [wpE_bind, wpE_orFail]
  refine ⟨fun _ => trivial, fun _ _ => ?_⟩
  rw [wpE_bind, wpE_failIf]
  refine ⟨fun _ => trivial, fun hfits => ?_⟩
  rw [wpE_bind]
  refine ⟨trivial, fun t ht => ?_⟩
  dsimp only
  rw [Prog.wp_done]
  cases hfault : t.fault with
  | some e => exact trivial
  | none =>
    cases hchild : t.child with
    | notStarted => exact trivial
    | timedOut => exact trivial
    | exited success stdout =>
      dsimp only
      cases hr : acceptResponse P (requestFor state facts size correlationId) success stdout with
      | error e => exact trivial
      | ok response =>
        obtain ⟨rfl, hlength, hdecoded, hversion, hcorrelated, hshort⟩ := acceptResponse_eq_ok hr
        refine ⟨t, ht, henabled, by rw [hexecutable]; nofun, Nat.not_lt.mp hfits, hfault,
          ⟨stdout, hchild, hlength, hdecoded⟩, hversion, hcorrelated, hshort, fun id hid => ?_⟩
        obtain ⟨root, hroot, hrid⟩ := List.mem_map.mp (acceptResponse_offered hr hid)
        obtain ⟨hm, huse⟩ := List.mem_filter.mp hroot
        exact ⟨root, hm, huse, hrid⟩

/-- What asking comes to: the fallback, or an answer. -/
def Heard (P : Platform) (A : Tick → Prop) (state : PersistentState) (facts : FileFacts) (size : Nat)
    (correlationId : Uuid) (reason provenance : String) (decision : Decision) : Prop :=
  (decision.destination = none ∧ decision.reason = reason ∧ decision.provenance = provenance) ∨
    ∃ t, A t ∧ ∃ response, Replies P state facts size correlationId t response ∧
      decision.destination = response.destinationId.map fun id => ⟨id, "."⟩

-- what is sent to the agent is not computed here
seal classify in
theorem agentOrFallback_wp (reason provenance : String) :
    wpS A (agentOrFallback P s.state facts size reason provenance)
      (fun decision s' _ => s' = s ∧
        Heard P A s.state facts size (P.uuid w.drawn) reason provenance decision)
      (fun _ _ _ => False) (fun _ => True) s w := by
  have hfallback : ∀ warning, s = s ∧ Heard P A s.state facts size (P.uuid w.drawn) reason
      provenance ⟨none, reason, provenance, some warning⟩ := fun _ => ⟨rfl, .inl ⟨rfl, rfl, rfl⟩⟩
  unfold agentOrFallback
  split
  · exact (wpS_pure _).mpr (hfallback _)
  · next henabled =>
    split
    · exact (wpS_pure _).mpr (hfallback _)
    · next executable hexecutable =>
      dsimp only
      split
      · exact (wpS_pure _).mpr (hfallback _)
      · refine (wpS_bind _ _).mpr (draw_wp trivial ?_)
        refine (wpS_bind _ _).mpr ((wpS_embed _ _).mpr ((wpE_inPart _ _).mpr
          ((wpE_observe _).mpr (wpE_mono (classify_replies (Bool.eq_true_of_not_eq_false henabled)
            hexecutable) ?_ ?_ fun _ _ => trivial))))
        · rintro response fs ⟨t, ht, hreplies⟩
          dsimp only
          split
          · next rootId hid =>
            refine (wpS_pure _).mpr ⟨rfl, .inr ⟨t, ht, response, hreplies, ?_⟩⟩
            rw [hid]
            rfl
          · next hid =>
            refine (wpS_pure _).mpr ⟨rfl, .inr ⟨t, ht, response, hreplies, ?_⟩⟩
            rw [hid]
            rfl
        · exact fun _ fs _ => (wpS_pure _).mpr (hfallback _)

/-! ## The decision -/

/-- Where the rules do not decide, the fallback is what a service without the agent says. -/
theorem Heard.suggested {reason provenance : String} {ruled : RuleDecision} {decision : Decision}
    {p : Proposal} (h : Heard P A state facts size correlationId reason provenance decision)
    (hundecided : ∀ d ruleIds reason, ruled ≠ .destination d ruleIds reason)
    (hruled : ∀ agent, decideDestination P { state with agent } facts size ruled =
      agentOrFallback P { state with agent } facts size reason provenance)
    (hdestination : p.destination = decision.destination) (hreason : p.reason = decision.reason)
    (hprovenance : p.provenance = decision.provenance) :
    Suggested P A state facts size correlationId ruled p := by
  refine ⟨fun d ruleIds reason he => absurd he (hundecided d ruleIds reason), fun _ => ?_,
    fun hfails agent hdisabled => ?_⟩
  · rw [hdestination]
    rcases h with ⟨hnone, -⟩ | ⟨t, ht, response, hreplies, hanswer⟩
    · exact .inl hnone
    · cases hid : response.destinationId with
      | none =>
        rw [hid] at hanswer
        exact .inl hanswer
      | some id =>
        rw [hid] at hanswer
        obtain ⟨root, hm, huse, rfl⟩ := hreplies.offered id hid
        exact .inr ⟨root, hm, huse, hanswer, t, ht, response, hreplies, hid⟩
  · rcases h with ⟨hnone, hreason', hprovenance'⟩ | ⟨t, ht, response, hreplies, -⟩
    · refine ⟨some "No deterministic decision; metadata agent is disabled",
        (hruled agent).trans ?_⟩
      rw [hdestination, hreason, hprovenance, hnone, hreason', hprovenance']
      unfold agentOrFallback
      rw [if_pos hdisabled]
    · exact absurd hreplies (hfails t ht response)

theorem decideDestination_wp (ruled : RuleDecision) :
    wpS A (decideDestination P s.state facts size ruled)
      (fun decision s' _ => s' = s ∧ ∀ p : Proposal, p.destination = decision.destination →
        p.reason = decision.reason → p.provenance = decision.provenance →
        Suggested P A s.state facts size (P.uuid w.drawn) ruled p)
      (fun _ _ _ => False) (fun _ => True) s w := by
  cases ruled with
  | destination d ruleIds reason =>
    refine (wpS_pure _).mpr ⟨rfl, fun p hdestination hreason hprovenance => ?_⟩
    have hsame : ∀ agent, DecidesAs P s.state facts size (.destination d ruleIds reason) p agent := by
      intro agent
      refine ⟨none, ?_⟩
      rw [hdestination, hreason, hprovenance]
      rfl
    refine ⟨?_, fun h => absurd rfl (h d ruleIds reason), fun _ agent _ => hsame agent⟩
    rintro _ _ _ ⟨rfl⟩
    exact ⟨hdestination, hsame⟩
  | tie destinations ruleIds reason =>
    refine wpS_mono (agentOrFallback_wp reason "deterministic_tie") ?_ (fun _ _ _ h => h)
      fun _ h => h
    rintro decision s' w' ⟨rfl, hheard⟩
    exact ⟨rfl, fun p => hheard.suggested nofun fun _ => rfl⟩
  | abstain reason =>
    refine wpS_mono (agentOrFallback_wp reason "deterministic_abstain") ?_ (fun _ _ _ h => h)
      fun _ h => h
    rintro decision s' w' ⟨rfl, hheard⟩
    exact ⟨rfl, fun p => hheard.suggested nofun fun _ => rfl⟩

/-! ## The proposal -/

/-- `sniff_mime` returns this of the file, in the calls it gets. -/
def Sniffs (A : Tick → Prop) (fs : FileSystem) (path : Bytes) (mime : Option String) : Prop :=
  ∃ (ticks : List Tick) (fs' : FileSystem), (∀ t ∈ ticks, A t) ∧
    (ExceptT.run (sniffMime path)).after ticks fs = (.done (.ok mime), fs')

/-- The proposal is made of what the rules and the agent say of the file, as it is read
from `fs`. -/
def Proposes (P : Platform) (A : Tick → Prop) (fs : FileSystem) (state : PersistentState)
    (root : Root) (relative : Bytes) (correlationId : Uuid) (p : Proposal) : Prop :=
  p.status = .proposed ∧ p.sourceRootId = root.id ∧ p.sourceRelative = encodeRelative relative ∧
    ∃ mime ruled, Sniffs A fs (Path.join (bytes root.path) relative) mime ∧
      evaluateRules P.glob state.rules
        { factsFor relative root.id true with verifiedMime := mime } = .ok ruled ∧
      Suggested P A state { factsFor relative root.id true with verifiedMime := mime } p.size
        correlationId ruled p

/-- A call is specified by its own runs on the files. -/
theorem files_wp {α δ : Type} {f : δ → ServiceError} {y : Fallible Tick FileSystem δ α}
    {Q : α → Service → World → Prop} {E : ServiceError → Service → World → Prop}
    (hQ : ∀ a fs (ticks : List Tick), (∀ t ∈ ticks, A t) →
      (ExceptT.run y).after ticks w.fs = (.done (.ok a), fs) → Q a s (World.files.put fs w))
    (hE : ∀ e fs, E e s (World.files.put fs w)) :
    wpS A (embed f (inPart World.files y)) Q E (fun _ => True) s w := by
  refine (wpS_embed _ _).mpr ((wpE_inPart _ _).mpr
    (Prog.wp_mono (Prog.wp_runs _ _) ?_ fun _ _ => trivial))
  rintro (e | a) fs ⟨ticks, hticks, hrun⟩
  · exact hE _ fs
  · exact hQ a fs ticks hticks hrun

theorem propose_wp (root : Root) (relative : Bytes) (identity : Identity) :
    wpS A (propose P root relative identity)
      (fun created s' _ => created = true ∧ ∃ p,
        Proposes P A w.fs s.state root relative (P.uuid w.drawn) p ∧
        s'.state = { s.state with proposals := s.state.proposals ++ [p] })
      (fun _ s' _ => s'.state = s.state) (fun _ => True) s w := by
  unfold propose
  refine (wpS_bind _ _).mpr (files_wp (fun mime fs ticks hticks hsniffed => ?_) fun _ _ => rfl)
  rw [wpS_bind, wpS_getState, wpS_bind]
  cases hruled : (evaluateRules P.glob s.state.rules
      { factsFor relative root.id true with verifiedMime := mime }).mapError
        fun _ => ServiceError.malformedState with
  | error e => exact rfl
  | ok ruled =>
    refine (wpS_bind _ _).mpr (wpS_mono (decideDestination_wp ruled) ?_ (fun _ _ _ h => h.elim)
      fun _ h => h)
    rintro decision s' w' ⟨rfl, hdecision⟩
    refine (wpS_bind _ _).mpr (wpS_mono (Q := fun _ s'' _ => s'' = s') (E := fun _ _ _ => False)
      (K := fun _ => True) ?_ ?_ (fun _ _ _ h => h.elim) fun _ h => h)
    · split
      · exact (wpS_pure _).mpr rfl
      · unfold moveWarning?
        refine (wpS_bind _ _).mpr ((wpS_embed _ _).mpr ((wpE_inPart _ _).mpr
          ((wpE_observe _).mpr (Prog.wp_trivial ?_ fun _ => trivial))))
        rintro (e | warning) fs <;> exact (wpS_pure _).mpr rfl
    rintro warning s'' w'' rfl
    refine (wpS_bind _ _).mpr (draw_wp trivial ?_)
    refine (wpS_bind _ _).mpr (wpS_inPart (fun _ db => ?_) (fun _ _ => rfl) fun _ => trivial)
    rw [wpS_bind, wpS_modifyState, wpS_pure]
    refine ⟨rfl, _, ⟨rfl, rfl, rfl, mime, ruled, ⟨ticks, fs, hticks, hsniffed⟩,
      Except.ok_of_mapError hruled, ?_⟩, rfl⟩
    exact hdecision _ rfl rfl rfl

/-- A call that leaves the files alone leaves them alone. -/
theorem alone_of_inert {δ : Type} {α : Type} {y : Fallible Tick FileSystem δ α}
    (hy : InertE Tick.Alone y) {ticks : List Tick} {fs fs' : FileSystem} {r : Except δ α}
    (hticks : ∀ t ∈ ticks, t.Alone)
    (h : (ExceptT.run y).after ticks fs = (.done r, fs')) : fs' = fs := by
  have hholds := Prog.wp_after (hy.wp fs) ticks hticks
  rw [h] at hholds
  cases r <;> exact hholds

theorem sampleStability_wp (key : String) (absolute : Bytes) :
    wpS A (sampleStability key absolute) (fun _ s' w' => s'.state = s.state ∧
        w'.drawn = w.drawn ∧ (Quiet A → w'.fs = w.fs))
      (fun _ s' _ => s'.state = s.state) (fun _ => True) s w := by
  unfold sampleStability
  refine (wpS_bind _ _).mpr ?_
  refine (wpS_bind _ _).mpr (files_wp (fun found fs ticks hticks hrun => ?_) fun _ _ => rfl)
  refine ⟨rfl, rfl, fun hA => ?_⟩
  exact alone_of_inert (sample_alone _ _ _) (fun t ht => hA t (hticks t ht)) hrun

/-- What a look at one file can do to the queue: a proposal is added, or nothing. While no
other process is at work it is made of the file as it was. -/
def Considered (P : Platform) (A : Tick → Prop) (w : World) (state : PersistentState) (root : Root)
    (relative : Bytes) (created : Bool) (state' : PersistentState) : Prop :=
  if created then ∃ fs p, (Quiet A → fs = w.fs) ∧
    Proposes P A fs state root relative (P.uuid w.drawn) p ∧
    state' = { state with proposals := state.proposals ++ [p] }
  else state' = state

theorem consider_wp (root : Root) (relative : Bytes) :
    wpS A (consider P root relative)
      (fun created s' _ => Considered P A w s.state root relative created s'.state)
      (fun _ s' _ => s'.state = s.state) (fun _ => True) s w := by
  unfold consider
  rw [wpS_bind, wpS_getState]
  dsimp only
  split
  · exact (wpS_pure _).mpr rfl
  split
  · exact (wpS_pure _).mpr rfl
  refine (wpS_bind _ _).mpr (wpS_mono (sampleStability_wp _ _) ?_ (fun _ _ _ h => h) fun _ h => h)
  rintro stable s₁ w₁ ⟨hstate, hdrawn, hfs⟩
  split
  · exact (wpS_pure _).mpr hstate
  refine (wpS_bind _ _).mpr (files_wp (fun identity fs ticks hticks hrun => ?_) fun _ _ => hstate)
  split
  · exact (wpS_pure _).mpr hstate
  refine wpS_mono (propose_wp root relative identity) ?_ ?_ fun _ h => h
  · rintro created s' w' ⟨rfl, p, hp, hs'⟩
    have hid : P.uuid (World.files.put fs w₁).drawn = P.uuid w.drawn := congrArg P.uuid hdrawn
    rw [hid, hstate] at hp
    rw [hstate] at hs'
    refine ⟨fs, p, fun hA => ?_, hp, hs'⟩
    exact (alone_of_inert (identity_alone _) (fun t ht => hA t (hticks t ht)) hrun).trans (hfs hA)
  · exact fun _ s' _ h => h.trans hstate

/-- **The agent only suggests.** Whatever it answers, a proposal has the destination that
the rules decide on, or none, or the folder of a registered destination root that a
well-formed answer to this request names. The facts are those of the file as it is read;
while no other process is at work, that is as it was. -/
theorem agent_suggests {root : Root} {relative : Bytes} {ticks : List Tick}
    {r : Except ServiceError Bool} {s' : Service} {w' : World}
    (h : ((consider P root relative).start s).after ticks w = (.done (r, s'), w')) :
    (r = .ok true ∧ ∃ fs p, ((∀ t ∈ ticks, t.Alone) → fs = w.fs) ∧
      Proposes P (fun t => t ∈ ticks) fs s.state root relative (P.uuid w.drawn) p ∧
      s'.state = { s.state with proposals := s.state.proposals ++ [p] }) ∨
    (r ≠ .ok true ∧ s'.state = s.state) := by
  have hwp := Prog.wp_after (consider_wp (P := P) (A := fun t => t ∈ ticks) (s := s) (w := w) root
    relative) ticks fun _ ht => ht
  rw [h] at hwp
  match r, hwp with
  | .error e, hwp => exact .inr ⟨nofun, hwp⟩
  | .ok false, hwp => exact .inr ⟨nofun, hwp⟩
  | .ok true, hwp => exact .inl ⟨rfl, hwp⟩

end

/-- The answer that the root with id 1 suits, to the request with id 2. -/
def sampleAnswer : Bytes :=
  bytes ("\x7b\"schema_version\":1,\"correlation_id\":" ++
    "\"00000000-0000-0000-0000-000000000002\",\"destination_id\":" ++
    "\"00000000-0000-0000-0000-000000000001\",\"reason\":\"hats\"\x7d")

/-- A library that decodes it. -/
def Platform.answering : Platform :=
  { Platform.sample with
    decodeResponse := fun stdout =>
      if stdout = sampleAnswer then some ⟨1, ⟨2⟩, some ⟨1⟩, "hats"⟩ else none }

/-- Steps in which the agent gives it. -/
def answeringAt (second : Int) : List Tick :=
  (quietAt second).map fun t => { t with child := .exited true sampleAnswer }

/-- A service that has seen `/w/a` before and asks the agent about it. -/
def adviceService : Service where
  state := { sampleState [] with agent := ⟨true, some "sorter", [], true⟩ }
  stability _ := ⟨some (⟨0, 4, 2, 5⟩, 0)⟩

def adviceWorld : World := { (Machine.initial sampleFiles).world with drawn := 2 }

/-- The agent sends `/w/a` to the root it names. -/
theorem agent_suggests_folder : ∃ p s' w',
    ((consider .answering ⟨⟨0⟩, "/w", true, false⟩ (bytes "a")).start adviceService).after
      (answeringAt 2) adviceWorld = (.done (.ok true, s'), w') ∧
    p.destination = some ⟨⟨1⟩, "."⟩ ∧
    Proposes .answering (fun t => t ∈ answeringAt 2) sampleFiles adviceService.state
      ⟨⟨0⟩, "/w", true, false⟩ (bytes "a") ⟨2⟩ p := by
  have hanswer : (((consider .answering ⟨⟨0⟩, "/w", true, false⟩ (bytes "a")).start
      adviceService).after (answeringAt 2) adviceWorld).1.result?.any (fun r =>
        r.1.toOption.any fun made => made && r.2.state.proposals.all fun p =>
          decide (p.destination = some ⟨⟨1⟩, "."⟩)) = true := by decide +kernel
  generalize hafter : ((consider .answering ⟨⟨0⟩, "/w", true, false⟩ (bytes "a")).start
    adviceService).after (answeringAt 2) adviceWorld = answer at hanswer ⊢
  obtain ⟨made, s', hreturned, htest⟩ := exists_returned (fun made (s : Service) => made &&
    s.state.proposals.all fun p => decide (p.destination = some ⟨⟨1⟩, "."⟩)) hanswer
  obtain ⟨rfl, htest⟩ := Bool.and_eq_true_iff.mp htest
  have hreturned : answer = (.done (.ok true, s'), answer.2) := Prod.ext hreturned rfl
  rcases agent_suggests (hafter.trans hreturned) with ⟨-, fs, p, hfs, hp, hstate⟩ | ⟨hr, -⟩
  · have hmem : p ∈ s'.state.proposals := by
      rw [hstate]
      exact List.mem_append_right _ (List.mem_singleton_self p)
    obtain rfl := hfs fun t ht => by
      obtain ⟨quiet, hquiet, rfl⟩ := List.mem_map.mp ht
      exact quietAt_alone quiet hquiet
    exact ⟨p, s', _, hreturned, of_decide_eq_true (List.all_eq_true.mp htest p hmem), hp⟩
  · exact absurd rfl hr

end SortingHat
