import SortingHat.Service.Deeds
import SortingHat.Service.Restart

/-!
# Every request is a chain of deeds

One lemma for each request, from the smallest helper up, and what an accepted
request has done besides: its result is saved, and no row is left on the way.

* `tracks_scanOnce`: a scan;
* `tracks_chooseDestination`, `tracks_renameProposal`, `tracks_ignore`: review;
* `tracks_approve`, `tracks_undo`: moves.
-/

namespace SortingHat
open Posix Effect Text
open Journal (Row Database State)

/-- What a request that answered `ok` has left behind. -/
structure Answered (s : Service) (w : World) (s' : Service) (w' : World) : Prop where
  kept : Installed s' w' ∨ s'.state = s.state ∧ w'.db = w.db ∧ w'.stateJson = w.stateJson
  settled : ∀ row ∈ w'.db.rows, row.interrupted = true → row ∈ w.db.rows

/-- An answer that has left the journal alone. -/
theorem Answered.of_db {s s' : Service} {w w' : World} (hi : Installed s' w')
    (hdb : w'.db = w.db) : Answered s w s' w' :=
  ⟨.inl hi, fun _ hm _ => hdb ▸ hm⟩

/-- An answer after which the journal is `db`. -/
theorem Answered.of_settled {s s' : Service} {w w' : World} {db : Database}
    (hi : Installed s' w') (hdb : w'.db = db)
    (hs : ∀ row ∈ db.rows, row.interrupted = true → row ∈ w.db.rows) : Answered s w s' w' :=
  ⟨.inl hi, fun row hm => hs row (hdb ▸ hm)⟩

theorem Except.ok_of_mapError {ε δ α : Type} {f : ε → δ} {r : Except ε α} {a : α}
    (h : r.mapError f = .ok a) : r = .ok a := by
  cases r with
  | error e => cases h
  | ok b => exact congrArg Except.ok (Except.ok.inj h)

section
variable {P : Platform} {A : Tick → Prop} {caller : Option Call} {α β : Type} {s₀ s : Service}
  {w₀ w : World}

theorem tracks_foldlM {f : β → α → ServiceM β} {J : β → Service → World → Prop} {l : List α}
    (hf : ∀ b a s w, a ∈ l → Deeds P A caller false s₀ w₀ s w → J b s w →
      Tracks P A caller s₀ w₀ (f b a) J s w)
    (b : β) (h : Deeds P A caller false s₀ w₀ s w) (hJ : J b s w) :
    Tracks P A caller s₀ w₀ (l.foldlM f b) J s w := by
  induction l generalizing b s w with
  | nil => exact tracks_pure h hJ
  | cons a l ih =>
    rw [List.foldlM_cons]
    apply tracks_bind ((hf b a s w List.mem_cons_self h hJ).mono _)
    intro b' s' w' h hJ _
    exact ih (fun b a s w ha => hf b a s w (List.mem_cons_of_mem _ ha)) b' h hJ

/-- A drawn id is the next one. Until it is used, only `drew` has been done. -/
theorem tracks_draw {f : Uuid → ServiceM β} {Q : β → Service → World → Prop}
    (h : Deeds P A caller false s₀ w₀ s w)
    (hf : Tracks P A caller s₀ w₀ (f (P.uuid w.drawn)) Q s { w with drawn := w.drawn + 1 }) :
    Tracks P A caller s₀ w₀ (draw P >>= f) Q s w := by
  refine ⟨(wpS_bind _ _).mpr ((wpS_embed _ _).mpr ((wpE_inPart _ _).mpr ⟨?_, fun _ _ => hf.wp⟩))⟩
  exact ⟨s, h.relax⟩

/-- An assignment that completes a deed begun by the step before. -/
theorem tracks_assign {g : PersistentState → PersistentState} {f : Unit → ServiceM β}
    {Q : β → Service → World → Prop}
    (h : Tracks P A caller s₀ w₀ (f ()) Q { s with state := g s.state } w) :
    Tracks P A caller s₀ w₀ (modifyState g >>= f) Q s w :=
  ⟨(wpS_bind _ _).mpr (wpS_modifyState.mpr h.wp)⟩

/-! ## Configuration -/

theorem tracks_setPaused (paused : Bool) (h : Deeds P A caller false s₀ w₀ s w) :
    Tracks P A caller s₀ w₀ (setPaused paused) (fun _ => Answered s w) s w := by
  unfold setPaused
  apply tracks_bind (tracks_modifyState h (.paused paused) _)
  intro h
  apply tracks_save h
  intro w' hi hdb _
  exact .of_db hi hdb

theorem tracks_configureMetadataAgent (executable : String) (fixedArgs : List String)
    (h : Deeds P A caller false s₀ w₀ s w) :
    Tracks P A caller s₀ w₀ (configureMetadataAgent executable fixedArgs)
      (fun _ => Answered s w) s w := by
  unfold configureMetadataAgent
  apply tracks_bind (tracks_failIf h _)
  intro _ h
  apply tracks_bind (tracks_modifyState h (.advised _) _)
  intro h
  apply tracks_bind (tracks_save h _)
  intro w' hi hdb _ h
  apply tracks_bind (tracks_get h _)
  intro h
  exact tracks_pure h (.of_db hi hdb)

theorem tracks_disableAgent (h : Deeds P A caller false s₀ w₀ s w) :
    Tracks P A caller s₀ w₀ disableAgent (fun _ => Answered s w) s w := by
  unfold disableAgent
  apply tracks_bind (tracks_modifyState h (.advised _) _)
  intro h
  apply tracks_bind (tracks_save h _)
  intro w' hi hdb _ h
  apply tracks_bind (tracks_get h _)
  intro h
  exact tracks_pure h (.of_db hi hdb)

theorem tracks_requireDirectory (path : Bytes) {Q : Unit → Service → World → Prop}
    (h : Deeds P A caller false s₀ w₀ s w) (hQ : ∀ fs, Q () s { w with fs }) :
    Tracks P A caller s₀ w₀ (requireDirectory path) Q s w := by
  unfold requireDirectory
  apply tracks_bind (tracks_files h _)
  intro _ fs h
  exact tracks_failIf h fun _ => hQ fs

/-- A new root is the only change, and saved. -/
theorem tracks_addRoot (path : Bytes) (watched destination : Bool) (henrols : Enrols caller = true)
    (habs : Absolute caller → Path.isAbsolute path = true)
    (h : Deeds P A caller false s₀ w₀ s w) :
    Tracks P A caller s₀ w₀ (addRoot P path watched destination)
      (fun root s' w' => Answered s w s' w' ∧ w'.db = w.db ∧
        s'.state = { s.state with roots := s.state.roots ++ [root] } ∧
        root.destination = destination) s w := by
  unfold addRoot
  apply tracks_bind (tracks_get h _)
  intro h
  apply tracks_bind (tracks_failIf h _)
  intro hroom h
  apply tracks_bind (tracks_requireDirectory path h _)
  intro fs₁ h
  apply tracks_bind (tracks_look h _)
  intro canonical fs₂ fs' hcanonical h
  apply tracks_bind (tracks_orFail h _)
  intro display hdisplay h
  apply tracks_bind (tracks_failIf h _)
  intro hfresh h
  apply tracks_bind (tracks_files h _)
  intro _ fs₃ h
  apply tracks_draw h
  apply tracks_assign
  rw [not_or, not_le] at hroom
  simp only [List.any_eq_true, decide_eq_true_eq, not_exists, not_and] at hfresh
  have huse : watched = true ∨ destination = true := by
    cases watched <;> cases destination <;> simp at hroom ⊢
  have hway : Absolute caller → Path.Canonical (bytes display) := by
    intro hcaller
    rw [bytes_of_toStr hdisplay]
    exact FileSystem.canonical_of_canonicalize (habs hcaller) hcanonical
  have h := h.snoc (@Deed.rooted P A caller false s _
    ⟨P.uuid w.drawn, display, watched, destination⟩ rfl
    hroom.1 huse hfresh henrols hway)
  apply tracks_bind (tracks_save h _)
  intro w' hi hdb _ h
  exact tracks_pure h ⟨.of_db hi hdb, hdb, rfl, rfl⟩

theorem tracks_removeRoot (id : Uuid) (hcaller : caller = some (.removeRoot id))
    (h : Deeds P A caller false s₀ w₀ s w) :
    Tracks P A caller s₀ w₀ (removeRoot id) (fun _ => Answered s w) s w := by
  unfold removeRoot
  apply tracks_bind (tracks_get h _)
  intro h
  apply tracks_bind (tracks_failIf h _)
  intro hfree h
  simp only [List.any_eq_true, Bool.and_eq_true, decide_eq_true_eq, not_exists, not_and] at hfree
  apply tracks_bind (tracks_modifyState h (.unrooted id hfree hcaller) _)
  intro h
  apply tracks_bind (tracks_failIf h _)
  intro _ h
  apply tracks_save h
  intro w' hi hdb _
  exact .of_db hi hdb

theorem tracks_createRuleFromProposal (id : Uuid) (priority : Int)
    (hcaller : caller = some (.createRuleFromProposal id priority))
    (h : Deeds P A caller false s₀ w₀ s w) :
    Tracks P A caller s₀ w₀ (createRuleFromProposal P id priority) (fun _ => Answered s w) s w := by
  unfold createRuleFromProposal
  apply tracks_bind (tracks_get h _)
  intro h
  apply tracks_bind (tracks_failIf h _)
  intro hroom h
  apply tracks_bind (tracks_orFail h _)
  intro proposal hfound h
  apply tracks_bind (tracks_orFail h _)
  intro destination hdestination h
  apply tracks_bind (tracks_check h _)
  intro source _ h
  apply tracks_bind (tracks_orFail h _)
  intro extension _ h
  apply tracks_draw h
  have hdrew := h.snoc .drew
  apply tracks_bind (tracks_check hdrew _)
  intro decision hdecision _
  apply tracks_assign
  have hvalid := validateRule_of_evaluate (Except.ok_of_mapError hdecision) _
    (List.mem_singleton_self _)
  have hid : proposal.id = id := by simpa using List.find?_some hfound
  have h := h.snoc (.ruled rfl (Nat.not_le.mp hroom) (List.mem_of_find?_eq_some hfound)
    hdestination rfl rfl hvalid (hid.symm ▸ hcaller))
  apply tracks_bind (tracks_save h _)
  intro w' hi hdb _ h
  exact tracks_pure h (.of_db hi hdb)

/-! ## Scanning -/

theorem tracks_walkPending (root : Bytes) (directories : Nat) (pending : List (Bytes × Nat))
    (result : List Bytes) (h : Deeds P A caller false s₀ w₀ s w) :
    Tracks P A caller s₀ w₀ (walkPending root directories pending result)
      (fun _ s' w' => s' = s ∧ ∃ fs, w' = { w with fs }) s w := by
  induction directories generalizing pending result w with
  | zero =>
    cases pending with
    | nil => exact tracks_pure h ⟨rfl, w.fs, rfl⟩
    | cons entry pending => exact tracks_throw h
  | succ directories ih =>
    cases pending with
    | nil => exact tracks_pure h ⟨rfl, w.fs, rfl⟩
    | cons entry pending =>
      unfold walkPending
      apply tracks_bind (tracks_failIf h _)
      intro _ h
      apply tracks_bind (tracks_files h _)
      intro entries fs h
      apply tracks_bind (tracks_check h _)
      intro next _ h
      apply (ih next.1 next.2 h).mono
      rintro _ s' w' - ⟨rfl, fs', rfl⟩
      exact ⟨rfl, fs', rfl⟩

/-- The agent can only name a destination it was offered. -/
theorem acceptResponse_offered {request : AgentRequest} {success : Bool} {stdout : Bytes}
    {response : AgentResponse} (h : acceptResponse P request success stdout = .ok response)
    {id : Uuid} (hid : response.destinationId = some id) :
    id ∈ request.allowedDestinationIds := by
  unfold acceptResponse at h
  split at h
  · cases h
  · split at h
    · cases h
    · split at h
      · cases h
      · split at h
        · cases h
        · next hoffered =>
          cases h
          rw [hid] at hoffered
          simpa using hoffered

theorem classify_offered {executable : Option String} {request : AgentRequest} {fs : FileSystem} :
    wpE A
      (observe (classify P executable request) :
        Fallible Tick FileSystem Errno (Except AgentError AgentResponse))
      (fun answer _ => ∀ response id, answer = .ok response → response.destinationId = some id →
        id ∈ request.allowedDestinationIds) (fun _ _ => True) (fun _ => True) fs := by
  have herror : ∀ (e : AgentError) (response : AgentResponse) (id : Uuid),
      Except.error e = .ok response → response.destinationId = some id →
        id ∈ request.allowedDestinationIds := fun _ _ _ h => nomatch h
  rw [wpE_observe]
  unfold classify
  rw [wpE_bind, wpE_orFail]
  refine ⟨fun _ => herror _, fun _ _ => ?_⟩
  rw [wpE_bind, wpE_failIf]
  refine ⟨fun _ => herror _, fun _ => ?_⟩
  rw [wpE_bind]
  refine ⟨trivial, fun t _ => ?_⟩
  dsimp only
  rw [Prog.wp_done]
  cases t.fault with
  | some e => exact herror _
  | none =>
    cases t.child with
    | notStarted => exact herror _
    | timedOut => exact herror _
    | exited success stdout =>
      dsimp only
      cases hr : acceptResponse P request success stdout with
      | error e => exact herror _
      | ok response =>
        rintro _ id ⟨rfl⟩ hid
        exact acceptResponse_offered hr hid

/-- What asking the agent can return: no destination, or the folder of a root. -/
theorem tracks_agentOrFallback (facts : FileFacts) (size : Nat) (reason provenance : String)
    (h : Deeds P A caller false s₀ w₀ s w) :
    Tracks P A caller s₀ w₀ (agentOrFallback P s.state facts size reason provenance)
      (fun decision s' w' => s' = s ∧ (∃ fs drawn, w' = { w with fs, drawn }) ∧
        ∀ c, decision.destination = some c → Chosen s.state c) s w := by
  have hsame : ∃ fs drawn, w = { w with fs, drawn } := ⟨w.fs, w.drawn, rfl⟩
  have hnone : ∀ c : DestinationChoice, none = some c → Chosen s.state c := fun _ h => nomatch h
  unfold agentOrFallback
  split
  · exact tracks_pure h ⟨rfl, hsame, hnone⟩
  · split
    · exact tracks_pure h ⟨rfl, hsame, hnone⟩
    · dsimp only
      split
      · exact tracks_pure h ⟨rfl, hsame, hnone⟩
      · apply tracks_draw h
        have h := h.snoc .drew
        apply tracks_bind (tracks_files_wp h classify_offered _)
        intro answer fs hanswer h
        split
        · exact tracks_pure h ⟨rfl, ⟨fs, _, rfl⟩, hnone⟩
        · next response =>
          split
          · next rootId hid =>
            refine tracks_pure h ⟨rfl, ⟨fs, _, rfl⟩, fun c hc => .inr ?_⟩
            cases hc
            have hoffered := hanswer response rootId rfl hid
            obtain ⟨root, hroot, hrid⟩ := List.mem_map.mp hoffered
            obtain ⟨hmem, huse⟩ := List.mem_filter.mp hroot
            exact ⟨rfl, root, hmem, huse, hrid⟩
          · exact tracks_pure h ⟨rfl, ⟨fs, _, rfl⟩, hnone⟩

/-- A destination decided on is a rule's, or the folder of a root. -/
theorem tracks_decideDestination {facts : FileFacts} {ruled : RuleDecision} (size : Nat)
    (hruled : evaluateRules P.glob s.state.rules facts = .ok ruled)
    (h : Deeds P A caller false s₀ w₀ s w) :
    Tracks P A caller s₀ w₀ (decideDestination P s.state facts size ruled)
      (fun decision s' w' => s' = s ∧ (∃ fs drawn, w' = { w with fs, drawn }) ∧
        ∀ c, decision.destination = some c → Chosen s.state c) s w := by
  cases ruled with
  | destination d ruleIds reason =>
    refine tracks_pure h ⟨rfl, ⟨w.fs, w.drawn, rfl⟩, fun c hc => .inl ?_⟩
    cases hc
    obtain ⟨rule, hr, ht⟩ := exists_rule_of_evaluate hruled
    exact ⟨rule, hr, congrArg Destination.rootId ht, congrArg Destination.directory ht⟩
  | tie _ _ reason => exact tracks_agentOrFallback _ _ _ _ h
  | abstain reason => exact tracks_agentOrFallback _ _ _ _ h

theorem tracks_moveWarning (source destination : Bytes) (h : Deeds P A caller false s₀ w₀ s w) :
    Tracks P A caller s₀ w₀ (moveWarning? source destination)
      (fun _ s' w' => s' = s ∧ ∃ fs, w' = { w with fs }) s w := by
  unfold moveWarning?
  apply tracks_bind (tracks_files h _)
  intro r fs h
  exact tracks_pure h ⟨rfl, fs, rfl⟩

/-- What a scan leaves alone: the configuration, and the rows that stand. -/
structure Scanning (s : Service) (w : World) (s' : Service) (w' : World) : Prop where
  roots : s'.state.roots = s.state.roots
  rules : s'.state.rules = s.state.rules
  settled : ∀ row ∈ w'.db.rows, row.interrupted = true → row ∈ w.db.rows

/-- Until something is proposed, a scan only samples. -/
def Untold (s : Service) (w : World) (s' : Service) (w' : World) : Prop :=
  s'.state = s.state ∧ w'.db = w.db ∧ w'.stateJson = w.stateJson

theorem Scanning.refl (s : Service) (w : World) : Scanning s w s w := ⟨rfl, rfl, fun _ h _ => h⟩

theorem Scanning.trans {s₁ s₂ : Service} {w₁ w₂ : World} (h : Scanning s w s₁ w₁)
    (h' : Scanning s₁ w₁ s₂ w₂) : Scanning s w s₂ w₂ :=
  ⟨h'.roots.trans h.roots, h'.rules.trans h.rules,
    fun row hm hi => h.settled row (h'.settled row hm hi) hi⟩

theorem Scanning.of_untold {s' : Service} {w' : World} (h : Untold s w s' w') :
    Scanning s w s' w' :=
  ⟨congrArg _ h.1, congrArg _ h.1, fun _ hm _ => h.2.1 ▸ hm⟩

theorem Untold.trans {s₁ s₂ : Service} {w₁ w₂ : World} (h : Untold s w s₁ w₁)
    (h' : Untold s₁ w₁ s₂ w₂) : Untold s w s₂ w₂ :=
  ⟨h'.1.trans h.1, h'.2.1.trans h.2.1, h'.2.2.trans h.2.2⟩

theorem tracks_propose {root : Root} {relative : Bytes} {identity : Identity}
    (hroot : root ∈ s.state.roots) (hwatched : root.watched = true)
    (hwhole : isPartial relative = false)
    (hunseen : s.state.proposals.any (sameFile identity) = false)
    (hsingle : ∀ q ∈ s.state.proposals, q.sourceRootId = root.id →
      q.sourceRelative = encodeRelative relative → q.status ≠ .proposed)
    (hroom : s.state.proposedCount < maxProposals) (hcaller : caller = some .scanOnce)
    (h : Deeds P A caller false s₀ w₀ s w) :
    Tracks P A caller s₀ w₀ (propose P root relative identity)
      (fun fresh s' w' => fresh = true ∧ Scanning s w s' w') s w := by
  unfold propose
  apply tracks_bind (tracks_files h _)
  intro mime fs₁ h
  apply tracks_bind (tracks_get h _)
  intro h
  apply tracks_bind (tracks_check h _)
  intro ruled hruled h
  apply tracks_bind ((tracks_decideDestination _ (Except.ok_of_mapError hruled) h).mono _)
  rintro decision s' w₁ - ⟨rfl, ⟨fs₂, drawn, rfl⟩, hchosen⟩ h
  apply tracks_bind (Tracks.mono (Q := fun _ s'' w' => s'' = s' ∧ ∃ fs, w' = { w with fs, drawn })
    _ _)
  · split
    · exact tracks_pure h ⟨rfl, fs₂, rfl⟩
    · exact tracks_moveWarning _ _ h
  rintro warning s'' w₂ - ⟨rfl, fs₃, rfl⟩ h
  apply tracks_draw h
  refine ⟨(wpS_bind _ _).mpr ((wpS_embed _ _).mpr ((wpE_inPart _ _).mpr ?_))⟩
  have hdrew := h.snoc .drew
  refine Journal.create_wp ⟨_, hdrew.relax⟩ (fun _ _ => hdrew.relax)
    fun t db ht hactive _ _ hi => ?_
  refine (wpS_bind _ _).mpr (wpS_modifyState.mpr ((wpS_pure true).mpr ?_))
  refine ⟨h.snoc (.proposed ?_ hi ⟨t, ht, rfl⟩ hcaller), rfl, ?_⟩
  · exact
      { id := rfl, row_id := rfl, revision := rfl, row_revision := rfl, status := rfl
        row_state := rfl, row_size := rfl
        source := ⟨root, hroot, hwatched, rfl, relative, rfl, hwhole, rfl, rfl, rfl⟩
        chosen := hchosen, unseen := hunseen, single := hsingle, room := hroom
        active := hactive }
  · refine ⟨rfl, rfl, fun row hm hinterrupted => ?_⟩
    have hm : row ∈ db.rows := hm
    rw [(Database.insert_eq_ok hi).2.1] at hm
    rcases List.mem_append.mp hm with hm | hm
    · exact hm
    · rw [List.mem_singleton.mp hm] at hinterrupted
      cases hinterrupted

theorem tracks_consider {root : Root} (relative : Bytes) (hroot : root ∈ s.state.roots)
    (hwatched : root.watched = true) (hroom : s.state.proposedCount < maxProposals)
    (hcaller : caller = some .scanOnce) (h : Deeds P A caller false s₀ w₀ s w) :
    Tracks P A caller s₀ w₀ (consider P root relative)
      (fun fresh s' w' => Scanning s w s' w' ∧ (fresh = false → Untold s w s' w')) s w := by
  have hself : Untold s w s w := ⟨rfl, rfl, rfl⟩
  unfold consider
  apply tracks_bind (tracks_get h _)
  intro h
  split
  · exact tracks_pure h ⟨.refl s w, fun _ => hself⟩
  next hwhole =>
  dsimp only
  split
  · exact tracks_pure h ⟨.refl s w, fun _ => hself⟩
  next hsingle =>
  have hsample : Tracks P A caller s₀ w₀
      (sampleStability (root.id.toText ++ ":" ++ encodeRelative relative)
      (Path.join (bytes root.path) relative)) (fun _ => Untold s w) s w := by
    unfold sampleStability
    refine tracks_bind ⟨⟨h, fun h => ?_⟩⟩
    apply tracks_bind (tracks_files h _)
    intro sampled fs h
    exact tracks_bind ⟨⟨h.snoc (.sampled _), fun h => tracks_pure h ⟨rfl, rfl, rfl⟩⟩⟩
  apply tracks_bind (hsample.mono _)
  intro stable s₁ w₁ _ htold h
  split
  · exact tracks_pure h ⟨.of_untold htold, fun _ => htold⟩
  apply tracks_bind (tracks_files h _)
  intro identity fs h
  have htold : Untold s w s₁ { w₁ with fs } := htold
  split
  · exact tracks_pure h ⟨.of_untold htold, fun _ => htold⟩
  next hunseen =>
  have hstate : s₁.state = s.state := htold.1
  apply (tracks_propose (hstate ▸ hroot) hwatched (Bool.eq_false_iff.mpr hwhole)
    (hstate ▸ Bool.eq_false_iff.mpr hunseen) _ (hstate ▸ hroom) hcaller h).mono
  · rintro fresh s₂ w₂ - ⟨rfl, hscan⟩
    exact ⟨(Scanning.of_untold htold).trans hscan, nofun⟩
  · rw [hstate]
    simpa only [List.any_eq_true, Bool.and_eq_true, decide_eq_true_eq, not_exists, not_and,
      and_imp] using hsingle

theorem tracks_stopIfFull (h : Deeds P A caller false s₀ w₀ s w) :
    Tracks P A caller s₀ w₀ stopIfFull
      (fun _ s' w' => s' = s ∧ w' = w ∧ s.state.proposedCount < maxProposals) s w := by
  unfold stopIfFull
  apply tracks_bind (tracks_get h _)
  intro h
  split
  · unfold pauseAtLimit
    apply tracks_bind (tracks_modifyState h (.paused true) _)
    intro h
    apply tracks_bind (tracks_save h _)
    intro w' _ _ _ h
    exact tracks_throw h
  · next hroom => exact tracks_pure h ⟨rfl, rfl, Nat.not_le.mp hroom⟩

/-- What stands after a part of a scan that started from `(s, w)` and has made
`created` proposals. -/
def Scanned (s : Service) (w : World) (created : Nat) (s' : Service) (w' : World) : Prop :=
  Scanning s w s' w' ∧ (created = 0 → Untold s w s' w')

theorem Scanned.files {created : Nat} {s' : Service} {w' : World} (h : Scanned s w created s' w')
    (fs : FileSystem) : Scanned s w created s' { w' with fs } :=
  ⟨⟨h.1.roots, h.1.rules, h.1.settled⟩, h.2⟩

theorem tracks_scanFile {s₁ : Service} {w₁ : World} {root : Root} (created : Nat)
    (relative : Bytes) (hroot : root ∈ s₁.state.roots) (hwatched : root.watched = true)
    (hcaller : caller = some .scanOnce) (h : Deeds P A caller false s₀ w₀ s w)
    (hs : Scanned s₁ w₁ created s w) :
    Tracks P A caller s₀ w₀ (scanFile P root created relative) (Scanned s₁ w₁) s w := by
  unfold scanFile
  apply tracks_bind ((tracks_stopIfFull h).mono _)
  rintro _ s' w' - ⟨rfl, rfl, hroom⟩ h
  apply tracks_bind ((tracks_consider relative
    (hs.1.roots ▸ hroot) hwatched hroom hcaller h).mono _)
  rintro fresh s₂ w₂ - ⟨hscan, hnone⟩ h
  cases fresh with
  | true => exact tracks_pure h ⟨hs.1.trans hscan, nofun⟩
  | false => exact tracks_pure h ⟨hs.1.trans hscan, fun h₀ => (hs.2 h₀).trans (hnone rfl)⟩

theorem tracks_scanOnce (hcaller : caller = some .scanOnce) (h : Deeds P A caller false s₀ w₀ s w) :
    Tracks P A caller s₀ w₀ (scanOnce P) (fun _ => Answered s w) s w := by
  have hself : Untold s w s w := ⟨rfl, rfl, rfl⟩
  unfold scanOnce
  apply tracks_bind (tracks_get h _)
  intro h
  split
  · exact tracks_pure h ⟨.inr hself, fun _ hm _ => hm⟩
  apply tracks_bind ((tracks_stopIfFull h).mono _)
  rintro _ s' w' - ⟨rfl, rfl, -⟩ h
  apply tracks_bind ((tracks_foldlM (J := Scanned s' w') _ 0 h
    ⟨.refl s' w', fun _ => hself⟩).mono _)
  · intro created root s₁ w₁ hroot h hs
    obtain ⟨hmem, hwatched⟩ := List.mem_filter.mp hroot
    unfold scanRoot boundedFiles
    apply tracks_bind ((tracks_walkPending _ _ _ _ h).mono _)
    rintro files s₂ w₂ - ⟨rfl, fs, rfl⟩ h
    apply tracks_foldlM (J := Scanned s' w') _ created h (hs.files fs)
    intro created relative s₃ w₃ _ h hs
    exact tracks_scanFile created relative hmem hwatched hcaller h hs
  · intro created s₁ w₁ _ hs h
    by_cases hcreated : created > 0
    · rw [if_pos hcreated]
      apply tracks_bind (tracks_save h _)
      intro w₂ hi hdb _ h
      exact tracks_pure h ⟨.inl hi, fun row hm => hs.1.settled row (hdb ▸ hm)⟩
    · rw [if_neg hcreated]
      refine tracks_bind (tracks_pure h fun h => ?_)
      have hsame := hs.2 (Nat.eq_zero_of_not_pos hcreated)
      exact tracks_pure h ⟨.inr hsame, hs.1.settled⟩

/-! ## Review -/

theorem findRoot_eq_some {state : PersistentState} {id : Uuid} {p : Root → Bool} {root : Root}
    (h : state.findRoot id p = some root) : root ∈ state.roots ∧ root.id = id ∧ p root = true := by
  have hp := List.find?_some h
  simp only [Bool.and_eq_true, decide_eq_true_eq] at hp
  exact ⟨List.mem_of_find?_eq_some h, hp⟩

theorem tracks_proposalAt (index : Nat) {Q : Proposal → Service → World → Prop}
    (h : Deeds P A caller false s₀ w₀ s w)
    (hQ : ∀ p, s.state.proposals[index]? = some p → Q p s w) :
    Tracks P A caller s₀ w₀ (proposalAt index) Q s w := by
  unfold proposalAt
  apply tracks_bind (tracks_get h _)
  intro h
  exact tracks_orFail h hQ

/-- The proposal a request has found at its index, with the row it presents. -/
theorem Presented.paired {id : Uuid} {index revision : Nat} {p : Proposal} {row : Row}
    (h : Presented w id revision row) (hindex : s.state.proposalIndex id revision = .ok index)
    (hp : s.state.proposals[index]? = some p) :
    Paired s w index p row ∧ row.revision = p.revision ∧ p.revision = revision := by
  obtain ⟨q, hq, hid, hrev⟩ := proposalIndex_eq_ok hindex
  obtain rfl := Option.some.inj (hq.symm.trans hp)
  exact ⟨⟨hp, h.row_mem, h.same.trans hid.symm⟩, by rw [h.current, hrev], hrev⟩

/-- A row that is replaced by one that is not interrupted. -/
theorem settled_replace {db : Database} {row' : Row} (hi : row'.interrupted = false) :
    ∀ row ∈ (db.replace row').rows, row.interrupted = true → row ∈ db.rows := by
  intro row hm hrow
  obtain ⟨old, ho, rfl⟩ := Database.mem_replace.mp hm
  split at hrow
  · rw [hi] at hrow
    cases hrow
  · next hne =>
    rw [if_neg hne]
    exact ho

theorem tracks_chooseDestination (id : Uuid) (revision : Nat) (rootId : Uuid) (directory : String)
    (hacts : Acts caller id) (h : Deeds P A caller false s₀ w₀ s w) :
    Tracks P A caller s₀ w₀ (chooseDestination id revision rootId directory)
      (fun _ => Answered s w) s w := by
  unfold chooseDestination
  apply tracks_bind (tracks_check h _)
  intro _ hdirectory h
  apply tracks_bind (tracks_get h _)
  intro h
  apply tracks_bind (tracks_orFail h _)
  intro root hroot h
  obtain ⟨hmem, rfl, huse⟩ := findRoot_eq_some hroot
  apply tracks_bind (tracks_requireDirectory _ h _)
  intro fs₁ h
  apply tracks_bind (tracks_check h _)
  intro index hindex h
  apply tracks_bind (tracks_proposalAt index h _)
  intro proposal hp h
  apply tracks_bind (tracks_check h _)
  intro relative hrelative h
  apply tracks_bind (tracks_orFail h _)
  intro sourceName hname h
  apply tracks_bind (tracks_check h _)
  intro sourcePath _ h
  apply tracks_bind ((tracks_moveWarning _ _ h).mono _)
  rintro warning s' w' - ⟨rfl, fs₂, rfl⟩ h
  apply tracks_reviseProposal (.inr hacts) h
  intro row entry now hpresented hstate hentry hnow
  obtain ⟨hpaired, hcurrent, hrev⟩ := hpresented.paired hindex hp
  have hsettled := @settled_replace w.db (row.redirected
    (Path.join (Path.join (bytes root.path) (bytes directory)) sourceName) now)
    (Row.interrupted_of_state hstate)
  apply tracks_note (h.snoc (.redirected hpaired hcurrent (hrev ▸ hentry) hstate hmem huse
    (Except.ok_of_mapError hdirectory) hrelative hname
      (hpresented.same.symm ▸ hacts) _ warning hnow))
  intro h
  apply tracks_bind (tracks_proposalAt index h _)
  intro result _ h
  apply tracks_bind (tracks_save h _)
  intro w' hi hdb _ h
  exact tracks_pure h (.of_settled hi hdb hsettled)

theorem Answered.trans {s₁ s₂ : Service} {w₁ w₂ : World} (h : Answered s w s₁ w₁)
    (h' : Answered s₁ w₁ s₂ w₂) : Answered s w s₂ w₂ := by
  refine ⟨?_, fun row hm hi => h.settled row (h'.settled row hm hi) hi⟩
  obtain hi | ⟨hs, hdb, hj⟩ := h'.kept
  · exact .inl hi
  · obtain ⟨hj₁, hfits⟩ | ⟨hs₁, hdb₁, hj₁⟩ := h.kept
    · exact .inl ⟨by rw [hj, hj₁, hs], by rw [hs]; exact hfits⟩
    · exact .inr ⟨hs.trans hs₁, hdb.trans hdb₁, hj.trans hj₁⟩

theorem tracks_chooseDestinationPath (id : Uuid) (revision : Nat) (folder : Bytes)
    (hacts : Acts caller id) (henrols : Enrols caller = true)
    (h : Deeds P A caller false s₀ w₀ s w) :
    Tracks P A caller s₀ w₀ (chooseDestinationPath P id revision folder)
      (fun _ => Answered s w) s w := by
  unfold chooseDestinationPath
  apply tracks_bind (tracks_requireDirectory _ h _)
  intro fs₁ h
  apply tracks_bind (tracks_look h _)
  intro canonical fs₂ fs' hcanonical h
  apply tracks_bind (tracks_get h _)
  intro h
  have hself : Answered s w s { w with fs := fs₂ } := ⟨.inr ⟨rfl, rfl, rfl⟩, fun _ hm _ => hm⟩
  apply tracks_bind (Tracks.mono (Q := fun _ => Answered s w) _ _)
  · split
    · exact tracks_pure h hself
    · have habs := FileSystem.isAbsolute_canonicalize hcanonical
      apply (tracks_addRoot _ _ _ henrols (fun _ => habs) h).mono
      rintro root s' w' - ⟨hanswered, -⟩
      exact hself.trans hanswered
  intro root s₁ w₁ _ hanswered h
  apply tracks_bind (tracks_orFail h _)
  intro relative _ h
  apply tracks_bind (Tracks.mono (Q := fun _ s' w' => s' = s₁ ∧ w' = w₁) _ _)
  · split
    · exact tracks_pure h ⟨rfl, rfl⟩
    · exact tracks_orFail h fun _ _ => ⟨rfl, rfl⟩
  rintro directory s₂ w₂ - ⟨rfl, rfl⟩ h
  apply (tracks_chooseDestination _ _ _ _ hacts h).mono
  intro _ s' w' _ hchosen
  exact hanswered.trans hchosen

theorem tracks_renameProposal (id : Uuid) (revision : Nat) (name : String)
    (hcaller : caller = some (.renameProposal id revision name))
    (h : Deeds P A caller false s₀ w₀ s w) :
    Tracks P A caller s₀ w₀ (renameProposal id revision name) (fun _ => Answered s w) s w := by
  have hacts : Acts caller id := ⟨_, revision, hcaller, rfl⟩
  unfold renameProposal
  apply tracks_bind (tracks_failIf h _)
  intro _ h
  apply tracks_bind (tracks_orFail h _)
  intro fileName hfile h
  apply tracks_bind (tracks_get h _)
  intro h
  apply tracks_bind (tracks_check h _)
  intro index hindex h
  apply tracks_bind (tracks_proposalAt index h _)
  intro proposal hp h
  apply tracks_bind (tracks_orFail h _)
  intro choice hchoice h
  apply tracks_bind (tracks_orFail h _)
  intro root hroot h
  obtain ⟨hmem, hid, huse⟩ := findRoot_eq_some hroot
  obtain rfl := FileName.text_of_ofString hfile
  apply tracks_reviseProposal (.inr hacts) h
  intro row entry now hpresented hstate hentry hnow
  obtain ⟨hpaired, hcurrent, hrev⟩ := hpresented.paired hindex hp
  have hsettled := @settled_replace w.db (row.redirected
    (Path.join (Path.join (bytes root.path) (bytes choice.directory)) (bytes fileName.text)) now)
    (Row.interrupted_of_state hstate)
  apply tracks_note (h.snoc (.renamed hpaired hcurrent (hrev ▸ hentry) hstate hchoice hmem huse hid
    (hpresented.same.symm ▸ hcaller) _ hnow))
  intro h
  apply tracks_bind (tracks_proposalAt index h _)
  intro result _ h
  apply tracks_bind (tracks_save h _)
  intro w' hi hdb _ h
  exact tracks_pure h (.of_settled hi hdb hsettled)

/-- What retention leaves was there before. -/
theorem mem_retained {db : Database} {row : Row} {age retain : Nat} {now : Int}
    (hm : row ∈ ((db.aged age now).trimmed retain).rows) : row ∈ db.rows :=
  List.mem_of_mem_filter (List.mem_of_mem_filter hm)

theorem tracks_finish {index revision : Nat} {status : Status} (hr : Retains caller = true)
    (h : Deeds P A caller false s₀ w₀ (s.revised index fun p => { p with revision, status }) w) :
    Tracks P A caller s₀ w₀ (finish index revision status)
      (fun _ s' w' => Installed s' w' ∧ ∀ row ∈ w'.db.rows, row ∈ w.db.rows) s w := by
  unfold finish
  apply tracks_note h
  intro h
  apply tracks_bind (tracks_proposalAt index h _)
  intro result _ h
  unfold pruneProposals
  apply tracks_bind (tracks_modifyState h (.pruned hr) _)
  intro h
  apply tracks_bind (tracks_retention hr h _)
  intro now _ h
  apply tracks_bind (tracks_save h _)
  intro w' hi hdb _ h
  exact tracks_pure h ⟨hi, fun row hm => mem_retained (hdb ▸ hm)⟩

/-- The rows of other proposals are as they were. -/
def Aside (id : Uuid) (w w' : World) : Prop := ∀ row ∈ w'.db.rows, row.id ≠ id → row ∈ w.db.rows

theorem Aside.refl (id : Uuid) (w : World) : Aside id w w := fun _ hm _ => hm

theorem Aside.trans {id : Uuid} {w₁ w₂ : World} (h : Aside id w w₁) (h' : Aside id w₁ w₂) :
    Aside id w w₂ := fun row hm hne => h row (h' row hm hne) hne

theorem aside_replace {row' : Row} : Aside row'.id w { w with db := w.db.replace row' } := by
  intro row hm hne
  obtain ⟨old, ho, rfl⟩ := Database.mem_replace.mp hm
  split at hne
  · exact absurd rfl hne
  · next hother =>
    rw [if_neg hother]
    exact ho

/-- A transition into a state a crash leaves behind. -/
theorem tracks_advance {id : Uuid} {revision : Nat} {next : State} (hi : next.interrupted = true)
    (hn : next ≠ .approved) {f : Journal.Entry → ServiceM β} {Q : β → Service → World → Prop}
    (hacts : Acts caller id) (h : Deeds P A caller false s₀ w₀ s w)
    (hf : ∀ entry w', Deeds P A caller false s₀ w₀ s w' → Aside id w w' →
      Tracks P A caller s₀ w₀ (f entry) Q s w') :
    Tracks P A caller s₀ w₀ (ofJournal (Journal.transition id revision next) >>= f) Q s w := by
  apply tracks_transition (.inr hacts) h
  intro row source entry now hpresented hs ha _ hnow
  apply hf
  · exact h.snoc (.moved hpresented.row_mem hs ha hi hn (hpresented.same.symm ▸ hacts) hnow)
  · exact hpresented.same ▸ @aside_replace w (row.moved next now)

/-- The transition that ends a request, and what the request ends with. -/
theorem tracks_conclude {id : Uuid} {index revision : Nat} {next : State} {status : Status}
    {p : Proposal} (hend : Ends next status) (hp : s.state.proposals[index]? = some p)
    (hid : p.id = id) (hr : Retains caller = true)
    (hacts : Acts caller id) (h : Deeds P A caller false s₀ w₀ s w) :
    Tracks P A caller s₀ w₀
      (ofJournal (Journal.transition id revision next) >>= fun entry =>
        finish index entry.revision status)
      (fun _ s' w' => Installed s' w' ∧
        ∀ row ∈ w'.db.rows, row.interrupted = true → row ∈ w.db.rows ∧ row.id ≠ id) s w := by
  apply tracks_transition (.inr hacts) h
  intro row source entry now hpresented hs ha hentry hnow
  have hpaired : Paired s w index p row :=
    ⟨hp, hpresented.row_mem, hpresented.same.trans hid.symm⟩
  have hnext : (entry.revision : Int) = row.revision + 1 := by
    rw [hpresented.current, hentry]
    rfl
  apply (tracks_finish hr
    (h.snoc (.finished hpaired hs ha hend hnext (hpresented.same.symm ▸ hacts) hnow))).mono
  rintro _ s' w' - ⟨hi, hsub⟩
  refine ⟨hi, fun other hm hinterrupted => ?_⟩
  obtain ⟨old, ho, rfl⟩ := Database.mem_replace.mp (hsub other hm)
  split at hinterrupted
  · -- the row that has just been moved
    rw [@Row.interrupted_of_state (row.moved next now) next rfl] at hinterrupted
    rcases hend with ⟨rfl, -⟩ | ⟨rfl, -⟩ | ⟨rfl, -⟩ <;> cases hinterrupted
  · next hne =>
    rw [if_neg hne]
    exact ⟨ho, fun he => hne (he.trans hpresented.same.symm)⟩

theorem tracks_ignore (id : Uuid) (revision : Nat) (hr : Retains caller = true)
    (hacts : Acts caller id) (h : Deeds P A caller false s₀ w₀ s w) :
    Tracks P A caller s₀ w₀ (ignore id revision) (fun _ => Answered s w) s w := by
  unfold ignore
  apply tracks_bind (tracks_get h _)
  intro h
  apply tracks_bind (tracks_check h _)
  intro index hindex h
  obtain ⟨p, hp, hid, -⟩ := proposalIndex_eq_ok hindex
  apply (tracks_conclude (.inr (.inl ⟨rfl, rfl⟩)) hp hid hr hacts h).mono
  rintro _ s' w' - ⟨hi, hsettled⟩
  exact ⟨.inl hi, fun row hm hinterrupted => (hsettled row hm hinterrupted).1⟩

/-! ## Moving -/

theorem tracks_openParent (rootFd : Fd) (rootPath relative : Bytes)
    {Q : Fd → Service → World → Prop} (h : Deeds P A caller false s₀ w₀ s w)
    (hQ : ∀ fd fs, Q fd s { w with fs }) :
    Tracks P A caller s₀ w₀ (openParent rootFd rootPath relative) Q s w := by
  unfold openParent
  split
  · exact tracks_files h hQ
  · exact tracks_files h hQ

theorem tracks_openFolder (rootPath : Bytes) (directory : String)
    {Q : Fd → Service → World → Prop} (h : Deeds P A caller false s₀ w₀ s w)
    (hQ : ∀ fd fs, Q fd s { w with fs }) :
    Tracks P A caller s₀ w₀ (openFolder rootPath directory) Q s w := by
  unfold openFolder
  apply tracks_bind (tracks_files h _)
  intro _ fs h
  split
  · exact tracks_files h fun fd fs' => hQ fd fs'
  · exact tracks_files h fun fd fs' => hQ fd fs'

/-- What a move has opened belongs to the proposal the request presents. -/
structure Aimed (s : Service) (id : Uuid) (revision : Nat) (o : Opened) : Prop where
  index : s.state.proposalIndex id revision = .ok o.index
  found : s.state.proposals[o.index]? = some o.proposal

theorem tracks_approveChecks (id : Uuid) (revision : Nat) (h : Deeds P A caller false s₀ w₀ s w) :
    Tracks P A caller s₀ w₀ (approveChecks P id revision)
      (fun o s' w' => s' = s ∧ (∃ fs, w' = { w with fs }) ∧ Aimed s id revision o.1) s w := by
  unfold approveChecks
  apply tracks_bind (tracks_get h _)
  intro h
  apply tracks_bind (tracks_check h _)
  intro index hindex h
  apply tracks_bind (tracks_proposalAt index h _)
  intro proposal hp h
  apply tracks_bind (tracks_orFail h _)
  intro choice _ h
  apply tracks_bind (tracks_orFail h _)
  intro destinationRoot _ h
  apply tracks_bind (tracks_orFail h _)
  intro sourceRoot _ h
  apply tracks_bind (tracks_check h _)
  intro relative _ h
  apply tracks_bind (tracks_files h _)
  intro rootFd fs₁ h
  apply tracks_bind (tracks_files h _)
  intro verifiedFd fs₂ h
  apply tracks_bind (tracks_openParent _ _ _ h _)
  intro sourceParentFd fs₃ h
  apply tracks_bind (tracks_orFail h _)
  intro sourceName _ h
  apply tracks_bind (tracks_requireDirectory _ h _)
  intro fs₄ h
  apply tracks_bind (tracks_openFolder _ _ h _)
  intro destinationFolderFd fs₅ h
  apply tracks_bind (tracks_orFail h _)
  intro basename _ h
  apply tracks_bind (tracks_files h _)
  intro taken fs₆ h
  apply tracks_bind (tracks_failIf h _)
  intro _ h
  exact tracks_pure h ⟨rfl, ⟨fs₆, rfl⟩, ⟨hindex, hp⟩⟩

theorem tracks_publishSame (o : Opened) (id : Uuid) (revision : Nat) (destinationName : Bytes)
    (hacts : Acts caller id) (h : Deeds P A caller false s₀ w₀ s w) :
    Tracks P A caller s₀ w₀ (publishSame o id revision destinationName)
      (fun _ s' w' => s' = s ∧ Aside id w w') s w := by
  unfold publishSame
  apply tracks_bind (tracks_files h _)
  intro _ fs h
  apply tracks_advance rfl (by decide) hacts h
  intro entry w' h haside
  exact tracks_pure h ⟨rfl, haside⟩

theorem tracks_publishCross (o : Opened) (verifiedFd : Fd) (id : Uuid) (revision : Nat)
    (destinationName : Bytes) (hacts : Acts caller id) (h : Deeds P A caller false s₀ w₀ s w) :
    Tracks P A caller s₀ w₀ (publishCross P o verifiedFd id revision destinationName)
      (fun _ s' w' => s' = s ∧ Aside id w w') s w := by
  unfold publishCross
  apply tracks_advance rfl (by decide) hacts h
  intro entry w₁ h haside₁
  apply tracks_bind (tracks_files h _)
  intro digest fs₁ h
  apply tracks_bind (tracks_setSha256 hacts h _)
  intro row now _ hid h
  have haside₂ : Aside id w { w₁ with fs := fs₁, db := w₁.db.replace (row.hashed digest now) } :=
    haside₁.trans (hid ▸ @aside_replace { w₁ with fs := fs₁ } (row.hashed digest now))
  apply tracks_bind (tracks_files h _)
  intro _ fs₂ h
  apply tracks_bind (tracks_files h _)
  intro _ fs₃ h
  apply tracks_advance rfl (by decide) hacts h
  intro entry w₂ h haside₃
  apply tracks_bind (tracks_files h _)
  intro _ fs₄ h
  exact tracks_pure h ⟨rfl, haside₂.trans haside₃⟩

/-- Only a proposed row is approved. -/
theorem proposed_of_allowed {source : State} (h : Journal.allowed source .approved = true) :
    source = .proposed := by
  cases source <;> first | rfl | cases h

/-- `approve` after its intent is committed. -/
def approveIntended (P : Platform) (o : Opened) (verifiedFd : Fd) (id : Uuid)
    (entry : Journal.Entry) : ServiceM Proposal := do
  modifyProposal o.index fun p => { p with revision := entry.revision }
  let destinationName ← orFail (Path.fileName o.destination) ServiceError.unsafePath
  let sourceDevice ← ofFs (deviceFd o.sourceParentFd)
  let destinationDevice ← ofFs (deviceFd o.destinationFolderFd)
  let published ←
    (if sourceDevice = destinationDevice then publishSame o id entry.revision destinationName
    else publishCross P o verifiedFd id entry.revision destinationName)
  let removed ← ofJournal (Journal.transition id published .sourceRemoved)
  let completed ← ofJournal (Journal.transition id removed.revision .completed)
  finish o.index completed.revision .completed

theorem approveMove_eq (o : Opened) (verifiedFd : Fd) (id : Uuid) (revision : Nat) :
    approveMove P o verifiedFd id revision =
      (ofJournal (Journal.transition id revision .approved) >>= approveIntended P o verifiedFd id) :=
  rfl

theorem tracks_approveIntended {id : Uuid} {o : Opened} {entry : Journal.Entry} (verifiedFd : Fd)
    (hr : Retains caller = true) (hacts : Acts caller id)
    (hfound : s.state.proposals[o.index]? = some o.proposal) (hsame : o.proposal.id = id)
    (h : Deeds P A caller false s₀ w₀
      (s.revised o.index fun p => { p with revision := entry.revision }) w) :
    Tracks P A caller s₀ w₀ (approveIntended P o verifiedFd id entry)
      (fun _ s' w' => Installed s' w' ∧
      ∀ row ∈ w'.db.rows, row.interrupted = true → row ∈ w.db.rows ∧ row.id ≠ id) s w := by
  unfold approveIntended
  apply tracks_note h
  intro h
  apply tracks_bind (tracks_orFail h _)
  intro destinationName _ h
  apply tracks_bind (tracks_files h _)
  intro sourceDevice fs₁ h
  apply tracks_bind (tracks_files h _)
  intro destinationDevice fs₂ h
  apply tracks_bind (Tracks.mono (Q := fun _ s₁ w₁ =>
    s₁ = s.revised o.index (fun p => { p with revision := entry.revision }) ∧ Aside id w w₁) _ _)
  · split
    · exact tracks_publishSame o id entry.revision destinationName hacts h
    · exact tracks_publishCross o verifiedFd id entry.revision destinationName hacts h
  rintro published s₁ w₁ - ⟨rfl, haside⟩ h
  apply tracks_advance rfl (by decide) hacts h
  intro removed w₂ h haside'
  have hat : (s.revised o.index fun p =>
      { p with revision := entry.revision }).state.proposals[o.index]? =
      some { o.proposal with revision := entry.revision } := by
    show (s.state.proposals.modify _ _)[o.index]? = _
    rw [List.getElem?_modify_eq, hfound]
    rfl
  apply (tracks_conclude (.inl ⟨rfl, rfl⟩) hat hsame hr hacts h).mono
  rintro _ s₂ w₃ - ⟨hi, hsettled⟩
  refine ⟨hi, fun other hm hinterrupted => ?_⟩
  obtain ⟨hm, hne⟩ := hsettled other hm hinterrupted
  exact ⟨haside.trans haside' other hm hne, hne⟩

theorem tracks_approve (id : Uuid) (revision : Nat) (hr : Retains caller = true)
    (hacts : Acts caller id) (h : Deeds P A caller false s₀ w₀ s w) :
    Tracks P A caller s₀ w₀ (approve P id revision) (fun _ => Answered s w) s w := by
  unfold approve
  apply tracks_bind ((tracks_approveChecks id revision h).mono _)
  rintro ⟨o, verifiedFd⟩ s' w' - ⟨rfl, ⟨fs, rfl⟩, haim⟩ h
  dsimp only
  rw [approveMove_eq]
  apply tracks_transition (.inr hacts) h
  intro row source entry now hpresented hs ha hentry hnow
  obtain rfl := proposed_of_allowed ha
  obtain ⟨hpaired, hcurrent, hrev⟩ := hpresented.paired haim.index haim.found
  have haside := hpresented.same ▸ @aside_replace { w with fs } (row.moved .approved now)
  have hdone := h.snoc (.approved hpaired hcurrent (hrev ▸ hentry) hs
      (hpresented.same.symm ▸ hacts) hnow)
  apply (tracks_approveIntended verifiedFd hr hacts haim.found
    (hpaired.same.symm.trans hpresented.same) hdone).mono
  rintro _ s₂ w₃ - ⟨hi, hsettled⟩
  refine ⟨.inl hi, fun other hm hinterrupted => ?_⟩
  obtain ⟨hm, hne⟩ := hsettled other hm hinterrupted
  exact haside other hm hne

theorem tracks_undoChecks (id : Uuid) (revision : Nat) (h : Deeds P A caller false s₀ w₀ s w) :
    Tracks P A caller s₀ w₀ (undoChecks P id revision)
      (fun o s' w' => s' = s ∧ (∃ fs, w' = { w with fs }) ∧ Aimed s id revision o.1) s w := by
  unfold undoChecks
  apply tracks_bind (tracks_get h _)
  intro h
  apply tracks_bind (tracks_check h _)
  intro index hindex h
  apply tracks_bind (tracks_proposalAt index h _)
  intro proposal hp h
  apply tracks_bind (tracks_failIf h _)
  intro _ h
  apply tracks_bind (tracks_check h _)
  intro source _ h
  apply tracks_bind (tracks_check h _)
  intro destination _ h
  unfold pathExists
  apply tracks_bind (tracks_bind (tracks_files h _))
  intro found fs₁ h
  refine tracks_pure h fun h => ?_
  apply tracks_bind (tracks_failIf h _)
  intro _ h
  apply tracks_bind (tracks_files h _)
  intro taken fs₂ h
  apply tracks_bind (tracks_failIf h _)
  intro _ h
  apply tracks_bind (tracks_check h _)
  intro relative _ h
  apply tracks_bind (tracks_orFail h _)
  intro sourceRoot _ h
  apply tracks_bind (tracks_orFail h _)
  intro choice _ h
  apply tracks_bind (tracks_orFail h _)
  intro destinationRoot _ h
  apply tracks_bind (tracks_files h _)
  intro sourceRootFd fs₃ h
  apply tracks_bind (tracks_openParent _ _ _ h _)
  intro sourceParentFd fs₄ h
  apply tracks_bind (tracks_openFolder _ _ h _)
  intro destinationParentFd fs₅ h
  apply tracks_bind (tracks_files h _)
  intro sourceDevice fs₆ h
  apply tracks_bind (tracks_files h _)
  intro destinationDevice fs₇ h
  apply tracks_bind (tracks_failIf h _)
  intro _ h
  exact tracks_pure h ⟨rfl, ⟨fs₇, rfl⟩, ⟨hindex, hp⟩⟩

/-- `undo` after its intent is committed. -/
def undoIntended (o : Opened) (relative : Bytes) (id : Uuid) (entry : Journal.Entry) :
    ServiceM Proposal := do
  let destinationName ← orFail (Path.fileName o.destination) ServiceError.unsafePath
  let sourceName ← orFail (Path.fileName relative) ServiceError.unsafePath
  ofFs (sameFilesystemMoveAt o.destinationFolderFd destinationName o.sourceParentFd sourceName
    (proposalIdentity o.proposal))
  let undone ← ofJournal (Journal.transition id entry.revision .undone)
  finish o.index undone.revision .undone

theorem undoMove_eq (o : Opened) (relative : Bytes) (id : Uuid) (revision : Nat) :
    undoMove o relative id revision =
      (ofJournal (Journal.transition id revision .undoing) >>= undoIntended o relative id) :=
  rfl

theorem tracks_undoIntended {id : Uuid} {o : Opened} {entry : Journal.Entry} (relative : Bytes)
    (hr : Retains caller = true) (hacts : Acts caller id)
    (hfound : s.state.proposals[o.index]? = some o.proposal) (hsame : o.proposal.id = id)
    (h : Deeds P A caller false s₀ w₀ s w) :
    Tracks P A caller s₀ w₀ (undoIntended o relative id entry) (fun _ s' w' => Installed s' w' ∧
      ∀ row ∈ w'.db.rows, row.interrupted = true → row ∈ w.db.rows ∧ row.id ≠ id) s w := by
  unfold undoIntended
  apply tracks_bind (tracks_orFail h _)
  intro destinationName _ h
  apply tracks_bind (tracks_orFail h _)
  intro sourceName _ h
  apply tracks_bind (tracks_files h _)
  intro _ fs₁ h
  exact tracks_conclude (.inr (.inr ⟨rfl, rfl⟩)) hfound hsame hr hacts h

theorem tracks_undo (id : Uuid) (revision : Nat) (hr : Retains caller = true)
    (hacts : Acts caller id) (h : Deeds P A caller false s₀ w₀ s w) :
    Tracks P A caller s₀ w₀ (undo P id revision) (fun _ => Answered s w) s w := by
  unfold undo
  apply tracks_bind ((tracks_undoChecks id revision h).mono _)
  rintro ⟨o, relative⟩ s' w' - ⟨rfl, ⟨fs, rfl⟩, haim⟩ h
  dsimp only
  rw [undoMove_eq]
  apply tracks_advance rfl (by decide) hacts h
  intro entry w₁ h haside
  obtain ⟨p, hp, hid, -⟩ := proposalIndex_eq_ok haim.index
  obtain rfl := Option.some.inj (hp.symm.trans haim.found)
  apply (tracks_undoIntended relative hr hacts hp hid h).mono
  rintro _ s₂ w₂ - ⟨hi, hsettled⟩
  refine ⟨.inl hi, fun other hm hinterrupted => ?_⟩
  obtain ⟨hm, hne⟩ := hsettled other hm hinterrupted
  exact haside other hm hne

end
end SortingHat
