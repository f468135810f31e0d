import SortingHat.Run
import SortingHat.Service.Queue

/-!
# Every request keeps the queue in order

One lemma for each request of the service, from the smallest helper up:

* `serves_scanOnce`, `serves_approve` and so on: each request in order;
* `Call.perform_serves`: all of them, with room for one more active row where the
  request is an undo, and an accepted request's revision used up.
-/

namespace SortingHat
open Posix Effect
open Journal (Row Database State)

section
variable {P : Platform} {kept : List Row} {room : Nat} {α β : Type} {s : Service} {w : World}

/-- No fact about what is returned. -/
abbrev Any {α : Type} : α → Service → World → Prop := fun _ _ _ => True

/-- The request has used up the revision it was accepted at. -/
def Spent (kept : List Row) (id : Uuid) (revision : Nat) (w : World) : Prop :=
  ∃ c ∈ w.db.commits, Spends kept id revision c

/-- What comes after the commit `c` of a request. -/
theorem Serves.spent {x : ServiceM α} {c : Row} {id : Uuid} {revision : Nat}
    (hs : Spends kept id revision c) (h : Serves P (c :: kept) room x Any s w) :
    Serves P kept room x (fun _ _ w' => Spent kept id revision w') s w :=
  (h.mono fun _ _ _ ho _ => ⟨c, ho.grown c List.mem_cons_self, hs⟩).weaken fun _ hc =>
    List.mem_cons_of_mem c hc

theorem serves_foldlM {f : β → α → ServiceM β}
    (hf : ∀ b a s w, Orderly P kept room s w → Serves P kept room (f b a) Any s w)
    (l : List α) (b : β) (h : Orderly P kept room s w) :
    Serves P kept room (l.foldlM f b) Any s w := by
  induction l generalizing b s w with
  | nil => exact serves_pure h trivial
  | cons a l ih =>
    rw [List.foldlM_cons]
    exact serves_bind ((hf b a s w h).mono fun b' _ _ _ _ ho => ih b' ho)

theorem serves_forM {f : α → ServiceM PUnit}
    (hf : ∀ a s w, Orderly P kept room s w → Serves P kept room (f a) Any s w)
    (l : List α) (h : Orderly P kept room s w) : Serves P kept room (l.forM f) Any s w := by
  induction l generalizing s w with
  | nil => exact serves_pure h trivial
  | cons a l ih => exact serves_bind ((hf a s w h).mono fun _ _ _ _ _ ho => ih ho)

/-! ## Configuration -/

theorem serves_setPaused (paused : Bool) (h : Orderly P kept room s w) :
    Serves P kept room (setPaused paused) Any s w := by
  unfold setPaused
  exact serves_bind (serves_modifyState h h.trails fun h => serves_save h fun _ _ _ => trivial)

theorem serves_configureMetadataAgent (executable : String) (fixedArgs : List String)
    (h : Orderly P kept room s w) :
    Serves P kept room (configureMetadataAgent executable fixedArgs) Any s w := by
  unfold configureMetadataAgent
  refine serves_bind (serves_failIf h fun _ h => ?_)
  refine serves_bind (serves_modifyState h h.trails fun h => ?_)
  refine serves_bind (serves_save h fun w' _ _ h => ?_)
  exact serves_bind (serves_get h fun h => serves_pure h trivial)

theorem serves_disableAgent (h : Orderly P kept room s w) :
    Serves P kept room disableAgent Any s w := by
  unfold disableAgent
  refine serves_bind (serves_modifyState h h.trails fun h => ?_)
  refine serves_bind (serves_save h fun w' _ _ h => ?_)
  exact serves_bind (serves_get h fun h => serves_pure h trivial)

theorem serves_requireDirectory (path : Bytes) {Q : Unit → Service → World → Prop}
    (h : Orderly P kept room s w) (hQ : ∀ fs, Q () s { w with fs }) :
    Serves P kept room (requireDirectory path) Q s w := by
  unfold requireDirectory
  refine serves_bind (serves_files h fun _ fs h => ?_)
  exact serves_failIf h fun _ => hQ fs

/-- A new root leaves the queue alone. -/
theorem serves_addRoot (path : Bytes) (watched destination : Bool)
    {Q : Root → Service → World → Prop} (h : Orderly P kept room s w)
    (hQ : ∀ root s' w', s'.state.proposals = s.state.proposals → Q root s' w') :
    Serves P kept room (addRoot P path watched destination) Q s w := by
  unfold addRoot
  refine serves_bind (serves_get h fun h => ?_)
  refine serves_bind (serves_failIf h fun _ h => ?_)
  refine serves_bind (serves_requireDirectory path h fun fs₁ h => ?_)
  refine serves_bind (serves_files h fun canonical fs₂ h => ?_)
  refine serves_bind (serves_orFail h fun display _ h => ?_)
  refine serves_bind (serves_failIf h fun _ h => ?_)
  refine serves_bind (serves_files h fun _ fs₃ h => ?_)
  refine serves_bind (serves_draw h fun id w₁ _ _ _ h => ?_)
  refine serves_bind (serves_modifyState h h.trails fun h => ?_)
  refine serves_bind (serves_save h fun w₂ _ _ h => ?_)
  exact serves_pure h (hQ _ _ _ rfl)

theorem serves_removeRoot (id : Uuid) (h : Orderly P kept room s w) :
    Serves P kept room (removeRoot id) Any s w := by
  unfold removeRoot
  refine serves_bind (serves_get h fun h => ?_)
  refine serves_bind (serves_failIf h fun _ h => ?_)
  refine serves_bind (serves_modifyState h h.trails fun h => ?_)
  refine serves_bind (serves_failIf h fun _ h => ?_)
  exact serves_save h fun _ _ _ => trivial

theorem serves_createRuleFromProposal (id : Uuid) (priority : Int) (h : Orderly P kept room s w) :
    Serves P kept room (createRuleFromProposal P id priority) Any s w := by
  unfold createRuleFromProposal
  refine serves_bind (serves_get h fun h => ?_)
  refine serves_bind (serves_failIf h fun _ h => ?_)
  refine serves_bind (serves_orFail h fun proposal _ h => ?_)
  refine serves_bind (serves_orFail h fun destination _ h => ?_)
  refine serves_bind (serves_check h fun source _ h => ?_)
  refine serves_bind (serves_orFail h fun extension _ h => ?_)
  refine serves_bind (serves_draw h fun ruleId w₁ _ _ _ h => ?_)
  refine serves_bind (serves_check h fun _ _ h => ?_)
  refine serves_bind (serves_modifyState h h.trails fun h => ?_)
  refine serves_bind (serves_save h fun w₂ _ _ h => ?_)
  exact serves_pure h trivial

/-! ## Scanning -/

theorem serves_walkPending (root : Bytes) (directories : Nat) (pending : List (Bytes × Nat))
    (result : List Bytes) (h : Orderly P kept room s w) :
    Serves P kept room (walkPending root directories pending result) Any s w := by
  induction directories generalizing pending result s w with
  | zero =>
    cases pending with
    | nil => exact serves_pure h trivial
    | cons entry pending => exact serves_throw h
  | succ directories ih =>
    cases pending with
    | nil => exact serves_pure h trivial
    | cons entry pending =>
      unfold walkPending
      refine serves_bind (serves_failIf h fun _ h => ?_)
      refine serves_bind (serves_files h fun entries fs h => ?_)
      refine serves_bind (serves_check h fun next _ h => ?_)
      exact ih next.1 next.2 h

/-- Asking the agent draws an id and runs a child, no more. -/
theorem serves_agentOrFallback (state : PersistentState) (facts : FileFacts) (size : Nat)
    (reason provenance : String) {Q : Decision → Service → World → Prop}
    (h : Orderly P kept room s w) (hQ : ∀ decision w', Q decision s w') :
    Serves P kept room (agentOrFallback P state facts size reason provenance) Q s w := by
  unfold agentOrFallback
  split
  · exact serves_pure h (hQ _ _)
  · split
    · exact serves_pure h (hQ _ _)
    · dsimp only
      split
      · exact serves_pure h (hQ _ _)
      · refine serves_bind (serves_draw h fun id w₁ _ _ _ h => ?_)
        refine serves_bind (serves_files h fun answer fs h => ?_)
        split
        · exact serves_pure h (hQ _ _)
        · split <;> exact serves_pure h (hQ _ _)

theorem serves_decideDestination (state : PersistentState) (facts : FileFacts) (size : Nat)
    (ruled : RuleDecision) {Q : Decision → Service → World → Prop}
    (h : Orderly P kept room s w) (hQ : ∀ decision w', Q decision s w') :
    Serves P kept room (decideDestination P state facts size ruled) Q s w := by
  cases ruled with
  | destination destination ruleIds reason => exact serves_pure h (hQ _ _)
  | tie _ _ reason => exact serves_agentOrFallback _ _ _ _ _ h hQ
  | abstain reason => exact serves_agentOrFallback _ _ _ _ _ h hQ

theorem serves_moveWarning (source destination : Bytes)
    {Q : Option String → Service → World → Prop} (h : Orderly P kept room s w)
    (hQ : ∀ warning fs, Q warning s { w with fs }) :
    Serves P kept room (moveWarning? source destination) Q s w := by
  unfold moveWarning?
  exact serves_bind (serves_files h fun r fs h => serves_pure h (hQ _ fs))

/-- A new proposal and its row start together at revision 1. -/
theorem serves_propose (root : Root) (relative : Bytes) (identity : Identity)
    (hroom : Journal.maxActive ≤ room) (h : Orderly P kept room s w) :
    Serves P kept room (propose P root relative identity) Any s w := by
  unfold propose
  refine serves_bind (serves_files h fun mime fs₁ h => ?_)
  refine serves_bind (serves_get h fun h => ?_)
  refine serves_bind (serves_check h fun ruled _ h => ?_)
  refine serves_bind (serves_decideDestination _ _ _ ruled h fun decision w₁ h => ?_)
  refine serves_bind (Serves.mono (Q := fun _ s' _ => s' = s) ?_ ?_)
  · split
    · exact serves_pure h rfl
    · exact serves_moveWarning _ _ h fun _ _ => rfl
  rintro warning s' w₂ - rfl h
  refine serves_bind (serves_draw h fun id w₃ _ hknown hfresh h₃ => ?_)
  refine serves_bind (serves_create h₃ hroom hknown hfresh fun db hstands h => ?_)
  refine serves_bind (serves_modifyState h (h.trails.snoc h₃.trails hfresh ?_) fun h =>
    serves_pure h trivial)
  exact hstands.trails h.coherent rfl rfl fun state hs => (Option.some.inj hs).symm

theorem serves_consider (root : Root) (relative : Bytes) (hroom : Journal.maxActive ≤ room)
    (h : Orderly P kept room s w) : Serves P kept room (consider P root relative) Any s w := by
  unfold consider
  refine serves_bind (serves_get h fun h => ?_)
  split
  · exact serves_pure h trivial
  · dsimp only
    split
    · exact serves_pure h trivial
    · refine serves_bind (Serves.mono (Q := Any) ?_ fun stable s' w' h _ _ => ?_)
      · unfold sampleStability
        refine serves_bind ⟨⟨h, fun h => ?_⟩⟩
        refine serves_bind (serves_files h fun sampled fs h => ?_)
        exact serves_bind ⟨⟨h.withState h.trails, fun h => serves_pure h trivial⟩⟩
      · split
        · exact serves_pure h trivial
        · refine serves_bind (serves_files h fun identity fs h => ?_)
          split
          · exact serves_pure h trivial
          · exact serves_propose root relative identity hroom h

theorem serves_stopIfFull (h : Orderly P kept room s w) :
    Serves P kept room stopIfFull Any s w := by
  unfold stopIfFull
  refine serves_bind (serves_get h fun h => ?_)
  split
  · unfold pauseAtLimit
    refine serves_bind (serves_modifyState h h.trails fun h => ?_)
    exact serves_bind (serves_save h fun w' _ _ h => serves_throw h)
  · exact serves_pure h trivial

theorem serves_scanOnce (hroom : Journal.maxActive ≤ room) (h : Orderly P kept room s w) :
    Serves P kept room (scanOnce P) Any s w := by
  unfold scanOnce
  refine serves_bind (serves_get h fun h => ?_)
  split
  · exact serves_pure h trivial
  · refine serves_bind ((serves_stopIfFull h).mono fun _ s₁ w₁ h _ _ => ?_)
    refine serves_bind ((serves_foldlM ?_ _ 0 h).mono fun created s₂ w₂ h _ _ => ?_)
    · intro created root s w h
      unfold scanRoot
      refine serves_bind ((serves_walkPending _ _ _ _ h).mono fun files s₁ w₁ h _ _ => ?_)
      refine serves_foldlM (fun created relative s w h => ?_) files created h
      unfold scanFile
      refine serves_bind ((serves_stopIfFull h).mono fun _ s₁ w₁ h _ _ => ?_)
      exact serves_bind ((serves_consider root relative hroom h).mono fun _ _ _ h _ _ =>
        serves_pure h trivial)
    · refine serves_bind (Serves.mono (Q := Any) ?_ fun _ _ _ h _ _ => serves_pure h trivial)
      split
      · exact serves_save h fun _ _ _ => trivial
      · exact serves_pure h trivial

/-! ## Review -/

/-- Whatever proposal stands at the index has this id. -/
def At (s : Service) (index : Nat) (id : Uuid) : Prop :=
  ∀ p, s.state.proposals[index]? = some p → p.id = id

theorem proposalIndex_eq_ok {state : PersistentState} {id : Uuid} {revision index : Nat}
    (h : state.proposalIndex id revision = .ok index) :
    ∃ p, state.proposals[index]? = some p ∧ p.id = id ∧ p.revision = revision := by
  unfold PersistentState.proposalIndex at h
  split at h
  · cases h
  · next i hi =>
    split at h
    · cases h
    · next p hp =>
      split at h
      · cases h
      · next hr =>
        cases h
        have := (List.findIdx?_eq_some_iff_getElem.mp hi)
        obtain ⟨hlt, hid, -⟩ := this
        rw [List.getElem?_eq_getElem hlt, Option.some.injEq] at hp
        exact ⟨p, by rw [List.getElem?_eq_getElem hlt, hp], hp ▸ by simpa using hid, by simpa using hr⟩

theorem At.of_index {id : Uuid} {revision index : Nat}
    (h : s.state.proposalIndex id revision = .ok index) : At s index id := by
  obtain ⟨p, hp, hid, -⟩ := proposalIndex_eq_ok h
  intro q hq
  rw [hp] at hq
  exact Option.some.inj hq ▸ hid

theorem At.modify {index : Nat} {id : Uuid} {f : Proposal → Proposal} (h : At s index id)
    (hf : ∀ p, (f p).id = p.id) :
    At { s with state := { s.state with proposals := s.state.proposals.modify index f } }
      index id := by
  intro p hp
  rw [List.getElem?_modify] at hp
  cases ho : s.state.proposals[index]? with
  | none => simp [ho] at hp
  | some old =>
    simp only [ho, if_true, Option.map_eq_map, Option.map_some, Option.some.injEq] at hp
    exact hp ▸ (hf old).trans (h old ho)

theorem serves_proposalAt (index : Nat) {Q : Proposal → Service → World → Prop}
    (h : Orderly P kept room s w) (hQ : ∀ p, s.state.proposals[index]? = some p → Q p s w) :
    Serves P kept room (proposalAt index) Q s w := by
  unfold proposalAt
  exact serves_bind (serves_get h fun h => serves_orFail h hQ)

/-- A proposal raised to a later revision of its row. -/
theorem Orderly.raises {id : Uuid} {revision : Nat} {state : State} {f : Proposal → Proposal}
    (h : Orderly P kept room s w) {index : Nat} (hat : At s index id)
    (hstands : Stands w.db id revision state) (hid : ∀ p, (f p).id = p.id)
    (hr : ∀ p, (f p).revision = revision) (hs : ∀ p, (f p).status = p.status) (p : Proposal)
    (hp : s.state.proposals[index]? = some p) : Trails w.db (f p) := by
  have ht := h.trails.each p (List.mem_of_getElem? hp)
  have hpid := hat p hp
  refine ht.raise (hid p) (hs p) ?_ fun row hm he => ?_
  · obtain ⟨row, hm, hrid, hrr, -⟩ := hstands
    have := ht.bounded row hm (hrid.trans hpid.symm)
    rw [hr]
    omega
  · rw [hr, hstands.revision_eq hm (he.trans hpid)]

/-- A proposal given the status and revision its row now has. -/
theorem Orderly.settles {id : Uuid} {revision : Nat} {state : State} {f : Proposal → Proposal}
    (h : Orderly P kept room s w) {index : Nat} (hat : At s index id)
    (hstands : Stands w.db id revision state) (hid : ∀ p, (f p).id = p.id)
    (hr : ∀ p, (f p).revision = revision)
    (hs : ∀ p status, (f p).status.journal? = some status → status = state) (p : Proposal)
    (hp : s.state.proposals[index]? = some p) : Trails w.db (f p) :=
  hstands.trails h.coherent ((hid p).trans (hat p hp)) (hr p) (hs p)

theorem serves_chooseDestination (id : Uuid) (revision : Nat) (rootId : Uuid) (directory : String)
    (h : Orderly P kept room s w) :
    Serves P kept room (chooseDestination id revision rootId directory)
      (fun _ _ w' => Spent kept id revision w') s w := by
  unfold chooseDestination
  refine serves_bind (serves_check h fun _ _ h => ?_)
  refine serves_bind (serves_get h fun h => ?_)
  refine serves_bind (serves_orFail h fun root _ h => ?_)
  refine serves_bind (serves_requireDirectory _ h fun fs₁ h => ?_)
  refine serves_bind (serves_check h fun index hindex h => ?_)
  have hat := At.of_index hindex
  refine serves_bind (serves_proposalAt index h fun proposal _ h => ?_)
  refine serves_bind (serves_check h fun relative _ h => ?_)
  refine serves_bind (serves_orFail h fun sourceName _ h => ?_)
  refine serves_bind (serves_check h fun sourcePath _ h => ?_)
  refine serves_bind (serves_moveWarning _ _ h fun warning fs₂ h => ?_)
  refine serves_bind (serves_reviseProposal h fun c entry db h hspends hstands _ _ => ?_)
  refine Serves.spent hspends ?_
  refine serves_bind (serves_modifyProposal h (fun _ => rfl)
    (h.raises hat hstands (fun _ => rfl) (fun _ => rfl) fun _ => rfl) fun h => ?_)
  refine serves_bind (serves_proposalAt index h fun result _ h => ?_)
  exact serves_bind (serves_save h fun w' _ _ h => serves_pure h trivial)

theorem serves_chooseDestinationPath (id : Uuid) (revision : Nat) (folder : Bytes)
    (h : Orderly P kept room s w) :
    Serves P kept room (chooseDestinationPath P id revision folder)
      (fun _ _ w' => Spent kept id revision w') s w := by
  unfold chooseDestinationPath
  refine serves_bind (serves_requireDirectory _ h fun fs₁ h => ?_)
  refine serves_bind (serves_files h fun canonical fs₂ h => ?_)
  refine serves_bind (serves_get h fun h => ?_)
  refine serves_bind (Serves.mono (Q := Any) ?_ fun root s₁ w₁ _ _ h => ?_)
  · split
    · exact serves_pure h trivial
    · exact serves_addRoot _ _ _ h fun _ _ _ _ => trivial
  refine serves_bind (serves_orFail h fun relative _ h => ?_)
  refine serves_bind (Serves.mono (Q := fun _ _ _ => True) ?_ fun directory s₂ w₂ _ _ h => ?_)
  · split
    · exact serves_pure h trivial
    · exact serves_orFail h fun _ _ => trivial
  exact serves_chooseDestination _ _ _ _ h

theorem serves_renameProposal (id : Uuid) (revision : Nat) (name : String)
    (h : Orderly P kept room s w) :
    Serves P kept room (renameProposal id revision name)
      (fun _ _ w' => Spent kept id revision w') s w := by
  unfold renameProposal
  refine serves_bind (serves_failIf h fun _ h => ?_)
  refine serves_bind (serves_orFail h fun fileName _ h => ?_)
  refine serves_bind (serves_get h fun h => ?_)
  refine serves_bind (serves_check h fun index hindex h => ?_)
  have hat := At.of_index hindex
  refine serves_bind (serves_proposalAt index h fun proposal _ h => ?_)
  refine serves_bind (serves_orFail h fun choice _ h => ?_)
  refine serves_bind (serves_orFail h fun root _ h => ?_)
  refine serves_bind (serves_reviseProposal h fun c entry db h hspends hstands _ _ => ?_)
  refine Serves.spent hspends ?_
  refine serves_bind (serves_modifyProposal h (fun _ => rfl)
    (h.raises hat hstands (fun _ => rfl) (fun _ => rfl) fun _ => rfl) fun h => ?_)
  refine serves_bind (serves_proposalAt index h fun result _ h => ?_)
  exact serves_bind (serves_save h fun w' _ _ h => serves_pure h trivial)

theorem dropTerminal_sublist (n : Nat) (l : List Proposal) : (dropTerminal n l).Sublist l := by
  induction l generalizing n with
  | nil => cases n <;> exact List.Sublist.refl []
  | cons p l ih =>
    cases n with
    | zero => exact List.Sublist.refl _
    | succ n =>
      unfold dropTerminal
      split
      · exact (ih n).cons p
      · exact (ih (n + 1)).cons_cons p

theorem serves_pruneProposals {Q : Unit → Service → World → Prop} (h : Orderly P kept room s w)
    (hQ : ∀ s', Q () s' w) : Serves P kept room pruneProposals Q s w :=
  serves_modifyState h (h.trails.sublist (dropTerminal_sublist _ _)) (hQ _)

theorem serves_finish (index revision : Nat) (status : Status) {id : Uuid} {state : State}
    (h : Orderly P kept room s w) (hat : At s index id)
    (hstands : Stands w.db id revision state)
    (hs : ∀ other, status.journal? = some other → other = state) :
    Serves P kept room (finish index revision status) Any s w := by
  unfold finish
  refine serves_bind (serves_modifyProposal h (fun _ => rfl)
    (h.settles hat hstands (fun _ => rfl) (fun _ => rfl) fun _ => hs) fun h => ?_)
  refine serves_bind (serves_proposalAt index h fun result _ h => ?_)
  refine serves_bind (serves_pruneProposals h fun s' h => ?_)
  refine serves_bind (serves_retention h fun db _ h => ?_)
  exact serves_bind (serves_save h fun w' _ _ h => serves_pure h trivial)

/-- A transition other than into an undo needs no room. -/
theorem serves_advance {id : Uuid} {revision : Nat} {next : State} (hnext : next ≠ .undoing)
    {Q : Journal.Entry → Service → World → Prop} (h : Orderly P kept room s w)
    (hQ : ∀ c entry db, Orderly P (c :: kept) room s { w with db } →
      Spends kept id revision c → Stands db id entry.revision next → Q entry s { w with db }) :
    Serves P kept room (ofJournal (Journal.transition id revision next)) Q s w :=
  serves_transition h (fun _ hm _ _ hs ha =>
    (Database.activeCount_moved_le hm hs ha hnext).trans h.active) hQ

theorem serves_ignore (id : Uuid) (revision : Nat) (h : Orderly P kept room s w) :
    Serves P kept room (ignore id revision) (fun _ _ w' => Spent kept id revision w') s w := by
  unfold ignore
  refine serves_bind (serves_get h fun h => ?_)
  refine serves_bind (serves_check h fun index hindex h => ?_)
  have hat := At.of_index hindex
  refine serves_bind (serves_advance (by decide) h fun c entry db h hspends hstands _ => ?_)
  refine Serves.spent hspends ?_
  exact serves_finish index _ _ h hat hstands fun other ho => (Option.some.inj ho).symm

/-! ## Moves -/

theorem serves_openParent (rootFd : Fd) (rootPath relative : Bytes)
    {Q : Fd → Service → World → Prop} (h : Orderly P kept room s w)
    (hQ : ∀ fd fs, Q fd s { w with fs }) :
    Serves P kept room (openParent rootFd rootPath relative) Q s w := by
  unfold openParent
  split <;> exact serves_files h hQ

theorem serves_openFolder (rootPath : Bytes) (directory : String)
    {Q : Fd → Service → World → Prop} (h : Orderly P kept room s w)
    (hQ : ∀ fd fs, Q fd s { w with fs }) :
    Serves P kept room (openFolder rootPath directory) Q s w := by
  unfold openFolder
  refine serves_bind (serves_files h fun rootFd fs₁ h => ?_)
  split
  · exact serves_files h fun fd fs₂ => hQ fd fs₂
  · exact serves_files h fun fd fs₂ => hQ fd fs₂

theorem serves_approveChecks (id : Uuid) (revision : Nat) (h : Orderly P kept room s w) :
    Serves P kept room (approveChecks P id revision)
      (fun o s' _ => s' = s ∧ At s o.1.index id) s w := by
  unfold approveChecks
  refine serves_bind (serves_get h fun h => ?_)
  refine serves_bind (serves_check h fun index hindex h => ?_)
  refine serves_bind (serves_proposalAt index h fun proposal _ h => ?_)
  refine serves_bind (serves_orFail h fun choice _ h => ?_)
  refine serves_bind (serves_orFail h fun destinationRoot _ h => ?_)
  refine serves_bind (serves_orFail h fun sourceRoot _ h => ?_)
  refine serves_bind (serves_check h fun relative _ h => ?_)
  refine serves_bind (serves_files h fun rootFd fs₁ h => ?_)
  refine serves_bind (serves_files h fun verifiedFd fs₂ h => ?_)
  refine serves_bind (serves_openParent _ _ _ h fun sourceParentFd fs₃ h => ?_)
  refine serves_bind (serves_orFail h fun sourceName _ h => ?_)
  refine serves_bind (serves_requireDirectory _ h fun fs₄ h => ?_)
  refine serves_bind (serves_openFolder _ _ h fun folderFd fs₅ h => ?_)
  refine serves_bind (serves_orFail h fun basename _ h => ?_)
  refine serves_bind (serves_files h fun taken fs₆ h => ?_)
  refine serves_bind (serves_failIf h fun _ h => ?_)
  exact serves_pure h ⟨rfl, At.of_index hindex⟩

theorem serves_publishSame (o : Opened) (id : Uuid) (revision : Nat) (name : Bytes)
    (h : Orderly P kept room s w) :
    Serves P kept room (publishSame o id revision name) (fun _ s' _ => s' = s) s w := by
  unfold publishSame
  refine serves_bind (serves_files h fun _ fs h => ?_)
  refine serves_bind (serves_advance (by decide) h fun c entry db _ _ _ h => ?_)
  exact serves_pure h rfl

theorem serves_publishCross (o : Opened) (verifiedFd : Fd) (id : Uuid) (revision : Nat)
    (name : Bytes) (h : Orderly P kept room s w) :
    Serves P kept room (publishCross P o verifiedFd id revision name)
      (fun _ s' _ => s' = s) s w := by
  unfold publishCross
  refine serves_bind (serves_advance (by decide) h fun c entry db _ _ _ h => ?_)
  refine serves_bind (serves_files h fun digest fs₁ h => ?_)
  refine serves_bind (serves_setSha256 h fun db h => ?_)
  refine serves_bind (serves_files h fun _ fs₂ h => ?_)
  refine serves_bind (serves_files h fun _ fs₃ h => ?_)
  refine serves_bind (serves_advance (by decide) h fun c entry db _ _ _ h => ?_)
  refine serves_bind (serves_files h fun _ fs₄ h => ?_)
  exact serves_pure h rfl

theorem serves_approve (id : Uuid) (revision : Nat) (h : Orderly P kept room s w) :
    Serves P kept room (approve P id revision)
      (fun _ _ w' => Spent kept id revision w') s w := by
  unfold approve
  refine serves_bind ((serves_approveChecks id revision h).mono ?_)
  rintro ⟨o, verifiedFd⟩ s' w₁ - ⟨rfl, hat⟩ h
  unfold approveMove
  refine serves_bind (serves_advance (by decide) h fun c entry db h hspends hstands _ => ?_)
  refine Serves.spent hspends ?_
  refine serves_bind (serves_modifyProposal h (fun _ => rfl)
    (h.raises hat hstands (fun _ => rfl) (fun _ => rfl) fun _ => rfl) fun h => ?_)
  have hat := hat.modify (f := fun p => { p with revision := entry.revision }) fun _ => rfl
  refine serves_bind (serves_orFail h fun name _ h => ?_)
  refine serves_bind (serves_files h fun sourceDevice fs₁ h => ?_)
  refine serves_bind (serves_files h fun destinationDevice fs₂ h => ?_)
  refine serves_bind (Serves.mono (Q := fun _ s₁ _ => At s₁ o.index id) ?_ ?_)
  · split
    · exact (serves_publishSame _ _ _ _ h).mono fun _ _ _ _ he => he ▸ hat
    · exact (serves_publishCross _ _ _ _ _ h).mono fun _ _ _ _ he => he ▸ hat
  rintro published s₁ w₂ - hat h
  refine serves_bind (serves_advance (by decide) h fun c removed db _ _ _ h => ?_)
  refine serves_bind (serves_advance (by decide) h fun c completed db _ _ hstands h => ?_)
  exact serves_finish _ _ _ h hat hstands fun other ho => (Option.some.inj ho).symm

theorem serves_undoChecks (id : Uuid) (revision : Nat) (h : Orderly P kept room s w) :
    Serves P kept room (undoChecks P id revision)
      (fun o s' w' => s' = s ∧ At s o.1.index id ∧ w'.db = w.db) s w := by
  unfold undoChecks
  refine serves_bind (serves_get h fun h => ?_)
  refine serves_bind (serves_check h fun index hindex h => ?_)
  refine serves_bind (serves_proposalAt index h fun proposal _ h => ?_)
  refine serves_bind (serves_failIf h fun _ h => ?_)
  refine serves_bind (serves_check h fun source _ h => ?_)
  refine serves_bind (serves_check h fun destination _ h => ?_)
  refine serves_bind (Serves.mono (Q := fun _ s' w' => s' = s ∧ w'.db = w.db) ?_ ?_)
  · unfold pathExists
    exact serves_bind (serves_files h fun r fs h => serves_pure h ⟨rfl, rfl⟩)
  rintro present _ w₁ - ⟨rfl, hdb⟩ h
  refine serves_bind (serves_failIf h fun _ h => ?_)
  refine serves_bind (serves_files h fun taken fs₁ h => ?_)
  refine serves_bind (serves_failIf h fun _ h => ?_)
  refine serves_bind (serves_check h fun relative _ h => ?_)
  refine serves_bind (serves_orFail h fun sourceRoot _ h => ?_)
  refine serves_bind (serves_orFail h fun choice _ h => ?_)
  refine serves_bind (serves_orFail h fun destinationRoot _ h => ?_)
  refine serves_bind (serves_files h fun rootFd fs₂ h => ?_)
  refine serves_bind (serves_openParent _ _ _ h fun parentFd fs₃ h => ?_)
  refine serves_bind (serves_openFolder _ _ h fun folderFd fs₄ h => ?_)
  refine serves_bind (serves_files h fun sourceDevice fs₅ h => ?_)
  refine serves_bind (serves_files h fun destinationDevice fs₆ h => ?_)
  refine serves_bind (serves_failIf h fun _ h => ?_)
  exact serves_pure h ⟨rfl, At.of_index hindex, hdb⟩

/-- An undo makes its row active again, which needs room for one more. -/
theorem serves_undo (id : Uuid) (revision : Nat) (hroom : w.db.activeCount + 1 ≤ room)
    (h : Orderly P kept room s w) :
    Serves P kept room (undo P id revision) (fun _ _ w' => Spent kept id revision w') s w := by
  unfold undo
  refine serves_bind ((serves_undoChecks id revision h).mono ?_)
  rintro ⟨o, relative⟩ s' w₁ - ⟨rfl, hat, hdb⟩ h
  unfold undoMove
  refine serves_bind (serves_transition h (fun row hm _ _ _ _ => ?_)
    fun c entry db h hspends hstands _ => ?_)
  · exact (Database.activeCount_moved_succ hm).trans (hdb ▸ hroom)
  refine Serves.spent hspends ?_
  refine serves_bind (serves_orFail h fun destinationName _ h => ?_)
  refine serves_bind (serves_orFail h fun sourceName _ h => ?_)
  refine serves_bind (serves_files h fun _ fs₁ h => ?_)
  refine serves_bind (serves_advance (by decide) h fun c undone db _ _ hstands h => ?_)
  exact serves_finish _ _ _ h hat hstands fun other ho => (Option.some.inj ho).symm

/-! ## All requests -/

/-- Room for the active rows a request can add. -/
def Call.Fits (call : Call) (room : Nat) (db : Database) : Prop :=
  match call with
  | .undo _ _ => db.activeCount + 1 ≤ room
  | _ => True

/-- **Every request keeps the queue in order**, wherever it fails or is cut, and
one that is accepted at a revision has used it up. -/
theorem Call.perform_serves (call : Call) (hroom : Journal.maxActive ≤ room)
    (hfits : call.Fits room w.db) (h : Orderly P kept room s w) :
    Serves P kept room (call.perform P)
      (fun _ _ w' => ∀ id revision, call.presents = some (id, revision) →
        Spent kept id revision w') s w := by
  have spends : ∀ {id : Uuid} {revision : Nat} {α : Type} {x : ServiceM α},
      call.presents = some (id, revision) →
      Serves P kept room x (fun _ _ w' => Spent kept id revision w') s w →
      Serves P kept room (do let _ ← x)
        (fun _ _ w' => ∀ id revision, call.presents = some (id, revision) →
          Spent kept id revision w') s w := by
    intro id revision α x hp hx
    refine serves_bind (hx.mono fun _ _ _ _ hs h => serves_pure h fun id' revision' hp' => ?_)
    rw [hp] at hp'
    obtain ⟨rfl, rfl⟩ := Prod.mk.inj (Option.some.inj hp')
    exact hs
  have quiet : ∀ {x : ServiceM Unit}, call.presents = none → Serves P kept room x Any s w →
      Serves P kept room x (fun _ _ w' => ∀ id revision, call.presents = some (id, revision) →
        Spent kept id revision w') s w := by
    intro x hp hx
    refine hx.mono fun _ _ _ _ _ id revision hp' => ?_
    rw [hp] at hp'
    cases hp'
  have drop : ∀ {α : Type} {x : ServiceM α}, Serves P kept room x Any s w →
      Serves P kept room (do let _ ← x) Any s w :=
    fun hx => serves_bind (hx.mono fun _ _ _ _ _ h => serves_pure h trivial)
  cases call with
  | setPaused paused => exact quiet rfl (serves_setPaused paused h)
  | configureMetadataAgent executable fixedArgs =>
    exact quiet rfl (drop (serves_configureMetadataAgent executable fixedArgs h))
  | disableAgent => exact quiet rfl (drop (serves_disableAgent h))
  | addRoot path watched destination =>
    exact quiet rfl (drop (serves_addRoot path watched destination h fun _ _ _ _ => trivial))
  | removeRoot id => exact quiet rfl (serves_removeRoot id h)
  | createRuleFromProposal id priority =>
    exact quiet rfl (drop (serves_createRuleFromProposal id priority h))
  | scanOnce => exact quiet rfl (drop (serves_scanOnce hroom h))
  | chooseDestination id revision rootId directory =>
    exact spends rfl (serves_chooseDestination id revision rootId directory h)
  | chooseDestinationPath id revision folder =>
    exact spends rfl (serves_chooseDestinationPath id revision folder h)
  | renameProposal id revision name => exact spends rfl (serves_renameProposal id revision name h)
  | ignore id revision => exact spends rfl (serves_ignore id revision h)
  | approve id revision => exact spends rfl (serves_approve id revision h)
  | undo id revision => exact spends rfl (serves_undo id revision hfits h)

end
end SortingHat
