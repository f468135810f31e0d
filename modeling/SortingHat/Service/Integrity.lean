import SortingHat.Service.Conduct

/-!
# What every state is like

Invariants of the state alone, running or saved. Each deed makes at most one kind of
change to the state, so each invariant is checked once for each kind.

* `Edit`, `Deed.edit`: the kinds of change;
* `RunWhere.holds`: what every edit keeps, every run keeps, in memory and on disk;
* `proposed_once`: no file version is proposed twice;
* `well_formed`: the bounds, and the source roots of what is proposed;
* `destinations_stand`: the destinations, while nothing takes one away that is in use.
-/

namespace SortingHat
open Posix Effect Text
open Journal (Row Database State)

/-! ## Edits -/

/-- What stays of a proposal that is changed in place, and where a new destination
comes from. -/
structure Revised (roots : List Root) (p p' : Proposal) : Prop where
  id : p'.id = p.id
  root : p'.sourceRootId = p.sourceRootId
  relative : p'.sourceRelative = p.sourceRelative
  identity : proposalIdentity p' = proposalIdentity p
  status : p'.status = .proposed → p.status = .proposed
  destination : p'.destination = p.destination ∨
    ∃ root ∈ roots, root.destination = true ∧ ∃ directory, p'.destination = some ⟨root.id, directory⟩

/-- One change of the state, and how many ids are drawn after it. -/
inductive Edit (P : Platform) (caller : Option Call) (s : Service) (w : World) :
    PersistentState → Nat → Prop where
  | set (paused : Bool) (agent : AgentSettings) {drawn : Nat} (hdrawn : w.drawn ≤ drawn) :
      Edit P caller s w { s.state with paused, agent } drawn
  | rooted {root : Root} (hid : root.id = P.uuid w.drawn) (hroom : s.state.roots.length < maxRoots)
      (huse : root.watched = true ∨ root.destination = true)
      (hpath : ∀ other ∈ s.state.roots, other.path ≠ root.path) (hcaller : Enrols caller = true)
      (hcanonical : Absolute caller → Path.Canonical (bytes root.path)) :
      Edit P caller s w { s.state with roots := s.state.roots ++ [root] } (w.drawn + 1)
  | unrooted (id : Uuid)
      (hfree : ∀ p ∈ s.state.proposals, p.sourceRootId = id → p.status ≠ .proposed)
      (hcaller : caller = some (.removeRoot id)) :
      Edit P caller s w
        { s.state with roots := s.state.roots.filter fun root => root.id ≠ id } w.drawn
  | ruled {rule : Rule} {p : Proposal} {c : DestinationChoice} {priority : Int}
      (hroom : s.state.rules.length < maxRules) (hp : p ∈ s.state.proposals)
      (hc : p.destination = some c) (hroot : rule.destinationRootId = c.rootId)
      (hcaller : caller = some (.createRuleFromProposal p.id priority))
      (hvalid : validateRule P.glob rule = .ok ()) :
      Edit P caller s w { s.state with rules := s.state.rules ++ [rule] } (w.drawn + 1)
  | proposed {p : Proposal} {row : Row} (hb : Begins P s w p row)
      (hcaller : caller = some .scanOnce) :
      Edit P caller s w { s.state with proposals := s.state.proposals ++ [p] } (w.drawn + 1)
  | revised (index : Nat) (f : Proposal → Proposal)
      (hf : ∀ p ∈ s.state.proposals, Revised s.state.roots p (f p))
      (hcaller : caller = none ∨ ∃ id, Acts caller id) :
      Edit P caller s w { s.state with proposals := s.state.proposals.modify index f } w.drawn
  | pruned (hr : Retains caller = true) : Edit P caller s w
      { s.state with proposals := pruneTerminalProposals s.state.proposals } w.drawn

section
variable {P : Platform} {A : Tick → Prop} {caller : Option Call} {lossy : Bool} {s s' : Service}
  {w w' : World}

theorem Edit.refl : Edit P caller s w s.state w.drawn :=
  .set s.state.paused s.state.agent (Nat.le_refl w.drawn)

theorem Edit.settle (id : Uuid) (f : Proposal → Proposal)
    (hf : ∀ p ∈ s.state.proposals, Revised s.state.roots p (f p)) (hcaller : caller = none) :
    Edit P caller s w (s.state.settle id f) w.drawn := by
  unfold PersistentState.settle
  split
  · next index _ => exact .revised index f hf (.inl hcaller)
  · exact .refl

/-- **Every deed is one change of the state.** -/
theorem Deed.edit (h : Deed P A caller lossy s w s' w') : Edit P caller s w s'.state w'.drawn := by
  cases h with
  | files | sampled | moved | hashed | aged | trimmed | installed | lost => exact .refl
  | drew => exact .set s.state.paused s.state.agent (Nat.le_succ w.drawn)
  | paused paused => exact .set paused s.state.agent (Nat.le_refl w.drawn)
  | advised agent => exact .set s.state.paused agent (Nat.le_refl w.drawn)
  | rooted hid hroom huse hpath hcaller hcanonical =>
    exact .rooted hid hroom huse hpath hcaller hcanonical
  | unrooted id hfree hcaller => exact .unrooted id hfree hcaller
  | ruled hid hroom hp hc hroot hdirectory hvalid hcaller =>
    exact .ruled hroom hp hc hroot hcaller hvalid
  | proposed hb hi hnow hcaller => exact .proposed hb hcaller
  | redirected hp hrev hnext hstate hroot huse hdirectory hrelative hname hacts =>
    exact .revised _ _ (fun p _ => ⟨rfl, rfl, rfl, rfl, id, .inr ⟨_, hroot, huse, _, rfl⟩⟩)
      (.inr ⟨_, hacts⟩)
  | renamed hp hrev hnext hstate hc hroot huse hid hcaller =>
    exact .revised _ _ (fun p _ => ⟨rfl, rfl, rfl, rfl, id, .inl rfl⟩)
      (.inr ⟨_, _, _, hcaller, rfl⟩)
  | approved hp hrev hnext hstate hacts =>
    exact .revised _ _ (fun p _ => ⟨rfl, rfl, rfl, rfl, id, .inl rfl⟩) (.inr ⟨_, hacts⟩)
  | finished hp hs ha hend hrev hacts =>
    refine .revised _ _ (fun p _ => ⟨rfl, rfl, rfl, rfl, fun hstatus => ?_, .inl rfl⟩)
      (.inr ⟨_, hacts⟩)
    rcases hend with ⟨-, rfl⟩ | ⟨-, rfl⟩ | ⟨-, rfl⟩ <;> cases hstatus
  | settled hm hs hi ha hend hrev hcaller =>
    refine .settle _ _ (fun p _ => ⟨rfl, rfl, rfl, rfl, fun hstatus => ?_, .inl rfl⟩) hcaller
    rcases hend with ⟨-, rfl⟩ | ⟨-, rfl⟩ <;> cases hstatus
  | warned id warning hcaller =>
    exact .settle _ _ (fun p _ => ⟨rfl, rfl, rfl, rfl, fun h => h, .inl rfl⟩) hcaller
  | pruned hr => exact .pruned hr

theorem Edit.drawn_le {state : PersistentState} {drawn : Nat} (h : Edit P caller s w state drawn) :
    w.drawn ≤ drawn := by
  cases h <;> omega

/-- Only a save changes what is saved. -/
theorem Deed.stateJson (h : Deed P A caller lossy s w s' w') :
    w'.stateJson = w.stateJson ∨ w'.stateJson = some ⟨s.state.bodyLength, some s.state⟩ := by
  cases h with
  | installed => exact .inr rfl
  | _ => exact .inl rfl

end

/-! ## Runs -/

section
variable {P : Platform} {C : Machine → Event → Prop} {m m' : Machine} {events : List Event}

/-- What every deed keeps on its caller's condition, every run keeps whose steps meet
the condition of their caller. -/
theorem RunWhere.keeps {I : Service → World → Prop} {K : Call → Service → Prop}
    (h : RunWhere P C m events m')
    (hcall : ∀ w s event call, C ⟨w, some s⟩ event → event.call = some call → K call s)
    (hdeed : ∀ caller lossy s w s' w', I s w → (∀ call, caller = some call → K call s) →
      Deed P (fun _ => True) caller lossy s w s' w' →
        I s' w' ∧ ∀ call, caller = some call → K call s')
    (hload : ∀ s w loaded, I s w → Loads (fun _ => True) w loaded → I (.fresh loaded) w)
    (hm : m.Meets (fun _ => True) I) : m'.Meets (fun _ => True) I := by
  have hchain : ∀ caller lossy s w s' w', I s w → (∀ call, caller = some call → K call s) →
      Deeds P (fun _ => True) caller lossy s w s' w' → I s' w' := by
    intro caller lossy s w s' w' hI hK hd
    exact (hd.keeps (I := fun s w => I s w ∧ ∀ call, caller = some call → K call s)
      (fun s w s' w' h hd => hdeed _ _ _ _ _ _ h.1 h.2 hd) ⟨hI, hK⟩).1
  have hopened : ∀ lossy s w s' w', I s w → Deeds P (fun _ => True) none lossy s w s' w' →
      I s' w' := fun lossy s w s' w' hI => hchain _ _ _ _ _ _ hI nofun
  have hfiles : ∀ s w fs, I s w → I s { w with fs } := fun s w fs hI =>
    (hdeed none false _ _ _ _ hI nofun (.files fs)).1
  induction h with
  | nil => exact hm
  | @snoc events event m₁ m₂ hrun hC hstep ih =>
    cases hstep.conduct with
    | served hd =>
      exact hchain _ _ _ _ _ _ ih
        (fun call he => hcall _ _ _ call hC he) hd
    | cut hd =>
      exact fun loaded hl => hload _ _ loaded (hchain _ _ _ _ _ _ ih
        (fun call he => hcall _ _ _ call hC he) hd) hl
    | ended => exact fun loaded hl => hload _ _ loaded ih hl
    | opened hl hd => exact hopened _ _ _ _ _ (ih _ hl) hd
    | stopped hu =>
      intro loaded hl
      rcases hu with ⟨fs, rfl⟩ | ⟨loaded', s', hl', hd⟩
      · exact hfiles _ _ fs (ih loaded hl)
      · exact hload _ _ loaded (hopened _ _ _ _ _ (ih _ hl') hd) hl
    | @files w service fs =>
      cases service with
      | some s => exact hfiles s w fs ih
      | none => exact fun loaded hl => hfiles _ w fs (ih loaded hl)

/-- `J` holds of the running state and of the saved one. -/
structure Machine.Holds (J : Nat → PersistentState → Prop) (m : Machine) : Prop where
  running : ∀ s, m.service = some s → J m.world.drawn s.state
  saved : ∀ file state, m.world.stateJson = some file → file.content = some state →
    J m.world.drawn state

/-- **What every edit keeps, every run keeps**, in memory and on disk. -/
theorem RunWhere.holds {J : Nat → PersistentState → Prop} {K : Call → PersistentState → Prop}
    {fs : FileSystem} (h : RunWhere P C (Machine.initial fs) events m)
    (hcall : ∀ w s event call, C ⟨w, some s⟩ event → event.call = some call → K call s.state)
    (hmono : ∀ n n' state, n ≤ n' → J n state → J n' state) (hinitial : ∀ n, J n .initial)
    (hedit : ∀ caller s w state drawn, J w.drawn s.state →
      (∀ call, caller = some call → K call s.state) → Edit P caller s w state drawn →
        J drawn state ∧ ∀ call, caller = some call → K call state) : m.Holds J := by
  have hmeets : m.Meets (fun _ => True) fun s w => J w.drawn s.state ∧
      ∀ file state, w.stateJson = some file → file.content = some state → J w.drawn state := by
    apply h.keeps (K := fun call s => K call s.state) hcall
    · rintro caller lossy s w s' w' ⟨hJ, hsaved⟩ hK hd
      have hedited := hedit caller s w _ _ hJ hK hd.edit
      refine ⟨⟨hedited.1, fun file state hfile hcontent => ?_⟩, hedited.2⟩
      rcases hd.stateJson with hj | hj
      · exact hmono _ _ _ hd.edit.drawn_le (hsaved file state (hj ▸ hfile) hcontent)
      · obtain rfl := Option.some.inj (hj.symm.trans hfile)
        obtain rfl := Option.some.inj hcontent
        exact hmono _ _ _ hd.edit.drawn_le hJ
    · rintro s w loaded ⟨-, hsaved⟩ (⟨rfl, -⟩ | ⟨file, hfile, hcontent⟩)
      · exact ⟨hinitial _, hsaved⟩
      · exact ⟨hsaved file loaded hfile hcontent, hsaved⟩
    · rintro loaded (⟨rfl, -⟩ | ⟨file, hfile, -⟩)
      · exact ⟨hinitial _, nofun⟩
      · cases hfile
  obtain ⟨w, service⟩ := m
  cases service with
  | some s =>
    have hmeets : J w.drawn s.state ∧ _ := hmeets
    exact ⟨fun s' hs => Option.some.inj hs ▸ hmeets.1, hmeets.2⟩
  | none =>
    refine ⟨nofun, fun file state hfile hcontent => ?_⟩
    have hloaded := hmeets state (.inr ⟨file, hfile, hcontent⟩)
    exact hloaded.1

/-- The same for every run. -/
theorem Run.holds {J : Nat → PersistentState → Prop} {fs : FileSystem}
    (h : Run P (Machine.initial fs) events m)
    (hmono : ∀ n n' state, n ≤ n' → J n state → J n' state) (hinitial : ∀ n, J n .initial)
    (hedit : ∀ caller s w state drawn, J w.drawn s.state → Edit P caller s w state drawn →
      J drawn state) : m.Holds J := by
  have hwhere : RunWhere P (fun _ _ => True) (Machine.initial fs) events m := by
    induction h with
    | nil => exact .nil
    | snoc _ hstep ih => exact .snoc ih trivial hstep
  apply hwhere.holds (K := fun _ _ => True) (fun _ _ _ _ _ _ => trivial) hmono hinitial
  exact fun caller s w state drawn hJ _ he => ⟨hedit caller s w state drawn hJ he, fun _ _ => trivial⟩

end

/-! ## Lists changed in place -/

section
variable {ps : List Proposal} {index : Nat} {f : Proposal → Proposal}

/-- What the change keeps of each proposal, it keeps of the list. -/
theorem map_modify {β : Type} {g : Proposal → β} (hg : ∀ p ∈ ps, g (f p) = g p) :
    (ps.modify index f).map g = ps.map g := by
  refine List.ext_getElem? fun i => ?_
  simp only [List.getElem?_map, List.getElem?_modify]
  cases hi : ps[i]? with
  | none => rfl
  | some p =>
    have := hg p (List.mem_of_getElem? hi)
    by_cases hix : index = i <;> simp [hix, this]

theorem countP_modify_le {q : Proposal → Bool} (hq : ∀ p ∈ ps, q (f p) = true → q p = true) :
    (ps.modify index f).countP q ≤ ps.countP q := by
  induction ps generalizing index with
  | nil => cases index <;> exact Nat.le_refl _
  | cons p ps ih =>
    cases index with
    | zero =>
      have := hq p List.mem_cons_self
      simp only [List.modify_zero_cons, List.countP_cons]
      split <;> split <;> simp_all
    | succ index =>
      have := @ih index fun p hp => hq p (List.mem_cons_of_mem _ hp)
      simp only [List.modify_succ_cons, List.countP_cons]
      omega

end

theorem pruned_sublist (l : List Proposal) : (pruneTerminalProposals l).Sublist l :=
  dropTerminal_sublist _ l

theorem mem_dropTerminal {n : Nat} {l : List Proposal} {p : Proposal} (hp : p ∈ l)
    (ht : p.status.terminal = false) : p ∈ dropTerminal n l := by
  induction l generalizing n with
  | nil => cases hp
  | cons q l ih =>
    cases n with
    | zero => exact hp
    | succ n =>
      unfold dropTerminal
      rcases List.mem_cons.mp hp with rfl | hp
      · rw [ht, if_neg Bool.false_ne_true]
        exact List.mem_cons_self
      · split
        · exact ih hp
        · exact List.mem_cons_of_mem q (ih hp)

/-- What is not finished is not pruned. -/
theorem mem_pruned {l : List Proposal} {p : Proposal} (hp : p ∈ l)
    (ht : p.status.terminal = false) : p ∈ pruneTerminalProposals l :=
  mem_dropTerminal hp ht

/-! ## The proposals -/

section
variable {P : Platform} {fs : FileSystem} {m : Machine} {events : List Event}

/-- No two proposals were made for the same version of a file. -/
def Unrepeated (state : PersistentState) : Prop := (state.proposals.map proposalIdentity).Nodup

/-- **Each version of a file is proposed once**, whatever roots it is met through. -/
theorem proposed_once (h : Run P (Machine.initial fs) events m) :
    m.Holds fun _ => Unrepeated := by
  apply h.holds
  · exact fun _ _ _ _ hJ => hJ
  · exact fun _ => List.nodup_nil
  · intro caller s w state drawn hJ he
    unfold Unrepeated at hJ ⊢
    cases he with
    | set | rooted | unrooted | ruled => exact hJ
    | @proposed p row hb =>
      have hunseen := List.any_eq_false.mp hb.unseen
      rw [List.map_append, List.map_singleton]
      refine List.nodup_append.mpr ⟨hJ, List.nodup_singleton _, fun i hi j hj hij => ?_⟩
      obtain ⟨q, hq, rfl⟩ := List.mem_map.mp hi
      have := hunseen q hq
      rw [List.mem_singleton.mp hj] at hij
      exact this (beq_iff_eq.mpr hij)
    | revised index f hf => exact (map_modify fun p hp => (hf p hp).identity) ▸ hJ
    | pruned => exact ((pruned_sublist _).map proposalIdentity).nodup hJ

/-- What is always so of roots, rules and proposals. -/
structure WellFormed (state : PersistentState) : Prop where
  roots : state.roots.length ≤ maxRoots
  paths : (state.roots.map Root.path).Nodup
  used : ∀ root ∈ state.roots, root.watched = true ∨ root.destination = true
  rules : state.rules.length ≤ maxRules
  queue : state.proposedCount ≤ maxProposals
  sources : ∀ p ∈ state.proposals, p.status = .proposed →
    ∃ root ∈ state.roots, root.id = p.sourceRootId ∧ root.watched = true

theorem WellFormed.edit {caller : Option Call} {s : Service} {w : World} {state : PersistentState}
    {drawn : Nat} (h : WellFormed s.state) (he : Edit P caller s w state drawn) :
    WellFormed state := by
  cases he with
  | set => exact ⟨h.roots, h.paths, h.used, h.rules, h.queue, h.sources⟩
  | @rooted root hid hroom huse hpath =>
    refine ⟨?_, ?_, ?_, h.rules, h.queue, ?_⟩
    · rw [List.length_append]
      exact hroom
    · rw [List.map_append, List.map_singleton]
      refine List.nodup_append.mpr ⟨h.paths, List.nodup_singleton _, fun path hp path' hp' => ?_⟩
      obtain ⟨other, ho, rfl⟩ := List.mem_map.mp hp
      rw [List.mem_singleton.mp hp']
      exact hpath other ho
    · intro other ho
      rcases List.mem_append.mp ho with ho | ho
      · exact h.used other ho
      · exact List.mem_singleton.mp ho ▸ huse
    · intro p hp hs
      obtain ⟨source, hm, hsource⟩ := h.sources p hp hs
      exact ⟨source, List.mem_append_left _ hm, hsource⟩
  | unrooted id hfree =>
    refine ⟨?_, ?_, ?_, h.rules, h.queue, ?_⟩
    · exact (List.length_filter_le _ _).trans h.roots
    · exact (List.filter_sublist.map Root.path).nodup h.paths
    · exact fun root hm => h.used root (List.mem_of_mem_filter hm)
    · intro p hp hs
      obtain ⟨source, hm, hid, hw⟩ := h.sources p hp hs
      refine ⟨source, List.mem_filter.mpr ⟨hm, ?_⟩, hid, hw⟩
      exact decide_eq_true fun he => hfree p hp (hid.symm.trans he) hs
  | ruled hroom =>
    refine ⟨h.roots, h.paths, h.used, ?_, h.queue, h.sources⟩
    rw [List.length_append]
    exact hroom
  | @proposed p row hb =>
    refine ⟨h.roots, h.paths, h.used, h.rules, ?_, ?_⟩
    · have hroom := hb.room
      unfold PersistentState.proposedCount at hroom ⊢
      rw [List.countP_append, List.countP_singleton]
      split <;> omega
    · intro q hq hs
      rcases List.mem_append.mp hq with hq | hq
      · exact h.sources q hq hs
      · obtain ⟨root, hm, hw, hid, -⟩ := hb.source
        rw [List.mem_singleton.mp hq]
        exact ⟨root, hm, hid.symm, hw⟩
  | revised index f hf =>
    refine ⟨h.roots, h.paths, h.used, h.rules, ?_, ?_⟩
    · refine (countP_modify_le fun p hp hs => ?_).trans h.queue
      rw [decide_eq_true_eq] at hs ⊢
      exact (hf p hp).status hs
    · intro q hq hs
      rcases mem_modify hq with ⟨old, ho, rfl⟩ | ⟨i, -, hi⟩
      · have hm := List.mem_of_getElem? ho
        rw [(hf old hm).root]
        exact h.sources old hm ((hf old hm).status hs)
      · exact h.sources q (List.mem_of_getElem? hi) hs
  | pruned =>
    refine ⟨h.roots, h.paths, h.used, h.rules, ?_, ?_⟩
    · exact (pruned_sublist _).countP_le.trans h.queue
    · exact fun p hp => h.sources p ((pruned_sublist _).subset hp)

theorem WellFormed.initial : WellFormed .initial where
  roots := Nat.zero_le _
  paths := List.nodup_nil
  used _ hm := nomatch hm
  rules := Nat.zero_le _
  queue := Nat.zero_le _
  sources _ hm := nomatch hm

/-- **Every state is well formed**, in memory and on disk. -/
theorem well_formed (h : Run P (Machine.initial fs) events m) : m.Holds fun _ => WellFormed := by
  apply h.holds
  · exact fun _ _ _ _ hJ => hJ
  · exact fun _ => .initial
  · exact fun _ _ _ _ _ hJ he => hJ.edit he

/-! ## Destinations -/

/-- The id of a registered destination. -/
def PersistentState.Offers (state : PersistentState) (id : Uuid) : Prop :=
  ∃ root ∈ state.roots, root.destination = true ∧ root.id = id

/-- Every rule, and everything proposed, leads to a registered destination. -/
structure Led (state : PersistentState) : Prop where
  rules : ∀ rule ∈ state.rules, state.Offers rule.destinationRootId
  proposals : ∀ p ∈ state.proposals, p.status = .proposed →
    ∀ c ∈ p.destination, state.Offers c.rootId

/-- A root that is a source in use, or that nothing leads to. -/
def PersistentState.Removable (state : PersistentState) (id : Uuid) : Prop :=
  (∃ p ∈ state.proposals, p.sourceRootId = id ∧ p.status = .proposed) ∨
    (∀ rule ∈ state.rules, rule.destinationRootId ≠ id) ∧
      ∀ p ∈ state.proposals, p.status = .proposed → ∀ c ∈ p.destination, c.rootId ≠ id

/-- The call takes away no destination that is in use, and makes no rule for one that
is gone. -/
def Call.Spares (call : Call) (state : PersistentState) : Prop :=
  match call with
  | .removeRoot id => state.Removable id
  | .createRuleFromProposal id _ =>
    ∀ p ∈ state.proposals, p.id = id → ∀ c ∈ p.destination, state.Offers c.rootId
  | _ => True

instance (state : PersistentState) (id : Uuid) : Decidable (state.Offers id) :=
  inferInstanceAs (Decidable (∃ root ∈ state.roots, root.destination = true ∧ root.id = id))

instance (state : PersistentState) (id : Uuid) : Decidable (state.Removable id) :=
  inferInstanceAs (Decidable (_ ∨ _ ∧ _))

instance (call : Call) (state : PersistentState) : Decidable (call.Spares state) :=
  match call with
  | .removeRoot id => inferInstanceAs (Decidable (state.Removable id))
  | .createRuleFromProposal id _ => inferInstanceAs (Decidable
      (∀ p ∈ state.proposals, p.id = id → ∀ c ∈ p.destination, state.Offers c.rootId))
  | .setPaused _ | .configureMetadataAgent _ _ | .disableAgent | .addRoot _ _ _ | .scanOnce
  | .chooseDestination _ _ _ _ | .chooseDestinationPath _ _ _ | .renameProposal _ _ _
  | .ignore _ _ | .approve _ _ | .undo _ _ => .isTrue trivial

theorem Chosen.offers {state : PersistentState} {c : DestinationChoice} (h : Chosen state c)
    (hl : Led state) : state.Offers c.rootId := by
  rcases h with ⟨rule, hm, hid, -⟩ | ⟨-, root, hm, hroot⟩
  · exact hid ▸ hl.rules rule hm
  · exact ⟨root, hm, hroot⟩

theorem Led.edit {caller : Option Call} {s : Service} {w : World} {state : PersistentState}
    {drawn : Nat} (h : Led s.state) (hK : ∀ call, caller = some call → call.Spares s.state)
    (he : Edit P caller s w state drawn) : Led state := by
  cases he with
  | set => exact ⟨h.rules, h.proposals⟩
  | @rooted root =>
    have hoffers : ∀ id, s.state.Offers id →
        PersistentState.Offers { s.state with roots := s.state.roots ++ [root] } id := by
      rintro id ⟨other, hm, ho⟩
      exact ⟨other, List.mem_append_left _ hm, ho⟩
    exact ⟨fun rule hm => hoffers _ (h.rules rule hm),
      fun p hp hs c hc => hoffers _ (h.proposals p hp hs c hc)⟩
  | unrooted id hfree hcaller =>
    have hoffers : ∀ other, other ≠ id → s.state.Offers other → PersistentState.Offers
        { s.state with roots := s.state.roots.filter fun root => root.id ≠ id } other := by
      rintro other hne ⟨root, hm, hd, rfl⟩
      exact ⟨root, List.mem_filter.mpr ⟨hm, decide_eq_true hne⟩, hd, rfl⟩
    rcases hK _ hcaller with ⟨p, hp, hid, hs⟩ | ⟨hrules, hproposals⟩
    · exact absurd hs (hfree p hp hid)
    · exact ⟨fun rule hm => hoffers _ (hrules rule hm) (h.rules rule hm),
        fun p hp hs c hc => hoffers _ (hproposals p hp hs c hc) (h.proposals p hp hs c hc)⟩
  | @ruled rule p c _ hroom hp hc hroot hcaller =>
    refine ⟨fun other ho => ?_, h.proposals⟩
    rcases List.mem_append.mp ho with ho | ho
    · exact h.rules other ho
    · have hoffers := hK _ hcaller p hp rfl c hc
      rw [List.mem_singleton.mp ho, hroot]
      exact hoffers
  | @proposed p row hb =>
    refine ⟨h.rules, fun q hq hs c hc => ?_⟩
    rcases List.mem_append.mp hq with hq | hq
    · exact h.proposals q hq hs c hc
    · obtain rfl := List.mem_singleton.mp hq
      exact (hb.chosen c hc).offers h
  | revised index f hf =>
    refine ⟨h.rules, fun q hq hs c hc => ?_⟩
    rcases mem_modify hq with ⟨old, ho, rfl⟩ | ⟨i, -, hi⟩
    · have hm := List.mem_of_getElem? ho
      rcases (hf old hm).destination with hd | ⟨root, hroot, huse, directory, hd⟩
      · exact h.proposals old hm ((hf old hm).status hs) c (hd ▸ hc)
      · obtain rfl := Option.some.inj (hd.symm.trans hc)
        exact ⟨root, hroot, huse, rfl⟩
    · exact h.proposals q (List.mem_of_getElem? hi) hs c hc
  | pruned => exact ⟨h.rules, fun p hp => h.proposals p ((pruned_sublist _).subset hp)⟩

/-- The call's own edits leave its condition as it was. -/
theorem Call.Spares.edit {call : Call} {s : Service} {w : World} {state : PersistentState}
    {drawn : Nat} (h : call.Spares s.state) (he : Edit P (some call) s w state drawn) :
    call.Spares state := by
  cases he with
  | set => cases call <;> exact h
  | rooted _ _ _ _ hcaller => cases call <;> trivial
  | unrooted _ _ hcaller =>
    cases hcaller
    exact h
  | ruled _ _ _ _ hcaller =>
    cases hcaller
    exact h
  | proposed _ hcaller =>
    cases hcaller
    trivial
  | revised _ _ _ hcaller =>
    obtain hnone | ⟨id, call', revision, he, hp⟩ := hcaller
    · cases hnone
    · cases he
      cases call <;> trivial
  | pruned hr => cases call <;> trivial

/-- No step takes away a destination that is in use. -/
def Sparing (m : Machine) (event : Event) : Prop :=
  ∀ s ∈ m.service, ∀ call ∈ event.call, call.Spares s.state

instance (m : Machine) (event : Event) : Decidable (Sparing m event) :=
  inferInstanceAs (Decidable (∀ s ∈ m.service, ∀ call ∈ event.call, call.Spares s.state))

/-- **No destination dangles** in any state of a run that takes none away that is in
use. -/
theorem destinations_stand (h : RunWhere P Sparing (Machine.initial fs) events m) :
    m.Holds fun _ => Led := by
  apply h.holds (K := Call.Spares)
  · exact fun w s event call hC he => hC s rfl call he
  · exact fun _ _ _ _ hJ => hJ
  · exact fun _ => ⟨(fun _ hm => nomatch hm), fun _ hm => nomatch hm⟩
  · intro caller s w state drawn hJ hK he
    refine ⟨hJ.edit hK he, fun call hcall => ?_⟩
    subst hcall
    exact (hK call rfl).edit he

end

/-! ## Runs -/

/-- Two files that are proposed. -/
theorem exists_proposed : ∃ (events : List Event) (m : Machine) (s : Service),
    Run .sample (Machine.initial twoFiles) events m ∧ m.service = some s ∧
      s.state.proposals.length = 2 ∧ s.state.proposedCount = 2 := by
  obtain ⟨events, m, hrun, htest⟩ := exists_run (P := .sample) (m := Machine.initial twoFiles)
    (Command.enrol (bytes "/d"))
    (fun _ m => m.service.any fun s =>
      s.state.proposals.length = 2 && s.state.proposedCount = 2)
    (by decide +kernel)
  obtain ⟨s, hs, htest⟩ := (Option.any_eq_true _ _).mp htest
  obtain ⟨hlength, hcount⟩ := Bool.and_eq_true_iff.mp htest
  exact ⟨events, m, s, hrun, hs, of_decide_eq_true hlength, of_decide_eq_true hcount⟩

theorem proposed_once_scanned : ∃ (m : Machine) (s : Service), m.service = some s ∧
    s.state.proposals.length = 2 ∧ Unrepeated s.state := by
  obtain ⟨events, m, s, hrun, hs, hlength, -⟩ := exists_proposed
  exact ⟨m, s, hs, hlength, (proposed_once hrun).running s hs⟩

theorem well_formed_scanned : ∃ (m : Machine) (s : Service), m.service = some s ∧
    s.state.proposedCount = 2 ∧ WellFormed s.state := by
  obtain ⟨events, m, s, hrun, hs, -, hcount⟩ := exists_proposed
  exact ⟨m, s, hs, hcount, (well_formed hrun).running s hs⟩

/-- A destination is removed that nothing leads to. -/
theorem destinations_stand_removed : ∃ (events : List Event) (m : Machine),
    RunWhere .sample Sparing (Machine.initial sampleFiles) events m ∧
      Event.answered (.removeRoot ⟨1⟩) true ∈ events ∧ m.Holds fun _ => Led := by
  obtain ⟨events, m, hrun, htest⟩ := exists_run_where (P := .sample)
    (m := Machine.initial sampleFiles) Sparing
    (Command.enrol (bytes "/d") ++ [.serve (.removeRoot ⟨1⟩) (quietAt 3)])
    (fun events _ => events.contains (.answered (.removeRoot ⟨1⟩) true)) (by decide +kernel)
  exact ⟨events, m, hrun, List.contains_iff_mem.mp htest, destinations_stand hrun⟩

/-- A destination is removed that a proposal was given. -/
theorem destination_removed : ∃ (events : List Event) (m : Machine) (s : Service),
    Run .sample (Machine.initial sampleFiles) events m ∧ m.service = some s ∧
      ∃ p ∈ s.state.proposals, p.status = .proposed ∧ ∃ c, p.destination = some c ∧
        ¬ s.state.Offers c.rootId := by
  obtain ⟨events, m, hrun, htest⟩ := exists_run (P := .sample) (m := Machine.initial sampleFiles)
    (Command.enrol (bytes "/d") ++ [.serve (.chooseDestination ⟨2⟩ 1 ⟨1⟩ ".") (quietAt 3),
      .serve (.removeRoot ⟨1⟩) (quietAt 4)])
    (fun _ m => m.service.any fun s => s.state.proposals.any fun p =>
      decide (p.status = .proposed) && p.destination.any fun c =>
        decide (¬ s.state.Offers c.rootId))
    (by decide +kernel)
  obtain ⟨s, hs, hp⟩ := (Option.any_eq_true _ _).mp htest
  obtain ⟨p, hp, htest⟩ := List.any_eq_true.mp hp
  obtain ⟨hstatus, hc⟩ := Bool.and_eq_true_iff.mp htest
  obtain ⟨c, hc, hgone⟩ := (Option.any_eq_true _ _).mp hc
  exact ⟨events, m, s, hrun, hs, p, hp, of_decide_eq_true hstatus, c, hc,
    of_decide_eq_true hgone⟩

end SortingHat
