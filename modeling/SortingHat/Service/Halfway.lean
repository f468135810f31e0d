import SortingHat.Service.Steps
import SortingHat.Replay

/-!
# Configuration that fails

A configuration request checks, assigns and saves. What it has assigned stays where the
save fails, and a save that fails late has replaced the saved state.

* `Call.asks`: what is asked for, after all checks;
* `HalfDone`: the save of something new fails;
* `refused_iff`: a failure has no effect exactly where it is not half done;
* `added_root_stays`: a root whose addition failed is there.
-/

namespace SortingHat
open Posix Effect Text

/-- The requests that change the configuration. -/
def Call.configures : Call → Bool
  | setPaused _ | configureMetadataAgent _ _ | disableAgent | addRoot _ _ _ | removeRoot _
  | createRuleFromProposal _ _ => true
  | _ => false

/-- The state that a configuration request asks for, after all its checks. -/
def Call.asks (P : Platform) : Call → ServiceM PersistentState
  | setPaused paused => do
    let state ← getState
    return { state with paused }
  | configureMetadataAgent executable fixedArgs => do
    failIf (executable = "" ∨ executable.utf8ByteSize > 4096 ∨ fixedArgs.length > 16 ∨
      (fixedArgs.any fun argument => argument.utf8ByteSize > 1024) = true) ServiceError.limit
    let state ← getState
    return { state with agent :=
      { enabled := true, executable := some executable, fixedArgs, metadataOnly := true } }
  | disableAgent => do
    let state ← getState
    return { state with agent := { state.agent with enabled := false } }
  | addRoot path watched destination => do
    let state ← getState
    failIf (state.roots.length ≥ maxRoots ∨ (watched = false ∧ destination = false))
      ServiceError.limit
    requireDirectory path
    let canonical ← ofIo (look fun fs => fs.canonicalize path)
    let display ← orFail (toStr canonical) ServiceError.unsafePath
    failIf ((state.roots.any fun root => root.path = display) = true) ServiceError.collision
    let _ ← ofFs (openRoot canonical)
    let id ← draw P
    let state ← getState
    return { state with roots := state.roots ++ [{ id, path := display, watched, destination }] }
  | removeRoot id => do
    let state ← getState
    failIf ((state.proposals.any fun p => p.sourceRootId = id && p.status = .proposed) = true)
      ServiceError.collision
    let kept := state.roots.filter fun root => root.id ≠ id
    failIf (kept.length = state.roots.length) ServiceError.notFound
    return { state with roots := kept }
  | createRuleFromProposal id priority => do
    let state ← getState
    failIf (state.rules.length ≥ maxRules) ServiceError.limit
    let proposal ← orFail (state.findProposal id) ServiceError.notFound
    let destination ← orFail proposal.destination ServiceError.destinationRequired
    let source ← check (decodeRelative proposal.sourceRelative)
    let extension ← orFail ((Path.extension source).bind toStr) ServiceError.unsafePath
    let ruleId ← draw P
    let rule : Rule :=
      { id := ruleId, priority, predicates := [.extension (toAsciiLowercase extension)]
        destinationRootId := destination.rootId, destinationDirectory := destination.directory }
    let _ ← check ((evaluateRules P.glob [rule] (factsFor source proposal.sourceRootId true)).mapError
      fun _ => .malformedState)
    let state ← getState
    return { state with rules := state.rules ++ [rule] }
  | _ => throw .notFound

/-- Assign a state and save it. -/
def commit (next : PersistentState) : ServiceM Unit := do
  modifyState fun _ => next
  save

/-- The save fails before `state.json` is replaced: the body is too long, or one of the
calls up to the rename fails. -/
def Unsaved (next : PersistentState) (ticks : List Tick) : Prop :=
  next.bodyLength > maxStateBytes ∨ ∃ t ∈ ticks.take 4, t.fault ≠ none

/-- The save fails afterwards, at the directory. -/
def Unsynced (next : PersistentState) (ticks : List Tick) : Prop :=
  ¬ Unsaved next ticks ∧ ∃ t ∈ (ticks.drop 4).take 2, t.fault ≠ none

/-- The request passes its checks, and what it asks for is not saved although it is new,
or not synced although it is new here or on disk. -/
def HalfDone (P : Platform) (call : Call) (s : Service) (w : World) (ticks : List Tick) : Prop :=
  ∃ next s₁ w₁, ((call.asks P).start s).after ticks w = (.done (.ok next, s₁), w₁) ∧
    (Unsaved next (((call.asks P).start s).left ticks w) ∧ next ≠ s.state ∨
      Unsynced next (((call.asks P).start s).left ticks w) ∧
        (next ≠ s.state ∨ w.stateJson ≠ some ⟨next.bodyLength, some next⟩))

section
variable {P : Platform} {A : Tick → Prop} {s s' : Service} {w w' : World} {ticks : List Tick}
  {r : Except ServiceError Unit} {call : Call}

/-! ## Checks, then a save -/

/-- To read the state, change it and assign it is to modify it. -/
theorem getState_commit (f : PersistentState → PersistentState) :
    (getState >>= fun state => commit (f state)) = modifyState f >>= fun _ => save := rfl

/-- What is read after a save is no part of the answer. -/
theorem save_unread : (save >>= fun _ => getState >>= fun _ => (pure () : ServiceM Unit)) = save :=
  bind_pure save

theorem save_done : (save >>= fun _ => (pure () : ServiceM Unit)) = save := bind_pure save

theorem start_getState {β : Type} (f : PersistentState → ServiceM β) (s : Service) :
    (getState >>= f).start s = (f s.state).start s := rfl

theorem start_modifyState {β : Type} (f : PersistentState → PersistentState)
    (g : Unit → ServiceM β) (s : Service) :
    (modifyState f >>= g).start s = (g ()).start { s with state := f s.state } := rfl

theorem failIf_pos {β : Type} {c : Prop} [Decidable c] {e : ServiceError} {f : Unit → ServiceM β}
    (h : c) : (failIf c e >>= f) = throw e := by
  unfold failIf
  rw [if_pos h]
  rfl

theorem failIf_neg {β : Type} {c : Prop} [Decidable c] {e : ServiceError} {f : Unit → ServiceM β}
    (h : ¬ c) : (failIf c e >>= f) = f () := by
  unfold failIf
  rw [if_neg h]
  rfl

/-- The root that is not found has not been removed either. -/
theorem perform_removeRoot (id : Uuid) :
    (Call.removeRoot id).perform P = (Call.removeRoot id).asks P >>= commit := by
  unfold Call.perform removeRoot Call.asks
  simp only [bind_assoc, pure_bind]
  refine funext fun s => ?_
  change Action.start _ s = Action.start _ s
  rw [start_getState, start_getState]
  by_cases hused : (s.state.proposals.any fun p => p.sourceRootId = id && p.status = .proposed) = true
  · rw [failIf_pos hused, failIf_pos hused]
  rw [failIf_neg hused, failIf_neg hused]
  by_cases hlen : (s.state.roots.filter fun root => root.id ≠ id).length = s.state.roots.length
  · have hsame : (s.state.roots.filter fun root => root.id ≠ id) = s.state.roots :=
      (List.filter_sublist).eq_of_length hlen
    rw [failIf_pos hlen, failIf_pos hlen, start_modifyState, hsame]
  · rw [failIf_neg hlen, failIf_neg hlen]
    unfold commit
    rw [start_modifyState, start_modifyState]

/-- **A configuration request is its checks and then a commit.** -/
theorem perform_configures (hc : call.configures = true) :
    call.perform P = call.asks P >>= commit := by
  cases call with
  | setPaused paused => rfl
  | configureMetadataAgent executable fixedArgs =>
    unfold Call.perform configureMetadataAgent Call.asks
    simp only [bind_assoc, pure_bind, getState_commit, save_unread]
  | disableAgent =>
    unfold Call.perform disableAgent Call.asks
    simp only [bind_assoc, pure_bind, getState_commit, save_unread]
  | addRoot path watched destination =>
    unfold Call.perform addRoot Call.asks
    simp only [bind_assoc, pure_bind, getState_commit, save_done]
  | removeRoot id => exact perform_removeRoot id
  | createRuleFromProposal id priority =>
    unfold Call.perform createRuleFromProposal Call.asks
    simp only [bind_assoc, pure_bind, getState_commit, save_done]
  | _ => cases hc

/-! ## The checks change nothing that lasts -/

/-- The running service and the saved state stay, whatever the environment does. -/
def Checks {α : Type} (x : ServiceM α) : Prop :=
  ∀ s w, wpS (fun _ => True) x (fun _ s' w' => s' = s ∧ w'.stateJson = w.stateJson)
    (fun _ s' w' => s' = s ∧ w'.stateJson = w.stateJson) (fun _ => True) s w

section
variable {α β : Type}

theorem checks_pure (a : α) : Checks (pure a) := fun _ _ => ⟨rfl, rfl⟩

theorem checks_throw (e : ServiceError) : Checks (throw e : ServiceM α) := fun _ _ => ⟨rfl, rfl⟩

theorem checks_get : Checks getState := fun _ _ => ⟨rfl, rfl⟩

theorem checks_bind {x : ServiceM α} {f : α → ServiceM β} (hx : Checks x)
    (hf : ∀ a, Checks (f a)) : Checks (x >>= f) := by
  intro s w
  refine (wpS_bind x f).mpr (wpS_mono (hx s w) ?_ (fun _ _ _ h => h) fun _ h => h)
  rintro a s₁ w₁ ⟨rfl, hstate⟩
  refine wpS_mono (hf a s₁ w₁) ?_ ?_ fun _ h => h
  · exact fun _ _ _ h => ⟨h.1, h.2.trans hstate⟩
  · exact fun _ _ _ h => ⟨h.1, h.2.trans hstate⟩

theorem checks_orFail (o : Option α) (e : ServiceError) : Checks (orFail o e : ServiceM α) :=
  fun _ _ => (wpS_orFail o e).mpr ⟨fun _ => ⟨rfl, rfl⟩, fun _ _ => ⟨rfl, rfl⟩⟩

theorem checks_failIf (c : Prop) [Decidable c] (e : ServiceError) :
    Checks (failIf c e : ServiceM Unit) :=
  fun _ _ => (wpS_failIf c e).mpr ⟨fun _ => ⟨rfl, rfl⟩, fun _ => ⟨rfl, rfl⟩⟩

theorem checks_check (r : Except ServiceError α) : Checks (check r) := by
  cases r with
  | error e => exact checks_throw e
  | ok a => exact checks_pure a

/-- A call on the files, whatever it does to them. -/
theorem checks_files {δ : Type} {f : δ → ServiceError} (x : Fallible Tick FileSystem δ α) :
    Checks (embed f (inPart World.files x)) :=
  fun _ _ => wpS_inPart (fun _ _ => ⟨rfl, rfl⟩) (fun _ _ => ⟨rfl, rfl⟩) fun _ => trivial

theorem checks_draw : Checks (draw P) :=
  fun _ _ => wpS_inPart (fun _ _ => ⟨rfl, rfl⟩) (fun _ _ => ⟨rfl, rfl⟩) fun _ => trivial

/-- A run of checks. -/
theorem Checks.after {x : ServiceM α} (h : Checks x) {r : Except ServiceError α}
    (hrun : (x.start s).after ticks w = (.done (r, s'), w')) :
    s' = s ∧ w'.stateJson = w.stateJson := by
  have hholds := Prog.wp_after (h s w) ticks fun _ _ => trivial
  rw [hrun] at hholds
  cases r with
  | ok a => exact hholds
  | error e => exact hholds

end

theorem checks_requireDirectory (path : Bytes) : Checks (requireDirectory path) :=
  checks_bind (checks_files _) fun _ => checks_failIf _ _

/-- **All that comes before the assignment only checks.** -/
theorem asks_checks (call : Call) : Checks (call.asks P) := by
  cases call with
  | setPaused paused => exact checks_bind checks_get fun _ => checks_pure _
  | configureMetadataAgent executable fixedArgs =>
    exact checks_bind (checks_failIf _ _) fun _ => checks_bind checks_get fun _ => checks_pure _
  | disableAgent => exact checks_bind checks_get fun _ => checks_pure _
  | addRoot path watched destination =>
    refine checks_bind checks_get fun _ => checks_bind (checks_failIf _ _) fun _ => ?_
    refine checks_bind (checks_requireDirectory path) fun _ => ?_
    refine checks_bind (checks_files _) fun _ => checks_bind (checks_orFail _ _) fun _ => ?_
    refine checks_bind (checks_failIf _ _) fun _ => checks_bind (checks_files _) fun _ => ?_
    exact checks_bind checks_draw fun _ => checks_bind checks_get fun _ => checks_pure _
  | removeRoot id =>
    refine checks_bind checks_get fun _ => checks_bind (checks_failIf _ _) fun _ => ?_
    exact checks_bind (checks_failIf _ _) fun _ => checks_pure _
  | createRuleFromProposal id priority =>
    refine checks_bind checks_get fun _ => checks_bind (checks_failIf _ _) fun _ => ?_
    refine checks_bind (checks_orFail _ _) fun _ => checks_bind (checks_orFail _ _) fun _ => ?_
    refine checks_bind (checks_check _) fun _ => checks_bind (checks_orFail _ _) fun _ => ?_
    refine checks_bind checks_draw fun _ => checks_bind (checks_check _) fun _ => ?_
    exact checks_bind checks_get fun _ => checks_pure _
  | _ => exact checks_throw _

/-! ## How a save ends -/

/-- A call whose effect is not kept, in a run. -/
theorem after_touch {f : Unit → ServiceM Unit}
    (h : ((ofIo touch >>= f).start s).after ticks w = (.done (r, s'), w')) :
    ∃ t rest, ticks = t :: rest ∧
      ((t.fault ≠ none ∧ (∃ e, r = .error e) ∧ s' = s ∧ w'.stateJson = w.stateJson) ∨
        t.fault = none ∧ ∃ w₁, w₁.stateJson = w.stateJson ∧
          ((f ()).start s).after rest w₁ = (.done (r, s'), w')) := by
  obtain ⟨t, rest, rfl, hact⟩ := after_atomicS h
  refine ⟨t, rest, rfl, ?_⟩
  cases hfault : t.fault with
  | some e =>
    rcases hact with ⟨e', -, hr, hs, hw⟩ | ⟨a, ha, -⟩
    · exact .inl ⟨Option.some_ne_none e, ⟨_, hr⟩, hs, hw ▸ rfl⟩
    · simp only [hfault] at ha
      cases ha
  | none =>
    rcases hact with ⟨e', he, -⟩ | ⟨a, -, hrest⟩
    · simp only [hfault] at he
      cases he
    · exact .inr ⟨rfl, { w with fs := t.found w.fs }, rfl, hrest⟩

/-- The rename that puts the new `state.json` in place. -/
theorem after_install {state : PersistentState} {f : Unit → ServiceM Unit}
    (h : ((embed ServiceError.io (inPart World.store (install state)) >>= f).start s).after ticks w =
      (.done (r, s'), w')) :
    ∃ t rest, ticks = t :: rest ∧
      ((t.fault ≠ none ∧ (∃ e, r = .error e) ∧ s' = s ∧ w'.stateJson = w.stateJson) ∨
        t.fault = none ∧ ∃ w₁, w₁.stateJson = some ⟨state.bodyLength, some state⟩ ∧
          ((f ()).start s).after rest w₁ = (.done (r, s'), w')) := by
  obtain ⟨t, rest, rfl, hact⟩ := after_atomicS h
  refine ⟨t, rest, rfl, ?_⟩
  cases hfault : t.fault with
  | some e =>
    rcases hact with ⟨e', -, hr, hs, hw⟩ | ⟨a, ha, -⟩
    · refine .inl ⟨Option.some_ne_none e, ⟨_, hr⟩, hs, ?_⟩
      simp only [hfault] at hw
      exact hw ▸ rfl
    · simp only [hfault] at ha
      cases ha
  | none =>
    simp only [hfault] at hact
    rcases hact with ⟨e', he, -⟩ | ⟨a, -, hrest⟩
    · cases he
    · exact .inr ⟨rfl, _, rfl, hrest⟩

/-- How a save has ended. -/
inductive SaveEnded (state : PersistentState) (ticks : List Tick) (w w' : World) :
    Except ServiceError Unit → Prop where
  | unsaved {e : ServiceError} (h : Unsaved state ticks) (same : w'.stateJson = w.stateJson) :
      SaveEnded state ticks w w' (.error e)
  | unsynced {e : ServiceError} (h : Unsynced state ticks)
      (new : w'.stateJson = some ⟨state.bodyLength, some state⟩) : SaveEnded state ticks w w' (.error e)
  | saved (hu : ¬ Unsaved state ticks) (hs : ¬ Unsynced state ticks) :
      SaveEnded state ticks w w' (.ok ())

/-- **A save fails before the rename and changes nothing, or after it.** -/
theorem after_save (h : (save.start s).after ticks w = (.done (r, s'), w')) :
    s' = s ∧ SaveEnded s.state ticks w w' r := by
  unfold save at h
  rw [start_getState] at h
  by_cases hlarge : s.state.bodyLength > maxStateBytes
  · rw [failIf_pos hlarge] at h
    obtain ⟨hdone, rfl⟩ := Prod.mk.inj h
    obtain ⟨rfl, rfl⟩ := Prod.mk.inj (Prog.done.inj hdone)
    exact ⟨rfl, .unsaved (.inl hlarge) rfl⟩
  rw [failIf_neg hlarge] at h
  -- the temporary file
  obtain ⟨t₁, ticks, rfl, ⟨hfault, ⟨e, rfl⟩, hs, hw⟩ | ⟨hok₁, w₁, hw₁, h⟩⟩ := after_touch h
  · exact ⟨hs, .unsaved (.inr ⟨t₁, by simp, hfault⟩) hw⟩
  obtain ⟨t₂, ticks, rfl, ⟨hfault, ⟨e, rfl⟩, hs, hw⟩ | ⟨hok₂, w₂, hw₂, h⟩⟩ := after_touch h
  · exact ⟨hs, .unsaved (.inr ⟨t₂, by simp, hfault⟩) (hw.trans hw₁)⟩
  obtain ⟨t₃, ticks, rfl, ⟨hfault, ⟨e, rfl⟩, hs, hw⟩ | ⟨hok₃, w₃, hw₃, h⟩⟩ := after_touch h
  · exact ⟨hs, .unsaved (.inr ⟨t₃, by simp, hfault⟩) (hw.trans (hw₂.trans hw₁))⟩
  -- the rename
  obtain ⟨t₄, ticks, rfl, ⟨hfault, ⟨e, rfl⟩, hs, hw⟩ | ⟨hok₄, w₄, hw₄, h⟩⟩ := after_install h
  · exact ⟨hs, .unsaved (.inr ⟨t₄, by simp, hfault⟩) (hw.trans (hw₃.trans (hw₂.trans hw₁)))⟩
  have hsaved : ∀ rest, ¬ Unsaved s.state (t₁ :: t₂ :: t₃ :: t₄ :: rest) := by
    rintro rest (hl | ⟨t, ht, hfault⟩)
    · exact hlarge hl
    · simp only [List.take_succ_cons, List.take_zero, List.mem_cons, List.not_mem_nil, or_false] at ht
      rcases ht with rfl | rfl | rfl | rfl
      · exact hfault hok₁
      · exact hfault hok₂
      · exact hfault hok₃
      · exact hfault hok₄
  -- the directory
  obtain ⟨t₅, ticks, rfl, ⟨hfault, ⟨e, rfl⟩, hs, hw⟩ | ⟨hok₅, w₅, hw₅, h⟩⟩ := after_touch h
  · exact ⟨hs, .unsynced ⟨hsaved _, t₅, by simp, hfault⟩ (hw.trans hw₄)⟩
  rw [← bind_pure (ofIo touch)] at h
  obtain ⟨t₆, ticks, rfl, ⟨hfault, ⟨e, rfl⟩, hs, hw⟩ | ⟨hok₆, w₆, hw₆, h⟩⟩ := after_touch h
  · exact ⟨hs, .unsynced ⟨hsaved _, t₆, by simp, hfault⟩ (hw.trans (hw₅.trans hw₄))⟩
  obtain ⟨hdone, rfl⟩ := Prod.mk.inj h
  obtain ⟨rfl, rfl⟩ := Prod.mk.inj (Prog.done.inj hdone)
  refine ⟨rfl, .saved (hsaved _) ?_⟩
  rintro ⟨-, t, ht, hfault⟩
  simp only [List.drop_succ_cons, List.drop_zero, List.take_succ_cons, List.take_zero,
    List.mem_cons, List.not_mem_nil, or_false] at ht
  rcases ht with rfl | rfl
  · exact hfault hok₅
  · exact hfault hok₆

/-- **A configuration request that fails has had no effect, unless it is half done.** -/
theorem refused_iff (hc : call.configures = true)
    (h : ((call.perform P).start s).after ticks w = (.done (r, s'), w')) :
    ((∃ e, r = .error e) → s' = s ∧ w'.stateJson = w.stateJson) ↔ ¬ HalfDone P call s w ticks := by
  rw [perform_configures hc] at h
  rcases after_bindS h with ⟨e, rfl, hasks⟩ | ⟨next, s₁, w₁, hasks, hcommit⟩
  · have hsame := (asks_checks call).after hasks
    refine ⟨fun _ => ?_, fun _ _ => hsame⟩
    rintro ⟨next, s₁, w₁, hasks', -⟩
    rw [hasks] at hasks'
    cases hasks'
  obtain ⟨rfl, hw₁⟩ := (asks_checks call).after hasks
  have hhalf : HalfDone P call s₁ w ticks ↔
      (Unsaved next (((call.asks P).start s₁).left ticks w) ∧ next ≠ s₁.state ∨
        Unsynced next (((call.asks P).start s₁).left ticks w) ∧
          (next ≠ s₁.state ∨ w.stateJson ≠ some ⟨next.bodyLength, some next⟩)) := by
    constructor
    · rintro ⟨next', s₂, w₂, hasks', hends⟩
      rw [hasks] at hasks'
      cases hasks'
      exact hends
    · exact fun hends => ⟨next, s₁, w₁, hasks, hends⟩
  rw [hhalf]
  have hkeeps : ({ s₁ with state := next } : Service) = s₁ ↔ next = s₁.state :=
    ⟨fun h => congrArg Service.state h, fun h => by rw [h]⟩
  have hcommitted : (save.start { s₁ with state := next }).after
      (((call.asks P).start s₁).left ticks w) w₁ = (.done (r, s'), w') := hcommit
  obtain ⟨rfl, hends⟩ := after_save hcommitted
  cases hends with
  | unsaved hu hsame =>
    constructor
    · rintro hrefused (⟨-, hne⟩ | ⟨hs, -⟩)
      · exact hne (hkeeps.mp (hrefused ⟨_, rfl⟩).1)
      · exact hs.1 hu
    · intro hhalf _
      have heq : next = s₁.state := by
        by_contra hne
        exact hhalf (.inl ⟨hu, hne⟩)
      exact ⟨hkeeps.mpr heq, hsame.trans hw₁⟩
  | unsynced hs hnew =>
    constructor
    · rintro hrefused (⟨hu, -⟩ | ⟨-, hne⟩)
      · exact hs.1 hu
      · obtain ⟨hkept, hjson⟩ := hrefused ⟨_, rfl⟩
        rcases hne with hne | hne
        · exact hne (hkeeps.mp hkept)
        · exact hne (hjson.symm.trans hnew)
    · intro hhalf _
      have heq : next = s₁.state := by
        by_contra hne
        exact hhalf (.inr ⟨hs, .inl hne⟩)
      have hold : w.stateJson = some ⟨next.bodyLength, some next⟩ := by
        by_contra hne
        exact hhalf (.inr ⟨hs, .inr hne⟩)
      exact ⟨hkeeps.mpr heq, hnew.trans hold.symm⟩
  | saved hu hs =>
    refine ⟨fun _ => ?_, fun _ ⟨e, he⟩ => by cases he⟩
    rintro (⟨hu', -⟩ | ⟨hs', -⟩)
    · exact hu hu'
    · exact hs hs'

end

/-! ## Runs -/

/-- The disk is full when a new root has passed its checks. -/
def fullAtSave : List Tick :=
  List.replicate 6 (Tick.quiet 0) ++ { Tick.quiet 0 with fault := some .NOSPC } :: quietAt 0

/-- The new root is there, so its addition was half done. -/
theorem refused_iff_added : ∃ (s : Service) (w : World) (ticks : List Tick),
    HalfDone .sample (.addRoot (bytes "/w") true false) s w ticks := by
  obtain ⟨events, m, m', -, hstep, htest⟩ := exists_refused (P := .sample)
    (m := Machine.initial sampleFiles) [.start (quietAt 0)] (.addRoot (bytes "/w") true false)
    fullAtSave (fun m m' => m.service.any fun s => s.state.roots = [] &&
      m'.service.any fun s' => s'.state.roots.length = 1) (by decide +kernel)
  obtain ⟨event, heq⟩ : ∃ event, event = Event.answered (.addRoot (bytes "/w") true false) false :=
    ⟨_, rfl⟩
  rw [← heq] at hstep
  cases hstep with
  | @served w w' s s' call ticks r hrun =>
    obtain ⟨rfl, hr⟩ := Event.answered.inj heq
    obtain ⟨hnone, htest⟩ := Bool.and_eq_true_iff.mp htest
    have hone := of_decide_eq_true htest
    have herror : ∃ e, r = .error e := by
      cases r with
      | error e => exact ⟨e, rfl⟩
      | ok a => cases hr
    refine ⟨s, w, ticks, ?_⟩
    by_contra hhalf
    obtain ⟨rfl, -⟩ := (refused_iff rfl hrun).mpr hhalf herror
    rw [of_decide_eq_true hnone] at hone
    cases hone
  | _ => cases heq

/-- The state file of a new root is not written. The root is there all the same: it is
saved with the next request, and its files are proposed. -/
theorem added_root_stays : ∃ (events : List Event) (m m' m'' : Machine),
    Run .sample (Machine.initial sampleFiles) events m ∧
      Step .sample m (.answered (.addRoot (bytes "/w") true false) false) m' ∧
      Run .sample m' [.answered (.setPaused false) true, .answered .scanOnce true,
        .answered .scanOnce true] m'' ∧
      (∀ s, m.service = some s → s.state.roots = []) ∧
      ∃ file state, m''.world.stateJson = some file ∧ file.content = some state ∧
        state.roots.length = 1 ∧ state.proposals.length = 1 := by
  obtain ⟨events, m, m', hrun, hstep, htest⟩ := exists_refused (P := .sample)
    (m := Machine.initial sampleFiles) [.start (quietAt 0)] (.addRoot (bytes "/w") true false)
    fullAtSave
    (fun m m' => (m.service.all fun s => s.state.roots = []) &&
      (m'.replay? .sample [.serve (.setPaused false) (quietAt 1), .serve .scanOnce (quietAt 1),
        .serve .scanOnce (quietAt 3)]).any fun r =>
          r.1 = [.answered (.setPaused false) true, .answered .scanOnce true,
            .answered .scanOnce true] &&
          r.2.world.stateJson.any fun file => file.content.any fun state =>
            state.roots.length = 1 && state.proposals.length = 1)
    (by decide +kernel)
  obtain ⟨hnone, hlater⟩ := Bool.and_eq_true_iff.mp htest
  obtain ⟨⟨later, m''⟩, hreplay, htest⟩ := (Option.any_eq_true _ _).mp hlater
  obtain ⟨hevents, hsaved⟩ := Bool.and_eq_true_iff.mp htest
  obtain ⟨file, hfile, hcontent⟩ := (Option.any_eq_true _ _).mp hsaved
  obtain ⟨state, hstate, hone⟩ := (Option.any_eq_true _ _).mp hcontent
  simp only [Bool.and_eq_true, decide_eq_true_eq] at hevents hone
  obtain rfl := hevents
  have hroots : ∀ s, m.service = some s → s.state.roots = [] := by
    intro s hs
    rw [hs] at hnone
    exact of_decide_eq_true hnone
  exact ⟨events, m, m', m'', hrun, hstep, replay_sound hreplay, hroots, file, state, hfile, hstate,
    hone⟩

end SortingHat
