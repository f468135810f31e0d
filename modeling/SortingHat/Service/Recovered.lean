import SortingHat.Service.Evidence
import SortingHat.Journal.Specs

/-!
# What recovery does

Recovery passes a verdict on each interrupted entry it reads, moves the row at
once and the proposal in memory, and saves all proposals at the end.

* `Verdict`: what may be decided about an entry, and on which evidence;
* `RowsAfter`, `StateAfter`: the journal and the queue after a list of verdicts;
* `recover_wp`: recovery, whole or cut, leaves the journal after some verdicts,
  and the saved state either untouched or after all of them.
-/

namespace SortingHat
open Posix Effect Text
open Journal (Row Database State Entry)

/-- The entries recovery has moved, with the state it gave them. -/
abbrev Verdicts := List (Entry × State)

/-- The status that goes with a verdict. -/
def verdictStatus (next : State) : Status :=
  if next = .completed then .completed else .needsAttention

/-- Only an interrupted entry is judged: completed on evidence alone, and handed
to the user otherwise. -/
structure Verdict (A : Tick → Prop) (P : Platform) (fs : FileSystem) (state : PersistentState)
    (entry : Entry) (next : State) : Prop where
  interrupted : entry.state.interrupted = true
  outcome : (next = .completed ∧ entry.state = .sourceRemoved) ∨ next = .needsAttention
  sound : Honest A → next = .completed →
    ∃ p, state.findProposal entry.id = some p ∧ Shows P fs entry p
  complete : Faultless A → next = .needsAttention → entry.state = .sourceRemoved →
    ∀ p, state.findProposal entry.id = some p → ¬ Shows P fs entry p

/-- The journal after verdicts: each judged row moved once, every other as it was. -/
structure RowsAfter (db₀ : Database) (log : Verdicts) (db : Database) : Prop where
  others : ∀ id, (∀ e ∈ log, e.1.id ≠ id) → db.find id = db₀.find id
  moved : ∀ e ∈ log, ∃ row now, db₀.find e.1.id = some row ∧ row.Reads e.1 ∧
    db.find e.1.id = some (row.moved e.2 now)

/-- What a verdict makes of the proposal with the entry's id. -/
def Settles (e : Entry × State) (found found' : Option Proposal) : Prop :=
  match found with
  | none => found' = none
  | some p => ∃ warning, found' =
      some { p with revision := e.1.revision + 1, status := verdictStatus e.2, warning }

/-- The queue after verdicts. -/
structure StateAfter (state₀ : PersistentState) (log : Verdicts) (state : PersistentState) :
    Prop where
  frame : state = { state₀ with proposals := state.proposals }
  ids : state.proposals.map Proposal.id = state₀.proposals.map Proposal.id
  others : ∀ id, (∀ e ∈ log, e.1.id ≠ id) → state.findProposal id = state₀.findProposal id
  settled : ∀ e ∈ log, Settles e (state₀.findProposal e.1.id) (state.findProposal e.1.id)

/-- Every interrupted entry has been judged. -/
def Covers (entries : List Entry) (log : Verdicts) : Prop :=
  ∀ entry ∈ entries, entry.state.interrupted = true → ∃ next, (entry, next) ∈ log

/-! ## Settling proposals -/

section
variable {state state₀ : PersistentState} {id : Uuid} {f : Proposal → Proposal} {log : Verdicts}

theorem settle_list (hf : ∀ p, (f p).id = p.id) (id id' : Uuid) (l : List Proposal) :
    ((match l.findIdx? fun p : Proposal => p.id = id with
      | some index => l.modify index f
      | none => l).find? fun p => p.id = id') =
      if id' = id then (l.find? fun p => p.id = id).map f else l.find? fun p => p.id = id' := by
  induction l with
  | nil => simp
  | cons q l ih =>
    by_cases hq : q.id = id
    · by_cases hid : id' = id
      · subst hid
        simp [List.findIdx?_cons, hq, hf]
      · have : q.id ≠ id' := fun h => hid (h.symm.trans hq)
        simp [List.findIdx?_cons, hq, hid, hf, Ne.symm hid]
    · have hfind : ((q :: l).find? fun p => p.id = id) = l.find? fun p => p.id = id := by
        simp [hq]
      rw [hfind]
      cases hi : l.findIdx? fun p => p.id = id with
      | none =>
        simp only [hi] at ih
        by_cases hqi : q.id = id'
        · have hid : id' ≠ id := fun h => hq (hqi.trans h)
          simp [List.findIdx?_cons, hi, hqi, hid]
        · simp only [List.findIdx?_cons, hq, hi, decide_false, Bool.false_eq_true, if_false,
            Option.map_none, List.find?_cons_of_neg, hqi, not_false_eq_true]
          simpa using ih
      | some i =>
        simp only [hi] at ih
        by_cases hqi : q.id = id'
        · have hid : id' ≠ id := fun h => hq (hqi.trans h)
          simp [List.findIdx?_cons, hi, hqi, hid]
        · simp only [List.findIdx?_cons, hq, hi, decide_false, Bool.false_eq_true, if_false,
            Option.map_some, List.modify_succ_cons, List.find?_cons_of_neg, hqi,
            not_false_eq_true]
          simpa using ih

theorem findProposal_settle (hf : ∀ p, (f p).id = p.id) (id' : Uuid) :
    (state.settle id f).findProposal id' =
      if id' = id then (state.findProposal id).map f else state.findProposal id' := by
  have := settle_list hf id id' state.proposals
  unfold PersistentState.findProposal PersistentState.settle
  split
  · next index hindex => rw [hindex] at this; exact this
  · next hindex => rw [hindex] at this; exact this

theorem settle_ids (hf : ∀ p, (f p).id = p.id) :
    (state.settle id f).proposals.map Proposal.id = state.proposals.map Proposal.id := by
  unfold PersistentState.settle
  split
  · next index _ =>
    refine List.ext_getElem? fun i => ?_
    simp only [List.getElem?_map, List.getElem?_modify]
    cases state.proposals[i]? with
    | none => rfl
    | some p => by_cases hi : index = i <;> simp [hi, hf]
  · rfl

theorem settle_frame : state.settle id f = { state with
    proposals := (state.settle id f).proposals } := by
  unfold PersistentState.settle
  split <;> rfl

theorem StateAfter.start (state : PersistentState) : StateAfter state [] state :=
  ⟨rfl, rfl, fun _ _ => rfl, fun _ he => nomatch he⟩

/-- One more verdict. -/
theorem StateAfter.judge (h : StateAfter state₀ log state) {entry : Entry} {next : State}
    (hnew : ∀ e ∈ log, e.1.id ≠ entry.id) (hf : ∀ p, ∃ warning, f p =
      { p with revision := entry.revision + 1, status := verdictStatus next, warning }) :
    StateAfter state₀ (log ++ [(entry, next)]) (state.settle entry.id f) := by
  have hid : ∀ p, (f p).id = p.id := fun p => by
    obtain ⟨warning, hw⟩ := hf p
    rw [hw]
  constructor
  · rw [settle_frame, h.frame]
  · rw [settle_ids hid, h.ids]
  · intro id hne
    have hother : id ≠ entry.id := fun he =>
      hne (entry, next) (List.mem_append_right _ (List.mem_singleton_self _)) he.symm
    rw [findProposal_settle hid, if_neg hother]
    exact h.others id fun e he => hne e (List.mem_append_left _ he)
  · intro e he
    rcases List.mem_append.mp he with he | he
    · rw [findProposal_settle hid, if_neg (hnew e he)]
      exact h.settled e he
    · rw [List.mem_singleton.mp he, findProposal_settle hid, if_pos rfl, h.others entry.id hnew]
      unfold Settles
      cases state₀.findProposal entry.id with
      | none => rfl
      | some p =>
        obtain ⟨warning, hw⟩ := hf p
        exact ⟨warning, by rw [Option.map_some, hw]⟩

/-- Another warning on a judged entry's proposal. -/
theorem StateAfter.rewarn (h : StateAfter state₀ log state) {entry : Entry} {next : State}
    (hm : (entry, next) ∈ log) (warning : Option String) :
    StateAfter state₀ log (state.settle entry.id fun p => { p with warning }) := by
  have hid : ∀ p : Proposal, ({ p with warning } : Proposal).id = p.id := fun _ => rfl
  constructor
  · rw [settle_frame, h.frame]
  · rw [settle_ids hid, h.ids]
  · intro id hne
    rw [findProposal_settle hid, if_neg fun he => hne _ hm he.symm]
    exact h.others id hne
  · intro e he
    rw [findProposal_settle hid]
    have hs := h.settled e he
    split
    · next heq =>
      rw [heq] at hs ⊢
      unfold Settles at hs ⊢
      cases hfind : state₀.findProposal entry.id with
      | none =>
        simp only [hfind] at hs ⊢
        rw [hs]
        rfl
      | some p =>
        simp only [hfind] at hs ⊢
        obtain ⟨_, hw⟩ := hs
        exact ⟨warning, by rw [hw]; rfl⟩
    · exact hs

end

/-! ## Moving rows -/

section
variable {db db₀ : Database} {log : Verdicts} {entry : Entry} {row : Row}

theorem RowsAfter.start (db : Database) : RowsAfter db [] db :=
  ⟨fun _ _ => rfl, fun _ he => nomatch he⟩

theorem RowsAfter.judge (h : RowsAfter db₀ log db) (hnew : ∀ e ∈ log, e.1.id ≠ entry.id)
    (hfind : db₀.find entry.id = some row) (hr : row.Reads entry) (next : State) (now : Int) :
    RowsAfter db₀ (log ++ [(entry, next)]) (db.replace (row.moved next now)) := by
  have hrow : (row.moved next now).id = entry.id := hr.id.symm
  have hhere : db.find entry.id = some row := (h.others entry.id hnew).trans hfind
  constructor
  · intro id hne
    have hother : id ≠ (row.moved next now).id := fun he =>
      hne (entry, next) (List.mem_append_right _ (List.mem_singleton_self _))
        (hrow.symm.trans he.symm)
    rw [Database.find_replace_of_ne hother]
    exact h.others id fun e he => hne e (List.mem_append_left _ he)
  · intro e he
    rcases List.mem_append.mp he with he | he
    · rw [Database.find_replace_of_ne (by rw [hrow]; exact hnew e he)]
      exact h.moved e he
    · rw [List.mem_singleton.mp he]
      refine ⟨row, now, hfind, hr, ?_⟩
      have hsome : (db.find (row.moved next now).id).isSome = true := by
        rw [hrow, hhere]
        rfl
      exact hrow ▸ Database.find_replace hsome

end

/-! ## One entry -/

/-- The durable part while recovery runs: the journal is after some verdicts on
entries that were read, and the files are as they were. -/
structure Recovering (A : Tick → Prop) (P : Platform) (w₀ : World) (state₀ : PersistentState)
    (entries : List Entry) (log : Verdicts) (w : World) : Prop where
  verdicts : ∀ e ∈ log, e.1 ∈ entries ∧ Verdict A P w₀.fs state₀ e.1 e.2
  rows : RowsAfter w₀.db log w.db
  drawn : w.drawn = w₀.drawn
  fs : Quiet A → w.fs = w₀.fs

/-- What a cut leaves: the saved state as it was, or a state after all verdicts. -/
def Cut (A : Tick → Prop) (P : Platform) (w₀ : World) (state₀ : PersistentState)
    (entries : List Entry) (w : World) : Prop :=
  ∃ log, Recovering A P w₀ state₀ entries log w ∧
    (w.stateJson = w₀.stateJson ∨ Covers entries log ∧ ∃ state, StateAfter state₀ log state ∧
      w.stateJson = some ⟨state.bodyLength, some state⟩)

section
variable {A : Tick → Prop} {P : Platform} {w₀ w w' : World} {state₀ : PersistentState}
  {entries : List Entry} {log : Verdicts} {s : Service} {entry : Entry}

theorem Recovering.cut (h : Recovering A P w₀ state₀ entries log w)
    (hs : w.stateJson = w₀.stateJson) : Cut A P w₀ state₀ entries w := ⟨log, h, .inl hs⟩

theorem Recovering.untouched (h : Recovering A P w₀ state₀ entries log w)
    (hu : Untouched A w w') : Recovering A P w₀ state₀ entries log w' :=
  ⟨h.verdicts, hu.db ▸ h.rows, hu.drawn.trans h.drawn, fun hq => (hu.fs hq).trans (h.fs hq)⟩

theorem Recovering.judge (h : Recovering A P w₀ state₀ entries log w) (hm : entry ∈ entries)
    (hnew : ∀ e ∈ log, e.1.id ≠ entry.id) {row : Row} (hfind : w₀.db.find entry.id = some row)
    (hr : row.Reads entry) {next : State} (hv : Verdict A P w₀.fs state₀ entry next) (now : Int) :
    Recovering A P w₀ state₀ entries (log ++ [(entry, next)])
      { w with db := w.db.replace (row.moved next now) } := by
  refine ⟨fun e he => ?_, h.rows.judge hnew hfind hr next now, h.drawn, h.fs⟩
  rcases List.mem_append.mp he with he | he
  · exact h.verdicts e he
  · rw [List.mem_singleton.mp he]
    exact ⟨hm, hv⟩

/-- The transition of a judged entry. -/
theorem judge_wp (h : Recovering A P w₀ state₀ entries log w) (hjson : w.stateJson = w₀.stateJson)
    (hm : entry ∈ entries) (hnew : ∀ e ∈ log, e.1.id ≠ entry.id) {row : Row}
    (hfind : w₀.db.find entry.id = some row) (hr : row.Reads entry) {next : State}
    (hv : Verdict A P w₀.fs state₀ entry next) :
    wpS A (ofJournal (Journal.transition entry.id entry.revision next))
      (fun moved s' w' => s' = s ∧ moved.revision = entry.revision + 1 ∧
        w'.stateJson = w₀.stateJson ∧
        Recovering A P w₀ state₀ entries (log ++ [(entry, next)]) w')
      (fun _ _ w' => Cut A P w₀ state₀ entries w') (Cut A P w₀ state₀ entries) s w := by
  have hcut := h.cut hjson
  refine (wpS_embed _ _).mpr ((wpE_inPart _ _).mpr ?_)
  refine Journal.transition_wp hcut (fun _ => hcut) fun row' source t _ hfind' hrev _ _ => ?_
  obtain rfl : row = row' :=
    Option.some.inj (((h.rows.others entry.id hnew).trans hfind).symm.trans hfind')
  have hj := h.judge hm hnew hfind hr hv t.seconds
  refine ⟨hj.cut hjson, fun _ => hj.cut hjson, fun moved hmoved => ⟨rfl, ?_, hjson, hj⟩⟩
  have : (moved.revision : Int) = row.revision + 1 := hmoved.revision
  omega

/-- The state of the loop: some entries are done, and all of those judged. -/
structure Looped (A : Tick → Prop) (P : Platform) (w₀ : World) (state₀ : PersistentState)
    (entries done : List Entry) (log : Verdicts) (s : Service) (w : World) : Prop
    extends Recovering A P w₀ state₀ entries log w where
  stateJson : w.stateJson = w₀.stateJson
  state : StateAfter state₀ log s.state
  covers : Covers done log
  within : ∀ e ∈ log, e.1 ∈ done

theorem Covers.snoc {done : List Entry} (h : Covers done log) {log' : Verdicts}
    (hsub : ∀ e ∈ log, e ∈ log')
    (hentry : entry.state.interrupted = true → ∃ next, (entry, next) ∈ log') :
    Covers (done ++ [entry]) log' := by
  intro other ho hi
  rcases List.mem_append.mp ho with ho | ho
  · obtain ⟨next, hn⟩ := h other ho hi
    exact ⟨next, hsub _ hn⟩
  · rw [List.mem_singleton.mp ho] at hi ⊢
    exact hentry hi

theorem Looped.judge {done : List Entry} (h : Looped A P w₀ state₀ entries done log s w)
    {next : State} {f : Proposal → Proposal} (hnew : ∀ e ∈ log, e.1.id ≠ entry.id)
    (hr : Recovering A P w₀ state₀ entries (log ++ [(entry, next)]) w')
    (hjson : w'.stateJson = w₀.stateJson) (hf : ∀ p, ∃ warning, f p =
      { p with revision := entry.revision + 1, status := verdictStatus next, warning }) :
    Looped A P w₀ state₀ entries (done ++ [entry]) (log ++ [(entry, next)])
      { s with state := s.state.settle entry.id f } w' where
  toRecovering := hr
  stateJson := hjson
  state := h.state.judge hnew hf
  covers := h.covers.snoc (fun e he => List.mem_append_left _ he) fun _ =>
    ⟨next, List.mem_append_right _ (List.mem_singleton_self _)⟩
  within e he := by
    rcases List.mem_append.mp he with he | he
    · exact List.mem_append_left _ (h.within e he)
    · rw [List.mem_singleton.mp he]
      exact List.mem_append_right _ (List.mem_singleton_self _)

theorem recoveryWarning_wp {proposal : Proposal} {fs : FileSystem} (hA : Quiet A) :
    wpE A (recoveryWarning P entry proposal) (fun _ fs' => fs' = fs ∧ True)
      (fun _ fs' => fs' = fs) (fun fs' => fs' = fs) fs := by
  unfold recoveryWarning
  have hread : wpE A (Identity.read entry.sourceToken) (fun _ fs' => fs' = fs)
      (fun _ fs' => fs' = fs) (fun fs' => fs' = fs) fs :=
    identity_wp hA rfl (fun _ _ _ _ => rfl) fun _ _ => rfl
  refine (wpE_bind _ _).mpr ((wpE_observe _).mpr (wpE_mono hread ?_ ?_ fun _ h => h))
  · rintro a fs' rfl
    refine (wpE_bind _ _).mpr (wpE_mono (verifyRecoveryDestination_wp hA) ?_ (fun _ _ h => h)
      fun _ h => h)
    rintro b fs'' ⟨rfl, -⟩
    exact ⟨rfl, trivial⟩
  · rintro e fs' rfl
    refine (wpE_bind _ _).mpr (wpE_mono (verifyRecoveryDestination_wp hA) ?_ (fun _ _ h => h)
      fun _ h => h)
    rintro b fs'' ⟨rfl, -⟩
    exact ⟨rfl, trivial⟩

/-- One round of the loop. -/
theorem recoverEntry_wp {done : List Entry} (h : Looped A P w₀ state₀ entries done log s w)
    (hm : entry ∈ entries) (hnew : ∀ e ∈ done, e.id ≠ entry.id) {row : Row}
    (hfind : w₀.db.find entry.id = some row) (hr : row.Reads entry) :
    wpS A (recoverEntry P entry)
      (fun _ s' w' => ∃ log', Looped A P w₀ state₀ entries (done ++ [entry]) log' s' w')
      (fun _ _ w' => Cut A P w₀ state₀ entries w') (Cut A P w₀ state₀ entries) s w := by
  have hcut := h.toRecovering.cut h.stateJson
  have hlog : ∀ e ∈ log, e.1.id ≠ entry.id := fun e he => hnew e.1 (h.within e he)
  have huntouched : ∀ {w'}, Untouched A w w' → Cut A P w₀ state₀ entries w' := fun hu =>
    (h.toRecovering.untouched hu).cut (hu.stateJson.trans h.stateJson)
  have hlooped : ∀ {w'}, Untouched A w w' → Looped A P w₀ state₀ entries done log s w' := fun hu =>
    ⟨h.toRecovering.untouched hu, hu.stateJson.trans h.stateJson, h.state, h.covers, h.within⟩
  unfold recoverEntry
  -- the evidence
  have hevidence : wpS A (if entry.state = .sourceRemoved then moveEvidence P entry else pure false)
      (fun b s' w' => s' = s ∧ Untouched A w w' ∧ (b = true → entry.state = .sourceRemoved) ∧
        (Honest A → b = true → ∃ p, state₀.findProposal entry.id = some p ∧
          Shows P w₀.fs entry p) ∧
        (Faultless A → b = false → entry.state = .sourceRemoved →
          ∀ p, state₀.findProposal entry.id = some p → ¬ Shows P w₀.fs entry p))
      (fun _ _ w' => Untouched A w w') (fun w' => Untouched A w w') s w := by
    have hsame := h.state.others entry.id hlog
    split
    · next hsr =>
      refine wpS_mono (moveEvidence_wp entry) ?_ (fun _ _ _ h => h.2) fun _ h => h
      rintro b s' w' ⟨rfl, hu, hsound, hcomplete⟩
      refine ⟨rfl, hu, fun _ => hsr, fun hh hb => ?_, fun hf hb _ => ?_⟩
      · rw [← hsame, ← h.fs hh.quiet]
        exact hsound hh hb
      · rw [← hsame, ← h.fs hf.honest.quiet]
        exact hcomplete hf hb
    · next hsr =>
      exact ⟨rfl, Untouched.refl w, (fun hb => nomatch hb), (fun _ hb => nomatch hb),
        fun _ _ hs => absurd hs hsr⟩
  refine (wpS_bind _ _).mpr (wpS_mono hevidence ?_ (fun _ _ _ => huntouched) fun _ => huntouched)
  rintro b s' w₁ ⟨rfl, hu, hsr, hsound, hcomplete⟩
  have h₁ := hlooped hu
  cases b with
  | true =>
    -- completed on evidence
    have hv : Verdict A P w₀.fs state₀ entry .completed :=
      ⟨by rw [hsr rfl]; rfl, .inl ⟨rfl, hsr rfl⟩, fun hh _ => hsound hh rfl, fun _ hn => nomatch hn⟩
    simp only [if_true]
    unfold completeEntry
    refine (wpS_bind _ _).mpr (wpS_mono
      (judge_wp h₁.toRecovering h₁.stateJson hm hlog hfind hr hv) ?_ (fun _ _ _ h => h) fun _ h => h)
    rintro moved s₂ w₂ ⟨rfl, hrev, hjson, hrec⟩
    refine wpS_modifyState.mpr ⟨_, h₁.judge hlog hrec hjson fun p => ⟨some restartWarning, ?_⟩⟩
    rw [hrev]
    rfl
  | false =>
    simp only [Bool.false_eq_true, if_false]
    by_cases hi : entry.state.interrupted = true
    · -- handed to the user
      have hv : Verdict A P w₀.fs state₀ entry .needsAttention :=
        ⟨hi, .inr rfl, (fun _ hn => nomatch hn), fun hf _ hs => hcomplete hf rfl hs⟩
      simp only [hi, if_true]
      unfold flagEntry
      refine (wpS_bind _ _).mpr (wpS_mono
        (judge_wp h₁.toRecovering h₁.stateJson hm hlog hfind hr hv) ?_ (fun _ _ _ h => h)
        fun _ h => h)
      rintro updated s₂ w₂ ⟨rfl, hrev, hjson, hrec⟩
      refine (wpS_bind _ _).mpr (wpS_modifyState.mpr ?_)
      have h₂ := h₁.judge (f := fun p => { p with
          revision := updated.revision, status := Status.needsAttention }) hlog hrec hjson
        fun p => ⟨p.warning, by rw [hrev]; rfl⟩
      refine (wpS_bind _ _).mpr (wpS_getState.mpr ?_)
      split
      · refine (wpS_bind _ _).mpr (wpS_mono (looks_wp fun hq => recoveryWarning_wp hq) ?_ ?_ ?_)
        · rintro warning s₃ w₃ ⟨rfl, hu₃, -⟩
          refine wpS_modifyState.mpr ⟨_, h₂.toRecovering.untouched hu₃,
            hu₃.stateJson.trans h₂.stateJson, ?_, h₂.covers, h₂.within⟩
          exact h₂.state.rewarn (List.mem_append_right _ (List.mem_singleton_self _)) _
        · rintro e s₃ w₃ ⟨-, hu₃⟩
          exact (h₂.toRecovering.untouched hu₃).cut (hu₃.stateJson.trans h₂.stateJson)
        · intro w₃ hu₃
          exact (h₂.toRecovering.untouched hu₃).cut (hu₃.stateJson.trans h₂.stateJson)
      · exact ⟨_, h₂⟩
    · simp only [hi, if_false, Bool.false_eq_true]
      refine ⟨log, h₁.toRecovering, h₁.stateJson, h₁.state, ?_, fun e he =>
        List.mem_append_left _ (h₁.within e he)⟩
      exact h₁.covers.snoc (fun _ he => he) fun hi' => absurd hi' hi

/-- The loop. -/
theorem recoverEntries_wp {rest done : List Entry} (hentries : entries = done ++ rest)
    (hread : ∀ e ∈ entries, ∃ row, w₀.db.find e.id = some row ∧ row.Reads e)
    (hids : (entries.map Entry.id).Nodup) (h : Looped A P w₀ state₀ entries done log s w) :
    wpS A (rest.forM (recoverEntry P))
      (fun _ s' w' => ∃ log', Looped A P w₀ state₀ entries entries log' s' w')
      (fun _ _ w' => Cut A P w₀ state₀ entries w') (Cut A P w₀ state₀ entries) s w := by
  induction rest generalizing done log s w with
  | nil =>
    rw [List.append_nil] at hentries
    exact ⟨log, hentries ▸ h⟩
  | cons entry rest ih =>
    have hm : entry ∈ entries :=
      hentries ▸ List.mem_append_right done List.mem_cons_self
    obtain ⟨row, hfind, hr⟩ := hread entry hm
    have hnew : ∀ e ∈ done, e.id ≠ entry.id := by
      rw [hentries, List.map_append, List.map_cons] at hids
      exact fun e he heq => (List.nodup_append.mp hids).2.2 e.id (List.mem_map_of_mem he) entry.id
        List.mem_cons_self heq
    rw [List.forM_eq_forM, List.forM_cons]
    refine (wpS_bind _ _).mpr (wpS_mono (recoverEntry_wp h hm hnew hfind hr) ?_
      (fun _ _ _ h => h) fun _ h => h)
    rintro ⟨⟩ s' w' ⟨log', h'⟩
    exact ih (by rw [hentries, List.append_assoc]; rfl) h'

end

/-! ## The whole recovery -/

/-- `entries` are what recovery read. -/
def ReadFrom (db : Database) (entries : List Entry) : Prop :=
  List.Forall₂ (fun row entry => Row.Reads row entry) db.nonterminal entries

theorem mem_nonterminal {db : Database} {row : Row} (h : row ∈ db.nonterminal) :
    row ∈ db.rows ∧ row.active = true := by
  have := List.mem_of_mem_take h
  rw [List.mem_insertionSort] at this
  exact List.mem_filter.mp this

theorem ReadFrom.ids {db : Database} {entries : List Entry} (h : ReadFrom db entries) :
    entries.map Entry.id = db.nonterminal.map Row.id := by
  refine List.ext_getElem (by simp [h.length_eq]) fun i h₁ h₂ => ?_
  rw [List.getElem_map, List.getElem_map]
  exact (List.forall₂_iff_get.mp h).2 i (by simpa using h₂) (by simpa using h₁) |>.id

theorem ReadFrom.nodup {db : Database} {entries : List Entry} (h : ReadFrom db entries) :
    (entries.map Entry.id).Nodup := by
  rw [h.ids]
  have hperm := (List.perm_insertionSort (fun a b : Row => a.updatedAt ≤ b.updatedAt)
    (db.rows.filter Row.active)).map Row.id
  refine ((List.take_sublist 1000 _).map Row.id).nodup (hperm.nodup_iff.mpr ?_)
  exact (List.filter_sublist.map Row.id).nodup db.keyed

theorem ReadFrom.find {db : Database} {entries : List Entry} (h : ReadFrom db entries)
    {entry : Entry} (hm : entry ∈ entries) :
    ∃ row ∈ db.nonterminal, db.find entry.id = some row ∧ row.Reads entry := by
  obtain ⟨i, hi, rfl⟩ := List.getElem_of_mem hm
  obtain ⟨hlen, hget⟩ := List.forall₂_iff_get.mp h
  have hr := hget i (hlen ▸ hi) hi
  have hrow := List.get_mem db.nonterminal ⟨i, hlen ▸ hi⟩
  refine ⟨_, hrow, ?_, hr⟩
  have hid : entries[i].id = (db.nonterminal.get ⟨i, hlen ▸ hi⟩).id := hr.id
  rw [hid]
  exact Database.find_of_mem (mem_nonterminal hrow).1

theorem ReadFrom.of_mem {db : Database} {entries : List Entry} (h : ReadFrom db entries)
    {row : Row} (hm : row ∈ db.nonterminal) : ∃ entry ∈ entries, row.Reads entry := by
  obtain ⟨i, hi, rfl⟩ := List.getElem_of_mem hm
  obtain ⟨hlen, hget⟩ := List.forall₂_iff_get.mp h
  exact ⟨_, List.get_mem entries ⟨i, hlen ▸ hi⟩, hget i hi (hlen ▸ hi)⟩

/-- What a finished recovery has done. -/
structure Recovered (A : Tick → Prop) (P : Platform) (w₀ : World) (state₀ : PersistentState)
    (log : Verdicts) (state : PersistentState) (w : World) : Prop where
  entries : ∃ entries, ReadFrom w₀.db entries ∧ Covers entries log ∧
    ∀ e ∈ log, e.1 ∈ entries ∧ Verdict A P w₀.fs state₀ e.1 e.2
  rows : RowsAfter w₀.db log w.db
  queue : StateAfter state₀ log state
  stateJson : w.stateJson = some ⟨state.bodyLength, some state⟩
  drawn : w.drawn = w₀.drawn
  fs : Quiet A → w.fs = w₀.fs

/-- What a recovery leaves that fails or is cut. -/
structure Stopped (A : Tick → Prop) (P : Platform) (w₀ : World) (state₀ : PersistentState)
    (log : Verdicts) (w : World) : Prop where
  entries : ∃ entries, (log = [] ∨ ReadFrom w₀.db entries) ∧
    (∀ e ∈ log, e.1 ∈ entries ∧ Verdict A P w₀.fs state₀ e.1 e.2) ∧
    (w.stateJson = w₀.stateJson ∨ ReadFrom w₀.db entries ∧ Covers entries log ∧
      ∃ state, StateAfter state₀ log state ∧ w.stateJson = some ⟨state.bodyLength, some state⟩)
  rows : RowsAfter w₀.db log w.db
  drawn : w.drawn = w₀.drawn
  fs : Quiet A → w.fs = w₀.fs

section
variable {A : Tick → Prop} {P : Platform} {w w' : World} {entries : List Entry} {s : Service}
  {state₀ : PersistentState}

theorem Stopped.refl : Stopped A P w state₀ [] w :=
  ⟨⟨[], .inl rfl, (fun _ he => nomatch he), .inl rfl⟩, .start _, rfl, fun _ => rfl⟩

theorem Cut.stopped (hr : ReadFrom w.db entries) (h : Cut A P w state₀ entries w') :
    ∃ log, Stopped A P w state₀ log w' := by
  obtain ⟨log, hrec, hjson⟩ := h
  refine ⟨log, ⟨entries, .inr hr, hrec.verdicts, ?_⟩, hrec.rows, hrec.drawn, hrec.fs⟩
  exact hjson.imp_right fun ⟨hc, hs⟩ => ⟨hr, hc, hs⟩

theorem Recovered.stopped {log : Verdicts} {state : PersistentState}
    (h : Recovered A P w state₀ log state w') : Stopped A P w state₀ log w' := by
  obtain ⟨entries, hread, hcovers, hlog⟩ := h.entries
  exact ⟨⟨entries, .inr hread, hlog, .inr ⟨hread, hcovers, state, h.queue, h.stateJson⟩⟩, h.rows,
    h.drawn, h.fs⟩

/-- **Recovery, whole or cut.** -/
theorem recover_wp : wpS A (recoverWithoutGuessing P)
    (fun _ s' w' => ∃ log, Recovered A P w s.state log s'.state w')
    (fun _ _ w' => ∃ log, Stopped A P w s.state log w')
    (fun w' => ∃ log, Stopped A P w s.state log w') s w := by
  have hnone : ∃ log, Stopped A P w s.state log w := ⟨[], .refl⟩
  unfold recoverWithoutGuessing
  rw [wpS_bind]
  refine (wpS_embed _ _).mpr ((wpE_inPart _ _).mpr ?_)
  refine Journal.nonterminal_reads.wpE hnone (fun _ => hnone) fun entries hr => ?_
  have hr : ReadFrom w.db entries := hr
  have hread : ∀ e ∈ entries, ∃ row, w.db.find e.id = some row ∧ row.Reads e := fun e he => by
    obtain ⟨row, -, hfind, hrow⟩ := hr.find he
    exact ⟨row, hfind, hrow⟩
  have hstart : Looped A P w s.state entries [] [] s w :=
    ⟨⟨(fun _ he => nomatch he), .start _, rfl, fun _ => rfl⟩, rfl, .start _,
      (fun _ he => nomatch he), fun _ he => nomatch he⟩
  have hloop := recoverEntries_wp (List.nil_append entries).symm hread hr.nodup hstart
  rw [wpS_bind]
  refine wpS_mono hloop ?_ (fun _ _ _ h => Cut.stopped hr h) fun _ h => Cut.stopped hr h
  rintro _ s₁ w₁ ⟨log, h⟩
  have hcut : ∀ w₂, Untouched A w₁ w₂ ∨ Saved A s₁ w₁ w₂ → Cut A P w s.state entries w₂ := by
    rintro w₂ (hu | hs)
    · exact (h.toRecovering.untouched hu).cut (hu.stateJson.trans h.stateJson)
    · exact ⟨log, ⟨h.verdicts, hs.db ▸ h.rows, hs.drawn.trans h.drawn,
        fun hq => (hs.fs hq).trans (h.fs hq)⟩, .inr ⟨h.covers, s₁.state, h.state, hs.stateJson⟩⟩
  refine wpS_mono save_wp ?_ (fun _ _ w₂ hw => (hcut w₂ hw.2).stopped hr) fun w₂ hw =>
    (hcut w₂ hw).stopped hr
  rintro ⟨⟩ s₂ w₂ ⟨rfl, hs⟩
  exact ⟨log, ⟨entries, hr, h.covers, h.verdicts⟩, hs.db ▸ h.rows, h.state, hs.stateJson,
    hs.drawn.trans h.drawn, fun hq => (hs.fs hq).trans (h.fs hq)⟩

end
end SortingHat
