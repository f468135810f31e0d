import SortingHat.Transfer
import SortingHat.Service.Route
import SortingHat.Service.Refusal

/-!
# What the journal says and what the disk shows

A move writes two stores, one after the other, and can stop between any two of its
steps. Nobody else touches the files.

* `Charted`: what the disk shows where the journal has the entry in a state;
* `approve_recorded`, `undo_recorded`: it does so at every step.
-/

namespace SortingHat
open Posix Effect Text FileSystem
open Journal (Row Database State)

/-- Where a copy is staged. -/
def Course.stage (c : Course) (id : Uuid) : Slot := ⟨c.target.dir, stagingName id⟩

/-- Both ends lie in one file system. -/
def Course.OneDevice (c : Course) : Prop := c.source.dir.device = c.target.dir.device

/-- The source entry, an inode of the expected identity, has become the target entry. -/
def Relocated (fs₀ fs : FileSystem) (c : Course) (expected : Identity) : Prop :=
  ∃ i inode, fs₀.inodes i = some inode ∧ Identity.of i inode = expected ∧
    Renamed fs₀ fs c.source c.target i

/-- A new file with the content of the source stands at the target. -/
def Landed (P : Platform) (fs₀ fs : FileSystem) (c : Course) (expected : Identity)
    (digest : String) :
    Prop :=
  ∃ i inode content j, fs₀.linkAt? c.source = some i ∧ fs₀.inodes i = some inode ∧
    Identity.of i inode = expected ∧ inode.node.content? = some content ∧
    digest = hexDigest P content ∧ Staged fs₀ fs c.target j content

/-- The same, and the source entry is gone. -/
def Retired (P : Platform) (fs₀ fs : FileSystem) (c : Course) (expected : Identity)
    (digest : String) :
    Prop :=
  ∃ fs₁ i, Landed P fs₀ fs₁ c expected digest ∧ Unlinked fs₁ fs c.source i

/-- What the disk shows where the journal has the entry of a request in a state; `fs₀`
is what it showed before the request. -/
def Charted (P : Platform) (fs₀ : FileSystem) (c : Course) (id : Uuid) (expected : Identity)
    (sha256 : Option String) (fs : FileSystem) : Call → State → Prop
  | .approve _ _, .approved => fs = fs₀ ∨ c.OneDevice ∧ Relocated fs₀ fs c expected
  | .approve _ _, .copying => ¬ c.OneDevice ∧
      (fs = fs₀ ∨ (∃ j copied, Staged fs₀ fs (c.stage id) j copied) ∨
        ∃ digest, sha256 = some digest ∧ Landed P fs₀ fs c expected digest)
  | .approve _ _, .published => c.OneDevice ∧ Relocated fs₀ fs c expected ∨ ¬ c.OneDevice ∧
      ∃ digest, sha256 = some digest ∧
        (Landed P fs₀ fs c expected digest ∨ Retired P fs₀ fs c expected digest)
  | .approve _ _, .sourceRemoved | .approve _ _, .completed =>
      c.OneDevice ∧ Relocated fs₀ fs c expected ∨ ¬ c.OneDevice ∧
        ∃ digest, sha256 = some digest ∧ Retired P fs₀ fs c expected digest
  | .undo _ _, .undoing => fs = fs₀ ∨ Relocated fs₀ fs c expected
  | .undo _ _, .undone => Relocated fs₀ fs c expected
  | _, _ => False

/-- Every row of the id is in this state with this digest. There is at most one. -/
def Filed (db : Database) (id : Uuid) (state : State) (sha256 : Option String) : Prop :=
  ∀ row ∈ db.rows, row.id = id → row.state = state.asStr ∧ row.sha256 = sha256

/-- The disk shows what the journal says. -/
def Recorded (P : Platform) (fs₀ : FileSystem) (c : Course) (call : Call) (id : Uuid)
    (expected : Identity) (w : World) : Prop :=
  ∃ state sha256, Filed w.db id state sha256 ∧ Charted P fs₀ c id expected sha256 w.fs call state

section
variable {A : Tick → Prop} {P : Platform} {α β : Type} {s : Service} {w : World} {fs₀ : FileSystem}
  {c : Course} {id : Uuid} {expected : Identity} {state next : State} {sha256 : Option String}
  {revision : Nat} {call : Call}

theorem Filed.replace {row : Row} (h : row.id = id) (hs : row.state = state.asStr)
    (hd : row.sha256 = sha256) : Filed (w.db.replace row) id state sha256 := by
  intro other hm hid
  obtain ⟨old, ho, rfl⟩ := Database.mem_replace.mp hm
  split at hid
  · next hsame =>
    rw [if_pos hsame]
    exact ⟨hs, hd⟩
  · next hne => exact absurd (hid.trans h.symm) hne

/-! ## Rules -/

theorem recorded_transition {f : Journal.Entry → ServiceM β} {Q : β → Service → World → Prop}
    (hfiled : Filed w.db id state sha256) (h : Charted P fs₀ c id expected sha256 w.fs call state)
    (h' : Charted P fs₀ c id expected sha256 w.fs call next)
    (hf : ∀ entry db', Filed db' id next sha256 →
      wpS A (f entry) Q (fun _ _ => Recorded P fs₀ c call id expected)
        (Recorded P fs₀ c call id expected) s
        { w with db := db' }) :
    wpS A (ofJournal (Journal.transition id revision next) >>= f) Q
      (fun _ _ => Recorded P fs₀ c call id expected) (Recorded P fs₀ c call id expected) s w := by
  have hhere : Recorded P fs₀ c call id expected w := ⟨state, sha256, hfiled, h⟩
  refine (wpS_bind _ _).mpr ((wpS_embed _ _).mpr ((wpE_inPart _ _).mpr ?_))
  refine Journal.transition_wp hhere (fun _ => hhere) fun row source t _ hfind _ _ _ => ?_
  obtain ⟨hm, hid⟩ := Database.find_eq_some.mp hfind
  have hnext : Filed (w.db.replace (row.moved next t.seconds)) id next sha256 :=
    Filed.replace hid rfl (hfiled row hm hid).2
  have hthere : Recorded P fs₀ c call id expected
      { w with db := w.db.replace (row.moved next t.seconds) } :=
    ⟨next, sha256, hnext, h'⟩
  exact ⟨hthere, fun _ => hthere, fun entry _ => hf entry _ hnext⟩

theorem recorded_setSha256 {digest : String} {f : Unit → ServiceM β}
    {Q : β → Service → World → Prop}
    (hfiled : Filed w.db id state sha256) (h : Charted P fs₀ c id expected sha256 w.fs call state)
    (hf : ∀ db', Filed db' id state (some digest) →
      wpS A (f ()) Q (fun _ _ => Recorded P fs₀ c call id expected)
        (Recorded P fs₀ c call id expected) s
        { w with db := db' }) :
    wpS A (ofJournal (Journal.setSha256 id digest) >>= f) Q
      (fun _ _ => Recorded P fs₀ c call id expected) (Recorded P fs₀ c call id expected) s w := by
  have hhere : Recorded P fs₀ c call id expected w := ⟨state, sha256, hfiled, h⟩
  refine (wpS_bind _ _).mpr ((wpS_embed _ _).mpr ((wpE_inPart _ _).mpr ?_))
  refine Journal.setSha256_wp hhere (fun _ => hhere) fun row t _ hfind => ?_
  obtain ⟨hm, hid⟩ := Database.find_eq_some.mp hfind
  exact hf _ (Filed.replace hid (hfiled row hm hid).1 rfl)

theorem recorded_files {x : FsM α} {f : α → ServiceM β} {Q : β → Service → World → Prop}
    (hfiled : Filed w.db id state sha256)
    (h : wpE A x (fun a fs => wpS A (f a) Q (fun _ _ => Recorded P fs₀ c call id expected)
        (Recorded P fs₀ c call id expected) s { w with fs })
      (fun _ fs => Charted P fs₀ c id expected sha256 fs call state)
      (fun fs => Charted P fs₀ c id expected sha256 fs call state) w.fs) :
    wpS A (ofFs x >>= f) Q (fun _ _ => Recorded P fs₀ c call id expected)
      (Recorded P fs₀ c call id expected) s w := by
  refine (wpS_bind _ _).mpr ((wpS_embed _ _).mpr ((wpE_inPart _ _).mpr (wpE_mono h ?_ ?_ ?_)))
  · exact fun _ _ ha => ha
  · exact fun _ fs he => ⟨state, sha256, hfiled, he⟩
  · exact fun fs hk => ⟨state, sha256, hfiled, hk⟩

/-- Looking up the device of an open file. -/
theorem recorded_deviceFd {fd : Fd} {f : Nat → ServiceM β} {Q : β → Service → World → Prop}
    (hA : Quiet A) (hfiled : Filed w.db id state sha256)
    (h : Charted P fs₀ c id expected sha256 w.fs call state)
    (hf : wpS A (f (w.fs.ino fd).device) Q (fun _ _ => Recorded P fs₀ c call id expected)
      (Recorded P fs₀ c call id expected) s w) :
    wpS A (ofFs (deviceFd fd) >>= f) Q (fun _ _ => Recorded P fs₀ c call id expected)
      (Recorded P fs₀ c call id expected) s w := by
  apply recorded_files hfiled
  unfold deviceFd
  refine (wpE_bind _ _).mpr ((wpE_recast _ _).mpr (look_wp hA h (fun _ _ _ _ => h) ?_ fun _ _ => h))
  rintro ⟨i, inode⟩ hstat
  unfold fstat at hstat
  split at hstat
  · cases hstat
    exact hf
  · cases hstat

/-- What ends a request leaves the files alone and the row in its state. -/
theorem recorded_finish {index revision : Nat} {status : Status}
    (hfiled : Filed w.db id state sha256) (h : Charted P fs₀ c id expected sha256 w.fs call state)
    (hA : Quiet A) :
    wpS A (finish index revision status) (fun _ _ w' => ∃ sha256, Filed w'.db id state sha256 ∧
        Charted P fs₀ c id expected sha256 w'.fs call state)
      (fun _ _ => Recorded P fs₀ c call id expected) (Recorded P fs₀ c call id expected) s w := by
  have hpruned : ∀ db', Journal.Pruned w.db db' → Filed db' id state sha256 := by
    rintro db' ⟨doomed, -, rfl⟩ row hm hid
    exact hfiled row (List.mem_of_mem_filter hm) hid
  have hhere : ∀ db', Journal.Pruned w.db db' →
      Recorded P fs₀ c call id expected { w with db := db' } :=
        fun _ hp => ⟨state, sha256, hpruned _ hp, h⟩
  unfold finish
  refine (wpS_bind _ _).mpr (wpS_modifyState.mpr ?_)
  unfold proposalAt
  refine (wpS_bind _ _).mpr ((wpS_bind _ _).mpr (wpS_getState.mpr ?_))
  refine (wpS_orFail _ _).mpr ⟨fun _ => ⟨state, sha256, hfiled, h⟩, fun result _ => ?_⟩
  refine (wpS_bind _ _).mpr (wpS_modifyState.mpr ?_)
  unfold enforceJournalRetention
  refine (wpS_bind _ _).mpr ((wpS_bind _ _).mpr ((wpS_embed _ _).mpr ((wpE_inPart _ _).mpr ?_)))
  refine Journal.enforceRetention_wp hhere (fun _ => hhere) fun _ db' hp => (wpS_pure _).mpr ?_
  have hkept : ∀ (s₁ : Service) w', Untouched A (World.journal.put db' w) w' ∨
      Saved A s₁ (World.journal.put db' w) w' → Filed w'.db id state sha256 ∧
        Charted P fs₀ c id expected sha256 w'.fs call state := by
    rintro s₁ w' (hu | hu)
    · rw [hu.db, hu.fs hA]
      exact ⟨hpruned _ hp, h⟩
    · rw [hu.db, hu.fs hA]
      exact ⟨hpruned _ hp, h⟩
  refine (wpS_bind _ _).mpr (wpS_mono save_wp ?_ ?_ ?_)
  · rintro _ s' w' ⟨-, hsaved⟩
    exact ⟨sha256, hkept _ w' (.inr hsaved)⟩
  · rintro _ s' w' ⟨-, hu⟩
    exact ⟨state, sha256, hkept _ w' hu⟩
  · exact fun w' hu => ⟨state, sha256, hkept _ w' hu⟩

/-! ## Approving -/

section
variable {o : Opened} {targetName : Bytes} {id₀ : Uuid} {revision₀ : Nat}

theorem recorded_publishSame {f : Nat → ServiceM β} {Q : β → Service → World → Prop} (hA : Quiet A)
    (hplot : Plotted P fs₀ c o.sourceParentFd o.destinationFolderFd o.sourceName targetName)
    (hone : c.OneDevice) (hfiled : Filed w.db id .approved sha256) (hfs : w.fs = fs₀)
    (hf : ∀ published w', Filed w'.db id .published sha256 →
      Relocated fs₀ w'.fs c (proposalIdentity o.proposal) →
      wpS A (f published) Q
        (fun _ _ => Recorded P fs₀ c (.approve id₀ revision₀) id (proposalIdentity o.proposal))
        (Recorded P fs₀ c (.approve id₀ revision₀) id (proposalIdentity o.proposal)) s w') :
    wpS A (publishSame o id revision targetName >>= f) Q
      (fun _ _ => Recorded P fs₀ c (.approve id₀ revision₀) id (proposalIdentity o.proposal))
      (Recorded P fs₀ c (.approve id₀ revision₀) id (proposalIdentity o.proposal)) s w := by
  unfold publishSame
  rw [bind_assoc]
  apply recorded_files hfiled
  rw [hfs]
  apply sameFilesystemMoveAt_wp hA (.inl rfl) (fun _ => .inl rfl) hplot.source_plain.1
    hplot.source_plain.2 hplot.target_plain.1 hplot.target_plain.2
  intro i inode fs' hinode hexpected hrenamed
  rw [← hplot.source, ← hplot.target] at hrenamed
  have hmoved : Relocated fs₀ fs' c (proposalIdentity o.proposal) :=
    ⟨i, inode, hinode, hexpected, hrenamed⟩
  have happroved : Charted P fs₀ c id (proposalIdentity o.proposal) sha256 fs'
      (.approve id₀ revision₀) .approved :=
    .inr ⟨hone, hmoved⟩
  have hpublished : Charted P fs₀ c id (proposalIdentity o.proposal) sha256 fs'
      (.approve id₀ revision₀) .published :=
    .inl ⟨hone, hmoved⟩
  refine ⟨happroved, fun _ => happroved, ?_⟩
  rw [bind_assoc]
  apply recorded_transition (w := { w with fs := fs' }) hfiled happroved hpublished
  intro entry db' hfiled'
  exact hf _ _ hfiled' hmoved

/-- The staged copy, published. -/
theorem Staged.landed {fs₁ fs₂ : FileSystem} {i j j' : InodeId} {inode : Inode} {content : Bytes}
    (hentry : fs₀.linkAt? c.source = some i) (hinode : fs₀.inodes i = some inode)
    (hexpected : Identity.of i inode = expected) (hcontent : inode.node.content? = some content)
    (h : Staged fs₀ fs₁ (c.stage id) j content) (hr : Renamed fs₁ fs₂ (c.stage id) c.target j') :
    Landed P fs₀ fs₂ c expected (hexDigest P content) := by
  obtain rfl : j' = j := by
    have := h.entry (c.stage id)
    rw [if_pos rfl, hr.found] at this
    exact Option.some.inj this
  have hne : c.target ≠ c.stage id := by
    intro he
    have := hr.free
    rw [he, hr.found] at this
    cases this
  refine ⟨i, inode, content, j', hentry, hinode, hexpected, hcontent, rfl, ?_⟩
  refine { h.toAlters.trans (hr.toAlters.weaken fun _ hf => hf.elim) with
    free := ?_, fresh := h.fresh, entry := fun u => ?_, content := ?_ }
  · have := h.entry c.target
    rw [if_neg hne, hr.free] at this
    exact this.symm
  · rw [hr.entry u]
    by_cases ht : u = c.target
    · rw [if_pos ht, if_pos ht]
    · rw [if_neg ht, if_neg ht]
      by_cases hs : u = c.stage id
      · rw [if_pos hs, hs, h.free]
      · rw [if_neg hs, h.entry u, if_neg hs]
  · rw [hr.toAlters.content? (not_false)]
    exact h.content

theorem recorded_publishCross {verifiedFd : Fd} {f : Nat → ServiceM β}
    {Q : β → Service → World → Prop}
    (hA : Quiet A)
    (hplot : Plotted P fs₀ c o.sourceParentFd o.destinationFolderFd o.sourceName targetName)
    (hverified : fs₀.linkAt? c.source = some (fs₀.ino verifiedFd)) (hone : ¬ c.OneDevice)
    (hfiled : Filed w.db id .approved sha256) (hfs : w.fs = fs₀)
    (hf : ∀ published w' digest, Filed w'.db id .published (some digest) →
      Retired P fs₀ w'.fs c (proposalIdentity o.proposal) digest →
      wpS A (f published) Q
        (fun _ _ => Recorded P fs₀ c (.approve id₀ revision₀) id (proposalIdentity o.proposal))
        (Recorded P fs₀ c (.approve id₀ revision₀) id (proposalIdentity o.proposal)) s w') :
    wpS A (publishCross P o verifiedFd id revision targetName >>= f) Q
      (fun _ _ => Recorded P fs₀ c (.approve id₀ revision₀) id (proposalIdentity o.proposal))
      (Recorded P fs₀ c (.approve id₀ revision₀) id (proposalIdentity o.proposal)) s w := by
  have hstage : (⟨fs₀.ino o.destinationFolderFd, stagingName id⟩ : Slot) = c.stage id := by
    unfold Course.stage
    rw [hplot.target]
  obtain ⟨hslash, hstay⟩ := stagingName_plain id
  have hpart : ∀ {sha256 fs' j copied}, Staged fs₀ fs' (c.stage id) j copied →
      Charted P fs₀ c id (proposalIdentity o.proposal) sha256 fs'
        (.approve id₀ revision₀) .copying :=
    fun hstaged => ⟨hone, .inr (.inl ⟨_, _, hstaged⟩)⟩
  have hbefore : Charted P fs₀ c id (proposalIdentity o.proposal) sha256 w.fs
      (.approve id₀ revision₀) .approved := .inl hfs
  have hstarted : Charted P fs₀ c id (proposalIdentity o.proposal) sha256 w.fs
      (.approve id₀ revision₀) .copying :=
    ⟨hone, .inl hfs⟩
  unfold publishCross
  simp only [bind_assoc]
  apply recorded_transition hfiled hbefore hstarted
  intro entry db₁ hfiled₁
  apply recorded_files hfiled₁
  dsimp only
  rw [hfs] at hstarted ⊢
  apply verifiedStageCopyAt_wp hA hstarted (fun _ => hstarted) hslash hstay
  · intro fs' j copied hstaged
    rw [hstage] at hstaged
    exact ⟨hpart hstaged, fun _ => hpart hstaged⟩
  intro fs₂ j inode content hinode hexpected _ hcontent hstaged
  rw [hstage] at hstaged
  apply recorded_setSha256 hfiled₁ (hpart hstaged)
  intro db₂ hfiled₂
  apply recorded_files hfiled₂
  have hino : fs₂.ino o.destinationFolderFd = fs₀.ino o.destinationFolderFd := hstaged.ino _
  apply publishStageAt_wp hA (hpart hstaged) fun _ => hpart hstaged
  intro j' fs₃ hrenamed
  dsimp only at hrenamed
  rw [hino, hstage, ← hplot.target] at hrenamed
  have hlanded : Landed P fs₀ fs₃ c (proposalIdentity o.proposal) (hexDigest P content) :=
    hstaged.landed hverified hinode hexpected hcontent hrenamed
  have hcopied : Charted P fs₀ c id (proposalIdentity o.proposal) (some (hexDigest P content)) fs₃
      (.approve id₀ revision₀) .copying :=
    ⟨hone, .inr (.inr ⟨_, rfl, hlanded⟩)⟩
  have hpublished : Charted P fs₀ c id (proposalIdentity o.proposal)
      (some (hexDigest P content)) fs₃ (.approve id₀ revision₀) .published :=
    .inr ⟨hone, _, rfl, .inl hlanded⟩
  refine ⟨hcopied, fun _ => hcopied, ?_⟩
  apply recorded_files hfiled₂
  apply verifyAt_wp hA hcopied (fun _ => hcopied) hplot.target_plain.1 hplot.target_plain.2
  apply recorded_transition hfiled₂ hcopied hpublished
  intro entry' db₃ hfiled₃
  apply recorded_files hfiled₃
  apply retireSourceAt_wp hA hpublished
    (fun _ => hpublished) hplot.source_plain.1 hplot.source_plain.2
  intro i fs₄ hunlinked
  have ⟨_, _, _, _, _, _, _, _, _, hcopy⟩ := hlanded
  have hino₃ : fs₃.ino o.sourceParentFd = fs₀.ino o.sourceParentFd := hcopy.ino _
  dsimp only at hunlinked
  rw [hino₃, ← hplot.source] at hunlinked
  have hretired : Retired P fs₀ fs₄ c (proposalIdentity o.proposal) (hexDigest P content) :=
    ⟨fs₃, i, hlanded, hunlinked⟩
  refine ⟨.inr ⟨hone, _, rfl, .inr hretired⟩, fun _ => .inr ⟨hone, _, rfl, .inr hretired⟩, ?_⟩
  exact hf _ _ _ hfiled₃ hretired

end

/-! ## The requests -/

/-- The course of a request, its proposal, and that its target name is free up to case. -/
structure Bound (P : Platform) (s : Service) (fs : FileSystem) (call : Call) (id : Uuid)
    (c : Course)
    (p : Proposal) : Prop where
  course : call.course s.state fs = some c
  found : s.state.findProposal id = some p
  free : ∃ entries, fs.entries? c.target.dir = some entries ∧
    ∀ e ∈ entries, folded P e.1 ≠ folded P c.target.name

/-- A request that has done nothing yet, or has come as far as the journal says. -/
def Underway (P : Platform) (s : Service) (w : World) (call : Call) (id : Uuid) (w' : World) :
    Prop :=
  (w'.fs = w.fs ∧ w'.db = w.db) ∨
    ∃ c p, Bound P s w.fs call id c p ∧ Recorded P w.fs c call id (proposalIdentity p) w'

/-- A request that has been answered. -/
def Arrived (P : Platform) (s : Service) (w : World) (call : Call) (id : Uuid) (state : State)
    (w' : World) : Prop :=
  ∃ c p sha256, Bound P s w.fs call id c p ∧ Filed w'.db id state sha256 ∧
    Charted P w.fs c id (proposalIdentity p) sha256 w'.fs call state

section
variable {p : Proposal} {w' : World}

theorem orFail_bind {o : Option α} {a : α} {e : ServiceError} {f : α → ServiceM β}
    (h : o = some a) :
    (orFail o e >>= f) = f a := by
  rw [h]
  exact pure_bind a f

/-- The intent, and what follows it. -/
theorem underway_intent {f : Journal.Entry → ServiceM β} {Q : β → Service → World → Prop}
    (hA : Quiet A) (hbound : Bound P s w.fs call id c p) (hu : Untouched A w w')
    (hcharted : ∀ sha256, Charted P w.fs c id (proposalIdentity p) sha256 w.fs call next)
    (hf : ∀ entry db' sha256, Filed db' id next sha256 →
      wpS A (f entry) Q (fun _ _ => Recorded P w.fs c call id (proposalIdentity p))
        (Recorded P w.fs c call id (proposalIdentity p)) s { w' with db := db' }) :
    wpS A (ofJournal (Journal.transition id revision next) >>= f) Q
      (fun _ _ => Underway P s w call id) (Underway P s w call id) s w' := by
  have hhere : Underway P s w call id w' := .inl ⟨hu.fs hA, hu.db⟩
  refine (wpS_bind _ _).mpr ((wpS_embed _ _).mpr ((wpE_inPart _ _).mpr ?_))
  refine Journal.transition_wp hhere (fun _ => hhere) fun row source t _ hfind _ _ _ => ?_
  obtain ⟨hm, hid⟩ := Database.find_eq_some.mp hfind
  have hnext : Filed (w'.db.replace (row.moved next t.seconds)) id next row.sha256 :=
    Filed.replace hid rfl rfl
  have hthere : Recorded P w.fs c call id (proposalIdentity p)
      { w' with db := w'.db.replace (row.moved next t.seconds) } :=
    ⟨next, row.sha256, hnext, (hu.fs hA).symm ▸ hcharted _⟩
  refine ⟨.inr ⟨c, p, hbound, hthere⟩, fun _ => .inr ⟨c, p, hbound, hthere⟩, fun entry _ => ?_⟩
  apply wpS_mono (hf entry _ _ hnext)
  · exact fun _ _ _ hq => hq
  · exact fun _ _ _ hr => .inr ⟨c, p, hbound, hr⟩
  · exact fun _ hr => .inr ⟨c, p, hbound, hr⟩

/-- What is left of an approval once the entry is published. -/
theorem recorded_conclude {index published revision₀ : Nat} {id₀ : Uuid} {s₁ : Service} {w₁ : World}
    (hA : Quiet A)
    (hbound : Bound P s w.fs (.approve id₀ revision₀) id c p)
    (hfiled : Filed w₁.db id .published sha256)
    (hpublished : Charted P w.fs c id (proposalIdentity p) sha256 w₁.fs
      (.approve id₀ revision₀) .published)
    (hremoved : Charted P w.fs c id (proposalIdentity p) sha256 w₁.fs
      (.approve id₀ revision₀) .sourceRemoved) :
    wpS A (ofJournal (Journal.transition id published .sourceRemoved) >>= fun removed =>
        ofJournal (Journal.transition id removed.revision .completed) >>= fun completed =>
        finish index completed.revision .completed)
      (fun _ _ => Arrived P s w (.approve id₀ revision₀) id .completed)
      (fun _ _ => Recorded P w.fs c (.approve id₀ revision₀) id (proposalIdentity p))
      (Recorded P w.fs c (.approve id₀ revision₀) id (proposalIdentity p)) s₁ w₁ := by
  have hcompleted : Charted P w.fs c id (proposalIdentity p) sha256 w₁.fs
      (.approve id₀ revision₀) .completed := hremoved
  apply recorded_transition hfiled hpublished hremoved
  intro removed db₂ hfiled₂
  apply recorded_transition (w := { w₁ with db := db₂ }) hfiled₂ hremoved hcompleted
  intro completed db₃ hfiled₃
  apply wpS_mono (recorded_finish (w := { w₁ with db := db₃ }) hfiled₃ hcompleted hA)
  · rintro _ _ w₂ ⟨sha256, hfiled₄, hcharted⟩
    exact ⟨c, p, sha256, hbound, hfiled₄, hcharted⟩
  · exact fun _ _ _ hr => hr
  · exact fun _ hr => hr

/-- **An approval at every step.** -/
theorem approve_recorded (hA : Quiet A) :
    wpS A (approve P id revision) (fun _ _ => Arrived P s w (.approve id revision) id .completed)
      (fun _ _ => Underway P s w (.approve id revision) id)
        (Underway P s w (.approve id revision) id)
      s w := by
  have hlook : ∀ w', Untouched A w w' → Underway P s w (.approve id revision) id w' :=
    fun w' hu => .inl ⟨hu.fs hA, hu.db⟩
  unfold approve
  refine (wpS_bind _ _).mpr
    (wpS_mono ((approveChecks_looks id revision).wp fun _ => rfl) ?_ ?_ hlook)
  · rintro ⟨o, verifiedFd⟩ s' w' ⟨rfl, hu, haim, hready⟩
    obtain ⟨c, targetName, hcourse, hplot, hname, hverified⟩ := (hready hA).course haim
    have hbound : Bound P s' w.fs (.approve id revision) id c o.proposal :=
      ⟨hcourse, findProposal_of_index haim.index haim.found, hplot.free⟩
    have hintent : ∀ sha256, Charted P w.fs c id (proposalIdentity o.proposal) sha256 w.fs
        (.approve id revision) .approved :=
      fun _ => .inl rfl
    dsimp only
    rw [approveMove_eq]
    apply underway_intent hA hbound hu hintent
    intro entry db' sha256 hfiled
    unfold approveIntended
    refine (wpS_bind _ _).mpr (wpS_modifyState.mpr ?_)
    rw [orFail_bind hname]
    have hfs : w'.fs = w.fs := hu.fs hA
    have happroved : Charted P w.fs c id (proposalIdentity o.proposal) sha256 w'.fs
        (.approve id revision) .approved := .inl hfs
    have hdevices : (w'.fs.ino o.sourceParentFd).device = (w'.fs.ino o.destinationFolderFd).device ↔
        c.OneDevice := by
      unfold Course.OneDevice
      rw [hfs, hplot.source, hplot.target]
    apply recorded_deviceFd (w := { w' with db := db' }) hA hfiled happroved
    apply recorded_deviceFd (w := { w' with db := db' }) hA hfiled happroved
    by_cases hone : c.OneDevice
    · rw [if_pos (hdevices.mpr hone)]
      apply recorded_publishSame (w := { w' with db := db' }) hA hplot hone hfiled hfs
      intro published w₁ hfiled₁ hmoved
      have hpublished : Charted P w.fs c id (proposalIdentity o.proposal) sha256 w₁.fs
          (.approve id revision) .published :=
        .inl ⟨hone, hmoved⟩
      have hremoved : Charted P w.fs c id (proposalIdentity o.proposal) sha256 w₁.fs
          (.approve id revision) .sourceRemoved :=
        .inl ⟨hone, hmoved⟩
      exact recorded_conclude hA hbound hfiled₁ hpublished hremoved
    · rw [if_neg fun he => hone (hdevices.mp he)]
      apply recorded_publishCross (w := { w' with db := db' }) hA hplot hverified hone hfiled hfs
      intro published w₁ digest hfiled₁ hretired
      have hpublished : Charted P w.fs c id (proposalIdentity o.proposal) (some digest) w₁.fs
          (.approve id revision) .published :=
        .inr ⟨hone, digest, rfl, .inr hretired⟩
      have hremoved : Charted P w.fs c id (proposalIdentity o.proposal) (some digest) w₁.fs
          (.approve id revision) .sourceRemoved :=
        .inr ⟨hone, digest, rfl, hretired⟩
      exact recorded_conclude hA hbound hfiled₁ hpublished hremoved
  · rintro e s' w' ⟨-, hu⟩
    exact hlook w' hu

/-- **An undo at every step.** -/
theorem undo_recorded (hA : Quiet A) :
    wpS A (undo P id revision) (fun _ _ => Arrived P s w (.undo id revision) id .undone)
      (fun _ _ => Underway P s w (.undo id revision) id) (Underway P s w (.undo id revision) id)
      s w := by
  have hlook : ∀ w', Untouched A w w' → Underway P s w (.undo id revision) id w' :=
    fun w' hu => .inl ⟨hu.fs hA, hu.db⟩
  unfold undo
  refine (wpS_bind _ _).mpr (wpS_mono ((undoChecks_looks id revision).wp fun _ => rfl) ?_ ?_ hlook)
  · rintro ⟨o, relative⟩ s' w' ⟨rfl, hu, haim, hready⟩
    obtain ⟨c, sourceName, targetName, hcourse, hplot, hname, htarget⟩ := (hready hA).course haim
    have hbound : Bound P s' w.fs (.undo id revision) id c o.proposal :=
      ⟨hcourse, findProposal_of_index haim.index haim.found, hplot.free⟩
    have hintent : ∀ sha256, Charted P w.fs c id (proposalIdentity o.proposal) sha256 w.fs
        (.undo id revision) .undoing :=
      fun _ => .inl rfl
    dsimp only
    rw [undoMove_eq]
    apply underway_intent hA hbound hu hintent
    intro entry db' sha256 hfiled
    unfold undoIntended
    rw [orFail_bind hname, orFail_bind htarget]
    have hfs : w'.fs = w.fs := hu.fs hA
    apply recorded_files (w := { w' with db := db' }) hfiled
    dsimp only
    rw [hfs]
    apply sameFilesystemMoveAt_wp hA (.inl rfl) (fun _ => .inl rfl) hplot.source_plain.1
      hplot.source_plain.2 hplot.target_plain.1 hplot.target_plain.2
    intro i inode fs' hinode hexpected hrenamed
    rw [← hplot.source, ← hplot.target] at hrenamed
    have hmoved : Relocated w.fs fs' c (proposalIdentity o.proposal) :=
      ⟨i, inode, hinode, hexpected, hrenamed⟩
    have hundoing : Charted P w.fs c id (proposalIdentity o.proposal) sha256 fs'
        (.undo id revision) .undoing := .inr hmoved
    have hundone : Charted P w.fs c id (proposalIdentity o.proposal) sha256 fs'
        (.undo id revision) .undone := hmoved
    refine ⟨hundoing, fun _ => hundoing, ?_⟩
    apply recorded_transition (w := { w' with fs := fs', db := db' }) hfiled hundoing hundone
    intro undone db₂ hfiled₂
    apply wpS_mono (recorded_finish (w := { w' with fs := fs', db := db₂ }) hfiled₂ hundone hA)
    · rintro _ _ w₂ ⟨sha256, hfiled₃, hcharted⟩
      exact ⟨c, o.proposal, sha256, hbound, hfiled₃, hcharted⟩
    · exact fun _ _ _ hr => hr
    · exact fun _ hr => hr
  · rintro e s' w' ⟨-, hu⟩
    exact hlook w' hu

end
end

/-! ## What is kept -/

/-- No entry but the one that moves is lost, none is overwritten, and the content of the
one that moves is at one of the two ends. -/
structure Kept (fs₀ fs : FileSystem) (id : Uuid) (c : Course) : Prop where
  entries : ∀ u i, fs₀.linkAt? u = some i → u ≠ c.source → fs.linkAt? u = some i
  content : ∀ i inode, fs₀.inodes i = some inode → fs.content? i = inode.node.content?
  files : ∀ i inode, fs₀.inodes i = some inode → fs₀.isDirectory i = false →
    fs₀.linkAt? c.source ≠ some i → fs.inodes i = some inode
  held : ∀ i inode, fs₀.linkAt? c.source = some i → fs₀.inodes i = some inode →
    ∃ u j, (u = c.source ∨ u = c.target) ∧ fs.linkAt? u = some j ∧
      fs.content? j = inode.node.content?
  appeared : ∀ u i, fs.linkAt? u = some i → fs₀.linkAt? u = some i ∨ u = c.target ∨ u = c.stage id

/-- The file has arrived: it is gone from the source, and alone under its new name up to
case. -/
structure Delivered (P : Platform) (fs₀ fs : FileSystem) (c : Course) (expected : Identity) :
    Prop where
  gone : fs.linkAt? c.source = none
  holds : ∃ i inode j, fs₀.linkAt? c.source = some i ∧ fs₀.inodes i = some inode ∧
    Identity.of i inode = expected ∧ fs.linkAt? c.target = some j ∧
      fs.content? j = inode.node.content?
  alone : ∀ name i, fs.linkAt? ⟨c.target.dir, name⟩ = some i → name ≠ c.target.name →
    folded P name ≠ folded P c.target.name

section
variable {P : Platform} {fs₀ fs : FileSystem} {c : Course} {id : Uuid} {expected : Identity}
  {sha256 : Option String} {digest : String} {call : Call} {state : State}

theorem content_eq {i : InodeId} {inode : Inode} (h : fs.inodes i = some inode) :
    fs.content? i = inode.node.content? := by
  unfold FileSystem.content? node?
  rw [h]
  rfl

theorem Kept.refl : Kept fs₀ fs₀ id c where
  entries _ _ h _ := h
  content _ _ h := content_eq h
  files _ _ h _ _ := h
  held i _ h hi := ⟨c.source, i, .inl rfl, h, content_eq hi⟩
  appeared _ _ h := .inl h

theorem Relocated.kept (h : Relocated fs₀ fs c expected) : Kept fs₀ fs id c := by
  obtain ⟨i, inode, hinode, -, hr⟩ := h
  have hcontent : ∀ j, fs.content? j = fs₀.content? j := fun j => hr.toAlters.content? not_false
  constructor
  · intro u j hu hne
    rw [hr.entry u]
    by_cases ht : u = c.target
    · rw [ht, hr.free] at hu
      cases hu
    · rw [if_neg ht, if_neg hne]
      exact hu
  · exact fun j _ hj => (hcontent j).trans (content_eq hj)
  · exact fun j _ hj hd _ => (hr.inodes j not_false hd).trans hj
  · intro j inode hj hi
    refine ⟨c.target, i, .inr rfl, ?_, ?_⟩
    · rw [hr.entry, if_pos rfl]
    · obtain rfl := Option.some.inj (hr.found.symm.trans hj)
      exact (hcontent i).trans (content_eq hi)
  · intro u j hu
    rw [hr.entry u] at hu
    by_cases ht : u = c.target
    · exact .inr (.inl ht)
    · rw [if_neg ht] at hu
      split at hu
      · cases hu
      · exact .inl hu

theorem Staged.kept {s : Slot} {j : InodeId} {content : Bytes} (h : Staged fs₀ fs s j content)
    (hs : s = c.target ∨ s = c.stage id) : Kept fs₀ fs id c := by
  have hother : ∀ i inode, fs₀.inodes i = some inode → i ≠ j := by
    rintro i inode hi rfl
    rw [h.fresh] at hi
    cases hi
  have hentry : ∀ u i, fs₀.linkAt? u = some i → fs.linkAt? u = some i := by
    intro u i hu
    rw [h.entry u, if_neg]
    · exact hu
    · rintro rfl
      rw [h.free] at hu
      cases hu
  constructor
  · exact fun u i hu _ => hentry u i hu
  · exact fun i inode hi => (h.toAlters.content? (hother i inode hi)).trans (content_eq hi)
  · exact fun i inode hi hd _ => (h.inodes i (hother i inode hi) hd).trans hi
  · intro i inode hi hinode
    exact ⟨c.source, i, .inl rfl, hentry _ i hi,
      (h.toAlters.content? (hother i inode hinode)).trans (content_eq hinode)⟩
  · intro u i hu
    rw [h.entry u] at hu
    by_cases hus : u = s
    · exact .inr (hus ▸ hs)
    · rw [if_neg hus] at hu
      exact .inl hu

theorem Landed.kept (h : Landed P fs₀ fs c expected digest) : Kept fs₀ fs id c := by
  obtain ⟨_, _, _, _, -, -, -, -, -, hstaged⟩ := h
  exact hstaged.kept (.inl rfl)

theorem Retired.kept (h : Retired P fs₀ fs c expected digest) : Kept fs₀ fs id c := by
  obtain ⟨fs₁, i', hlanded, hu⟩ := h
  have hkept : Kept fs₀ fs₁ id c := hlanded.kept
  obtain ⟨i, inode, content, j, hentry, hinode, -, hcontent, -, hstaged⟩ := hlanded
  have hne : c.source ≠ c.target := by
    intro he
    rw [he, hstaged.free] at hentry
    cases hentry
  obtain rfl : i' = i := by
    have := hstaged.entry c.source
    rw [if_neg hne, hentry, hu.found] at this
    exact Option.some.inj this
  have hsame : ∀ k, fs.content? k = fs₁.content? k := by
    intro k
    by_cases hk : k = i'
    · rw [hk, hu.content]
    · exact hu.toAlters.content? hk
  constructor
  · intro u k hk hsource
    rw [hu.entry u, if_neg hsource]
    exact hkept.entries u k hk hsource
  · exact fun k inode hk => (hsame k).trans (hkept.content k inode hk)
  · intro k inode hk hd hsource
    have hki : k ≠ i' := by
      rintro rfl
      exact hsource hentry
    exact (hu.inodes k hki ((hstaged.directory k).trans hd)).trans
      (hkept.files k inode hk hd hsource)
  · intro k inode' hk hinode'
    obtain rfl := Option.some.inj (hentry.symm.trans hk)
    obtain rfl := Option.some.inj (hinode.symm.trans hinode')
    refine ⟨c.target, j, .inr rfl, ?_, ?_⟩
    · rw [hu.entry, if_neg hne.symm, hstaged.entry, if_pos rfl]
    · rw [hsame, hstaged.content, hcontent]
  · intro u k hk
    rw [hu.entry u] at hk
    split at hk
    · cases hk
    · exact hkept.appeared u k hk

/-- Whatever the journal says, nothing is lost. -/
theorem Charted.kept (h : Charted P fs₀ c id expected sha256 fs call state) : Kept fs₀ fs id c := by
  unfold Charted at h
  split at h
  · obtain rfl | ⟨-, hmoved⟩ := h
    · exact .refl
    · exact hmoved.kept
  · obtain ⟨-, rfl | ⟨j, copied, hstaged⟩ | ⟨digest, -, hlanded⟩⟩ := h
    · exact .refl
    · exact hstaged.kept (.inr rfl)
    · exact hlanded.kept
  · obtain ⟨-, hmoved⟩ | ⟨-, digest, -, hlanded | hretired⟩ := h
    · exact hmoved.kept
    · exact hlanded.kept
    · exact hretired.kept
  · obtain ⟨-, hmoved⟩ | ⟨-, digest, -, hretired⟩ := h
    · exact hmoved.kept
    · exact hretired.kept
  · obtain ⟨-, hmoved⟩ | ⟨-, digest, -, hretired⟩ := h
    · exact hmoved.kept
    · exact hretired.kept
  · obtain rfl | hmoved := h
    · exact .refl
    · exact hmoved.kept
  · exact h.kept
  · exact h.elim

/-- What has arrived where no name was taken is alone. -/
theorem delivered_of_entry {i : InodeId} {inode : Inode} {j : InodeId}
    (hfree : ∃ entries, fs₀.entries? c.target.dir = some entries ∧
      ∀ e ∈ entries, folded P e.1 ≠ folded P c.target.name)
    (hfound : fs₀.linkAt? c.source = some i) (hinode : fs₀.inodes i = some inode)
    (hexpected : Identity.of i inode = expected) (hne : c.source ≠ c.target)
    (hcontent : fs.content? j = inode.node.content?)
    (hentry : ∀ u, fs.linkAt? u = if u = c.target then some j else if u = c.source then none
      else fs₀.linkAt? u) : Delivered P fs₀ fs c expected := by
  constructor
  · rw [hentry, if_neg hne, if_pos rfl]
  · refine ⟨i, inode, j, hfound, hinode, hexpected, ?_, hcontent⟩
    rw [hentry, if_pos rfl]
  · intro name k hk hname
    obtain ⟨entries, hentries, hcase⟩ := hfree
    have hother : (⟨c.target.dir, name⟩ : Slot) ≠ c.target :=
      fun he => hname (congrArg Slot.name he)
    rw [hentry, if_neg hother] at hk
    split at hk
    · cases hk
    · unfold linkAt? at hk
      rw [hentries] at hk
      obtain ⟨before, after, rfl, -⟩ := List.lookup_eq_some_iff.mp hk
      exact hcase _ (List.mem_append_right _ List.mem_cons_self)

theorem Relocated.delivered (h : Relocated fs₀ fs c expected)
    (hfree : ∃ entries, fs₀.entries? c.target.dir = some entries ∧
      ∀ e ∈ entries, folded P e.1 ≠ folded P c.target.name) : Delivered P fs₀ fs c expected := by
  obtain ⟨i, inode, hinode, hexpected, hr⟩ := h
  have hne : c.source ≠ c.target := by
    intro he
    have := hr.free
    rw [← he, hr.found] at this
    cases this
  exact delivered_of_entry hfree hr.found hinode hexpected hne
    ((hr.toAlters.content? not_false).trans (content_eq hinode)) hr.entry

theorem Retired.delivered (h : Retired P fs₀ fs c expected digest)
    (hfree : ∃ entries, fs₀.entries? c.target.dir = some entries ∧
      ∀ e ∈ entries, folded P e.1 ≠ folded P c.target.name) : Delivered P fs₀ fs c expected := by
  obtain ⟨fs₁, i', ⟨i, inode, content, j, hentry, hinode, hexpected, hcontent, -, hstaged⟩, hu⟩ := h
  have hne : c.source ≠ c.target := by
    intro he
    rw [he, hstaged.free] at hentry
    cases hentry
  apply delivered_of_entry hfree hentry hinode hexpected hne
  · show fs.content? j = _
    rw [hcontent, ← hstaged.content]
    by_cases hj : j = i'
    · rw [hj, hu.content]
    · exact hu.toAlters.content? hj
  · intro u
    rw [hu.entry u, hstaged.entry u]
    by_cases ht : u = c.target
    · rw [if_pos ht, if_pos ht, if_neg (ht ▸ hne.symm)]
    · rw [if_neg ht, if_neg ht]

end

/-! ## Runs of a request -/

section
variable {P : Platform} {call : Call} {id : Uuid} {revision : Nat} {source next : State}
  {ticks : List Tick} {s : Service} {w w' : World} {rest : Sys (Except ServiceError Unit × Service)}

/-- A move from its start to wherever it stops. -/
theorem move_recorded (hp : call.presents = some (id, revision))
    (hi : call.intent = some (source, next))
    (ht : ∀ t ∈ ticks, t.Alone) (h : ((call.perform P).start s).after ticks w = (rest, w')) :
    Underway P s w call id w' ∧ ∀ s', rest = .done (.ok (), s') → ∃ c p sha256 state,
      Bound P s w.fs call id c p ∧ (state = .completed ∨ state = .undone) ∧
      Charted P w.fs c id (proposalIdentity p) sha256 w'.fs call state := by
  have hA : Quiet Tick.Alone := fun _ h => h
  have harrived : ∀ state w', Arrived P s w call id state w' → Underway P s w call id w' := by
    rintro state w' ⟨c, p, sha256, hbound, hfiled, hcharted⟩
    exact .inr ⟨c, p, hbound, state, sha256, hfiled, hcharted⟩
  have hwp : wpS Tick.Alone (call.perform P)
      (fun _ _ w' => Arrived P s w call id .completed w' ∨ Arrived P s w call id .undone w')
      (fun _ _ => Underway P s w call id) (Underway P s w call id) s w := by
    cases call <;> cases hi <;> cases hp
    · refine (wpS_bind _ _).mpr (wpS_mono (approve_recorded hA) ?_ (fun _ _ _ h => h) fun _ h => h)
      exact fun _ _ _ h => .inl h
    · refine (wpS_bind _ _).mpr (wpS_mono (undo_recorded hA) ?_ (fun _ _ _ h => h) fun _ h => h)
      exact fun _ _ _ h => .inr h
  have hholds := Prog.wp_after hwp ticks ht
  rw [h] at hholds
  cases rest with
  | step u n => exact ⟨hholds, fun _ he => by cases he⟩
  | done r =>
    obtain ⟨e | a, s₁⟩ := r
    · exact ⟨hholds, fun _ he => by cases he⟩
    · obtain harr | harr := (hholds : Arrived P s w call id .completed w' ∨ _)
      · refine ⟨harrived _ _ harr, fun _ _ => ?_⟩
        obtain ⟨c, p, sha256, hbound, -, hcharted⟩ := harr
        exact ⟨c, p, sha256, .completed, hbound, .inl rfl, hcharted⟩
      · refine ⟨harrived _ _ harr, fun _ _ => ?_⟩
        obtain ⟨c, p, sha256, hbound, -, hcharted⟩ := harr
        exact ⟨c, p, sha256, .undone, hbound, .inr rfl, hcharted⟩

/-- **Nothing is lost and nothing overwritten**, wherever a move stops. -/
theorem move_keeps (hp : call.presents = some (id, revision))
    (hi : call.intent = some (source, next))
    (ht : ∀ t ∈ ticks, t.Alone) (h : ((call.perform P).start s).after ticks w = (rest, w')) :
    (w'.fs = w.fs ∨ ∃ c, call.course s.state w.fs = some c ∧ Kept w.fs w'.fs id c) ∧
    ∀ s', rest = .done (.ok (), s') → ∃ c p, call.course s.state w.fs = some c ∧
      s.state.findProposal id = some p ∧ Delivered P w.fs w'.fs c (proposalIdentity p) := by
  obtain ⟨hunderway, hdone⟩ := move_recorded hp hi ht h
  constructor
  · obtain ⟨hfs, -⟩ | ⟨c, p, hbound, state, sha256, -, hcharted⟩ := hunderway
    · exact .inl hfs
    · exact .inr ⟨c, hbound.course, hcharted.kept⟩
  · intro s' hs'
    obtain ⟨c, p, sha256, state, hbound, hstate, hcharted⟩ := hdone s' hs'
    refine ⟨c, p, hbound.course, hbound.found, ?_⟩
    cases call <;> cases hi <;> cases hp <;> rcases hstate with rfl | rfl
    · obtain ⟨-, hmoved⟩ | ⟨-, digest, -, hretired⟩ := hcharted
      · exact hmoved.delivered hbound.free
      · exact hretired.delivered hbound.free
    · exact hcharted.elim
    · exact hcharted.elim
    · exact Relocated.delivered hcharted hbound.free

/-- **The journal never claims more than the disk shows**, and nothing moves before its
intent is committed. -/
theorem move_charted (hp : call.presents = some (id, revision))
    (hi : call.intent = some (source, next))
    (ht : ∀ t ∈ ticks, t.Alone) (h : ((call.perform P).start s).after ticks w = (rest, w')) :
    Underway P s w call id w' ∧
      ∀ row ∈ w'.db.rows, row.id = id → row.state = source.asStr → w'.fs = w.fs := by
  obtain ⟨hunderway, -⟩ := move_recorded hp hi ht h
  refine ⟨hunderway, fun row hm hid hstate => ?_⟩
  obtain ⟨hfs, -⟩ | ⟨c, p, -, state, sha256, hfiled, hcharted⟩ := hunderway
  · exact hfs
  · obtain rfl : state = source := State.asStr_injective ((hfiled row hm hid).1.symm.trans hstate)
    cases call <;> cases hi <;> cases hp
    · exact hcharted.elim
    · exact hcharted.elim

end

/-- The file `/w/a` is proposed for `/d`. -/
def proposedService : Service :=
  { state := sampleState [sampleProposal 2 .proposed], stability := fun _ => .default }

def proposedWorld (fs : FileSystem) : World :=
  sampleWorld fs (sampleRow 2 .proposed) (sampleState [sampleProposal 2 .proposed])

/-- A request answered with success. -/
theorem exists_answer {P : Platform} (call : Call) (ticks : List Tick) (s : Service) (w : World)
    (test : World → Bool)
    (h : (match ((call.perform P).start s).after ticks w with
      | (.done (.ok (), _), w') => test w'
      | _ => false) = true) :
    ∃ s' w', ((call.perform P).start s).after ticks w = (.done (.ok (), s'), w') ∧
      test w' = true := by
  split at h
  · next s' w' he => exact ⟨s', w', he, h⟩
  · cases h

/-- An approval that succeeds. -/
theorem move_keeps_approved : ∃ (w' : World) (c : Course) (p : Proposal),
    (Call.approve ⟨2⟩ 2).course proposedService.state sampleFiles = some c ∧
    proposedService.state.findProposal ⟨2⟩ = some p ∧
      Delivered .sample sampleFiles w'.fs c (proposalIdentity p) := by
  obtain ⟨s', w', hafter, -⟩ := exists_answer (P := .sample) (.approve ⟨2⟩ 2) (quietAt 1)
    proposedService (proposedWorld sampleFiles) (fun _ => true) (by decide +kernel)
  obtain ⟨c, p, hcourse, hp, hdelivered⟩ := (move_keeps rfl rfl quietAt_alone hafter).2 s' rfl
  exact ⟨w', c, p, hcourse, hp, hdelivered⟩

/-- The same approval, seen from the journal. -/
theorem move_charted_approved : ∃ w',
    Underway .sample proposedService (proposedWorld sampleFiles) (.approve ⟨2⟩ 2) ⟨2⟩ w' ∧
    ∃ row ∈ w'.db.rows, row.id = ⟨2⟩ ∧ row.state = State.completed.asStr := by
  obtain ⟨s', w', hafter, hrow⟩ := exists_answer (P := .sample) (.approve ⟨2⟩ 2) (quietAt 1)
    proposedService (proposedWorld sampleFiles)
    (fun w' => w'.db.rows.any fun row => decide (row.id = ⟨2⟩ ∧ row.state = State.completed.asStr))
    (by decide +kernel)
  obtain ⟨row, hm, hrow⟩ := List.any_eq_true.mp hrow
  exact ⟨w', (move_charted rfl rfl quietAt_alone hafter).1, row, hm, of_decide_eq_true hrow⟩

/-- Another file has been renamed over the source since it was proposed. The approval
that refuses it leaves the entry approved, and the approved inode at neither end. -/
theorem approved_nowhere :
    ∃ (events : List Event) (m m' : Machine), Run .sample (Machine.initial sampleFiles) events m ∧
      Step .sample m (.answered (.approve ⟨2⟩ 2) false) m' ∧
      (∃ row ∈ m'.world.db.rows, row.id = ⟨2⟩ ∧ row.state = State.approved.asStr) ∧
      (∃ s p, m.service = some s ∧ s.state.findProposal ⟨2⟩ = some p ∧
        proposalIdentity p = ⟨0, 4, 2, 5⟩) ∧
      m'.world.fs.slotOf (bytes "/w/a") = some ⟨⟨0, 2⟩, bytes "a"⟩ ∧
      m'.world.fs.linkAt? ⟨⟨0, 2⟩, bytes "a"⟩ = some ⟨0, 9⟩ ∧
      m'.world.fs.slotOf (bytes "/d/a") = some ⟨⟨0, 3⟩, bytes "a"⟩ ∧
      m'.world.fs.linkAt? ⟨⟨0, 3⟩, bytes "a"⟩ = none := by
  obtain ⟨events, m, m', hrun, hstep, htest⟩ := exists_refused (P := .sample)
    (m := Machine.initial sampleFiles)
    (Command.enrol (bytes "/d") ++ [.serve (.chooseDestination ⟨2⟩ 1 ⟨1⟩ ".") (quietAt 3),
      .files fun fs => (fs.put ⟨0, 9⟩ (some (file (bytes "new")))).setNode ⟨0, 2⟩
        (.directory [(bytes "a", ⟨0, 9⟩)])])
    (.approve ⟨2⟩ 2) (quietAt 4)
    (fun m m' => (m'.world.db.rows.any fun row =>
        decide (row.id = ⟨2⟩ ∧ row.state = State.approved.asStr)) &&
      (m.service.any fun s => (s.state.findProposal ⟨2⟩).any fun p =>
        decide (proposalIdentity p = ⟨0, 4, 2, 5⟩)) &&
      decide (m'.world.fs.slotOf (bytes "/w/a") = some ⟨⟨0, 2⟩, bytes "a"⟩ ∧
        m'.world.fs.linkAt? ⟨⟨0, 2⟩, bytes "a"⟩ = some ⟨0, 9⟩ ∧
        m'.world.fs.slotOf (bytes "/d/a") = some ⟨⟨0, 3⟩, bytes "a"⟩ ∧
        m'.world.fs.linkAt? ⟨⟨0, 3⟩, bytes "a"⟩ = none))
    (by decide +kernel)
  simp only [Bool.and_eq_true, List.any_eq_true, decide_eq_true_eq] at htest
  obtain ⟨⟨hrow, hservice⟩, hfiles⟩ := htest
  obtain ⟨s, hs, hp⟩ := (Option.any_eq_true _ _).mp hservice
  obtain ⟨p, hfound, hidentity⟩ := (Option.any_eq_true _ _).mp hp
  exact ⟨events, m, m', hrun, hstep, hrow, ⟨s, p, hs, hfound, of_decide_eq_true hidentity⟩, hfiles⟩

end SortingHat
