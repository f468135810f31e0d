import SortingHat.Daemon.Answers
import SortingHat.Service.Proposing

/-!
# What the queue shows

`status` counts the proposals that await review, `queue_list` shows the hundred newest of
those that are neither ignored nor undone.

* `Drawn`: the queue is in the order in which its ids were drawn;
* `Offered`, `Recent`, `offered_iff`: when everything that awaits review is shown;
* `queue_offers`: so it is in every run;
* `queue_hides`: a run that ends with a hundred such proposals, of which one is not.
-/

namespace SortingHat
open Posix Effect Text

/-- The proposals a client may see. -/
def Proposal.shown (p : Proposal) : Bool := p.status ≠ .ignored && p.status ≠ .undone

theorem shown_of_proposed {p : Proposal} (h : p.status = .proposed) : p.shown = true := by
  unfold Proposal.shown
  rw [h]
  rfl

/-- The second id was drawn after the first. -/
def Newer (P : Platform) (a b : Uuid) : Prop := ∃ m n, a = P.uuid m ∧ b = P.uuid n ∧ m < n

/-- The ids are among the first `n`, in the order in which they were drawn. -/
structure Drawn (P : Platform) (n : Nat) (ids : List Uuid) : Prop where
  known : ∀ id ∈ ids, ∃ k < n, id = P.uuid k
  sorted : ids.Pairwise (Newer P)

/-- Everything that awaits review is shown. -/
def Offered (state : PersistentState) : Prop :=
  ∀ p ∈ state.proposals, p.status = .proposed → p ∈ state.listed

/-- Of the proposals newer than one that awaits review, fewer than a hundred are neither
ignored nor undone. -/
def Recent (P : Platform) (state : PersistentState) : Prop :=
  ∀ p ∈ state.proposals, p.status = .proposed → ∀ newer : List Proposal,
    newer.Sublist state.proposals → (∀ q ∈ newer, Newer P p.id q.id ∧ q.shown = true) →
      newer.length < 100

section
variable {P : Platform} {D : Decoders} {A : Tick → Prop} {s : Service} {w : World} {fs : FileSystem}
  {m : Machine} {events : List Event} {n : Nat} {ids : List Uuid} {state : PersistentState}

/-! ## The order of the queue -/

theorem Newer.asymm {a b : Uuid} (h : Newer P a b) (h' : Newer P b a) : False := by
  obtain ⟨m, n, rfl, rfl, hlt⟩ := h
  obtain ⟨k, l, hk, hl, hlt'⟩ := h'
  obtain rfl := P.uuid_injective hk
  obtain rfl := P.uuid_injective hl
  exact Nat.lt_asymm hlt hlt'

theorem Drawn.mono {n' : Nat} (h : Drawn P n ids) (hle : n ≤ n') : Drawn P n' ids := by
  refine ⟨fun id hm => ?_, h.sorted⟩
  obtain ⟨k, hk, hid⟩ := h.known id hm
  exact ⟨k, Nat.lt_of_lt_of_le hk hle, hid⟩

theorem Drawn.snoc (h : Drawn P n ids) : Drawn P (n + 1) (ids ++ [P.uuid n]) := by
  constructor
  · intro id hm
    rcases List.mem_append.mp hm with hm | hm
    · exact (h.mono (Nat.le_succ n)).known id hm
    · exact ⟨n, Nat.lt_succ_self n, List.mem_singleton.mp hm⟩
  · refine List.pairwise_append.mpr ⟨h.sorted, List.pairwise_singleton _ _, fun a ha b hb => ?_⟩
    obtain ⟨k, hk, rfl⟩ := h.known a ha
    exact ⟨k, n, rfl, List.mem_singleton.mp hb, hk⟩

theorem Drawn.sublist {ids' : List Uuid} (h : Drawn P n ids) (hs : ids'.Sublist ids) :
    Drawn P n ids' :=
  ⟨fun id hm => h.known id (hs.subset hm), h.sorted.sublist hs⟩

/-- **The queue stays in the order of its ids.** -/
theorem Run.drawn (h : Run P (Machine.initial fs) events m) :
    m.Holds fun n state => Drawn P n (state.proposals.map Proposal.id) := by
  apply h.holds
  · exact fun _ _ _ hle hd => hd.mono hle
  · exact fun _ => ⟨nofun, List.Pairwise.nil⟩
  · intro caller s w state drawn hd he
    have hle := he.drawn_le
    cases he with
    | set | rooted | unrooted | ruled => exact hd.mono hle
    | @proposed p row hb =>
      rw [List.map_append, List.map_singleton, hb.id]
      exact hd.snoc
    | revised index f hf => exact (map_modify fun p hp => (hf p hp).id) ▸ hd
    | pruned => exact hd.sublist ((pruned_sublist _).map Proposal.id)

theorem Drawn.nodup (h : Drawn P n (state.proposals.map Proposal.id)) : state.proposals.Nodup := by
  refine List.Nodup.of_map Proposal.id (h.sorted.imp fun {a b} hnewer he => ?_)
  exact hnewer.asymm (he ▸ hnewer)

/-- What stands behind a proposal is what is newer. -/
theorem Drawn.newer {before after : List Proposal} {p q : Proposal}
    (h : Drawn P n (state.proposals.map Proposal.id))
    (hsplit : state.proposals = before ++ p :: after) (hq : q ∈ state.proposals) :
    Newer P p.id q.id ↔ q ∈ after := by
  have hsorted := h.sorted
  rw [hsplit, List.map_append, List.map_cons, List.pairwise_append, List.pairwise_cons] at hsorted
  obtain ⟨-, ⟨hafter, -⟩, hbefore⟩ := hsorted
  constructor
  · intro hnewer
    rw [hsplit] at hq
    rcases List.mem_append.mp hq with hq | hq
    · exact (hnewer.asymm (hbefore _ (List.mem_map_of_mem hq) _ List.mem_cons_self)).elim
    · rcases List.mem_cons.mp hq with rfl | hq
      · exact (hnewer.asymm hnewer).elim
      · exact hq
  · exact fun hq => hafter _ (List.mem_map_of_mem hq)

/-! ## What is shown -/

/-- A proposal is listed while fewer than a hundred are shown behind it. -/
theorem mem_listed {before after : List Proposal} {p : Proposal} (hd : state.proposals.Nodup)
    (hsplit : state.proposals = before ++ p :: after) (hp : p.shown = true) :
    p ∈ state.listed ↔ (after.filter Proposal.shown).length < 100 := by
  have hlisted : state.listed = ((after.filter Proposal.shown).reverse ++
      p :: (before.filter Proposal.shown).reverse).take 100 := by
    change ((state.proposals.filter Proposal.shown).reverse).take 100 = _
    rw [hsplit, List.filter_append, List.filter_cons_of_pos hp, List.reverse_append,
      List.reverse_cons, List.append_assoc]
    rfl
  have hbehind : p ∉ after := by
    rw [hsplit] at hd
    exact (List.nodup_cons.mp (List.nodup_append.mp hd).2.1).1
  rw [hlisted, List.take_append, List.mem_append, List.length_reverse]
  constructor
  · rintro (hm | hm)
    · have hm := List.mem_reverse.mp (List.mem_of_mem_take hm)
      exact absurd (List.mem_of_mem_filter hm) hbehind
    · by_contra hmany
      rw [Nat.sub_eq_zero_of_le (Nat.not_lt.mp hmany)] at hm
      cases hm
  · intro hfew
    obtain ⟨k, hk⟩ := Nat.exists_eq_add_of_lt hfew
    right
    rw [show 100 - (after.filter Proposal.shown).length = k + 1 by omega, List.take_succ_cons]
    exact List.mem_cons_self

/-- **Everything that awaits review is shown exactly where it is recent.** -/
theorem offered_iff (h : Drawn P n (state.proposals.map Proposal.id)) :
    Offered state ↔ Recent P state := by
  constructor
  · intro hoffered p hp hproposed newer hsub hnewer
    obtain ⟨before, after, hsplit⟩ := List.append_of_mem hp
    have hfew := (mem_listed h.nodup hsplit (shown_of_proposed hproposed)).mp
      (hoffered p hp hproposed)
    have hsubset : newer ⊆ after.filter Proposal.shown := by
      intro q hq
      obtain ⟨hlater, hshown⟩ := hnewer q hq
      exact List.mem_filter.mpr ⟨(h.newer hsplit (hsub.subset hq)).mp hlater, hshown⟩
    have hnodup := h.nodup.sublist hsub
    exact Nat.lt_of_le_of_lt (List.subperm_of_subset hnodup hsubset).length_le hfew
  · intro hrecent p hp hproposed
    obtain ⟨before, after, hsplit⟩ := List.append_of_mem hp
    apply (mem_listed h.nodup hsplit (shown_of_proposed hproposed)).mpr
    have hafter : after.Sublist state.proposals := by
      rw [hsplit]
      exact (List.sublist_cons_self p after).trans (List.sublist_append_right _ _)
    apply hrecent p hp hproposed _ (List.filter_sublist.trans hafter)
    intro q hq
    obtain ⟨hq, hshown⟩ := List.mem_filter.mp hq
    exact ⟨(h.newer hsplit (hafter.subset hq)).mpr hq, hshown⟩

/-- The list holds as many that await review as are counted exactly where it holds all. -/
theorem count_iff (hd : state.proposals.Nodup) :
    state.listed.countP (fun p => p.status = .proposed) = state.proposedCount ↔ Offered state := by
  have hsub : state.listed.Sublist state.proposals.reverse :=
    (List.take_sublist _ _).trans List.filter_sublist.reverse
  have hcount : state.proposedCount =
      state.proposals.reverse.countP fun p => p.status = .proposed := List.countP_reverse.symm
  rw [hcount, List.countP_eq_length_filter, List.countP_eq_length_filter]
  constructor
  · intro hsame p hp hproposed
    have heq := (hsub.filter fun p => decide (p.status = .proposed)).eq_of_length hsame
    have hm : p ∈ state.proposals.reverse.filter fun p => decide (p.status = .proposed) :=
      List.mem_filter.mpr ⟨List.mem_reverse.mpr hp, decide_eq_true hproposed⟩
    rw [← heq] at hm
    exact List.mem_of_mem_filter hm
  · intro hoffered
    apply Nat.le_antisymm (hsub.filter _).length_le
    apply (List.subperm_of_subset ((List.nodup_reverse.mpr hd).filter _) _).length_le
    intro p hm
    obtain ⟨hp, hproposed⟩ := List.mem_filter.mp hm
    exact List.mem_filter.mpr
      ⟨hoffered p (List.mem_reverse.mp hp) (of_decide_eq_true hproposed), hproposed⟩

/-! ## The responses -/

theorem proposalsValue_eq_some {proposals : List Proposal} {data : Json}
    (h : proposalsValue? proposals = some data) : data = .arr (proposals.map Proposal.json) := by
  have hall : ∀ values, proposals.mapM Proposal.value? = some values →
      values = proposals.map Proposal.json := by
    clear h
    induction proposals with
    | nil =>
      intro values h
      exact (Option.some.inj h).symm
    | cons p proposals ih =>
      intro values h
      rw [List.mapM_cons] at h
      cases hp : p.value? with
      | none =>
        rw [hp] at h
        cases h
      | some value =>
        cases hrest : proposals.mapM Proposal.value? with
        | none =>
          rw [hp, hrest] at h
          cases h
        | some rest =>
          rw [hp, hrest] at h
          obtain rfl := Option.some.inj h
          unfold Proposal.value? at hp
          split at hp
          · rw [← Option.some.inj hp, ih rest hrest, List.map_cons]
          · cases hp
  unfold proposalsValue? at h
  obtain ⟨values, hvalues, rfl⟩ := Option.map_eq_some_iff.mp h
  rw [hall values hvalues]

/-- `queue_list` answers with the listed proposals, where it does not panic. -/
theorem queueList_data :
    wpS A (dispatch P D queueRequest)
      (fun response _ _ => ∀ r, response = some r → r.data = .arr (s.state.listed.map Proposal.json))
      (fun _ _ _ => False) (fun _ => True) s w := by
  have hverb : Verb.ofText? queueRequest.action = some .queueList := Verb.ofText?_text .queueList
  unfold dispatch
  rw [hverb, wpS_bind, wpS_orFail]
  refine ⟨nofun, fun verb h => ?_⟩
  obtain rfl := Option.some.inj h
  rw [wpS_bind]
  unfold dispatchData
  rw [wpS_bind, wpS_getState, wpS_pure, wpS_bind, wpS_getState, wpS_pure]
  intro r hr
  obtain ⟨data, hdata, rfl⟩ := Option.map_eq_some_iff.mp hr
  exact proposalsValue_eq_some hdata

/-- The request for the two counts. -/
def statusRequest : Request where
  schemaVersion := 1
  correlationId := ⟨1⟩
  action := Verb.status.text
  proposalId := none
  revision := none
  argument := none

/-- `status` answers with the number that await review. -/
theorem status_data :
    wpS A (dispatch P D statusRequest)
      (fun response _ _ => ∃ r, response = some r ∧ r.data = .obj [("paused", .bool s.state.paused),
        ("awaiting_review", .int s.state.proposedCount)])
      (fun _ _ _ => False) (fun _ => True) s w := by
  have hverb : Verb.ofText? statusRequest.action = some .status := Verb.ofText?_text .status
  unfold dispatch
  rw [hverb, wpS_bind, wpS_orFail]
  refine ⟨nofun, fun verb h => ?_⟩
  obtain rfl := Option.some.inj h
  rw [wpS_bind]
  unfold dispatchData
  rw [wpS_bind, wpS_getState, wpS_pure, wpS_bind, wpS_getState, wpS_pure]
  exact ⟨_, rfl, rfl⟩

/-- **What `status` counts and what `queue_list` offers**, in every run: they agree, and
every proposal that awaits review is offered, exactly while all of these are recent. -/
theorem queue_offers (P : Platform) (D : Decoders) (fs : FileSystem) :
    ∀ events w s, Run P (Machine.initial fs) events ⟨w, some s⟩ →
      (∀ ticks response s' w', ((dispatch P D queueRequest).start s).after ticks w =
        (.done (.ok (some response), s'), w') →
          response.data = .arr (s.state.listed.map Proposal.json)) ∧
      (∀ ticks response s' w', ((dispatch P D statusRequest).start s).after ticks w =
        (.done (.ok (some response), s'), w') →
          response.data = .obj [("paused", .bool s.state.paused),
            ("awaiting_review", .int s.state.proposedCount)]) ∧
      (Offered s.state ↔ Recent P s.state) ∧
      (s.state.listed.countP (fun p => p.status = .proposed) = s.state.proposedCount ↔
        Recent P s.state) := by
  intro events w s hrun
  have hdrawn := hrun.drawn.running s rfl
  refine ⟨?_, ?_, offered_iff hdrawn, (count_iff hdrawn.nodup).trans (offered_iff hdrawn)⟩
  · intro ticks response s' w' hafter
    have hholds := Prog.wp_after (queueList_data (A := fun _ => True) (P := P) (D := D) (s := s)
      (w := w)) ticks fun _ _ => trivial
    rw [hafter] at hholds
    exact hholds response rfl
  · intro ticks response s' w' hafter
    have hholds := Prog.wp_after (status_data (A := fun _ => True) (P := P) (D := D) (s := s)
      (w := w)) ticks fun _ _ => trivial
    rw [hafter] at hholds
    obtain ⟨r, hr, hdata⟩ := hholds
    obtain rfl := Option.some.inj hr
    exact hdata

end

theorem toLower_eq_dot {c : Char} (h : c.toLower = '.') : c = '.' := by
  unfold Char.toLower at h
  split at h
  · next hupper =>
    -- an upper-case letter becomes a lower-case one
    obtain ⟨hlow, hhigh⟩ := hupper
    have hlow : 65 ≤ c.val.toNat := UInt32.le_iff_toNat_le.mp hlow
    have hhigh : c.val.toNat ≤ 90 := UInt32.le_iff_toNat_le.mp hhigh
    have hdot : (c.val.toNat + 32) % 2 ^ 32 = 46 := congrArg (fun c => c.val.toNat) h
    omega
  · exact h

/-- A name without a dot is not that of a download. -/
theorem isPartial_plain {path : Bytes} {name : String} (hname : Path.fileName path = some (bytes name))
    (hdot : '.' ∉ name.toList) : isPartial path = false := by
  have hsuffixes : ∀ suffix ∈ partialSuffixes, '.' ∈ suffix.toList := by decide
  unfold isPartial
  rw [hname, Option.map_some, Option.getD_some, toStringLossy_bytes, List.any_eq_false]
  intro suffix hm hsuffix
  have hin := (List.isSuffixOf_iff_suffix.mp hsuffix).subset (hsuffixes suffix hm)
  unfold toAsciiLowercase at hin
  rw [String.toList_ofList] at hin
  obtain ⟨c, hc, hlower⟩ := List.mem_map.mp hin
  exact hdot (toLower_eq_dot hlower ▸ hc)

/-! ## A hundred proposals of which one is not shown -/

/-- Both files are proposed, and `b` is moved to `/d`. -/
def Command.moveSecond : List Command :=
  Command.enrol (bytes "/d") ++ [.serve (.chooseDestination ⟨3⟩ 1 ⟨1⟩ ".") (quietAt 2),
    .serve (.approve ⟨3⟩ 2) (quietAt 2)]

/-- Names of two letters. -/
def pageText (k : Nat) : String := String.ofList [Char.ofNat (97 + k / 10), Char.ofNat (97 + k % 10)]

def pageName (k : Nat) : Bytes := bytes (pageText k)

def pageId (k : Nat) : InodeId := ⟨0, k + 10⟩

/-- `/w` holds the file of one page. -/
def pages (k : Nat) : FileSystem where
  inodes i :=
    if i = ⟨0, 2⟩ then some (folder [(pageName k, pageId k)])
    else if i = pageId k then some (file (bytes "hi"))
    else sampleFiles.inodes i
  root := sampleFiles.root
  cwd := sampleFiles.cwd

/-- The root that is watched. -/
def watchedRoot : Root := ⟨⟨0⟩, "/w", true, false⟩

theorem page_inode (k : Nat) : (pages k).inodes (pageId k) = some (file (bytes "hi")) := by
  have hfolder : pageId k ≠ ⟨0, 2⟩ := fun h => by
    have := congrArg InodeId.number h
    change k + 10 = 2 at this
    omega
  unfold pages
  dsimp only
  rw [if_neg hfolder, if_pos rfl]

def pageIdentity (k : Nat) : Identity := Identity.of (pageId k) (file (bytes "hi"))

/-- The page back from its name. -/
def pageNumber : Bytes → Nat
  | [a, b] => (a.toNat - 97) * 10 + (b.toNat - 97)
  | _ => 0

/-- What is computed of each name. -/
theorem page_facts : ∀ k < 99,
    ((pages k).resolve false (Path.join (bytes "/w") (pageName k))).toOption =
      some [(pageName k, pageId k), (bytes "w", ⟨0, 2⟩)] ∧
    Path.join [] (pageName k) = pageName k ∧ Path.fileName (pageName k) = some (pageName k) ∧
    (pageName k).length = 2 ∧ pageNumber (pageName k) = k ∧
    Json.byteLength (Json.quote (encodeRelative (pageName k))) ≤ 50 ∧
    Json.byteLength (Json.number (pageIdentity k).inode) ≤ 3 := by decide +kernel

theorem page_letters : ∀ k < 99, '.' ∉ [Char.ofNat (97 + k / 10), Char.ofNat (97 + k % 10)] := by
  decide

theorem page_lone {k : Nat} (hk : k < 99) :
    Lone (pages k) watchedRoot (pageName k) (pageId k) (file (bytes "hi")) := by
  obtain ⟨hresolve, hjoin, hname, -⟩ := page_facts k hk
  constructor
  · rfl
  · unfold FileSystem.node?
    rw [page_inode]
    rfl
  · exact hjoin
  · cases hfd : (pages k).resolve false (Path.join (bytes watchedRoot.path) (pageName k)) with
    | error e =>
      rw [show bytes "/w" = bytes watchedRoot.path from rfl, hfd] at hresolve
      cases hresolve
    | ok fd =>
      rw [show bytes "/w" = bytes watchedRoot.path from rfl, hfd] at hresolve
      obtain rfl := Option.some.inj hresolve
      have hino : (pages k).ino [(pageName k, pageId k), (bytes "w", ⟨0, 2⟩)] = pageId k := rfl
      unfold FileSystem.stat
      simp only [hfd, bind, Except.bind]
      rw [hino, page_inode]
  · rfl
  · rfl
  · decide
  · apply isPartial_plain hname
    unfold pageText
    rw [String.toList_ofList]
    exact page_letters k hk

theorem pages_series : Series watchedRoot pages pageName pageIdentity 99 := by
  constructor
  · exact fun k hk => ⟨pageId k, file (bytes "hi"), page_lone hk, rfl⟩
  · intro j k hj hk hsame
    obtain ⟨-, -, -, -, hjnumber, -⟩ := page_facts j (Nat.lt_trans hj hk)
    obtain ⟨-, -, -, -, hknumber, -⟩ := page_facts k hk
    have hname : pageName j = pageName k := by
      have hdecode := congrArg Base64.decode hsame
      unfold encodeRelative at hdecode
      rw [Base64.decode_encode, Base64.decode_encode] at hdecode
      exact Option.some.inj hdecode
    rw [hname, hknumber] at hjnumber
    omega
  · intro j k hj _ hsame
    have hinode : j + 10 = k + 10 := congrArg Identity.inode hsame
    omega

theorem page_length {k : Nat} (hk : k < 99) (id : Uuid) : Json.byteLength
    ((undecided id watchedRoot (pageName k) (pageIdentity k)).json.pretty 2) ≤ 51000 := by
  obtain ⟨-, -, hname, -, -, hrelative, hinode⟩ := page_facts k hk
  have hnumbers : Json.byteLength (Json.number 2) = 1 ∧ Json.byteLength (Json.number 0) = 1 ∧
      Json.byteLength (Json.number 5) = 1 := by decide
  have hshown : Json.byteLength ((Json.option (fun n => .str n.text)
      ((Path.fileName (pageName k)).bind FileName.ofLossy)).pretty 3) ≤ 30 := by
    rw [hname, Option.bind_some]
    cases hfile : FileName.ofLossy (pageName k) with
    | none => exact Nat.le_trans (Nat.le_of_eq byteLength_null) (by decide)
    | some file =>
      unfold FileName.ofLossy pageName at hfile
      rw [toStringLossy_bytes] at hfile
      change Json.byteLength (Json.quote file.text) ≤ 30
      rw [FileName.text_of_ofString hfile]
      apply Nat.le_trans (Json.byteLength_quote_le _)
      unfold pageText
      rw [String.toList_ofList]
      exact Nat.le_add_right 26 4
  have hlength := byteLength_undecided id watchedRoot (pageName k) (pageIdentity k)
  have hsize : (pageIdentity k).size = 2 := by
    change (bytes "hi").length = 2
    decide
  have hdevice : (pageIdentity k).device = 0 := rfl
  have hmodified : (pageIdentity k).modifiedNs = 5 := rfl
  obtain ⟨htwo, hzero, hfive⟩ := hnumbers
  rw [hsize, hdevice, hmodified] at hlength
  change _ ≤ _ + Json.byteLength (Json.number 2) + Json.byteLength (Json.number 0) + _ + _ at hlength
  rw [htwo, hzero, hfive] at hlength
  omega

/-- Where the run begins: the move is completed, and no page has been proposed yet. -/
def Started (s : Service) (w : World) : Bool :=
  !s.state.paused && s.state.roots.filter Root.watched = [watchedRoot] && s.state.rules = [] &&
    !s.state.agent.enabled && s.state.proposals.map Proposal.status = [.proposed, .completed] &&
    s.state.proposals.map Proposal.sourceRelative =
      [encodeRelative (bytes "a"), encodeRelative (bytes "b")] &&
    s.state.proposals.all (fun p => p.inode < 10 && p.modifiedNs = 5) &&
    w.db.activeCount = 1 && s.state.bodyLength ≤ 2000

theorem moveSecond_started : ∃ (events : List Event) (w : World) (s : Service),
    Run .sample (Machine.initial twoFiles) events ⟨w, some s⟩ ∧ Started s w = true := by
  obtain ⟨events, m, hrun, htest⟩ := exists_run (P := .sample) (m := Machine.initial twoFiles)
    Command.moveSecond (fun _ m => m.service.any fun s => Started s m.world) (by decide +kernel)
  obtain ⟨w, service⟩ := m
  obtain ⟨s, rfl, htest⟩ := (Option.any_eq_true _ _).mp htest
  exact ⟨events, w, s, hrun, htest⟩

theorem page_unclaimed {state : PersistentState} (h : state.proposals.map Proposal.sourceRelative =
    [encodeRelative (bytes "a"), encodeRelative (bytes "b")]) {k : Nat} (hk : k < 99) :
    Unclaimed state watchedRoot (pageName k) := by
  obtain ⟨-, -, -, hlength, -⟩ := page_facts k hk
  have hone : (bytes "a").length = 1 ∧ (bytes "b").length = 1 := by decide
  have hother : ∀ name : Bytes, name.length = 1 → encodeRelative name ≠ encodeRelative (pageName k) := by
    intro name hname hsame
    have hdecode := congrArg Base64.decode hsame
    unfold encodeRelative at hdecode
    rw [Base64.decode_encode, Base64.decode_encode] at hdecode
    rw [Option.some.inj hdecode, hlength] at hname
    cases hname
  intro p hp _ hrelative
  have hm := List.mem_map_of_mem (f := Proposal.sourceRelative) hp
  rw [h, hrelative] at hm
  rcases List.mem_cons.mp hm with hm | hm
  · exact absurd hm.symm (hother _ hone.1)
  · exact absurd (List.mem_singleton.mp hm).symm (hother _ hone.2)

theorem proposedCount_eq (state : PersistentState) :
    state.proposedCount = (state.proposals.map Proposal.status).countP (· = .proposed) := by
  rw [List.countP_map]
  rfl

/-- The oldest proposal is not listed behind a hundred that are shown. -/
theorem oldest_hidden {state : PersistentState} {p : Proposal} {after : List Proposal}
    (hd : state.proposals.Nodup) (hsplit : state.proposals = p :: after) (hp : p.shown = true)
    (hshown : ∀ q ∈ after, q.shown = true) (hmany : 100 ≤ after.length) : p ∉ state.listed := by
  have hfirst : state.proposals = [] ++ p :: after := hsplit
  rw [mem_listed hd hfirst hp, List.filter_eq_self.mpr hshown]
  exact Nat.not_lt.mpr hmany

/-- The queue is answered where all times fit. -/
theorem exists_listed {P : Platform} {D : Decoders} {s : Service} {w : World}
    (h : Timed Fits s.state) : ∃ ticks response s' w',
      ((dispatch P D queueRequest).start s).after ticks w = (.done (.ok (some response), s'), w') ∧
        response.data = .arr (s.state.listed.map Proposal.json) := by
  have hboth := wpS_and (queueList_data (A := fun _ => True) (P := P) (D := D) (s := s) (w := w))
    (dispatch_answers (P := P) (D := D) (w := w) queueRequest h)
  obtain ⟨ticks, ⟨r, s'⟩, w', -, hafter, hholds⟩ := Prog.wp_finish (c := Tick.quiet 0) trivial hboth
  cases r with
  | error e => exact hholds.1.elim
  | ok answer =>
    obtain ⟨hdata, hsome⟩ := hholds
    obtain ⟨response, rfl⟩ := Option.isSome_iff_exists.mp hsome
    exact ⟨ticks, response, s', w', hafter, hdata response rfl⟩

/-- **A hundred proposals await review, and the oldest is not offered**: it stands behind
the move that is completed. -/
theorem queue_hides : ∃ (events : List Event) (w w' : World) (s s' : Service) (ticks : List Tick)
    (response : Response), Run .sample (Machine.initial twoFiles) events ⟨w, some s⟩ ∧
      s.state.proposedCount = 100 ∧
      ((dispatch .sample .none queueRequest).start s).after ticks w =
        (.done (.ok (some response), s'), w') ∧
      response.data = .arr (s.state.listed.map Proposal.json) ∧
      (∃ p ∈ s.state.proposals, p.status = .proposed ∧ p ∉ s.state.listed) ∧
      s.state.listed.countP (fun p => p.status = .proposed) ≠ 100 := by
  obtain ⟨events, w, s, hrun, hstarted⟩ := moveSecond_started
  simp only [Started, Bool.and_eq_true, Bool.not_eq_true', decide_eq_true_eq] at hstarted
  obtain ⟨⟨⟨⟨⟨⟨⟨⟨hrunning, hroots⟩, hrules⟩, hagent⟩, hstatus⟩, hsources⟩, hinodes⟩, hactive⟩, hbody⟩ :=
    hstarted
  have hcount : s.state.proposedCount = 1 := by
    rw [proposedCount_eq, hstatus]
    decide
  have hunseen : ∀ k < 99, s.state.proposals.any (sameFile (pageIdentity k)) = false := by
    intro k _
    rw [List.any_eq_false]
    intro p hp hsame
    have hinode : p.inode = k + 10 := congrArg Identity.inode (beq_iff_eq.mp hsame)
    have hsmall := List.all_eq_true.mp hinodes p hp
    simp only [Bool.and_eq_true, decide_eq_true_eq] at hsmall
    omega
  have hsome : s.state.proposals ≠ [] := by
    intro hnil
    rw [hnil] at hstatus
    cases hstatus
  obtain ⟨events', s', w', added, hrun', hstate, hlength, hadded⟩ := hrun.proposes_series pages_series
    hrunning hroots hrules hagent hsome (by rw [hcount]; decide) (by rw [hactive]; decide)
    (fun k hk => page_unclaimed hsources hk) hunseen (fun k hk id => page_length hk id)
    (Nat.le_trans (Nat.add_le_add_right hbody _) (by decide))
  have hdrawn := hrun'.drawn.running s' rfl
  have hstatuses : added.map Proposal.status = List.replicate 99 .proposed := by
    refine List.eq_replicate_iff.mpr ⟨by rw [List.length_map, hlength], fun status hm => ?_⟩
    obtain ⟨p, hp, rfl⟩ := List.mem_map.mp hm
    obtain ⟨k, -, id, rfl⟩ := hadded p hp
    rfl
  have hcount' : s'.state.proposedCount = 100 := by
    rw [proposedCount_eq, hstate, List.map_append, hstatus, hstatuses, List.countP_append,
      List.countP_replicate]
    rfl
  have htimes : Timed Fits s'.state := by
    rw [hstate]
    intro p hp
    rcases List.mem_append.mp hp with hp | hp
    · have hfive := List.all_eq_true.mp hinodes p hp
      simp only [Bool.and_eq_true, decide_eq_true_eq] at hfive
      rw [hfive.2]
      decide
    · obtain ⟨k, -, id, rfl⟩ := hadded p hp
      exact (by decide : Fits 5)
  obtain ⟨ticks, response, s'', w'', hafter, hdata⟩ := exists_listed (P := .sample) (D := .none)
    (w := w') htimes
  obtain ⟨oldest, rest, hsplit, holdest, hrest⟩ := List.map_eq_cons_iff.mp hstatus
  obtain ⟨moved, none, rfl, hmoved, hnone⟩ := List.map_eq_cons_iff.mp hrest
  obtain rfl := List.map_eq_nil_iff.mp hnone
  have hsplit' : s'.state.proposals = oldest :: moved :: added := by
    rw [hstate, hsplit]
    rfl
  have hhidden : oldest ∉ s'.state.listed := by
    apply oldest_hidden hdrawn.nodup hsplit' (shown_of_proposed holdest)
    · intro q hq
      rcases List.mem_cons.mp hq with rfl | hq
      · unfold Proposal.shown
        rw [hmoved]
        rfl
      · obtain ⟨k, -, id, rfl⟩ := hadded q hq
        rfl
    · rw [List.length_cons, hlength]
  have hin : oldest ∈ s'.state.proposals := hsplit' ▸ List.mem_cons_self
  refine ⟨events', w', w'', s', s'', ticks, response, hrun', hcount', hafter, hdata,
    ⟨oldest, hin, holdest, hhidden⟩, fun hsame => hhidden ?_⟩
  exact (count_iff hdrawn.nodup).mp (hsame.trans hcount'.symm) oldest hin holdest

/-- After the move the other file's proposal is offered. -/
theorem queue_offers_moved : ∃ (events : List Event) (w : World) (s : Service),
    Run .sample (Machine.initial twoFiles) events ⟨w, some s⟩ ∧ s.state.proposedCount = 1 ∧
      Offered s.state ∧ s.state.listed.countP (fun p => p.status = .proposed) = 1 := by
  obtain ⟨events, w, s, hrun, hstarted⟩ := moveSecond_started
  simp only [Started, Bool.and_eq_true, Bool.not_eq_true', decide_eq_true_eq] at hstarted
  have hstatus := hstarted.1.1.1.1.2
  have hcount : s.state.proposedCount = 1 := by
    rw [proposedCount_eq, hstatus]
    decide
  have hlength : s.state.proposals.length = 2 := by
    have := congrArg List.length hstatus
    rwa [List.length_map] at this
  have hrecent : Recent .sample s.state := by
    intro p _ _ newer hsub _
    have := hsub.length_le
    omega
  obtain ⟨-, -, hoffered, hagree⟩ := queue_offers .sample .none twoFiles events w s hrun
  exact ⟨events, w, s, hrun, hcount, hoffered.mpr hrecent, (hagree.mpr hrecent).trans hcount⟩

end SortingHat
