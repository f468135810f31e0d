import SortingHat.Service.Integrity
import SortingHat.Service.Route

/-!
# One proposal for one path

Duplicates are told by root and relative path, and by the version of the file. Where
one watched root lies in another, a file that is edited between two scans passes both.

* `Apart`: no watched root lies in another;
* `one_proposal`: then no path is proposed twice;
* `proposed_twice`: an edited file below two roots.
-/

namespace SortingHat
open Posix Effect Text
open Journal (Row Database State)

/-- No watched root lies in another one. -/
def Apart (state : PersistentState) : Prop :=
  ∀ root ∈ state.roots, ∀ other ∈ state.roots, root.watched = true → other.watched = true →
    root.id ≠ other.id → ¬ Path.names (bytes root.path) <+: Path.names (bytes other.path)

instance (state : PersistentState) : Decidable (Apart state) :=
  inferInstanceAs (Decidable (∀ root ∈ state.roots, ∀ other ∈ state.roots, _ → _ → _ → _))

/-- Not both proposed, or of different source paths. -/
def Discerned (roots : List Root) (p q : Proposal) : Prop :=
  p.status = .proposed → q.status = .proposed →
    ∀ root ∈ roots, ∀ other ∈ roots, root.id = p.sourceRootId → other.id = q.sourceRootId →
      ∀ relative relative', decodeRelative p.sourceRelative = .ok relative →
        decodeRelative q.sourceRelative = .ok relative' →
        Path.join (bytes root.path) relative ≠ Path.join (bytes other.path) relative'

/-- What tells the proposals apart, when `n` ids are drawn. -/
structure Sourced (P : Platform) (n : Nat) (state : PersistentState) : Prop
    extends WellFormed state where
  drawn : ∀ root ∈ state.roots, ∃ k < n, root.id = P.uuid k
  distinct : (state.roots.map Root.id).Nodup
  encoded : ∀ p ∈ state.proposals, ∃ relative, p.sourceRelative = encodeRelative relative
  discerned : state.proposals.Pairwise (Discerned state.roots)

section
variable {P : Platform} {fs : FileSystem} {m : Machine} {events : List Event}

theorem join_injective {p a b : Bytes} (ha : Path.isAbsolute a = false)
    (hb : Path.isAbsolute b = false) (h : Path.join p a = Path.join p b) : a = b := by
  unfold Path.join at h
  rw [ha, hb, if_neg Bool.false_ne_true, if_neg Bool.false_ne_true] at h
  split at h
  · exact List.append_cancel_left h
  · exact List.cons_inj_right Path.slash |>.mp (List.append_cancel_left h)

theorem decode_encodeRelative {relative path : Bytes}
    (h : decodeRelative (encodeRelative relative) = .ok path) : path = relative := by
  unfold decodeRelative encodeRelative at h
  rw [Base64.decode_encode] at h
  dsimp only at h
  split at h
  · cases h
  · exact (Except.ok.inj h).symm

theorem pairwise_modify {R : Proposal → Proposal → Prop} {ps : List Proposal} {index : Nat}
    {f : Proposal → Proposal} (h : ps.Pairwise R) (hleft : ∀ p ∈ ps, ∀ q, R p q → R (f p) q)
    (hright : ∀ p, ∀ q ∈ ps, R p q → R p (f q)) : (ps.modify index f).Pairwise R := by
  induction ps generalizing index with
  | nil => cases index <;> exact .nil
  | cons p ps ih =>
    obtain ⟨hp, hps⟩ := List.pairwise_cons.mp h
    cases index with
    | zero =>
      rw [List.modify_zero_cons]
      exact .cons (fun q hq => hleft p List.mem_cons_self q (hp q hq)) hps
    | succ index =>
      rw [List.modify_succ_cons]
      refine .cons (fun q hq => ?_) (ih hps (fun q hq => hleft q (List.mem_cons_of_mem p hq))
        fun r q hq => hright r q (List.mem_cons_of_mem p hq))
      rcases mem_modify hq with ⟨old, ho, rfl⟩ | ⟨i, -, hi⟩
      · have hm := List.mem_of_getElem? ho
        exact hright p old (List.mem_cons_of_mem p hm) (hp old hm)
      · exact hp q (List.mem_of_getElem? hi)

theorem Discerned.subset {roots roots' : List Root} {p q : Proposal} (h : Discerned roots p q)
    (hsub : ∀ root ∈ roots', root ∈ roots) : Discerned roots' p q := by
  intro hp hq root hroot other hother
  exact h hp hq root (hsub root hroot) other (hsub other hother)

/-- A new proposal has another source than all that are proposed. -/
theorem Sourced.begins {n : Nat} {s : Service} {w : World} {p q : Proposal} {row : Row}
    (h : Sourced P n s.state) (hapart : Apart s.state) (hb : Begins P s w p row)
    (hq : q ∈ s.state.proposals) : Discerned s.state.roots q p := by
  intro hqs hps root hroot other hother hid hid' relative relative' hrel hrel' hjoin
  have habs := relative_of_decode hrel
  have habs' := relative_of_decode hrel'
  obtain ⟨source, hsource, hwatched, hsid, taken, htaken, -⟩ := hb.source
  obtain ⟨source', hsource', hsid', hwatched'⟩ := h.sources q hq hqs
  obtain rfl : other = source :=
    List.inj_on_of_nodup_map h.distinct hother hsource (hid'.trans hsid)
  obtain rfl : root = source' :=
    List.inj_on_of_nodup_map h.distinct hroot hsource' (hid.trans hsid'.symm)
  by_cases hsame : root.id = other.id
  · obtain rfl := List.inj_on_of_nodup_map h.distinct hroot hother hsame
    obtain rfl := join_injective habs habs' hjoin
    obtain ⟨given, hgiven⟩ := h.encoded q hq
    rw [hgiven] at hrel
    rw [htaken] at hrel'
    obtain rfl := decode_encodeRelative hrel
    obtain rfl := decode_encodeRelative hrel'
    exact hb.single q hq (hid.symm.trans hid') (hgiven.trans htaken.symm) hqs
  · have hnames := congrArg Path.names hjoin
    rw [Path.names_join habs, Path.names_join habs'] at hnames
    have hprefix := List.prefix_append (Path.names (bytes root.path)) (Path.names relative)
    rw [hnames] at hprefix
    rcases List.prefix_or_prefix_of_prefix hprefix (List.prefix_append _ _) with hin | hin
    · exact hapart root hroot other hother hwatched' hwatched hsame hin
    · exact hapart other hother root hroot hwatched hwatched' (Ne.symm hsame) hin

theorem Sourced.edit {caller : Option Call} {s : Service} {w : World} {state : PersistentState}
    {n : Nat} (h : Sourced P w.drawn s.state)
    (hapart : caller = some .scanOnce → Apart s.state) (he : Edit P caller s w state n) :
    Sourced P n state := by
  have hwell := h.toWellFormed.edit he
  have hdrawn : ∀ root ∈ s.state.roots, ∃ k < n, root.id = P.uuid k := by
    intro root hm
    obtain ⟨k, hk, hid⟩ := h.drawn root hm
    exact ⟨k, Nat.lt_of_lt_of_le hk he.drawn_le, hid⟩
  cases he with
  | set | ruled => exact ⟨hwell, hdrawn, h.distinct, h.encoded, h.discerned⟩
  | @rooted root hid =>
    have hfresh : ∀ other ∈ s.state.roots, other.id ≠ root.id := by
      intro other ho he
      obtain ⟨k, hk, hk'⟩ := h.drawn other ho
      exact Nat.ne_of_lt hk (P.uuid_injective (hk'.symm.trans (he.trans hid)))
    refine ⟨hwell, ?_, ?_, h.encoded, ?_⟩
    · intro other ho
      rcases List.mem_append.mp ho with ho | ho
      · exact hdrawn other ho
      · exact ⟨w.drawn, Nat.lt_succ_self _, List.mem_singleton.mp ho ▸ hid⟩
    · rw [List.map_append, List.map_singleton]
      refine List.nodup_append.mpr ⟨h.distinct, List.nodup_singleton _, fun a ha b hb => ?_⟩
      obtain ⟨other, ho, rfl⟩ := List.mem_map.mp ha
      rw [List.mem_singleton.mp hb]
      exact hfresh other ho
    · -- what is proposed has its root already
      have hold : ∀ p ∈ s.state.proposals, p.status = .proposed →
          ∀ other ∈ s.state.roots ++ [root], other.id = p.sourceRootId →
            other ∈ s.state.roots := by
        intro p hp hs other ho hother
        rcases List.mem_append.mp ho with ho | ho
        · exact ho
        · obtain ⟨source, hm, hsid, -⟩ := h.sources p hp hs
          refine absurd (hsid.trans hother.symm) ?_
          rw [List.mem_singleton.mp ho]
          exact hfresh source hm
      refine List.Pairwise.imp_of_mem (fun {p q} hp hq hpq => ?_) h.discerned
      intro hps hqs source hsource other hother hsid hoid
      exact hpq hps hqs source (hold p hp hps source hsource hsid) other
        (hold q hq hqs other hother hoid) hsid hoid
  | unrooted id =>
    have hsub : ∀ root ∈ s.state.roots.filter fun root => root.id ≠ id, root ∈ s.state.roots :=
      fun root hm => List.mem_of_mem_filter hm
    refine ⟨hwell, fun root hm => hdrawn root (hsub root hm), ?_, h.encoded, ?_⟩
    · exact (List.filter_sublist.map Root.id).nodup h.distinct
    · exact h.discerned.imp fun hpq => hpq.subset hsub
  | @proposed p row hb hcaller =>
    refine ⟨hwell, hdrawn, h.distinct, fun q hq => ?_, ?_⟩
    · rcases List.mem_append.mp hq with hq | hq
      · exact h.encoded q hq
      · obtain ⟨root, -, -, -, relative, hrelative, -⟩ := hb.source
        exact ⟨relative, List.mem_singleton.mp hq ▸ hrelative⟩
    · refine List.pairwise_append.mpr ⟨h.discerned, List.pairwise_singleton _ _, ?_⟩
      intro q hq p' hp'
      rw [List.mem_singleton.mp hp']
      exact h.begins (hapart hcaller) hb hq
  | revised index f hf =>
    refine ⟨hwell, hdrawn, h.distinct, fun q hq => ?_, ?_⟩
    · rcases mem_modify hq with ⟨old, ho, rfl⟩ | ⟨i, -, hi⟩
      · have hm := List.mem_of_getElem? ho
        rw [(hf old hm).relative]
        exact h.encoded old hm
      · exact h.encoded q (List.mem_of_getElem? hi)
    · apply pairwise_modify h.discerned
      · intro p hp q hpq hps
        have hrevised := hf p hp
        rw [hrevised.root, hrevised.relative]
        exact hpq (hrevised.status hps)
      · intro p q hq hpq hps hqs
        have hrevised := hf q hq
        rw [hrevised.root, hrevised.relative]
        exact hpq hps (hrevised.status hqs)
  | pruned =>
    have hsub := pruned_sublist s.state.proposals
    exact ⟨hwell, hdrawn, h.distinct, fun p hp => h.encoded p (hsub.subset hp),
      h.discerned.sublist hsub⟩

/-- No two proposals with status proposed have one source path. -/
def Single (state : PersistentState) : Prop :=
  state.proposals.Pairwise fun p q => p.status = .proposed → q.status = .proposed →
    ∀ path, state.sourcePath p = .ok path → state.sourcePath q ≠ .ok path

theorem sourcePath_eq_ok {state : PersistentState} {p : Proposal} {path : Bytes}
    (h : state.sourcePath p = .ok path) : ∃ root ∈ state.roots, root.id = p.sourceRootId ∧
      ∃ relative, decodeRelative p.sourceRelative = .ok relative ∧
        path = Path.join (bytes root.path) relative := by
  unfold PersistentState.sourcePath at h
  cases hroot : state.findRoot p.sourceRootId fun _ => true with
  | none =>
    rw [hroot] at h
    cases h
  | some root =>
    obtain ⟨hm, hid, -⟩ := findRoot_eq_some hroot
    rw [hroot] at h
    cases hrelative : decodeRelative p.sourceRelative with
    | error e =>
      rw [hrelative] at h
      cases h
    | ok relative =>
      rw [hrelative] at h
      exact ⟨root, hm, hid, relative, rfl, (Except.ok.inj h).symm⟩

theorem Sourced.single {n : Nat} {state : PersistentState} (h : Sourced P n state) :
    Single state := by
  refine h.discerned.imp fun hpq hps hqs path hp hq => ?_
  obtain ⟨root, hroot, hid, relative, hrelative, rfl⟩ := sourcePath_eq_ok hp
  obtain ⟨other, hother, hid', relative', hrelative', hpath⟩ := sourcePath_eq_ok hq
  exact hpq hps hqs root hroot other hother hid hid' relative relative' hrelative hrelative' hpath

/-- Scans run while no watched root lies in another. -/
def Unnested (m : Machine) (event : Event) : Prop :=
  ∀ s ∈ m.service, event.call = some .scanOnce → Apart s.state

instance (m : Machine) (event : Event) : Decidable (Unnested m event) :=
  inferInstanceAs (Decidable (∀ s ∈ m.service, _ → _))

/-- **One proposal for one path**, while no watched root lies in another. -/
theorem one_proposal (h : RunWhere P Unnested (Machine.initial fs) events m) :
    m.Holds fun _ => Single := by
  have hholds : m.Holds (Sourced P) := by
    apply h.holds (K := fun call state => call = .scanOnce → Apart state)
    · exact fun w s event call hC he hcall => hC s rfl (hcall ▸ he)
    · intro n n' state hle hs
      refine ⟨hs.toWellFormed, fun root hm => ?_, hs.distinct, hs.encoded, hs.discerned⟩
      obtain ⟨k, hk, hid⟩ := hs.drawn root hm
      exact ⟨k, Nat.lt_of_lt_of_le hk hle, hid⟩
    · exact fun n => ⟨.initial, (fun _ hm => nomatch hm), List.nodup_nil,
        (fun _ hm => nomatch hm), .nil⟩
    · intro caller s w state n hs hK he
      refine ⟨hs.edit (fun hcaller => hK _ hcaller rfl) he, fun call hcall hscan => ?_⟩
      subst hscan
      have hapart := hK _ hcall rfl
      -- a scan enrols no root
      cases he with
      | set | ruled | proposed | pruned | revised => exact hapart
      | rooted _ _ _ _ hcaller => cases hcall ▸ hcaller
      | unrooted _ _ hcaller => cases hcall.symm.trans hcaller
  exact ⟨fun s hs => (hholds.running s hs).single, fun file state hfile hcontent =>
    (hholds.saved file state hfile hcontent).single⟩

end

theorem ok_of_toOption {ε α : Type} {r : Except ε α} {a : α} (h : r.toOption = some a) :
    r = .ok a := by
  cases r with
  | error e => cases h
  | ok b => rw [Option.some.inj h]

/-- Two watched roots side by side, and two files. -/
theorem one_proposal_scanned : ∃ (events : List Event) (m : Machine) (s : Service),
    RunWhere .sample Unnested (Machine.initial twoFiles) events m ∧ m.service = some s ∧
      s.state.proposals.length = 2 ∧ m.Holds fun _ => Single := by
  obtain ⟨events, m, hrun, htest⟩ := exists_run_where (P := .sample)
    (m := Machine.initial twoFiles) Unnested
    [.start (quietAt 0), .serve (.addRoot (bytes "/w") true false) (quietAt 0),
      .serve (.addRoot (bytes "/d") true true) (quietAt 0), .serve .scanOnce (quietAt 0),
      .serve .scanOnce (quietAt 2)]
    (fun _ m => m.service.any fun s => s.state.proposals.length = 2) (by decide +kernel)
  obtain ⟨s, hs, hlength⟩ := (Option.any_eq_true _ _).mp htest
  exact ⟨events, m, s, hrun, hs, of_decide_eq_true hlength, one_proposal hrun⟩

/-- `/w/s` lies in `/w` and holds the file `a`. -/
def nestedFiles : FileSystem where
  inodes i :=
    [(⟨0, 1⟩, folder [(bytes "w", ⟨0, 2⟩)]), (⟨0, 2⟩, folder [(bytes "s", ⟨0, 3⟩)]),
     (⟨0, 3⟩, folder [(bytes "a", ⟨0, 4⟩)]), ((⟨0, 4⟩ : InodeId), file (bytes "hi"))].lookup i
  root := ⟨0, 1⟩
  cwd := []

/-- Both `/w` and `/w/s` are watched, and the file is edited between two scans: it is
proposed below each of them. -/
theorem proposed_twice : ∃ (events : List Event) (m : Machine) (s : Service) (p q : Proposal),
    Run .sample (Machine.initial nestedFiles) events m ∧ m.service = some s ∧
      s.state.proposals = [p, q] ∧ p.status = .proposed ∧ q.status = .proposed ∧
      s.state.sourcePath p = .ok (bytes "/w/s/a") ∧
      s.state.sourcePath q = .ok (bytes "/w/s/a") := by
  obtain ⟨events, m, hrun, htest⟩ := exists_run (P := .sample) (m := Machine.initial nestedFiles)
    [.start (quietAt 0), .serve (.addRoot (bytes "/w") true false) (quietAt 0),
      .serve (.addRoot (bytes "/w/s") true false) (quietAt 0), .serve .scanOnce (quietAt 0),
      .serve .scanOnce (quietAt 2),
      .files fun fs => fs.modify ⟨0, 4⟩ fun inode => { inode with modifiedNs := 9 },
      .serve .scanOnce (quietAt 3), .serve .scanOnce (quietAt 5)]
    (fun _ (m : Machine) => m.service.any fun (s : Service) => s.state.proposals.length == 2 &&
      s.state.proposals.all fun (p : Proposal) => p.status == .proposed &&
        (s.state.sourcePath p).toOption == some (bytes "/w/s/a"))
    (by decide +kernel)
  obtain ⟨s, hs, htest⟩ := (Option.any_eq_true _ _).mp htest
  simp only [Bool.and_eq_true, List.all_eq_true, beq_iff_eq] at htest
  obtain ⟨hlength, heach⟩ := htest
  obtain ⟨p, q, hpq⟩ := List.length_eq_two.mp hlength
  obtain ⟨hp, hpath⟩ := heach p (by simp [hpq])
  obtain ⟨hq, hpath'⟩ := heach q (by simp [hpq])
  exact ⟨events, m, s, p, q, hrun, hs, hpq, hp, hq, ok_of_toOption hpath, ok_of_toOption hpath'⟩

end SortingHat
