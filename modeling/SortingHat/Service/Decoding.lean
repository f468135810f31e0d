import SortingHat.Service.Sightings
import SortingHat.Service.References

/-!
# Every proposal can be decoded

A directory holds names, never `.` or `..` and never a slash. While that is so during a
scan, what it proposes is a path of names short enough for a call of the kernel.

* `Sighted.produced`: the walk makes paths of names;
* `Seen.decoded`: what a scan has seen can be decoded;
* `sources_agree`: encoding, decoding and the journal.
-/

namespace SortingHat
open Posix Effect Text
open Journal (Row Database State)

/-- Every directory holds names, as the kernel sees to. -/
def NamesOnly (fs : FileSystem) : Prop :=
  ∀ i entries, fs.entries? i = some entries → ∀ e ∈ entries, Path.isName e.1 = true

section
variable {P : Platform} {fs : FileSystem} {path relative name : Bytes} {p : Proposal}
  {s s' : Service} {w w' : World}

/-! ## What the walk makes -/

theorem isName_of_shown (h : Shown NamesOnly name) : Path.isName name = true := by
  obtain ⟨fs, path, entries, hfs, hread, i, hm⟩ := h
  unfold FileSystem.readDir at hread
  cases hfd : fs.resolve true path with
  | error e =>
    rw [hfd] at hread
    cases hread
  | ok fd =>
    rw [hfd] at hread
    simp only [bind, Except.bind] at hread
    split at hread
    · next found hfound =>
      obtain rfl := Except.ok.inj hread
      exact hfs _ _ hfound (name, i) hm
    · cases hread

theorem names_concat {names : List Bytes} (hnames : ∀ n ∈ names, Path.isName n = true)
    (hname : Path.isName name = true) : ∀ n ∈ names ++ [name], Path.isName n = true := by
  intro n hn
  rcases List.mem_append.mp hn with hn | hn
  · exact hnames n hn
  · rw [List.mem_singleton.mp hn]
    exact hname

theorem Traversed.names (h : Traversed NamesOnly relative) :
    ∃ names : List Bytes, (∀ n ∈ names, Path.isName n = true) ∧ relative = Path.below names := by
  induction h with
  | root => exact ⟨[], nofun, rfl⟩
  | child _ hshown ih =>
    obtain ⟨names, hnames, rfl⟩ := ih
    have hname := isName_of_shown hshown
    exact ⟨names ++ [_], names_concat hnames hname, Path.join_below hnames hname⟩

/-- **The walk makes paths of names.** -/
theorem Sighted.produced (h : Sighted NamesOnly path) : Produced path := by
  obtain ⟨relative, name, htraversed, hshown, rfl⟩ := h
  obtain ⟨names, hnames, rfl⟩ := htraversed.names
  have hname := isName_of_shown hshown
  exact ⟨names ++ [name], by simp, names_concat hnames hname, Path.join_below hnames hname⟩

theorem length_le_join (root relative : Bytes) : relative.length ≤ (Path.join root relative).length := by
  unfold Path.join
  split
  · exact Nat.le_refl _
  split
  · rw [List.length_append]
    omega
  · rw [List.length_append, List.length_cons]
    omega

theorem admissible_length (h : FileSystem.admissible path = .ok ()) : path.length < 4096 := by
  unfold FileSystem.admissible at h
  split at h
  · cases h
  split at h
  · cases h
  split at h
  · cases h
  · next hlength => exact Nat.not_le.mp hlength

/-- **What a scan has seen can be decoded**: the kernel has taken its path. -/
theorem Seen.decoded (h : Seen NamesOnly p) :
    ∃ relative, decodeRelative p.sourceRelative = .ok relative := by
  obtain ⟨root, relative, fs, i, inode, hsighted, hsource, -, hstat, -⟩ := h
  have hshort : (Path.join root relative).length < 4096 := by
    unfold FileSystem.stat FileSystem.resolve at hstat
    cases ha : FileSystem.admissible (Path.join root relative) with
    | ok _ => exact admissible_length ha
    | error e =>
      rw [ha] at hstat
      cases hstat
  refine ⟨relative, hsource ▸ decode_produced hsighted.produced ?_⟩
  exact Nat.le_of_lt (Nat.lt_of_le_of_lt (length_le_join root relative) hshort)

/-- The files a walk returns are paths of names, whatever happens during it. -/
theorem boundedFiles_produced {root : Bytes} {ticks : List Tick} {files : List Bytes}
    (hnames : NamesOnly w.fs) (hticks : ∀ t ∈ ticks, t.Leaves NamesOnly)
    (h : ((boundedFiles root).start s).after ticks w = (.done (.ok files, s'), w')) :
    ∀ relative ∈ files, Produced relative := by
  have hI : OnFiles NamesOnly fun _ w => NamesOnly w.fs := ⟨fun h => h, fun _ _ hfs => hfs⟩
  have hholds := Prog.wp_after (hI.boundedFiles root s w hnames) ticks hticks
  rw [h] at hholds
  exact fun relative hm => (hholds.2 relative hm).produced

/-! ## One path -/

/-- The journal entry of a proposal holds the path that its source decodes to. -/
def Traces (db : Database) (state : PersistentState) (p : Proposal) (relative : Bytes) : Prop :=
  ∀ root ∈ state.roots, root.id = p.sourceRootId → ∀ row ∈ db.rows, row.id = p.id →
    Path.join (bytes root.path) relative = row.sourceToken

theorem Linked.traces {n : Nat} {db : Database} {state : PersistentState} {p : Proposal}
    {relative : Bytes} (h : Linked P n db state) (hp : p ∈ state.proposals)
    (hrelative : decodeRelative p.sourceRelative = .ok relative) : Traces db state p relative := by
  intro root hroot hid row hrow hrowid
  obtain ⟨given, hgiven, htoken⟩ := h.tokens p hp root hroot hid row hrow hrowid
  rw [hgiven] at hrelative
  rw [decode_encodeRelative hrelative, htoken]

/-- **The stored source is the journalled file.** The encoding is injective and undone on
all that a walk produces, only encodings of paths below the root are decoded, and what a
proposal's source decodes to is, below its root, its entry's path. Where scans find names
in the directories, every source is decoded. -/
theorem sources_agree (P : Platform) (fs : FileSystem) :
    Function.Injective encodeRelative ∧
    (∀ (root : Bytes) (s s' : Service) (w w' : World) (ticks : List Tick) (files : List Bytes),
      NamesOnly w.fs → (∀ t ∈ ticks, t.Leaves NamesOnly) →
      ((boundedFiles root).start s).after ticks w = (.done (.ok files, s'), w') →
      ∀ relative ∈ files, relative.length ≤ 4096 →
        decodeRelative (encodeRelative relative) = .ok relative) ∧
    (∀ text path, decodeRelative text = .ok path → encodeRelative path = text ∧ Inside path) ∧
    (∀ events m, Run P (Machine.initial fs) events m → m.Holds fun _ state =>
      ∀ p ∈ state.proposals, ∀ relative, decodeRelative p.sourceRelative = .ok relative →
        Traces m.world.db state p relative) ∧
    ∀ commands events m, (Machine.initial fs).replay? P commands = some (events, m) →
      (Machine.initial fs).Along P (Showing NamesOnly) commands → m.Holds fun _ state =>
      ∀ p ∈ state.proposals, ∃ relative, decodeRelative p.sourceRelative = .ok relative ∧
        Traces m.world.db state p relative := by
  refine ⟨encodeRelative_injective, ?_, fun _ _ => decoded, ?_, ?_⟩
  · intro root s s' w w' ticks files hnames hticks h relative hm hlength
    exact decode_produced (boundedFiles_produced hnames hticks h relative hm) hlength
  · intro events m hrun
    have hlinked := linked hrun
    constructor
    · exact fun s hs p hp relative => (hlinked.running s hs).traces hp
    · exact fun file state hfile hcontent p hp relative =>
        (hlinked.saved file state hfile hcontent).traces hp
  · intro commands events m hreplay hC
    have hlinked := linked (replay_sound hreplay)
    have hseen := seen hreplay hC
    have htraced : ∀ state, Linked P m.world.drawn m.world.db state → AllSeen NamesOnly state →
        ∀ p ∈ state.proposals, ∃ relative, decodeRelative p.sourceRelative = .ok relative ∧
          Traces m.world.db state p relative := by
      intro state hl hall p hp
      obtain ⟨relative, hdecode⟩ := (hall p hp).decoded
      exact ⟨relative, hdecode, hl.traces hp hdecode⟩
    constructor
    · exact fun s hs => htraced s.state (hlinked.running s hs) (hseen.running s hs)
    · exact fun file state hfile hcontent =>
        htraced state (hlinked.saved file state hfile hcontent)
          (hseen.saved file state hfile hcontent)

end

theorem sampleFiles_names : NamesOnly sampleFiles := by
  intro i entries h e he
  unfold FileSystem.entries? FileSystem.node? at h
  cases hi : sampleFiles.inodes i with
  | none =>
    rw [hi] at h
    cases h
  | some inode =>
    rw [hi] at h
    have hheld : inode.node.entries? = some entries := h
    obtain ⟨before, after, hsplit, -⟩ := List.lookup_eq_some_iff.mp hi
    have hall : ∀ pair ∈ before ++ (i, inode) :: after,
        ((pair.2.node.entries?.getD []).all fun e => Path.isName e.1) = true := by
      rw [← hsplit]
      decide
    have hnames := hall (i, inode) (by simp)
    rw [hheld] at hnames
    exact List.all_eq_true.mp hnames e he

/-- Two scans of `/w`, with the files as they were at first before each of them. -/
def Command.scans : List Command :=
  [.start (quietAt 0), .serve (.addRoot (bytes "/w") true false) (quietAt 0),
    .files fun _ => sampleFiles, .serve .scanOnce (quietAt 0), .files fun _ => sampleFiles,
    .serve .scanOnce (quietAt 2)]

theorem scans_named : (Machine.initial sampleFiles).Along .sample (Showing NamesOnly) Command.scans := by
  have hquiet : ∀ second, ∀ t ∈ quietAt second, t.Leaves NamesOnly := by
    intro second t ht fs hfs
    obtain rfl := List.eq_of_mem_replicate ht
    cases hfs
  refine ⟨trivial, fun _ _ _ => ⟨trivial, fun _ _ _ => ⟨trivial, fun _ m h => ?_⟩⟩⟩
  obtain ⟨-, rfl⟩ := Prod.mk.inj (Option.some.inj h)
  refine ⟨⟨sampleFiles_names, hquiet 0⟩, fun _ _ _ => ⟨trivial, fun _ m h => ?_⟩⟩
  obtain ⟨-, rfl⟩ := Prod.mk.inj (Option.some.inj h)
  exact ⟨⟨sampleFiles_names, hquiet 2⟩, fun _ _ _ => trivial⟩

/-- A name that is not UTF-8, and the file `/w/a` that two scans propose. -/
theorem sources_agree_proposed :
    decodeRelative (encodeRelative [0xFF, 47, 97]) = .ok [0xFF, 47, 97] ∧
    ∃ (m : Machine) (s : Service) (p : Proposal) (relative : Bytes), m.service = some s ∧
      s.state.proposals = [p] ∧ decodeRelative p.sourceRelative = .ok relative ∧
      m.world.db.rows.map Row.sourceToken = [bytes "/w/a"] ∧
      Traces m.world.db s.state p relative := by
  obtain ⟨-, -, -, -, hagree⟩ := sources_agree .sample sampleFiles
  obtain ⟨events, m, hreplay, htest⟩ := exists_replay (P := .sample)
    (m := Machine.initial sampleFiles) Command.scans
    (fun _ m => m.service.any fun s => s.state.proposals.length = 1 &&
      m.world.db.rows.map Row.sourceToken = [bytes "/w/a"]) (by decide +kernel)
  obtain ⟨s, hs, htest⟩ := (Option.any_eq_true _ _).mp htest
  obtain ⟨hlength, htoken⟩ := Bool.and_eq_true_iff.mp htest
  obtain ⟨p, hp⟩ := List.length_eq_one_iff.mp (of_decide_eq_true hlength)
  have hholds := (hagree _ events m hreplay scans_named).running s hs
  obtain ⟨relative, hdecode, htraces⟩ := hholds p (hp ▸ List.mem_singleton_self p)
  refine ⟨?_, m, s, p, relative, hs, hp, hdecode, of_decide_eq_true htoken, htraces⟩
  apply decode_produced ⟨[[0xFF], [97]], by decide, by decide, by decide⟩
  decide

end SortingHat
