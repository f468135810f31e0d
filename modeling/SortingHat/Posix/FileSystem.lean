import SortingHat.Posix.Path
import Mathlib.Logic.Function.Basic

/-!
# A Unix file system

Inodes named by device and number, directories as lists of entries, symbolic
links and mount points (an entry whose inode is on another device). The calls
here are what one process sees of the kernel: path walks that follow links, the
confined walk of `openat2`, exclusive creation, `renameat2` without replacement
and `unlinkat`. A call returns the new file system or an error and changes
nothing; permission and input/output errors are left to the caller's choices.
-/

namespace Posix

inductive Errno where
  | EXIST | NOENT | NOTDIR | ISDIR | LOOP | XDEV | INVAL | BUSY | NOSPC | NAMETOOLONG | ACCES | IOERR
  deriving DecidableEq, Repr

structure InodeId where
  device : Nat
  number : Nat
  deriving DecidableEq, Repr

inductive Node where
  | regular (content : Bytes)
  | directory (entries : List (Bytes × InodeId))
  | symlink (target : Bytes)
  /-- Devices, sockets and FIFOs. -/
  | special
  deriving Repr

structure Inode where
  node : Node
  links : Nat
  modifiedNs : Int
  accessedNs : Int
  mode : Nat
  deriving Repr

def Node.entries? : Node → Option (List (Bytes × InodeId))
  | .directory entries => some entries
  | _ => none

def Node.content? : Node → Option Bytes
  | .regular content => some content
  | _ => none

def Node.target? : Node → Option Bytes
  | .symlink target => some target
  | _ => none

/-- `st_size`; a directory reports one block. -/
def Node.size : Node → Nat
  | .regular content => content.length
  | .directory _ => 4096
  | .symlink target => target.length
  | .special => 0

structure FileSystem where
  inodes : InodeId → Option Inode
  root : InodeId
  /-- Where relative paths start, as the way down from the root. -/
  cwd : List (Bytes × InodeId)

/-- The way down from the root to an open file, the last name first. -/
abbrev Fd := List (Bytes × InodeId)

/-- The entry `name` of the directory `dir`. -/
structure Slot where
  dir : InodeId
  name : Bytes
  deriving DecidableEq, Repr

namespace FileSystem

def node? (fs : FileSystem) (i : InodeId) : Option Node := (fs.inodes i).map Inode.node

def entries? (fs : FileSystem) (i : InodeId) : Option (List (Bytes × InodeId)) :=
  (fs.node? i).bind Node.entries?

def content? (fs : FileSystem) (i : InodeId) : Option Bytes := (fs.node? i).bind Node.content?

def target? (fs : FileSystem) (i : InodeId) : Option Bytes := (fs.node? i).bind Node.target?

def isDirectory (fs : FileSystem) (i : InodeId) : Bool := (fs.entries? i).isSome

/-- What an entry names. -/
def linkAt? (fs : FileSystem) (s : Slot) : Option InodeId :=
  (fs.entries? s.dir).bind fun entries => entries.lookup s.name

def ino (fs : FileSystem) (fd : Fd) : InodeId :=
  match fd with
  | [] => fs.root
  | (_, i) :: _ => i

/-! ## Path walks -/

/-- A walk that went as far as it could without following a link. -/
inductive Walk where
  | arrived (fd : Fd)
  | link (fd : Fd) (target : Bytes) (rest : List Bytes)
  | failed (e : Errno)
  deriving Repr

/-- Walk down to the end or to the first link; a link at the end is only
stopped at when `follow` is set. -/
def descend (fs : FileSystem) (follow : Bool) : Fd → List Bytes → Walk
  | fd, [] => .arrived fd
  | fd, seg :: rest =>
    match fs.entries? (fs.ino fd) with
    | none => .failed .NOTDIR
    | some entries =>
      if Path.isStay seg then fs.descend follow fd rest
      else if seg = Path.dotDot then fs.descend follow fd.tail rest
      else match entries.lookup seg with
        | none => .failed .NOENT
        | some i =>
          match fs.target? i with
          | none => fs.descend follow ((seg, i) :: fd) rest
          | some target =>
            if rest = [] ∧ follow = false then .arrived ((seg, i) :: fd)
            else .link fd target rest

/-- Where a path starts. -/
def start (fd : Fd) (path : Bytes) : Fd :=
  if Path.isAbsolute path then [] else fd

/-- Walk down, following at most `budget` links. -/
def walk (fs : FileSystem) (follow : Bool) : Nat → Fd → List Bytes → Except Errno Fd
  | budget, fd, segs =>
    match fs.descend follow fd segs with
    | .arrived fd' => .ok fd'
    | .failed e => .error e
    | .link fd' target rest =>
      match budget with
      | 0 => .error .LOOP
      | budget + 1 =>
        if target = [] then .error .NOENT
        else fs.walk follow budget (start fd' target) (Path.segments target ++ rest)

/-- Bytes the kernel accepts as a path or a name. -/
def admissible (path : Bytes) : Except Errno Unit :=
  if path = [] then .error .NOENT
  else if path.contains 0 then .error .INVAL
  else if path.length ≥ 4096 then .error .NAMETOOLONG
  else .ok ()

def resolve (fs : FileSystem) (follow : Bool) (path : Bytes) : Except Errno Fd := do
  admissible path
  fs.walk follow 40 (start fs.cwd path) (Path.segments path)

/-- The confined walk of `openat2`: no link, no way up, and with `noXdev` no
other device. -/
def beneath (fs : FileSystem) (noXdev : Bool) : Fd → List Bytes → Except Errno Fd
  | fd, [] => .ok fd
  | fd, seg :: rest =>
    match fs.entries? (fs.ino fd) with
    | none => .error .NOTDIR
    | some entries =>
      if Path.isStay seg then fs.beneath noXdev fd rest
      else if seg = Path.dotDot then .error .XDEV
      else match entries.lookup seg with
        | none => .error .NOENT
        | some i =>
          if (fs.target? i).isSome then .error .LOOP
          else if noXdev && i.device ≠ (fs.ino fd).device then .error .XDEV
          else fs.beneath noXdev ((seg, i) :: fd) rest

/-- The entry a path names: the directory its parent leads to, and its name. The
walk decides, however long the path is spelled. -/
def slotOf (fs : FileSystem) (path : Bytes) : Option Slot := do
  let parent ← Path.parent path
  let name ← Path.fileName path
  let fd ← (fs.walk true 40 (start fs.cwd parent) (Path.segments parent)).toOption
  some ⟨fs.ino fd, name⟩

/-! ## Calls -/

/-- `open(path, O_DIRECTORY)`. -/
def openDirectory (fs : FileSystem) (path : Bytes) : Except Errno Fd := do
  let fd ← fs.resolve true path
  if fs.isDirectory (fs.ino fd) then .ok fd else .error .NOTDIR

/-- `openat2` below `fd` without links; with `directory`, only a directory. -/
def openBeneath (fs : FileSystem) (fd : Fd) (path : Bytes) (directory noXdev : Bool) :
    Except Errno Fd := do
  admissible path
  if Path.isAbsolute path then .error .XDEV
  else
    let fd' ← fs.beneath noXdev fd (Path.segments path)
    if directory && !fs.isDirectory (fs.ino fd') then .error .NOTDIR else .ok fd'

def stat (fs : FileSystem) (follow : Bool) (path : Bytes) : Except Errno (InodeId × Inode) := do
  let fd ← fs.resolve follow path
  match fs.inodes (fs.ino fd) with
  | some inode => .ok (fs.ino fd, inode)
  | none => .error .NOENT

def fstat (fs : FileSystem) (fd : Fd) : Except Errno (InodeId × Inode) :=
  match fs.inodes (fs.ino fd) with
  | some inode => .ok (fs.ino fd, inode)
  | none => .error .NOENT

/-- Names and inodes of a directory, `.` and `..` left out. -/
def readDir (fs : FileSystem) (path : Bytes) : Except Errno (List (Bytes × InodeId)) := do
  let fd ← fs.resolve true path
  match fs.entries? (fs.ino fd) with
  | some entries => .ok entries
  | none => .error .NOTDIR

/-- `canonicalize`: the names on the way down. -/
def canonicalize (fs : FileSystem) (path : Bytes) : Except Errno Bytes := do
  let fd ← fs.resolve true path
  .ok (Path.ofComponents (.rootDir :: fd.reverse.map fun e => .normal e.1))

/-- Up to `count` bytes of the file from `offset`. -/
def read (fs : FileSystem) (fd : Fd) (offset count : Nat) : Except Errno Bytes :=
  match fs.node? (fs.ino fd) with
  | some (.regular content) => .ok ((content.drop offset).take count)
  | some (.directory _) => .error .ISDIR
  | _ => .error .INVAL

def modify (fs : FileSystem) (i : InodeId) (f : Inode → Inode) : FileSystem :=
  { fs with inodes := Function.update fs.inodes i ((fs.inodes i).map f) }

def setNode (fs : FileSystem) (i : InodeId) (node : Node) : FileSystem :=
  fs.modify i fun inode => { inode with node }

/-- Drop the entry, if the directory has it. -/
def drop (fs : FileSystem) (s : Slot) : FileSystem :=
  match fs.entries? s.dir with
  | some entries => fs.setNode s.dir (.directory (entries.filter fun e => e.1 ≠ s.name))
  | none => fs

/-- Enter `i` under a name the directory does not have. -/
def enter (fs : FileSystem) (s : Slot) (i : InodeId) : FileSystem :=
  match fs.entries? s.dir with
  | some entries => fs.setNode s.dir (.directory (entries ++ [(s.name, i)]))
  | none => fs

/-- `renameat2` with `RENAME_NOREPLACE`. -/
def renameNoReplace (fs : FileSystem) (srcDir : Fd) (srcName : Bytes) (dstDir : Fd)
    (dstName : Bytes) : Except Errno FileSystem := do
  admissible srcName
  admissible dstName
  let source : Slot := ⟨fs.ino srcDir, srcName⟩
  let target : Slot := ⟨fs.ino dstDir, dstName⟩
  if source.dir.device ≠ target.dir.device then .error .XDEV
  else if !fs.isDirectory source.dir || !fs.isDirectory target.dir then .error .NOTDIR
  else match fs.linkAt? source with
    | none => .error .NOENT
    | some i =>
      if (fs.linkAt? target).isSome then .error .EXIST
      else if i.device ≠ source.dir.device then .error .BUSY
      else if i = fs.root ∨ i ∈ dstDir.map Prod.snd then .error .INVAL
      else .ok ((fs.drop source).enter target i)

/-- `openat` with `O_CREAT | O_EXCL`; `number` is the inode number the file system
picks, which must be free. -/
def createExclusive (fs : FileSystem) (dir : Fd) (name : Bytes) (number : Nat) (now : Int) :
    Except Errno (Fd × FileSystem) := do
  admissible name
  let slot : Slot := ⟨fs.ino dir, name⟩
  let i : InodeId := ⟨slot.dir.device, number⟩
  if !fs.isDirectory slot.dir then .error .NOTDIR
  else if (fs.linkAt? slot).isSome then .error .EXIST
  else if (fs.inodes i).isSome then .error .NOSPC
  else
    let fresh : Inode :=
      { node := .regular [], links := 1, modifiedNs := now, accessedNs := now, mode := 384 }
    let created := { fs with inodes := Function.update fs.inodes i (some fresh) }
    .ok ((name, i) :: dir, created.enter slot i)

/-- Append to an open file. -/
def write (fs : FileSystem) (fd : Fd) (data : Bytes) (now : Int) : Except Errno FileSystem :=
  match fs.content? (fs.ino fd) with
  | some content => .ok (fs.modify (fs.ino fd) fun inode =>
      { inode with node := .regular (content ++ data), modifiedNs := now })
  | none => .error .INVAL

/-- `unlinkat` of something that is not a directory. The inode stays for those
that have it open. -/
def unlink (fs : FileSystem) (dir : Fd) (name : Bytes) : Except Errno FileSystem := do
  admissible name
  let slot : Slot := ⟨fs.ino dir, name⟩
  if !fs.isDirectory slot.dir then .error .NOTDIR
  else match fs.linkAt? slot with
    | none => .error .NOENT
    | some i =>
      if fs.isDirectory i then .error .ISDIR
      else if i.device ≠ slot.dir.device then .error .BUSY
      else .ok ((fs.drop slot).modify i fun inode => { inode with links := inode.links - 1 })

end FileSystem
end Posix
