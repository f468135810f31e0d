import SortingHat.World

/-!
# Descriptor-relative moves

`sortinghat-fs`: identities, the confined opens, the no-replace move and the
staged copy with its publication, verification and retirement.
-/

namespace SortingHat
open Posix Effect

def maxFileSize : Nat := 4 * 1024 * 1024 * 1024

inductive FsError where
  | unsafePath
  | unsafeSource
  | oversized
  | collision
  | io (e : Errno)
  | identityChanged
  | verificationFailed
  deriving DecidableEq, Repr

abbrev FsM := Fallible Tick FileSystem FsError

/-- `?` on a system call. -/
def sys {α : Type} (x : IoM α) : FsM α := recast FsError.io x

structure Identity where
  device : Nat
  inode : Nat
  size : Nat
  modifiedNs : Int
  deriving DecidableEq, Repr

def Identity.of (i : InodeId) (inode : Inode) : Identity :=
  { device := i.device, inode := i.number, size := inode.node.size,
    modifiedNs := inode.modifiedNs }

def isRegular (node : Node) : Bool := node.content?.isSome

def Identity.read (path : Bytes) : FsM Identity := do
  let (i, inode) ← sys (look fun fs => fs.stat false path)
  failIf (isRegular inode.node = false ∨ inode.links ≠ 1) FsError.unsafeSource
  failIf (inode.node.size > maxFileSize) FsError.oversized
  return Identity.of i inode

structure StabilityTracker where
  previous : Option (Identity × Int)
  deriving DecidableEq, Repr

def StabilityTracker.default : StabilityTracker := ⟨none⟩

/-- The time from `past` to `now`, nothing when the clock went back. -/
def durationSince (now past : Int) : Int := if past ≤ now then now - past else 0

/-- Whether the path reads the same identity as `settleNs` ago, and the tracker
that remembers this sample. -/
def StabilityTracker.sample (tracker : StabilityTracker) (path : Bytes) (settleNs : Int) :
    FsM (Bool × StabilityTracker) := do
  let identity ← Identity.read path
  let now ← clock
  let stable := tracker.previous.any fun (old, since) =>
    old == identity && durationSince now since ≥ settleNs
  return (stable, ⟨some (identity, now)⟩)

def validateRelative (path : Bytes) : Except FsError Unit :=
  if path = [] ∨ path.length > 4096 ∨ Path.isAbsolute path then .error .unsafePath
  else if (Path.components path).all fun c => match c with | .normal _ => true | _ => false then
    .ok ()
  else .error .unsafePath

def openRoot (root : Bytes) : FsM Fd := sys (look fun fs => fs.openDirectory root)

def openBeneath (root : Fd) (relative : Bytes) (directory : Bool) : FsM Fd :=
  match validateRelative relative with
  | .error e => throw e
  | .ok () => sys (look fun fs => fs.openBeneath root relative directory true)

/-- `openat2` of a name in an open directory, without links. -/
def openAt (parent : Fd) (name : Bytes) : FsM Fd :=
  sys (look fun fs => fs.openBeneath parent name false false)

def identityFd (fd : Fd) : FsM Identity := do
  let (i, inode) ← sys (look fun fs => fs.fstat fd)
  failIf (inode.links ≠ 1) FsError.unsafeSource
  failIf (inode.node.size > maxFileSize) FsError.oversized
  return Identity.of i inode

def deviceFd (fd : Fd) : FsM Nat := do
  let (i, _) ← sys (look fun fs => fs.fstat fd)
  return i.device

def fsync : FsM Unit := sys touch

/-- `renameat2` without replacement, its error kept. -/
def rename (srcDir : Fd) (srcName : Bytes) (dstDir : Fd) (dstName : Bytes) : IoM Unit :=
  change fun _ fs => do
    let fs ← fs.renameNoReplace srcDir srcName dstDir dstName
    return ((), fs)

/-- How `EEXIST` and every other error of a no-replace rename is reported. -/
def renameError : Errno → FsError
  | .EXIST => .collision
  | e => .io e

def sameFilesystemMoveAt (sourceParent : Fd) (sourceName : Bytes) (destinationParent : Fd)
    (destinationName : Bytes) (expected : Identity) : FsM Unit := do
  let sourceFd ← openAt sourceParent sourceName
  let found ← identityFd sourceFd
  failIf (found ≠ expected) FsError.identityChanged
  recast renameError (rename sourceParent sourceName destinationParent destinationName)
  fsync
  fsync
  let destinationFd ← openAt destinationParent destinationName
  let moved ← identityFd destinationFd
  failIf (moved ≠ expected) FsError.verificationFailed

/-- One `read` into a 64 KiB buffer: at least one byte unless the file ends. -/
def readChunk (fd : Fd) (offset : Nat) : FsM Bytes :=
  sys (lookWith fun t fs => fs.read fd offset (1 + t.pick % 65536))

/-- Hash the rest of a file. File offsets end at `2^63`, so the loop does. -/
def hashFrom (fd : Fd) : Nat → Bytes → FsM Bytes
  | 0, hashed => return hashed
  | fuel + 1, hashed => do
    let chunk ← readChunk fd hashed.length
    if chunk = [] then return hashed else hashFrom fd fuel (hashed ++ chunk)

def hexDigest (P : Platform) (data : Bytes) : String := Text.hexEncode (P.sha256 data).bytes

def sha256File (P : Platform) (fd : Fd) : FsM String := do
  let hashed ← hashFrom fd (2 ^ 63) []
  return hexDigest P hashed

/-- Copy the rest of `source` to `output`; `copied` are the bytes hashed so far.
Buffered writes reach the file at once. Every round copies a byte and none
passes the size limit, so `fuel` of one more than the limit is never spent. -/
def copyFrom (source output : Fd) : Nat → Bytes → FsM Bytes
  | 0, _ => throw .oversized
  | fuel + 1, copied => do
    let chunk ← readChunk source copied.length
    if chunk = [] then return copied
    else do
      failIf (copied.length + chunk.length > maxFileSize) FsError.oversized
      sys (change fun t fs => do
        let fs ← fs.write output chunk t.clockNs
        return ((), fs))
      copyFrom source output fuel (copied ++ chunk)

/-- `fchmod` and `futimens` from the source's `fstat`. -/
def copyMetadata (output : Fd) (stat : Inode) : FsM Unit := do
  sys (change fun _ fs => .ok ((), fs.modify (fs.ino output) fun inode =>
    { inode with mode := stat.mode }))
  sys (change fun _ fs => .ok ((), fs.modify (fs.ino output) fun inode =>
    { inode with accessedNs := stat.accessedNs, modifiedNs := stat.modifiedNs }))

def verifiedStageCopyAt (P : Platform) (source destinationParent : Fd) (stagingName : Bytes)
    (expected : Identity) : FsM String := do
  let found ← identityFd source
  failIf (found ≠ expected) FsError.identityChanged
  let (_, sourceStat) ← sys (look fun fs => fs.fstat source)
  let output ← recast renameError (change fun t fs =>
    fs.createExclusive destinationParent stagingName t.pick t.clockNs)
  sys touch
  let copied ← copyFrom source output (maxFileSize + 1) []
  copyMetadata output sourceStat
  fsync
  failIf (copied.length ≠ expected.size) FsError.identityChanged
  let digest := hexDigest P copied
  let staged ← openAt destinationParent stagingName
  let readBack ← sha256File P staged
  failIf (readBack ≠ digest) FsError.verificationFailed
  return digest

def publishStageAt (destinationParent : Fd) (stagingName destinationName : Bytes) : FsM Unit := do
  recast renameError (rename destinationParent stagingName destinationParent destinationName)
  fsync

def verifyAt (P : Platform) (parent : Fd) (name : Bytes) (expectedSha256 : String) : FsM Unit := do
  let fd ← openAt parent name
  let found ← sha256File P fd
  failIf (found ≠ expectedSha256) FsError.verificationFailed

def retireSourceAt (P : Platform) (sourceParent : Fd) (sourceName : Bytes) (expected : Identity)
    (expectedSha256 : String) : FsM Unit := do
  let fd ← openAt sourceParent sourceName
  let found ← identityFd fd
  failIf (found ≠ expected) FsError.identityChanged
  let digest ← sha256File P fd
  failIf (digest ≠ expectedSha256) FsError.identityChanged
  sys (change fun _ fs => do
    let fs ← fs.unlink sourceParent sourceName
    return ((), fs))
  fsync

/-- `sha256` of a path. -/
def sha256 (P : Platform) (path : Bytes) : FsM String := do
  let fd ← sys (look fun fs => fs.resolve true path)
  sha256File P fd

/-- The name as the collision check compares it. -/
def folded (P : Platform) (name : Bytes) : String := P.toLowercase (Text.toStringLossy name)

def destinationExistsCaseFolded (P : Platform) (destination : Bytes) : FsM Bool := do
  let name ← orFail (Path.fileName destination) FsError.unsafePath
  let parent ← orFail (Path.parent destination) FsError.unsafePath
  let entries ← sys (look fun fs => fs.readDir parent)
  return entries.any fun e => folded P e.1 == folded P name

end SortingHat
