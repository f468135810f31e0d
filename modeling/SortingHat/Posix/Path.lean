import Mathlib.Algebra.Group.Int.Defs
import Mathlib.Algebra.GroupWithZero.Nat
import Mathlib.Data.List.Basic

/-!
# Unix paths as byte strings

Paths are bytes, as the kernel and `std::path` have them: `segments` is the
kernel's view (everything between slashes), `components` is `std::path`'s, which
drops empty and `.` segments.
-/

namespace Posix

abbrev Bytes := List UInt8

/-- The UTF-8 bytes of a text. -/
def bytes (s : String) : Bytes := s.toUTF8.data.toList

namespace Path

def slash : UInt8 := 47
def dot : Bytes := [46]
def dotDot : Bytes := [46, 46]

inductive Component where
  | rootDir
  | curDir
  | parentDir
  | normal (name : Bytes)
  deriving DecidableEq, Repr

def isAbsolute (p : Bytes) : Bool := p.head? == some slash

/-- What stands between the slashes, empty segments included. -/
def segments (p : Bytes) : List Bytes := p.splitOn slash

/-- Segments that stay in the directory they are read in. -/
def isStay (seg : Bytes) : Bool := seg == [] || seg == dot

def component (seg : Bytes) : Component :=
  if seg = dotDot then .parentDir else .normal seg

/-- The segments that move, as components. -/
def body (segs : List Bytes) : List Component :=
  (segs.filter fun seg => !isStay seg).map component

/-- `Path::components`: a leading `.` of a relative path is kept. -/
def components (p : Bytes) : List Component :=
  if isAbsolute p then .rootDir :: body (segments p)
  else if (segments p).head? = some dot then .curDir :: body (segments p)
  else body (segments p)

/-- `Path::file_name`. -/
def fileName (p : Bytes) : Option Bytes :=
  match (components p).getLast? with
  | some (.normal name) => some name
  | _ => none

/-- `Path::join`. -/
def join (p q : Bytes) : Bytes :=
  if isAbsolute q then q
  else if p = [] ∨ p.getLast? = some slash then p ++ q
  else p ++ slash :: q

def Component.spell : Component → Bytes
  | .rootDir => []
  | .curDir => dot
  | .parentDir => dotDot
  | .normal name => name

/-- A path with these components. -/
def ofComponents : List Component → Bytes
  | [] => []
  | [.rootDir] => [slash]
  | cs => [slash].intercalate (cs.map Component.spell)

/-- `Path::parent`, up to equality of paths: the spelling of the part that
stays is the plain one. -/
def parent (p : Bytes) : Option Bytes :=
  match (components p).getLast? with
  | none => none
  | some .rootDir => none
  | some _ => some (ofComponents (components p).dropLast)

/-- `Path::starts_with`. -/
def startsWith (p q : Bytes) : Bool := (components q).isPrefixOf (components p)

/-- `Path::strip_prefix`. -/
def stripPrefix (p q : Bytes) : Option Bytes :=
  if startsWith p q then some (ofComponents ((components p).drop (components q).length)) else none

/-- `Path::extension`: what follows the last dot of the file name, unless that
dot is its first byte. -/
def extension (p : Bytes) : Option Bytes :=
  (fileName p).bind fun name =>
    let ext := name.reverse.takeWhile (· ≠ 46)
    if ext.length + 1 < name.length then some ext.reverse else none

/-- A name the kernel takes as a directory entry. -/
def isName (name : Bytes) : Bool := name ≠ [] && name ≠ dot && name ≠ dotDot && !name.contains slash

example : components (bytes "/a//b/./c/") =
    [.rootDir, .normal (bytes "a"), .normal (bytes "b"), .normal (bytes "c")] := by decide
example : fileName (bytes "x/foo/.") = some (bytes "foo") := by decide
example : parent (bytes "/x/foo") = some (bytes "/x") := by decide
example : extension (bytes "a/b.tar.gz") = some (bytes "gz") := by decide

theorem segments_append (p q : Bytes) : segments (p ++ slash :: q) = segments p ++ segments q :=
  List.splitOn_append_cons_self p q

end Path
end Posix
