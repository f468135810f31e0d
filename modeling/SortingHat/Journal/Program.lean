import SortingHat.World

/-!
# Journal operations

The methods of `Journal`. Each SQL statement is an atomic step, so between the
reads and the conditional `UPDATE` of one call another handle can run.
-/

namespace SortingHat.Journal
open Posix (Bytes Errno)
open Effect

abbrev JournalM := Fallible Tick Database JournalError

/-- A statement that reads. -/
def query {α : Type} (f : Database → α) : JournalM α :=
  ExceptT.mk (Prog.atomic fun t db =>
    (match t.fault with
      | some _ => .error .database
      | none => .ok (f db), db))

/-- A statement that writes, stamped by `unixepoch()`. -/
def execute {α : Type} (f : Int → Database → Except JournalError (α × Database)) : JournalM α :=
  ExceptT.mk (Prog.atomic fun t db =>
    match t.fault with
    | some _ => (.error .database, db)
    | none =>
      match f t.seconds db with
      | .error e => (.error e, db)
      | .ok (a, db') => (.ok a, db'))

/-- `Journal::open`: the table exists from the first open on. -/
def connect : JournalM Unit := query fun _ => ()

def activeCount : JournalM Nat := query Database.activeCount

def create (entry : Entry) : JournalM Unit := do
  let active ← activeCount
  failIf (active ≥ maxActive) JournalError.limit
  failIf (entry.state ≠ .proposed ∨ entry.revision ≠ 1) JournalError.invalidTransition
  let revision ← orFail (i64? entry.revision) JournalError.range
  let size ← orFail (i64? entry.size) JournalError.range
  execute fun now db => do
    let db ← db.insert
      { id := entry.id, revision, state := entry.state.asStr, sourceToken := entry.sourceToken,
        destinationToken := entry.destinationToken, size, sha256 := entry.sha256,
        updatedAt := now }
    return ((), db)

def get (id : Uuid) : JournalM Entry := do
  let found ← query fun db => db.find id
  let row ← orFail found JournalError.notFound
  liftExcept row.entry
where
  liftExcept (r : Except JournalError Entry) : JournalM Entry :=
    match r with
    | .ok entry => pure entry
    | .error e => throw e

/-- `UPDATE entries SET state=?, revision=?, updated_at=unixepoch() WHERE id=? AND revision=?`. -/
def updateState (id : Uuid) (revision nextRevision : Int) (next : State) : JournalM Nat :=
  execute fun now db => .ok (db.update id (fun row => row.revision = revision) fun row =>
    { row with state := next.asStr, revision := nextRevision, updatedAt := now })

def transition (id : Uuid) (revision : Nat) (next : State) : JournalM Entry := do
  let current ← get id
  failIf (current.revision ≠ revision) JournalError.revisionConflict
  failIf (allowed current.state next = false) JournalError.invalidTransition
  let nextRevision ← orFail (checkedSucc revision) JournalError.range
  let revisionSql ← orFail (i64? revision) JournalError.range
  let nextRevisionSql ← orFail (i64? nextRevision) JournalError.range
  let changed ← updateState id revisionSql nextRevisionSql next
  failIf (changed ≠ 1) JournalError.revisionConflict
  get id

/-- `UPDATE entries SET destination_token=?, revision=?, updated_at=unixepoch()
WHERE id=? AND revision=? AND state='proposed'`. -/
def updateDestination (id : Uuid) (revision nextRevision : Int) (token : Bytes) : JournalM Nat :=
  execute fun now db => .ok (db.update id
    (fun row => row.revision = revision && row.state = "proposed") fun row =>
    { row with destinationToken := token, revision := nextRevision, updatedAt := now })

def reviseProposal (id : Uuid) (revision : Nat) (destinationToken : Bytes) : JournalM Entry := do
  let current ← get id
  failIf (current.revision ≠ revision) JournalError.revisionConflict
  failIf (current.state ≠ .proposed) JournalError.invalidTransition
  let revisionSql ← orFail (i64? revision) JournalError.range
  let next ← orFail (checkedSucc revision) JournalError.range
  let nextSql ← orFail (i64? next) JournalError.range
  let changed ← updateDestination id revisionSql nextSql destinationToken
  failIf (changed ≠ 1) JournalError.revisionConflict
  get id

def setSha256 (id : Uuid) (sha256 : String) : JournalM Unit := do
  failIf (sha256.utf8ByteSize ≠ 64 ∨ sha256.toList.all Text.isHexDigit = false)
    JournalError.corruptState
  let changed ← execute fun now db => .ok (db.update id (fun _ => true) fun row =>
    { row with sha256 := some sha256, updatedAt := now })
  failIf (changed ≠ 1) JournalError.notFound

/-- The ids first, then each entry by its own `SELECT`. -/
def nonterminal : JournalM (List Entry) := do
  let ids ← query fun db => db.nonterminal.map Row.id
  ids.mapM get

def pruneTerminal (retain : Nat) : JournalM Nat := do
  let retain ← orFail (i64? retain) JournalError.range
  execute fun _ db => .ok (db.delete fun row =>
    ((db.surplus retain.toNat).map Row.id).contains row.id)

/-- The length of one of the journal's files; absent counts as empty. -/
def fileLength : JournalM Nat :=
  ExceptT.mk (Prog.atomic fun t db =>
    (match t.fault with
      | some .NOENT => .ok 0
      | some _ => .error .range
      | none => .ok (t.pick % 2 ^ 64), db))

def checkedAdd (a b : Nat) : Option Nat := if a + b < 2 ^ 64 then some (a + b) else none

def enforceRetention (retain maxAgeSeconds maxBytes : Nat) : JournalM Nat := do
  let age ← orFail (i64? maxAgeSeconds) JournalError.range
  let aged ← execute fun now db => .ok (db.delete fun row =>
    row.terminal && row.updatedAt < now - age)
  let pruned ← pruneTerminal retain
  query fun _ => ()
  let main ← fileLength
  let wal ← fileLength
  let total ← orFail (checkedAdd main wal) JournalError.range
  let shm ← fileLength
  let total ← orFail (checkedAdd total shm) JournalError.range
  failIf (total > maxBytes) JournalError.limit
  return aged + pruned

end SortingHat.Journal
