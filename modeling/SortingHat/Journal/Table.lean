import SortingHat.Core

/-!
# The journal table

`sortinghat-journal`: states, entries, and the SQL statements as functions on
one table. Rows are in `rowid` order and unique by `id`. `commits` is the
history of row values ever written, oldest first; no statement reads it.
-/

namespace SortingHat.Journal
open Posix (Bytes)

def maxActive : Nat := 1000

inductive State where
  | proposed
  | approved
  | copying
  | published
  | sourceRemoved
  | completed
  | undoing
  | undone
  | failedSafely
  | needsAttention
  | ignored
  deriving DecidableEq, Repr

namespace State

def asStr : State → String
  | proposed => "proposed"
  | approved => "approved"
  | copying => "copying"
  | published => "published"
  | sourceRemoved => "source_removed"
  | completed => "completed"
  | undoing => "undoing"
  | undone => "undone"
  | failedSafely => "failed_safely"
  | needsAttention => "needs_attention"
  | ignored => "ignored"

def parse? (value : String) : Option State :=
  match value with
  | "proposed" => some proposed
  | "approved" => some approved
  | "copying" => some copying
  | "published" => some published
  | "source_removed" => some sourceRemoved
  | "completed" => some completed
  | "undoing" => some undoing
  | "undone" => some undone
  | "failed_safely" => some failedSafely
  | "needs_attention" => some needsAttention
  | "ignored" => some ignored
  | _ => none

def terminal : State → Bool
  | completed | undone | failedSafely | ignored => true
  | _ => false

/-- States a crash leaves behind. -/
def interrupted : State → Bool
  | approved | copying | published | sourceRemoved | undoing => true
  | _ => false

@[simp] theorem parse_asStr (s : State) : parse? s.asStr = some s := by cases s <;> rfl

theorem asStr_injective {s t : State} (h : s.asStr = t.asStr) : s = t := by
  have := congrArg parse? h
  simpa using this

@[simp] theorem asStr_inj {s t : State} : s.asStr = t.asStr ↔ s = t :=
  ⟨asStr_injective, congrArg asStr⟩

theorem parse_eq_some {text : String} {s : State} (h : parse? text = some s) : text = s.asStr := by
  unfold parse? at h
  split at h <;> simp_all [asStr] <;> subst h <;> rfl

end State

def allowed (source target : State) : Bool :=
  if target = .needsAttention then !source.terminal
  else match source, target with
    | .proposed, .approved | .proposed, .ignored => true
    | .approved, .copying | .approved, .published | .approved, .failedSafely => true
    | .copying, .published | .copying, .failedSafely => true
    | .published, .sourceRemoved | .published, .failedSafely => true
    | .sourceRemoved, .completed => true
    | .completed, .undoing => true
    | .undoing, .undone | .undoing, .failedSafely => true
    | _, _ => false

structure Entry where
  id : Uuid
  revision : Nat
  state : State
  sourceToken : Bytes
  destinationToken : Bytes
  size : Nat
  sha256 : Option String
  deriving DecidableEq, Repr

inductive JournalError where
  | database
  | limit
  | notFound
  | revisionConflict
  | invalidTransition
  | corruptState
  | range
  deriving DecidableEq, Repr

/-- `i64::try_from` of an unsigned number. -/
def i64? (n : Nat) : Option Int := if n < 2 ^ 63 then some n else none

/-- `u64::checked_add(1)`. -/
def checkedSucc (n : Nat) : Option Nat := if n + 1 < 2 ^ 64 then some (n + 1) else none

/-- The columns of `entries`. -/
structure Row where
  id : Uuid
  revision : Int
  state : String
  sourceToken : Bytes
  destinationToken : Bytes
  size : Int
  sha256 : Option String
  updatedAt : Int
  deriving DecidableEq, Repr

namespace Row

/-- `state IN ('completed','undone','failed_safely','ignored')`. -/
def terminal (row : Row) : Bool :=
  ["completed", "undone", "failed_safely", "ignored"].contains row.state

def active (row : Row) : Bool := !row.terminal

/-- A row read back as an entry. -/
def entry (row : Row) : Except JournalError Entry := do
  if row.revision < 0 then throw .range
  match State.parse? row.state with
  | none => throw .corruptState
  | some state =>
    if row.size < 0 then throw .range
    return { id := row.id, revision := row.revision.toNat, state, sourceToken := row.sourceToken,
             destinationToken := row.destinationToken, size := row.size.toNat,
             sha256 := row.sha256 }

/-- The row an entry is read from. -/
structure Reads (row : Row) (entry : Entry) : Prop where
  id : entry.id = row.id
  revision : (entry.revision : Int) = row.revision
  state : row.state = entry.state.asStr
  sourceToken : entry.sourceToken = row.sourceToken
  destinationToken : entry.destinationToken = row.destinationToken
  size : (entry.size : Int) = row.size
  sha256 : entry.sha256 = row.sha256

theorem entry_eq_ok {row : Row} {entry : Entry} : row.entry = .ok entry ↔ row.Reads entry := by
  constructor
  · intro h
    unfold Row.entry at h
    by_cases hr : row.revision < 0
    · simp [hr, throw, throwThe, MonadExceptOf.throw, bind, Except.bind] at h
    · cases hs : State.parse? row.state with
      | none => simp [hr, hs, throw, throwThe, MonadExceptOf.throw] at h
      | some state =>
        by_cases hz : row.size < 0
        · simp [hr, hs, hz, throw, throwThe, MonadExceptOf.throw, bind, Except.bind] at h
        · simp only [hr, hs, hz, if_false, pure, Except.pure, bind, Except.bind, Except.ok.injEq] at h
          subst h
          exact ⟨rfl, by simp; omega, State.parse_eq_some hs, rfl, rfl, by simp; omega, rfl⟩
  · rintro ⟨hid, hr, hs, hst, hdt, hz, hsha⟩
    unfold Row.entry
    have hr' : ¬ row.revision < 0 := by omega
    have hz' : ¬ row.size < 0 := by omega
    simp only [hr', hz', hs, State.parse_asStr, if_false, pure, Except.pure, bind, Except.bind]
    rw [← hid, ← hst, ← hdt, ← hsha, ← hr, ← hz]
    rfl

end Row

structure Database where
  rows : List Row
  commits : List Row
  keyed : (rows.map Row.id).Nodup

namespace Database

def empty : Database := ⟨[], [], List.nodup_nil⟩

/-- `WHERE id = ?`. -/
def find (db : Database) (id : Uuid) : Option Row := db.rows.find? fun row => row.id = id

def activeCount (db : Database) : Nat := db.rows.countP Row.active

/-- The rows an `UPDATE ... WHERE id = ? AND cond` touches. -/
def selected (id : Uuid) (cond : Row → Bool) (row : Row) : Bool := row.id = id && cond row

/-- The row with new columns under its own key. -/
def rewrite (id : Uuid) (cond : Row → Bool) (set : Row → Row) (row : Row) : Row :=
  if selected id cond row then { set row with id := row.id } else row

theorem rewrite_id (id : Uuid) (cond : Row → Bool) (set : Row → Row) (row : Row) :
    (rewrite id cond set row).id = row.id := by
  unfold rewrite
  split <;> rfl

/-- `UPDATE`, with the number of rows changed. -/
def update (db : Database) (id : Uuid) (cond : Row → Bool) (set : Row → Row) : Nat × Database :=
  let touched := db.rows.filter (selected id cond)
  (touched.length,
   { rows := db.rows.map (rewrite id cond set)
     commits := db.commits ++ touched.map (rewrite id cond set)
     keyed := by
      have : (db.rows.map (rewrite id cond set)).map Row.id = db.rows.map Row.id := by
        simp [List.map_map, Function.comp_def, rewrite_id]
      exact this ▸ db.keyed })

/-- `INSERT`; the primary key refuses a second row. -/
def insert (db : Database) (row : Row) : Except JournalError Database :=
  if h : row.id ∈ db.rows.map Row.id then .error .database
  else .ok
    { rows := db.rows ++ [row]
      commits := db.commits ++ [row]
      keyed := by
        rw [List.map_append, List.map_cons, List.map_nil]
        exact List.nodup_append.mpr ⟨db.keyed, List.nodup_singleton _, by
          rintro a ha b hb rfl
          exact h (List.mem_singleton.mp hb ▸ ha)⟩ }

/-- `DELETE`, with the number of rows deleted. -/
def delete (db : Database) (doomed : Row → Bool) : Nat × Database :=
  ((db.rows.filter doomed).length,
   { rows := db.rows.filter fun row => !doomed row
     commits := db.commits
     keyed := (List.filter_sublist.map Row.id).nodup db.keyed })

/-- `ORDER BY updated_at, rowid` of the active rows, cut at a thousand. -/
def nonterminal (db : Database) : List Row :=
  ((db.rows.filter Row.active).insertionSort fun a b => a.updatedAt ≤ b.updatedAt).take 1000

/-- The terminal rows after the `retain` newest,
`ORDER BY updated_at DESC, rowid DESC LIMIT -1 OFFSET retain`. -/
def surplus (db : Database) (retain : Nat) : List Row :=
  ((db.rows.filter Row.terminal).reverse.insertionSort
    fun a b => b.updatedAt ≤ a.updatedAt).drop retain

end Database
end SortingHat.Journal
