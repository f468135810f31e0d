import SortingHat.Text.Reader

/-!
# Decoding JSON values

What a derived `Deserialize` makes of a value: numbers in the range of their type, lists,
options, and records whose fields come in any order, each at most once and no others.

* `Inverts`: a decoder reads back what an encoder gives;
* `inverts_list`, `inverts_option`: so it does for lists and options;
* `record_fields`, `field_self`, `field_other`: the fields of a record that has been written.
-/

namespace Text.Json

variable {α : Type}

def string? : Json → Option String
  | str s => some s
  | _ => none

def bool? : Json → Option Bool
  | bool b => some b
  | _ => none

/-- An unsigned number of so many bits. -/
def nat? (bits : Nat) : Json → Option Nat
  | int n => if 0 ≤ n ∧ n < 2 ^ bits then some n.toNat else none
  | _ => none

/-- A signed number with so many bits behind its sign. -/
def int? (bits : Nat) : Json → Option Int
  | int n => if -(2 ^ bits) ≤ n ∧ n < 2 ^ bits then some n else none
  | _ => none

def list? (decode : Json → Option α) : Json → Option (List α)
  | arr items => items.mapM decode
  | _ => none

def option? (decode : Json → Option α) : Json → Option (Option α)
  | null => some none
  | value => (decode value).map some

/-- The fields of an object that has no others than these and none of them twice. -/
def record? (keys : List String) : Json → Option (List (String × Json))
  | obj fields =>
    if (fields.map Prod.fst).Nodup ∧ ∀ key ∈ fields.map Prod.fst, key ∈ keys then some fields else none
  | _ => none

/-- The value of a field that must be there. -/
def field (key : String) (decode : Json → Option α) (fields : List (String × Json)) : Option α :=
  (fields.lookup key).bind decode

/-- The value of a field, or another where it is missing. -/
def fieldOr (key : String) (other : α) (decode : Json → Option α) (fields : List (String × Json)) :
    Option α :=
  match fields.lookup key with
  | none => some other
  | some value => decode value

/-- `decode` reads back what `encode` gives of `a`. -/
def Inverts (encode : α → Json) (decode : Json → Option α) (a : α) : Prop := decode (encode a) = some a

section
variable {encode : α → Json} {decode : Json → Option α} {fields : List (String × Json)}

theorem inverts_string (s : String) : Inverts str string? s := rfl

theorem inverts_nat {bits n : Nat} (h : n < 2 ^ bits) :
    Inverts (fun n : Nat => int n) (nat? bits) n := by
  have hrange : (0 : Int) ≤ n ∧ (n : Int) < 2 ^ bits := by
    refine ⟨Int.natCast_nonneg n, ?_⟩
    exact_mod_cast h
  unfold Inverts nat?
  dsimp only
  rw [if_pos hrange, Int.toNat_natCast]

theorem inverts_int {bits : Nat} {n : Int} (h : -(2 ^ bits) ≤ n ∧ n < 2 ^ bits) :
    Inverts int (int? bits) n := if_pos h

theorem inverts_list {l : List α} (h : ∀ a ∈ l, Inverts encode decode a) :
    Inverts (fun l => arr (l.map encode)) (list? decode) l := by
  unfold Inverts list?
  dsimp only
  induction l with
  | nil => rfl
  | cons a l ih =>
    obtain ⟨ha, hl⟩ := List.forall_mem_cons.mp h
    have ha : decode (encode a) = some a := ha
    rw [List.map_cons, List.mapM_cons, ha, ih hl]
    rfl

theorem inverts_option {o : Option α} (h : ∀ a ∈ o, Inverts encode decode a)
    (hnull : ∀ a ∈ o, encode a ≠ null) : Inverts (option encode) (option? decode) o := by
  cases o with
  | none => rfl
  | some a =>
    have ha : decode (encode a) = some a := h a rfl
    have hne := hnull a rfl
    unfold Inverts option option?
    dsimp only
    split
    · next he => exact absurd he hne
    · rw [ha]
      rfl

theorem record_fields {β : Type} {keys : List String} {f : List (String × Json) → Option β}
    (h : fields.map Prod.fst = keys) (hkeys : keys.Nodup) :
    (record? keys (obj fields) >>= f) = f fields := by
  have hrecord : record? keys (obj fields) = some fields := if_pos ⟨h ▸ hkeys, fun _ hm => h ▸ hm⟩
  rw [hrecord]
  rfl

theorem field_self (key : String) (value : Json) :
    field key decode ((key, value) :: fields) = decode value := by
  unfold field
  rw [List.lookup_cons_self]
  rfl

theorem field_other {key key' : String} (h : key ≠ key') (value : Json) :
    field key decode ((key', value) :: fields) = field key decode fields := by
  unfold field
  rw [List.lookup_cons, beq_false_of_ne h]

theorem fieldOr_self (key : String) (value : Json) (other : α) :
    fieldOr key other decode ((key, value) :: fields) = decode value := by
  unfold fieldOr
  rw [List.lookup_cons_self]

theorem fieldOr_other {key key' : String} (h : key ≠ key') (value : Json) (other : α) :
    fieldOr key other decode ((key', value) :: fields) = fieldOr key other decode fields := by
  unfold fieldOr
  rw [List.lookup_cons, beq_false_of_ne h]

end
end Text.Json
