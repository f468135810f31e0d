import SortingHat.Text.Utf8

/-!
# JSON text

Values with integer numbers, and the two ways `serde_json` writes them: compact,
and pretty with two blanks a level.
-/

namespace Text

inductive Json where
  | null
  | bool (b : Bool)
  | int (n : Int)
  | str (s : String)
  | arr (items : List Json)
  | obj (fields : List (String × Json))

namespace Json

def escape (c : Char) : List Char :=
  match c with
  | '"' => ['\\', '"']
  | '\\' => ['\\', '\\']
  | '\n' => ['\\', 'n']
  | '\r' => ['\\', 'r']
  | '\t' => ['\\', 't']
  | c =>
    if c.toNat = 8 then ['\\', 'b']
    else if c.toNat = 12 then ['\\', 'f']
    else if c.toNat < 32 then
      ['\\', 'u', '0', '0', hexDigit (c.toNat / 16), hexDigit (c.toNat % 16)]
    else [c]

def quote (s : String) : List Char := '"' :: s.toList.flatMap escape ++ ['"']

def number (n : Int) : List Char :=
  if n < 0 then '-' :: Nat.toDigits 10 n.natAbs else Nat.toDigits 10 n.natAbs

def newline (depth : Nat) : List Char := '\n' :: List.replicate (2 * depth) ' '

mutual
/-- `to_vec_pretty`. -/
def pretty (depth : Nat) : Json → List Char
  | null => ['n', 'u', 'l', 'l']
  | bool true => ['t', 'r', 'u', 'e']
  | bool false => ['f', 'a', 'l', 's', 'e']
  | int n => number n
  | str s => quote s
  | arr [] => ['[', ']']
  | arr (item :: items) =>
    '[' :: newline (depth + 1) ++ item.pretty (depth + 1) ++ prettyItems (depth + 1) items ++
      newline depth ++ [']']
  | obj [] => ['\x7b', '\x7d']
  | obj ((key, item) :: fields) =>
    '\x7b' :: newline (depth + 1) ++ quote key ++ [':', ' '] ++ item.pretty (depth + 1) ++
      prettyFields (depth + 1) fields ++ newline depth ++ ['\x7d']

def prettyItems (depth : Nat) : List Json → List Char
  | [] => []
  | item :: items => ',' :: newline depth ++ item.pretty depth ++ prettyItems depth items

def prettyFields (depth : Nat) : List (String × Json) → List Char
  | [] => []
  | (key, item) :: fields =>
    ',' :: newline depth ++ quote key ++ [':', ' '] ++ item.pretty depth ++
      prettyFields depth fields
end

mutual
/-- `to_vec`. -/
def compact : Json → List Char
  | null => ['n', 'u', 'l', 'l']
  | bool true => ['t', 'r', 'u', 'e']
  | bool false => ['f', 'a', 'l', 's', 'e']
  | int n => number n
  | str s => quote s
  | arr [] => ['[', ']']
  | arr (item :: items) => '[' :: item.compact ++ compactItems items ++ [']']
  | obj [] => ['\x7b', '\x7d']
  | obj ((key, item) :: fields) =>
    '\x7b' :: quote key ++ [':'] ++ item.compact ++ compactFields fields ++ ['\x7d']

def compactItems : List Json → List Char
  | [] => []
  | item :: items => ',' :: item.compact ++ compactItems items

def compactFields : List (String × Json) → List Char
  | [] => []
  | (key, item) :: fields =>
    ',' :: quote key ++ [':'] ++ item.compact ++ compactFields fields
end

/-- An optional value, absent as `null`. -/
def option {α : Type} (f : α → Json) : Option α → Json
  | some a => f a
  | none => null

/-- The length in bytes of text to be written as UTF-8. -/
def byteLength (text : List Char) : Nat := (text.map Char.utf8Size).sum

example : String.ofList (obj [("a", arr [int (-1), null]), ("b", str "x\"y")]).compact =
    "\x7b\"a\":[-1,null],\"b\":\"x\\\"y\"\x7d" := by decide

end Json
end Text
