/-
# JSON values

The values of the JSON data format, the look-ups from which readers of records and enumerations
are built, and the text of a value.  Integers are exact and of any size; a number written with a
fraction or an exponent keeps its text, since no reader of records accepts one.
-/

namespace MipsListing

/-- A JSON value. -/
inductive Json where
  | null
  | bool (value : Bool)
  | integer (value : Int)
  | fraction (text : String)
  | string (value : String)
  | array (items : List Json)
  | object (entries : List (String × Json))

namespace Json

/-! ## Scalars -/

/-- The text of a string value. -/
def string? : Json → Option String
  | string value => some value
  | _ => none

/-- An integer value of at least `low` and below `high`. -/
def integerIn? (low high : Int) : Json → Option Int
  | integer value => if low ≤ value ∧ value < high then some value else none
  | _ => none

/-- An integer value that is a position in a program: a 64-bit number
without sign. -/
def index? (json : Json) : Option Nat := (json.integerIn? 0 UInt64.size).map Int.toNat

/-- An integer value that is a byte. -/
def byte? (json : Json) : Option UInt8 :=
  (json.integerIn? 0 UInt8.size).map fun value => UInt8.ofNat value.toNat

/-- An integer value that is a signed 32-bit number. -/
def int32? (json : Json) : Option Int32 :=
  (json.integerIn? (-0x80000000) 0x80000000).map Int32.ofInt

/-! ## Records and enumerations -/

/-- The values of the named fields of a record.  An object may lack fields and have others; an
array has exactly the named fields, in this order. -/
def record? (names : List String) : Json → Option (List (Option Json))
  | object entries => some (names.map fun name => entries.lookup name)
  | array items => if items.length = names.length then some (items.map some) else none
  | _ => none

/-- The name of a variant without data: a string, or the one key of an object with the value
`null`. -/
def variant? : Json → Option String
  | string name => some name
  | object [(name, null)] => some name
  | _ => none

/-- The name of a variant with fields, and its fields: the one key of an object whose value is
an object again. -/
def taggedFields? : Json → Option (String × Json)
  | object [(name, object entries)] => some (name, object entries)
  | _ => none

/-! ## Text

A value set over several lines: one item to a line, two spaces for each level, and an empty array
or object on one line. -/

/-- One character of a string: the quote, the backslash and the control characters below the
space are escaped, and nothing else. -/
def escapeChar (c : Char) : List Char :=
  if c = '\x22' then ['\\', '\x22']
  else if c = '\\' then ['\\', '\\']
  else if c = '\x08' then ['\\', 'b']
  else if c = '\x0c' then ['\\', 'f']
  else if c = '\n' then ['\\', 'n']
  else if c = '\r' then ['\\', 'r']
  else if c = '\t' then ['\\', 't']
  else if c < ' ' then ['\\', 'u'] ++ (Nat.toDigits 16 c.toNat).leftpad 4 '0'
  else [c]

/-- A string in quotes. -/
def quote (text : String) : String :=
  String.ofList (['\x22'] ++ text.toList.flatMap escapeChar ++ ['\x22'])

/-- The blanks in front of an item at a depth. -/
def margin (depth : Nat) : String := String.ofList (List.replicate (2 * depth) ' ')

/-- Items between brackets, each on a line of its own and one level deeper than the brackets. -/
def block (opening closing : String) (depth : Nat) (items : List String) : String :=
  if items = [] then opening ++ closing
  else opening ++ "\n" ++ ",\n".intercalate (items.map (margin (depth + 1) ++ ·)) ++ "\n"
    ++ margin depth ++ closing

mutual

/-- The text of a value at a depth. -/
def prettyAt (depth : Nat) : Json → String
  | null => "null"
  | bool true => "true"
  | bool false => "false"
  | integer value => toString value
  | fraction text => text
  | string value => quote value
  | array items => block "[" "]" depth (prettyItems (depth + 1) items)
  | object entries => block "\x7b" "\x7d" depth (prettyEntries (depth + 1) entries)

/-- The texts of the items of an array. -/
def prettyItems (depth : Nat) : List Json → List String
  | [] => []
  | item :: items => prettyAt depth item :: prettyItems depth items

/-- The texts of the entries of an object, each value behind its key. -/
def prettyEntries (depth : Nat) : List (String × Json) → List String
  | [] => []
  | (key, value) :: entries =>
    (quote key ++ ": " ++ prettyAt depth value) :: prettyEntries depth entries

end

/-- The text of a value. -/
def pretty (json : Json) : String := prettyAt 0 json

end Json

end MipsListing
