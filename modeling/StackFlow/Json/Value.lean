import StackFlow.Json.Token

/-! # JSON values, read from tokens without recursion on their nesting -/

namespace StackFlow.Json

inductive Value where
  | null
  | bool (b : Bool)
  /-- A number as it is written. -/
  | number (numeral : List Char)
  | string (text : Text)
  | list (items : List Value)
  /-- The members in the order in which they are written. Keys can occur twice. -/
  | object (members : List (Text × Value))

/-- A place inside a list or object for a value still to come. What stands before it is kept
latest first. -/
inductive Hole where
  | item (before : List Value)
  | member (before : List (Text × Value)) (k : Text)

/-- How far the reading has come. The holes lead from the place at hand outwards. -/
inductive Reader where
  /-- A value has to come. -/
  | value (holes : List Hole)
  /-- A list has been opened. -/
  | listStart (holes : List Hole)
  /-- An object has been opened. -/
  | objectStart (holes : List Hole)
  /-- The key of another member has to come. -/
  | key (before : List (Text × Value)) (holes : List Hole)
  /-- A key has come. -/
  | colon (before : List (Text × Value)) (k : Text) (holes : List Hole)
  /-- A value is complete. -/
  | complete (v : Value) (holes : List Hole)

namespace Reader

/-- Reads the first token of a value. -/
def start (holes : List Hole) : Token → Option Reader
  | .null => some (.complete .null holes)
  | .bool b => some (.complete (.bool b) holes)
  | .number numeral => some (.complete (.number numeral) holes)
  | .string text => some (.complete (.string text) holes)
  | .listStart => some (.listStart holes)
  | .objectStart => some (.objectStart holes)
  | .listEnd | .objectEnd | .comma | .colon => none

/-- Reads a token. -/
def push : Reader → Token → Option Reader
  | .value holes, t => start holes t
  | .listStart holes, .listEnd => some (.complete (.list []) holes)
  | .listStart holes, t => start (.item [] :: holes) t
  | .objectStart holes, .objectEnd => some (.complete (.object []) holes)
  | .objectStart holes, .string k => some (.colon [] k holes)
  | .key before holes, .string k => some (.colon before k holes)
  | .colon before k holes, .colon => some (.value (.member before k :: holes))
  | .complete v (.item before :: holes), .comma => some (.value (.item (v :: before) :: holes))
  | .complete v (.item before :: holes), .listEnd =>
    some (.complete (.list (v :: before).reverse) holes)
  | .complete v (.member before k :: holes), .comma => some (.key ((k, v) :: before) holes)
  | .complete v (.member before k :: holes), .objectEnd =>
    some (.complete (.object ((k, v) :: before).reverse) holes)
  | _, _ => none

/-- The value read, if all that was opened is closed. -/
def result? : Reader → Option Value
  | .complete v [] => some v
  | _ => none

end Reader

namespace Value

/-- The value that tokens stand for. -/
def ofTokens? (ts : List Token) : Option Value :=
  (ts.foldlM Reader.push (.value [])).bind Reader.result?

/-- The value that a text stands for, from its start to its end. -/
def read? (text : String) : Option Value := (Token.readAll? #[] text.toList).bind ofTokens?

end Value

end StackFlow.Json
