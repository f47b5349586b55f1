import StackFlow.Json.Value
import StackFlow.Text.Numeral

/-! # Table specs: the opcode table that a text describes -/

namespace StackFlow.Table

open Json (Value)

/-- A row of an opcode table as it is written down. -/
structure Row where
  name : String
  mnemonic : String
  byte : String
  immediate : Nat := 0
  inputs : Nat
  outputs : Nat
  flow : String
  doc? : Option String := none
deriving DecidableEq, Repr

/-- An opcode table as it is written down. -/
structure Spec where
  version : Nat
  rows : List Row
deriving DecidableEq, Repr

/-- The text of a string. -/
def text? : Value → Option String
  | .string t => t
  | _ => none

/-- A text, or null for none. -/
def textOrNull? : Value → Option (Option String)
  | .null => some none
  | v => (text? v).map some

/-- A natural number below a bound, written in digits alone. -/
def natural? (bound : Nat) : Value → Option Nat
  | .number numeral =>
    if numeral.all Char.isDigit then
      let n := ofDigits 10 (numeral.map fun c => c.toNat - '0'.toNat)
      if n < bound then some n else none
    else none
  | _ => none

/-- The member of an object with a key: none at all, or `some none` if there is no such member.
A key that occurs twice is an error. -/
def member? (members : List (Json.Text × Value)) (key : String) : Option (Option Value) :=
  match members.filter fun (k, _) => k = some key with
  | [] => some none
  | [(_, v)] => some (some v)
  | _ => none

/-- The value of a member that has to be there. -/
def required? {α : Type} (members : List (Json.Text × Value)) (key : String)
    (read? : Value → Option α) : Option α := do read? (← ← member? members key)

/-- The value of a member that can be left out. -/
def optional? {α : Type} (members : List (Json.Text × Value)) (key : String) (default : α)
    (read? : Value → Option α) : Option α := do
  match ← member? members key with
  | some v => read? v
  | none => return default

namespace Row

/-- Reads a row from its fields in order; the last one can be left out. -/
def ofList? : List Value → Option Row
  | name :: mnemonic :: byte :: immediate :: inputs :: outputs :: flow :: doc => do
    return {
      name := ← text? name
      mnemonic := ← text? mnemonic
      byte := ← text? byte
      immediate := ← natural? 256 immediate
      inputs := ← natural? 65536 inputs
      outputs := ← natural? 65536 outputs
      flow := ← text? flow
      doc? := ← match doc with
        | [] => some none
        | [doc] => textOrNull? doc
        | _ => none }
  | _ => none

/-- Reads a row from an object. Members with other keys do not matter, but every key has to be
text. -/
def ofObject? (members : List (Json.Text × Value)) : Option Row :=
  if members.all fun (k, _) => k.isSome then do
    return {
      name := ← required? members "name" text?
      mnemonic := ← required? members "mnemonic" text?
      byte := ← required? members "byte" text?
      immediate := ← optional? members "immediate" 0 (natural? 256)
      inputs := ← required? members "inputs" (natural? 65536)
      outputs := ← required? members "outputs" (natural? 65536)
      flow := ← required? members "flow" text?
      doc? := ← optional? members "doc" none textOrNull? }
  else none

def ofValue? : Value → Option Row
  | .object members => ofObject? members
  | .list fields => ofList? fields
  | _ => none

end Row

/-- Reads rows from a list. -/
def rows? : Value → Option (List Row)
  | .list items => items.mapM Row.ofValue?
  | _ => none

namespace Spec

/-- Reads a table from an object, or from the list of its two fields. -/
def ofValue? : Value → Option Spec
  | .object members =>
    if members.all fun (k, _) => k.isSome then do
      return {
        version := ← required? members "version" (natural? 4294967296)
        rows := ← required? members "opcodes" rows? }
    else none
  | .list [version, rows] => do
    return { version := ← natural? 4294967296 version, rows := ← rows? rows }
  | _ => none

/-- The table that a JSON text describes. -/
def read? (text : String) : Option Spec := (Value.read? text).bind ofValue?

end Spec

end StackFlow.Table
