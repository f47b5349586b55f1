import StackFlow.Opcode
import StackFlow.Table.Byte
import StackFlow.Table.Spec

/-! # Well-formed tables, and the first fault of the others -/

namespace StackFlow.Table

/-- Why a table is refused. -/
inductive Fault where
  /-- The version is not the one known. -/
  | version (n : Nat)
  /-- The text is no byte. -/
  | byte (text : String) (cause : ByteFault)
  /-- Two rows have one byte. -/
  | duplicateByte (b : UInt8) (first second : String)
  /-- Two rows have one name. -/
  | duplicateName (name : String)
  /-- The flow is not one of those known. -/
  | unknownFlow (flow : String)
  /-- A relative opcode does not have two bytes for its displacement. -/
  | displacementWidth (name : String) (width : Nat)
  /-- An immediate is longer than that of any push. -/
  | immediateWidth (name : String) (width : Nat)
  /-- More items are consumed or produced than a stack can hold. -/
  | stackEffect (name : String)
deriving DecidableEq, Repr

namespace Fault

def message : Fault → String
  | version n => "unsupported opcodes.json version " ++ decimal n
  | byte text _ => "invalid opcode byte '" ++ text ++ "'"
  | duplicateByte b first second =>
    "duplicate opcode byte 0x" ++ upperHexByte b ++ ": " ++ first ++ " and " ++ second
  | duplicateName name => "duplicate opcode name '" ++ name ++ "'"
  | unknownFlow flow => "unknown flow '" ++ flow ++ "'"
  | displacementWidth name width =>
    "opcode " ++ name ++ " is a relative control transfer but has a " ++ decimal width ++
      "-byte immediate (expected 2)"
  | immediateWidth name width =>
    "opcode " ++ name ++ " immediate width " ++ decimal width ++ " exceeds 32"
  | stackEffect name => "opcode " ++ name ++ " has an absurd stack effect"

/-- The message of what lies behind the fault. -/
def cause? : Fault → Option String
  | byte _ cause => some cause.message
  | _ => none

end Fault

/-- The flow that a word stands for. -/
def flow? : String → Option Flow
  | "next" => some .next
  | "terminator" => some .terminator
  | "invalid" => some .invalid
  | "jump" => some .jump
  | "jump_if" => some .jumpIf
  | "call" => some .call
  | "return" => some .ret
  | _ => none

/-- A row with its byte. -/
abbrev Keyed := UInt8 × Row

/-- A row whose byte and flow are known. -/
structure Definition where
  byte : UInt8
  name : String
  mnemonic : String
  immediate : Nat
  inputs : Nat
  outputs : Nat
  flow : Flow
  doc? : Option String
deriving DecidableEq, Repr

/-- Reads the byte of a row. -/
def Row.keyed (r : Row) : Except Fault Keyed :=
  let text := trimBlanks r.byte.toList
  match readByte text with
  | .ok b => .ok (b, r)
  | .error cause => .error (.byte (String.ofList text) cause)

/-- The order of rows: by byte, and by name where bytes are equal. -/
def precedes (a b : Keyed) : Bool := a.1 < b.1 || (a.1 = b.1 && a.2.name ≤ b.2.name)

/-- The first two neighbours that are alike. -/
def neighbours? {α : Type} (alike : α → α → Bool) : List α → Option (α × α)
  | a :: b :: rest => if alike a b then some (a, b) else neighbours? alike (b :: rest)
  | _ => none

/-- The first byte or else the first name that occurs twice in rows that are sorted by byte. -/
def duplicate? (sorted : List Keyed) : Option Fault :=
  match neighbours? (fun a b => a.1 = b.1) sorted with
  | some (a, b) => some (.duplicateByte a.1 a.2.name b.2.name)
  | none =>
    let names := (sorted.map fun r => r.2.name).mergeSort (· ≤ ·)
    (neighbours? (· = ·) names).map fun (name, _) => .duplicateName name

/-- Checks a row by itself. -/
def Row.define (b : UInt8) (r : Row) : Except Fault Definition :=
  match flow? r.flow with
  | none => .error (.unknownFlow r.flow)
  | some flow =>
    if flow.isRelative ∧ r.immediate ≠ 2 then .error (.displacementWidth r.name r.immediate)
    else if r.immediate > 32 then .error (.immediateWidth r.name r.immediate)
    else if r.inputs > 1024 ∨ r.outputs > 1024 then .error (.stackEffect r.name)
    else .ok { r with byte := b, flow }

/-- The definitions of a table in the order of their bytes, or its first fault: the version, then
the first byte that cannot be read, then a duplicate, then the row with the smallest byte that is
not well formed. -/
def Spec.definitions (s : Spec) : Except Fault (List Definition) := do
  if s.version ≠ 1 then throw (.version s.version)
  let keyed ← s.rows.mapM Row.keyed
  let sorted := keyed.mergeSort precedes
  match duplicate? sorted with
  | some fault => throw fault
  | none => sorted.mapM fun (b, r) => r.define b

end StackFlow.Table
