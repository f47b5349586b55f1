import StackFlow.Check.Frame
import StackFlow.Offset

/-!
# Frames in machine words

The frames of a check as they are stored: heights and depths in sixteen bits,
offsets in thirty-two, and an outstanding call by its number in a table.  What
the words or a table have no room for stops the check with a fault.
-/

namespace StackFlow.Packed

/-- What words and tables can have no room for. -/
inductive Fault where
  /-- A sum does not fit in its word. -/
  | overflow
  /-- A height that is within the limit does not fit in sixteen bits. -/
  | narrowing
  /-- A table has no entry of this index. -/
  | outOfRange (size index : Nat)
  /-- A table has more entries than there are numbers of thirty-two bits. -/
  | numbering
deriving DecidableEq, Repr

def Fault.message : Fault → String
  | .overflow => "attempt to add with overflow"
  | .narrowing => "height out of range"
  | .outOfRange size index =>
    "index out of bounds: the len is " ++ decimal size ++ " but the index is " ++ decimal index
  | .numbering => "too many entries"

/-- Why a check stops before its end: the code shows a violation, or the check itself fails. -/
inductive Stop where
  | violation (v : Violation)
  | fault (x : Fault)
deriving DecidableEq, Repr

/-! ## Words -/

def sum16 (a b : UInt16) : Except Stop UInt16 :=
  if a.toNat + b.toNat < UInt16.size then .ok (a + b) else .error (.fault .overflow)

def sum32 (a b : UInt32) : Except Stop UInt32 :=
  (addOffsets a b).mapError fun _ => .fault .overflow

def narrow (a : UInt32) : Except Stop UInt16 :=
  if a.toNat < UInt16.size then .ok a.toUInt16 else .error (.fault .narrowing)

/-- The offset behind an instruction. -/
def next (i : Instr) : Except Stop UInt32 := i.checkedNext.mapError fun _ => .fault .overflow

theorem next_eq_ok_iff {i : Instr} (inside : i.pc < UInt32.size) {behind : UInt32} :
    next i = .ok behind ↔ behind.toNat = i.next := by
  rw [next, mapError_eq_ok, Instr.checkedNext_eq_ok_iff inside]

/-! ## Tables -/

section Tables

variable {α : Type}

def lookup (table : Array α) (i : UInt32) : Except Stop α :=
  match table[i.toNat]? with
  | some a => .ok a
  | none => .error (.fault (.outOfRange table.size i.toNat))

theorem lookup_of_lt {table : Array α} {i : UInt32} (h : i.toNat < table.size) :
    lookup table i = .ok table[i.toNat] := by
  rw [lookup, Array.getElem?_eq_getElem h]

def store (table : Array α) (i : UInt32) (a : α) : Except Stop (Array α) :=
  if i.toNat < table.size then .ok (table.set! i.toNat a)
  else .error (.fault (.outOfRange table.size i.toNat))

/-- The number of the entry that a table of this size gets next. -/
def numberOf (size : Nat) : Except Stop UInt32 :=
  if size < UInt32.size then .ok (UInt32.ofNat size) else .error (.fault .numbering)

theorem lt_of_numberOf {size : Nat} {n : UInt32} (h : numberOf size = .ok n) :
    size < UInt32.size := by
  unfold numberOf at h
  split at h
  · assumption
  · cases h

/-- The greatest number of thirty-two bits. -/
def lastNumber : Nat := 4294967295

end Tables

/-! ## Frames -/

/-- A call that has been entered: the subroutine, and where it returns to. -/
structure Call where
  entry : UInt32
  resume : UInt32
deriving DecidableEq, Repr

/-- A point that a path has come to. -/
structure Frame where
  pc : UInt32
  /-- The height of the data stack above the base. -/
  height : UInt16
  /-- The height of the whole data stack where the current subroutine was entered. -/
  base : UInt16
  /-- The number of outstanding calls. -/
  depth : UInt16
  /-- The number of the innermost outstanding call. -/
  call? : Option UInt32
deriving DecidableEq, Repr

/-- What an instruction does to the path that runs it. -/
inductive Move where
  | halt
  | next (f : Frame)
  | jump (f : Frame)
  | branch (taken fallthrough : Frame)
  /-- The path enters a subroutine. Its frame is made once the call has a number. -/
  | call (entry : UInt32) (resume : Frame)
  | ret (c : Call)
deriving DecidableEq, Repr

/-- The instruction start that a relative instruction refers to. -/
def resolve (starts : Starts) (i : Instr) : Except Stop UInt32 :=
  match i.target? with
  | none => .error (.violation (.truncatedDisplacement i.pc))
  | some t =>
    if starts.contains t ∧ t.toNat < UInt32.size then .ok (UInt32.ofNat t.toNat)
    else .error (.violation (.invalidDestination i.pc t))

namespace Frame

def start : Frame := { pc := 0, height := 0, base := 0, depth := 0, call? := none }

/-- The subroutine that the frame runs in; none at top level. -/
def entry? (calls : Array Call) (f : Frame) : Except Stop (Option UInt32) :=
  match f.call? with
  | none => .ok none
  | some c => (lookup calls c).map fun call => some call.entry

/-- The height above the base after an opcode, by sums of thirty-two bits. -/
def effect (limits : Limits) (f : Frame) (op : Opcode) : Except Stop UInt16 := do
  let inputs := UInt16.ofNat op.inputs
  if f.height < inputs then
    throw (.violation (.stackUnderflow f.pc.toNat inputs.toNat f.height.toNat))
  let height ← sum32 (f.height - inputs).toUInt32 (UInt32.ofNat op.outputs)
  let absolute ← sum32 f.base.toUInt32 height
  if limits.stack.toUInt32 < absolute then
    throw (.violation (.stackOverflow f.pc.toNat absolute.toNat limits.stack.toNat))
  narrow height

/-- Runs one instruction. -/
def advance (limits : Limits) (starts : Starts) (calls : Array Call) (f : Frame) (i : Instr) :
    Except Stop Move := do
  let op ← (Check.legal i).mapError .violation
  let height ← f.effect limits op
  match op.flow with
  | .next =>
    let behind ← next i
    return .next { f with pc := behind, height }
  | .terminator | .invalid => return .halt
  | .jump =>
    let target ← resolve starts i
    return .jump { f with pc := target }
  | .jumpIf =>
    let target ← resolve starts i
    let behind ← next i
    return .branch { f with pc := target, height } { f with pc := behind, height }
  | .call =>
    let target ← resolve starts i
    if limits.calls ≤ f.depth then
      throw (.violation (.returnOverflow f.pc.toNat limits.calls.toNat))
    let behind ← next i
    return .call target { f with pc := behind }
  | .ret =>
    match f.call? with
    | none => throw (.violation (.returnUnderflow f.pc.toNat))
    | some c =>
      let call ← lookup calls c
      return .ret call

end Frame

end StackFlow.Packed
