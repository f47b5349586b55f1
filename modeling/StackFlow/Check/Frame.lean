import StackFlow.Event
import StackFlow.Starts

/-! # Frames: where a path stands, and where one instruction takes it -/

namespace StackFlow.Check

/-- An outstanding call: the subroutine entered, and where it returns to. -/
structure Call where
  entry : Nat
  resume : Nat
deriving DecidableEq, Repr

/-- A point that a path has come to. -/
structure Frame where
  pc : Nat
  /-- The height of the data stack above the base. -/
  height : Nat
  /-- The height of the whole data stack where the current subroutine was entered. -/
  base : Nat
  /-- The number of outstanding calls. -/
  depth : Nat
  /-- The innermost outstanding call. -/
  call? : Option Call
deriving DecidableEq, Repr

/-- What an instruction does to the path that runs it. -/
inductive Move where
  /-- The path ends. -/
  | halt
  /-- The path goes on behind the instruction. -/
  | next (f : Frame)
  /-- The path goes on at a target. -/
  | jump (f : Frame)
  /-- The path goes on at a target, and another one behind the instruction. -/
  | branch (taken fallthrough : Frame)
  /-- The path goes on in a subroutine, and once that returns, another one behind it. -/
  | call (body resume : Frame)
  /-- The path ends by leaving its subroutine. -/
  | ret (c : Call)
deriving DecidableEq, Repr

/-- The edges along which a move from `pc` passes control. -/
def Move.edges (pc : Nat) : Move → List Event
  | .halt | .next _ => []
  | .jump f => [.edge .jump pc f.pc]
  | .branch taken fallthrough =>
    [.edge .branchFallthrough pc fallthrough.pc, .edge .branchTaken pc taken.pc]
  | .call body _ => [.edge .call pc body.pc]
  | .ret c => [.edge .ret pc c.resume]

/-- The opcode of an instruction that can be run at all. -/
def legal (i : Instr) : Except Violation Opcode :=
  match i.opcode? with
  | some op => if op.flow = .invalid then .error (.invalidInstruction i.pc i.byte) else .ok op
  | none => .error (.invalidInstruction i.pc i.byte)

/-- The instruction start that a relative instruction refers to. -/
def resolve (starts : Starts) (i : Instr) : Except Violation Nat :=
  match i.target? with
  | none => .error (.truncatedDisplacement i.pc)
  | some t => if starts.contains t then .ok t.toNat else .error (.invalidDestination i.pc t)

namespace Frame

/-- Where every check begins: no items, no calls. -/
def start : Frame := { pc := 0, height := 0, base := 0, depth := 0, call? := none }

/-- The subroutine that the frame runs in; none at top level. -/
def entry? (f : Frame) : Option Nat := f.call?.map Call.entry

/-- The height above the base after an opcode. The items consumed have to lie above the base, and
the whole stack has to stay within the limit. -/
def effect (limits : Limits) (f : Frame) (op : Opcode) : Except Violation Nat :=
  if f.height < op.inputs then .error (.stackUnderflow f.pc op.inputs f.height)
  else
    let height := f.height - op.inputs + op.outputs
    if f.base + height > limits.stack.toNat then
      .error (.stackOverflow f.pc (f.base + height) limits.stack.toNat)
    else .ok height

/-- Runs one instruction. -/
def advance (limits : Limits) (starts : Starts) (f : Frame) (i : Instr) :
    Except Violation Move := do
  let op ← legal i
  let height ← f.effect limits op
  match op.flow with
  | .next => return .next { f with pc := i.next, height }
  | .terminator | .invalid => return .halt
  | .jump =>
    let target ← resolve starts i
    return .jump { f with pc := target }
  | .jumpIf =>
    let target ← resolve starts i
    return .branch { f with pc := target, height } { f with pc := i.next, height }
  | .call =>
    let target ← resolve starts i
    if limits.calls.toNat ≤ f.depth then throw (.returnOverflow f.pc limits.calls.toNat)
    return .call
      { pc := target, height := 0, base := f.base + f.height, depth := f.depth + 1,
        call? := some { entry := target, resume := i.next } }
      { f with pc := i.next }
  | .ret =>
    match f.call? with
    | none => throw (.returnUnderflow f.pc)
    | some c => return .ret c

end Frame

end StackFlow.Check
