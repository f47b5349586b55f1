import StackFlow.Displacement
import StackFlow.Opcode

/-! # Instructions: an opcode byte and the immediate bytes behind it -/

namespace StackFlow

abbrev Code := Array UInt8

/-- The number of immediate bytes that a byte declares. Illegal bytes stand alone. -/
def immediateWidth (b : UInt8) : Nat := (Opcode.ofByte? b).elim 0 Opcode.immediateLength

/-- An instruction as it stands at an offset of a code. `immediate` holds the bytes that are
there, fewer than declared where the code ends early. -/
structure Instr where
  pc : Nat
  byte : UInt8
  immediate : List UInt8
deriving DecidableEq, Repr

/-- The instruction at an offset. Any byte of the code can be read as one. -/
def decode (code : Code) (pc : Nat) : Option Instr :=
  code[pc]?.map fun b =>
    { pc, byte := b, immediate := (code.extract (pc + 1) (pc + 1 + immediateWidth b)).toList }

namespace Instr

/-- The opcode, if the byte is legal. -/
def opcode? (i : Instr) : Option Opcode := Opcode.ofByte? i.byte

/-- The declared number of immediate bytes. -/
def width (i : Instr) : Nat := immediateWidth i.byte

/-- The offset behind the declared immediate; past the end of the code if bytes are missing. It is
a number, whatever its size; a check that adds words has `checkedNext` for it. -/
def next (i : Instr) : Nat := i.pc + 1 + i.width

/-- Whether the code ends inside the immediate. -/
def isTruncated (i : Instr) : Bool := i.immediate.length < i.width

/-- Whether the opcode carries a displacement. -/
def isRelative (i : Instr) : Bool := i.opcode?.any Opcode.isRelative

/-- The displacement of a relative opcode, if both its bytes are there. -/
def displacement? (i : Instr) : Option Int :=
  match i.isRelative, i.immediate with
  | true, [hi, lo] => some (Displacement.ofBytes hi lo)
  | _, _ => none

/-- The offset that a relative opcode refers to, counted from its own. It need not lie inside
the code. -/
def target? (i : Instr) : Option Int := i.displacement?.map (i.pc + ·)

/-- The opcode byte and the immediate bytes that are there. -/
def bytes (i : Instr) : List UInt8 := i.byte :: i.immediate

end Instr

@[simp] theorem decode_eq_none_iff {code : Code} {pc : Nat} :
    decode code pc = none ↔ code.size ≤ pc := by
  simp [decode]

theorem pc_of_decode {code : Code} {pc : Nat} {i : Instr} (h : decode code pc = some i) :
    i.pc = pc := by
  obtain ⟨b, _, rfl⟩ := Option.map_eq_some_iff.mp h
  rfl

theorem byte_of_decode {code : Code} {pc : Nat} {i : Instr} (h : decode code pc = some i) :
    code[pc]? = some i.byte := by
  obtain ⟨b, hb, rfl⟩ := Option.map_eq_some_iff.mp h
  exact hb

theorem lt_size_of_decode {code : Code} {pc : Nat} {i : Instr} (h : decode code pc = some i) :
    pc < code.size := by
  apply Nat.lt_of_not_le
  rw [← decode_eq_none_iff, h]
  exact Option.some_ne_none i

theorem lt_next_of_decode {code : Code} {pc : Nat} {i : Instr} (h : decode code pc = some i) :
    pc < i.next := by
  have := pc_of_decode h
  unfold Instr.next
  omega

end StackFlow
