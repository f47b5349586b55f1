import StackFlow.Instr
import StackFlow.Result

/-! # Offsets of thirty-two bits, and sums of them that do not fit -/

namespace StackFlow

/-- A sum of offsets that does not fit in thirty-two bits. -/
structure OffsetOverflow where
deriving DecidableEq, Repr

def OffsetOverflow.message (_ : OffsetOverflow) : String := "attempt to add with overflow"

/-- The sum of two offsets, if it fits. -/
def addOffsets (a b : UInt32) : Except OffsetOverflow UInt32 :=
  if a.toNat + b.toNat < UInt32.size then .ok (a + b) else .error {}

theorem addOffsets_eq_ok_iff {a b c : UInt32} :
    addOffsets a b = .ok c ↔ c.toNat = a.toNat + b.toNat := by
  unfold addOffsets
  split
  · next fits =>
    have sum : (a + b).toNat = a.toNat + b.toNat := by
      rw [UInt32.toNat_add, Nat.mod_eq_of_lt fits]
    rw [Except.ok.injEq, ← sum, UInt32.toNat_inj, eq_comm]
  · next wide =>
    have lt := c.toNat_lt_size
    constructor
    · intro h
      cases h
    · omega

theorem Opcode.immediateLength_le (o : Opcode) : o.immediateLength ≤ 32 := by
  cases o with
  | push k =>
    change k.val + 1 ≤ 32
    omega
  | rjump | rjumpi | rjumpsub =>
    change 2 ≤ 32
    decide
  | _ => exact Nat.zero_le 32

namespace Instr

theorem width_le (i : Instr) : i.width ≤ 32 := by
  unfold width immediateWidth
  cases Opcode.ofByte? i.byte with
  | none => exact Nat.zero_le 32
  | some o => exact o.immediateLength_le

theorem next_le (i : Instr) : i.next ≤ i.pc + 33 := by
  have := i.width_le
  unfold next
  omega

/-- The offset behind the declared immediate where a sum that does not fit stops the program. -/
def checkedNext (i : Instr) : Except OffsetOverflow UInt32 := do
  let behind ← addOffsets (UInt32.ofNat i.pc) 1
  addOffsets behind (UInt32.ofNat i.width)

/-- The checked sum is the offset, if there is one. -/
theorem checkedNext_eq_ok_iff {i : Instr} (inside : i.pc < UInt32.size) {next : UInt32} :
    i.checkedNext = .ok next ↔ next.toNat = i.next := by
  have start : (UInt32.ofNat i.pc).toNat = i.pc := UInt32.toNat_ofNat_of_lt' inside
  have width : (UInt32.ofNat i.width).toNat = i.width :=
    UInt32.toNat_ofNat_of_lt' (Nat.lt_of_le_of_lt i.width_le (by decide))
  rw [checkedNext, bind_eq_ok]
  simp only [addOffsets_eq_ok_iff, start, width]
  constructor
  · rintro ⟨behind, one, sum⟩
    rw [sum, one]
    rfl
  · intro sum
    have lt := next.toNat_lt_size
    have le : i.pc + 1 ≤ i.next := Nat.le_add_right _ _
    have one : (UInt32.ofNat (i.pc + 1)).toNat = i.pc + 1 :=
      UInt32.toNat_ofNat_of_lt' (by omega)
    exact ⟨_, one, by rw [one, sum]; rfl⟩

/-- The offset behind the declared immediate where a sum that does not fit wraps. -/
def wrappedNext (i : Instr) : UInt32 := UInt32.ofNat i.pc + 1 + UInt32.ofNat i.width

end Instr

end StackFlow
