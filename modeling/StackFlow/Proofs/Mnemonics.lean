import Mathlib.Data.List.Nodup
import StackFlow.Opcode
import StackFlow.Proofs.Numerals

/-! # Mnemonics can be told apart -/

namespace StackFlow.Opcode

/-- The opcodes in the order of their bytes. -/
def all : List Opcode := (List.range 256).filterMap fun n ↦ ofByte? (UInt8.ofNat n)

theorem mem_all (op : Opcode) : op ∈ all := by
  refine List.mem_filterMap.mpr ⟨op.toByte.toNat, List.mem_range.mpr op.toByte.toNat_lt, ?_⟩
  rw [UInt8.ofNat_toNat, ofByte?_toByte]

theorem nodup_mnemonics : (all.map mnemonic).Nodup := by decide +kernel

theorem mnemonic_inj {op op' : Opcode} (h : op.mnemonic = op'.mnemonic) : op = op' :=
  List.inj_on_of_nodup_map nodup_mnemonics (mem_all op) (mem_all op') h

theorem all_isUpper_or_isDigit_append {name : String} {n : Nat}
    (upper : name.toList.all Char.isUpper = true) :
    ((name ++ decimal n).toList.all fun c ↦ c.isUpper || c.isDigit) = true := by
  rw [List.all_eq_true] at upper ⊢
  intro c hc
  rw [String.toList_append, List.mem_append] at hc
  rw [Bool.or_eq_true]
  exact hc.imp (upper c) isDigit_of_mem_decimal

theorem all_isUpper_or_isDigit (op : Opcode) :
    (op.mnemonic.toList.all fun c ↦ c.isUpper || c.isDigit) = true := by
  cases op with
  | push k | dup k | swap k | log k => exact all_isUpper_or_isDigit_append (by decide +kernel)
  | _ => decide +kernel

/-- A mnemonic consists of capital letters and digits. -/
theorem isUpper_or_isDigit_of_mem_mnemonic {op : Opcode} {c : Char}
    (h : c ∈ op.mnemonic.toList) : c.isUpper = true ∨ c.isDigit = true := by
  rw [← Bool.or_eq_true]
  exact List.all_eq_true.mp op.all_isUpper_or_isDigit c h

end StackFlow.Opcode
