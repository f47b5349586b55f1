import StackFlow.Instr

/-! # The machine that runs code

This is what a check speaks about. The machine knows no limits, and where a branch goes is left
open. It stands still past the end of the code, at a terminator, and at what it cannot run. -/

namespace StackFlow.Machine

/-- An outstanding call: the offset that it returns to, and the height that it returns to. -/
structure Outstanding where
  resume : Nat
  height : Nat
deriving DecidableEq, Repr

/-- An offset, the height of the data stack above the base of the current subroutine, and the
outstanding calls, the innermost one first. -/
structure Config where
  pc : Nat
  height : Nat
  calls : List Outstanding
deriving DecidableEq, Repr

/-- Where every run begins. -/
def Config.start : Config := { pc := 0, height := 0, calls := [] }

/-- At an offset of the code stands an instruction with a legal opcode. -/
structure Fetch (code : Code) (pc : Nat) (i : Instr) (op : Opcode) : Prop where
  decode : decode code pc = some i
  opcode : i.opcode? = some op

inductive Step (code : Code) : Config → Config → Prop where
  | next {pc h : Nat} {calls : List Outstanding} {i : Instr} {op : Opcode}
      (fetch : Fetch code pc i op) (flow : op.flow = .next) (items : op.inputs ≤ h) :
      Step code ⟨pc, h, calls⟩ ⟨i.next, h - op.inputs + op.outputs, calls⟩
  | jump {pc h t : Nat} {calls : List Outstanding} {i : Instr} {op : Opcode}
      (fetch : Fetch code pc i op) (flow : op.flow = .jump) (target : i.target? = some (t : Int)) :
      Step code ⟨pc, h, calls⟩ ⟨t, h, calls⟩
  | branchTaken {pc h t : Nat} {calls : List Outstanding} {i : Instr} {op : Opcode}
      (fetch : Fetch code pc i op) (flow : op.flow = .jumpIf) (items : op.inputs ≤ h)
      (target : i.target? = some (t : Int)) :
      Step code ⟨pc, h, calls⟩ ⟨t, h - op.inputs + op.outputs, calls⟩
  | branchFallthrough {pc h : Nat} {calls : List Outstanding} {i : Instr} {op : Opcode}
      (fetch : Fetch code pc i op) (flow : op.flow = .jumpIf) (items : op.inputs ≤ h) :
      Step code ⟨pc, h, calls⟩ ⟨i.next, h - op.inputs + op.outputs, calls⟩
  | call {pc h t : Nat} {calls : List Outstanding} {i : Instr} {op : Opcode}
      (fetch : Fetch code pc i op) (flow : op.flow = .call) (target : i.target? = some (t : Int)) :
      Step code ⟨pc, h, calls⟩ ⟨t, 0, ⟨i.next, h⟩ :: calls⟩
  | ret {pc h : Nat} {c : Outstanding} {calls : List Outstanding} {i : Instr} {op : Opcode}
      (fetch : Fetch code pc i op) (flow : op.flow = .ret) :
      Step code ⟨pc, h, c :: calls⟩ ⟨c.resume, c.height, calls⟩

/-- Some run goes from one configuration to another. -/
inductive Reaches (code : Code) : Config → Config → Prop where
  | refl (c : Config) : Reaches code c c
  | step {a b c : Config} (run : Reaches code a b) (last : Step code b c) : Reaches code a c

/-- Some run from the start comes to a configuration. -/
def Reachable (code : Code) (c : Config) : Prop := Reaches code .start c

theorem Reaches.trans {code : Code} {a b c : Config} (h : Reaches code a b)
    (h' : Reaches code b c) : Reaches code a c := by
  induction h' with
  | refl => exact h
  | step _ last ih => exact ih.step last

end StackFlow.Machine
