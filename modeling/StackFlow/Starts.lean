import StackFlow.IndexSet
import StackFlow.Instr

/-! # The linear sweep and the instruction starts -/

namespace StackFlow

/-- The instructions met from `pc` on, each where the one before it ends. -/
def sweepFrom (code : Code) (pc : Nat) : List Instr :=
  match _h : decode code pc with
  | none => []
  | some i => i :: sweepFrom code i.next
termination_by code.size - pc
decreasing_by
  have := lt_size_of_decode _h
  have := lt_next_of_decode _h
  omega

/-- The instructions of a code, in order. -/
def sweep (code : Code) : List Instr := sweepFrom code 0

/-- The offsets at which an instruction of the sweep starts. An offset inside an immediate is
none of them. -/
structure Starts where
  offsets : IndexSet
deriving DecidableEq, Repr

namespace Starts

/-- Adds the offsets that the sweep meets from `pc` on. -/
def mark (code : Code) (pc : Nat) (offsets : IndexSet) : IndexSet :=
  match _h : decode code pc with
  | none => offsets
  | some i => mark code i.next (offsets.insert pc)
termination_by code.size - pc
decreasing_by
  have := lt_size_of_decode _h
  have := lt_next_of_decode _h
  omega

def ofCode (code : Code) : Starts := ⟨mark code 0 (IndexSet.empty code.size)⟩

/-- Whether a target is an instruction start. Negative targets are not. -/
def contains (s : Starts) (target : Int) : Bool :=
  0 ≤ target && s.offsets.contains target.toNat

/-- The number of instruction starts. -/
def count (s : Starts) : Nat := s.offsets.count

/-- The length of the code. -/
def codeLength (s : Starts) : Nat := s.offsets.bound

/-- The instruction starts in ascending order. -/
def toList (s : Starts) : List Nat := s.offsets.toList

end Starts

end StackFlow
