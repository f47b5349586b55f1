import StackFlow.Limits
import StackFlow.Text.Numeral

/-! # Violations: why code is refused -/

namespace StackFlow

/-- What is wrong with a code, at the offset `pc` where it shows first. -/
inductive Violation where
  /-- The code is longer than admitted. -/
  | codeTooLong (length max : Nat)
  /-- The byte is illegal or marks an instruction that is never valid. -/
  | invalidInstruction (pc : Nat) (byte : UInt8)
  /-- The code ends inside a displacement. -/
  | truncatedDisplacement (pc : Nat)
  /-- The target is no instruction start. -/
  | invalidDestination (pc : Nat) (target : Int)
  /-- The subroutine has fewer items on the stack than the instruction consumes. -/
  | stackUnderflow (pc required available : Nat)
  /-- The stack, callers included, would grow past the limit. -/
  | stackOverflow (pc height limit : Nat)
  /-- A return where no call is outstanding. -/
  | returnUnderflow (pc : Nat)
  /-- A call where the limit of outstanding calls is reached. -/
  | returnOverflow (pc limit : Nat)
  /-- Two paths meet with different heights. -/
  | heightMismatch (pc expected actual : Nat)
deriving DecidableEq, Repr

/-- The rule that a violation breaks. -/
inductive Violation.Kind where
  | invalidInstruction
  | invalidDestination
  | stackUnderflow
  | stackOverflow
  | returnUnderflow
  | returnOverflow
  | heightMismatch
  | codeTooLong
deriving DecidableEq, Repr

def Violation.Kind.message : Violation.Kind → String
  | .invalidInstruction => "invalid instruction"
  | .invalidDestination => "invalid jump destination"
  | .stackUnderflow => "stack underflow"
  | .stackOverflow => "stack overflow"
  | .returnUnderflow => "invalid retsub"
  | .returnOverflow => "return stack overflow"
  | .heightMismatch => "stack height mismatch"
  | .codeTooLong => "code too large"

namespace Violation

def kind : Violation → Kind
  | codeTooLong .. => .codeTooLong
  | invalidInstruction .. | truncatedDisplacement .. => .invalidInstruction
  | invalidDestination .. => .invalidDestination
  | stackUnderflow .. => .stackUnderflow
  | stackOverflow .. => .stackOverflow
  | returnUnderflow .. => .returnUnderflow
  | returnOverflow .. => .returnOverflow
  | heightMismatch .. => .heightMismatch

/-- The offset at fault. For code that is too long it is the first offset past the limit, or the
last offset there is. -/
def pc : Violation → Nat
  | codeTooLong _ max => min max longestCode
  | invalidInstruction pc _ | truncatedDisplacement pc | invalidDestination pc _
  | stackUnderflow pc _ _ | stackOverflow pc _ _ | returnUnderflow pc | returnOverflow pc _
  | heightMismatch pc _ _ => pc

def message : Violation → String
  | codeTooLong length max =>
    "code length " ++ decimal length ++ " exceeds the maximum of " ++ decimal max ++ " bytes"
  | invalidInstruction pc byte =>
    "pc=" ++ decimal pc ++ " invalid instruction 0x" ++ hexByte byte
  | truncatedDisplacement pc =>
    "pc=" ++ decimal pc ++ " invalid instruction: truncated jump displacement"
  | invalidDestination pc target =>
    "pc=" ++ decimal pc ++ " invalid jump destination " ++ signedDecimal target
  | stackUnderflow pc required available =>
    "pc=" ++ decimal pc ++ " stack underflow (requires " ++ decimal required ++ ", available " ++
      decimal available ++ ")"
  | stackOverflow pc height limit =>
    "pc=" ++ decimal pc ++ " stack overflow (height " ++ decimal height ++ ", limit " ++
      decimal limit ++ ")"
  | returnUnderflow pc => "pc=" ++ decimal pc ++ " invalid retsub"
  | returnOverflow pc limit =>
    "pc=" ++ decimal pc ++ " return stack overflow (limit " ++ decimal limit ++ ")"
  | heightMismatch pc expected actual =>
    "pc=" ++ decimal pc ++ " stack height mismatch (expected " ++ decimal expected ++ ", got " ++
      decimal actual ++ ")"

end Violation

/-- The verdict on a code. -/
inductive Verdict where
  | accepted
  | rejected (pc : Nat) (kind : Violation.Kind)
deriving DecidableEq, Repr

/-- The verdict that a check's result amounts to. -/
def Verdict.ofResult {α : Type} : Except Violation α → Verdict
  | .ok _ => .accepted
  | .error v => .rejected v.pc v.kind

end StackFlow
