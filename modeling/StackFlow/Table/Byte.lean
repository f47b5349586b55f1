import StackFlow.Json.Token
import StackFlow.Text.Blank

/-! # Bytes in a table, written in hexadecimal -/

namespace StackFlow.Table

/-- Why a numeral is no byte. -/
inductive ByteFault where
  /-- There are no characters. -/
  | empty
  /-- There is no digit where there should be one. -/
  | invalidDigit
  /-- The number is greater than a byte. -/
  | tooLarge
deriving DecidableEq, Repr

def ByteFault.message : ByteFault → String
  | empty => "cannot parse integer from empty string"
  | invalidDigit => "invalid digit found in string"
  | tooLarge => "number too large to fit in target type"

/-- Reads on from the number that the digits before stand for. The first digit at fault counts,
whether it is none or makes the number too large. -/
def readDigits (n : Nat) : List Char → Except ByteFault Nat
  | [] => .ok n
  | c :: cs =>
    match Json.Token.hexValue? c with
    | none => .error .invalidDigit
    | some d => if n * 16 + d < 256 then readDigits (n * 16 + d) cs else .error .tooLarge

/-- Reads digits, a plus sign in front of which does not matter. -/
def readNumeral : List Char → Except ByteFault Nat
  | [] => .error .empty
  | ['+'] => .error .invalidDigit
  | '+' :: cs => readDigits 0 cs
  | cs => readDigits 0 cs

/-- Leaves out the mark of a hexadecimal number. -/
def unmarked : List Char → List Char
  | '0' :: 'x' :: cs => cs
  | '0' :: 'X' :: cs => cs
  | cs => cs

/-- The byte that a text without blanks around it stands for. -/
def readByte (cs : List Char) : Except ByteFault UInt8 :=
  (readNumeral (unmarked cs)).map UInt8.ofNat

end StackFlow.Table
