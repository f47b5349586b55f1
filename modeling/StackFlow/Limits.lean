/-! # Limits of a check -/

namespace StackFlow

/-- What a check admits. Stack heights and call depths fit in sixteen bits. -/
structure Limits where
  /-- The longest code that is looked at. -/
  codeLength : Nat := 24576
  /-- The greatest height of the data stack. -/
  stack : UInt16 := 1024
  /-- The greatest number of outstanding calls. -/
  calls : UInt16 := 1024
deriving DecidableEq, Repr

/-- The code lengths whose offsets fit in thirty-two bits end here. -/
def longestCode : Nat := 4294967295

/-- The code length admitted, however generous the limits. -/
def Limits.maxCodeLength (l : Limits) : Nat := min l.codeLength longestCode

end StackFlow
