import StackFlow.Verified

/-! # Listings: code as text, one instruction to a line, with labels -/

namespace StackFlow

/-- Labelled offsets in ascending order, each numbered by its place. -/
structure Labels where
  offsets : List Nat
  numbers : Array (Option Nat)
deriving DecidableEq, Repr

namespace Labels

/-- Labels for the members of a set. -/
def ofSet (s : IndexSet) : Labels where
  offsets := s.toList
  numbers := s.toList.zipIdx.foldl (fun ns (pc, k) => ns.set! pc (some k))
    (Array.replicate s.bound none)

/-- The number of the label at an offset. -/
def number? (l : Labels) (pc : Nat) : Option Nat := l.numbers[pc]?.join

/-- How a target is written: by its label, or as it is. -/
def reference (l : Labels) (target : Int) : String :=
  match if target < 0 then none else l.number? target.toNat with
  | some k => "@L" ++ decimal k
  | none => "@" ++ signedDecimal target

end Labels

/-- An instruction as listed, with its height if one is known. -/
structure Entry where
  instr : Instr
  height? : Option Nat
deriving DecidableEq, Repr

namespace Entry

/-- What follows the mnemonic: the target of a displacement, or the immediate bytes that are
there. A displacement that is cut off is left out. -/
def operand (labels : Labels) (e : Entry) : String :=
  match e.instr.target? with
  | some target => " " ++ labels.reference target
  | none =>
    if e.instr.immediate.isEmpty || e.instr.isRelative then ""
    else " 0x" ++ hexBytes e.instr.immediate

/-- The line of an instruction. -/
def line (labels : Labels) (e : Entry) : String :=
  let offset := paddedDecimal 6 e.instr.pc ++ ": "
  match e.instr.opcode? with
  | none => offset ++ "0x" ++ hexByte e.instr.byte ++ " (unknown)"
  | some op =>
    offset ++ op.mnemonic ++ e.operand labels ++
      (if e.instr.isTruncated then " <truncated>" else "") ++
      (match e.height? with
        | some height => " ; h=" ++ decimal height
        | none => "")

end Entry

/-- Code to be listed, with the heights known of it. -/
structure Listing where
  code : Code
  starts : Starts
  heights : Heights
deriving DecidableEq, Repr

namespace Listing

/-- The listing of any code, without heights. -/
def ofCode (code : Code) : Listing where
  code := code
  starts := .ofCode code
  heights := .empty 0

def entries (l : Listing) : List Entry :=
  (sweep l.code).map fun i => { instr := i, height? := l.heights.at? i.pc }

/-- The instruction starts that some displacement refers to. -/
def targets (l : Listing) : IndexSet :=
  (sweep l.code).foldl
    (fun s i =>
      match i.target? with
      | some target => if l.starts.contains target then s.insert target.toNat else s
      | none => s)
    (.empty l.code.size)

def labels (l : Listing) : Labels := .ofSet l.targets

/-- The lines of an instruction, behind the one of its label if it has one. -/
def linesOf (labels : Labels) (e : Entry) : List String :=
  match labels.number? e.instr.pc with
  | some k => ["@L" ++ decimal k ++ ":", e.line labels]
  | none => [e.line labels]

def lines (l : Listing) : List String :=
  let labels := l.labels
  l.entries.flatMap (linesOf labels)

/-- The listing as text; every line ends in a line feed. -/
def text (l : Listing) : String := String.join (l.lines.map (· ++ "\n"))

end Listing

/-- The listing of verified code, with the heights shown. -/
def Verified.listing (v : Verified) : Listing where
  code := v.code
  starts := v.starts
  heights := v.heights

end StackFlow
