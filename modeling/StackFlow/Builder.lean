import StackFlow.Verified

/-! # Builders: code from instructions, with labels for what is not known yet -/

namespace StackFlow

/-- A place in the code of a builder, known by its number. -/
structure Label where
  number : Nat
deriving DecidableEq, Repr

/-- A displacement that is filled in at the end. -/
structure Fixup where
  /-- The offset of the opcode byte, from which the displacement counts. -/
  base : Nat
  label : Label
deriving DecidableEq, Repr

/-- A label that the builder does not have. -/
structure UnknownLabel where
deriving DecidableEq, Repr

def UnknownLabel.message (_ : UnknownLabel) : String := "label was referenced but never placed"

/-- An opcode without a displacement, where one with a displacement is asked for. -/
structure NotRelative where
  opcode : Opcode
deriving DecidableEq, Repr

def NotRelative.message (e : NotRelative) : String :=
  e.opcode.mnemonic ++ " is not a relative opcode"

/-- Why a builder does not give code. -/
inductive BuildError where
  /-- A label that is jumped to was never placed. -/
  | unresolvedLabel
  /-- A label is too far from a jump to it. -/
  | displacementOutOfRange (pc target : Nat)
  /-- The finished code shows a violation. -/
  | rejected (v : Violation)
deriving DecidableEq, Repr

namespace BuildError

def message : BuildError → String
  | unresolvedLabel => "unresolved label"
  | displacementOutOfRange pc target =>
    "pc=" ++ decimal pc ++ " displacement to " ++ decimal target ++ " does not fit in i16"
  | rejected v => "validation failed: " ++ v.message

/-- The violation behind the error. -/
def cause? : BuildError → Option Violation
  | rejected v => some v
  | _ => none

def ofUnknownLabel (_ : UnknownLabel) : BuildError := unresolvedLabel

end BuildError

/-- Code being built. Displacements to labels stand as zeros until it is finished. -/
structure Builder where
  bytes : Code := #[]
  /-- The offset at which each label was placed last. -/
  labels : Array (Option Nat) := #[]
  fixups : Array Fixup := #[]
deriving DecidableEq, Repr

namespace Builder

/-- The offset of the next instruction. -/
def pc (b : Builder) : Nat := b.bytes.size

/-- Makes a label. -/
def label (b : Builder) : Label × Builder :=
  (⟨b.labels.size⟩, { b with labels := b.labels.push none })

/-- Places a label at the current offset. -/
def place (b : Builder) (l : Label) : Except UnknownLabel Builder :=
  if l.number < b.labels.size then
    .ok { b with labels := b.labels.set! l.number (some b.pc) }
  else .error {}

/-- Appends bytes as they are. -/
def raw (b : Builder) (bytes : List UInt8) : Builder :=
  { b with bytes := b.bytes ++ bytes }

/-- Appends an opcode, with zeros for its immediate. -/
def op (b : Builder) (o : Opcode) : Builder :=
  b.raw (o.toByte :: List.replicate o.immediateLength 0)

/-- Appends a push of bytes: of a zero if there are none, of the last thirty-two if there are
more. -/
def push (b : Builder) (data : List UInt8) : Builder :=
  let data := if data.isEmpty then [0] else data.drop (data.length - 32)
  match Opcode.pushOfLength? data.length with
  | some o => b.raw (o.toByte :: data)
  | none => b

/-- Appends a push of a number in the fewest bytes. -/
def pushNumber (b : Builder) (n : Nat) : Builder := b.push ((digits 256 n).map UInt8.ofNat)

/-- Appends a relative opcode with a displacement. -/
def relative (b : Builder) (o : Opcode) (displacement : Int) : Except NotRelative Builder :=
  if o.isRelative then
    .ok (b.raw [o.toByte, Displacement.high displacement, Displacement.low displacement])
  else .error ⟨o⟩

/-- Appends a relative opcode with the displacement to a label. -/
def toLabel (b : Builder) (o : Opcode) (l : Label) : Builder :=
  { b with
    bytes := b.bytes ++ [o.toByte, 0, 0]
    fixups := b.fixups.push { base := b.pc, label := l } }

def jump (b : Builder) (l : Label) : Builder := b.toLabel .rjump l

def jumpIf (b : Builder) (l : Label) : Builder := b.toLabel .rjumpi l

def call (b : Builder) (l : Label) : Builder := b.toLabel .rjumpsub l

/-- The displacement that a fixup stands for. -/
def displacement (b : Builder) (f : Fixup) : Except BuildError Int :=
  match b.labels[f.label.number]?.join with
  | none => .error .unresolvedLabel
  | some target =>
    let d : Int := target - f.base
    if Displacement.Fits d then .ok d else .error (.displacementOutOfRange f.base target)

/-- Writes a displacement behind the opcode byte at `base`. -/
def patch (code : Code) (base : Nat) (d : Int) : Code :=
  (code.set! (base + 1) (Displacement.high d)).set! (base + 2) (Displacement.low d)

/-- The finished code, or the error of the first displacement that cannot be filled in. -/
def finish (b : Builder) : Except BuildError Code :=
  b.fixups.toList.foldlM (fun code f => return patch code f.base (← b.displacement f)) b.bytes

/-- The finished code, if it shows no violation. -/
def finishChecked (b : Builder) (limits : Limits) : Except BuildError Code := do
  let code ← b.finish
  match verify code limits with
  | .ok _ => return code
  | .error v => throw (.rejected v)

end Builder

end StackFlow
