import StackFlow.Builder
import StackFlow.Packed.Frame
import StackFlow.Runs

/-!
# Builders in machine words

A builder as it is stored.  Its offsets and labels are words, where the greatest
word stands for whatever does not fit (`saturated`), so that a builder with as
many bytes no longer knows where it stands.  Its code is kept in runs, and is put
together only when it is finished.
-/

namespace StackFlow.Packed

/-- A number as a word, or the greatest word if it does not fit. -/
def saturated (n : Nat) : UInt32 := UInt32.ofNat (min n lastNumber)

theorem toNat_saturated {n : Nat} (h : n ≤ lastNumber) : (saturated n).toNat = n := by
  rw [saturated, Nat.min_eq_left h]
  exact UInt32.toNat_ofNat_of_lt' (Nat.lt_succ_of_le h)

/-- A displacement that is filled in at the end. -/
structure Fixup where
  base : UInt32
  label : UInt32
deriving DecidableEq, Repr

/-- The displacement that is filled in at these numbers. -/
def Fixup.unpack (f : Fixup) : StackFlow.Fixup where
  base := f.base.toNat
  label := ⟨f.label.toNat⟩

/-- Code being built. -/
structure Builder where
  /-- The code, its latest run first. -/
  runs : List Run := []
  /-- The number of bytes. -/
  size : Nat := 0
  labels : Array (Option UInt32) := #[]
  fixups : Array Fixup := #[]
  size_eq : size = sizeOfRuns runs.reverse := by rfl

namespace Builder

/-- A builder without code. -/
def empty : Builder := {}

/-- The code so far. -/
def code (b : Builder) : Code := codeOfRuns b.runs.reverse

theorem size_code (b : Builder) : b.code.size = b.size := by
  rw [code, size_codeOfRuns, b.size_eq]

/-- An instruction is read from the runs. -/
theorem decode_code (b : Builder) (pc : Nat) : decode b.code pc = decodeRuns b.runs.reverse pc :=
  (decodeRuns_eq _ pc).symm

/-- The builder on numbers that a builder stands for. -/
def unpack (b : Builder) : StackFlow.Builder where
  bytes := b.code
  labels := b.labels.map (Option.map UInt32.toNat)
  fixups := b.fixups.map Fixup.unpack

/-- The offset of the next instruction. -/
def pc (b : Builder) : UInt32 := saturated b.size

/-- As long as the offset is a word, it is where the builder stands. -/
theorem toNat_pc {b : Builder} (short : b.size ≤ lastNumber) : b.pc.toNat = b.unpack.pc := by
  rw [pc, toNat_saturated short, ← size_code]
  rfl

/-- Makes a label. -/
def label (b : Builder) : UInt32 × Builder :=
  (saturated b.labels.size, { b with labels := b.labels.push none })

/-- Places a label at the current offset. -/
def place (b : Builder) (l : UInt32) : Except UnknownLabel Builder :=
  if l.toNat < b.labels.size then .ok { b with labels := b.labels.set! l.toNat (some b.pc) }
  else .error {}

/-- Appends runs as they are. -/
def raw (b : Builder) (rs : List Run) : Builder :=
  { b with
    runs := rs.reverse ++ b.runs
    size := b.size + sizeOfRuns rs
    size_eq := by
      rw [b.size_eq, List.reverse_append, List.reverse_reverse, sizeOfRuns_append] }

/-- Appends bytes as they are. -/
def append (b : Builder) (bytes : List UInt8) : Builder := b.raw [{ bytes := bytes.toArray }]

/-- Appends what something appends to a builder without code. -/
def appended (b : Builder) (f : StackFlow.Builder → StackFlow.Builder) : Builder :=
  b.append (f {}).bytes.toList

/-- Appends an opcode, with zeros for its immediate. -/
def op (b : Builder) (o : Opcode) : Builder := b.appended (·.op o)

/-- Appends a push of bytes. -/
def push (b : Builder) (data : List UInt8) : Builder := b.appended (·.push data)

/-- Appends a push of a number in the fewest bytes. -/
def pushNumber (b : Builder) (n : Nat) : Builder := b.appended (·.pushNumber n)

/-- Appends a relative opcode with a displacement. -/
def relative (b : Builder) (o : Opcode) (displacement : Int) : Except NotRelative Builder :=
  (({} : StackFlow.Builder).relative o displacement).map fun r => b.append r.bytes.toList

/-- Appends a relative opcode with the displacement to a label. -/
def toLabel (b : Builder) (o : Opcode) (l : UInt32) : Builder :=
  { b.append [o.toByte, 0, 0] with fixups := b.fixups.push { base := b.pc, label := l } }

def jump (b : Builder) (l : UInt32) : Builder := b.toLabel .rjump l

def jumpIf (b : Builder) (l : UInt32) : Builder := b.toLabel .rjumpi l

def call (b : Builder) (l : UInt32) : Builder := b.toLabel .rjumpsub l

/-- The finished code, or the error of the first displacement that cannot be filled in. -/
def finish (b : Builder) : Except BuildError Code := b.unpack.finish

/-- The finished code, if it shows no violation. -/
def finishChecked (b : Builder) (limits : Limits) : Except BuildError Code :=
  b.unpack.finishChecked limits

/-! ## In words as on numbers -/

theorem code_append (b : Builder) (bytes : List UInt8) :
    (b.append bytes).code = b.code ++ bytes := by
  have last : codeOfRuns [{ bytes := bytes.toArray }] = bytes.toArray := by
    simp [codeOfRuns, Run.toList]
  have code : (b.append bytes).code = b.code ++ bytes.toArray := by
    rw [append, raw, code, List.reverse_append, List.reverse_reverse, codeOfRuns_append, last, code]
  rw [code]
  exact Array.toList_inj.mp (by rw [Array.toList_append, Array.toList_appendList])

theorem unpack_append (b : Builder) (bytes : List UInt8) :
    (b.append bytes).unpack = b.unpack.raw bytes := by
  rw [unpack, code_append]
  rfl

theorem unpack_appended (b : Builder) {f : StackFlow.Builder → StackFlow.Builder}
    (raw : ∃ bytes, ∀ b, f b = b.raw bytes) : (b.appended f).unpack = f b.unpack := by
  obtain ⟨bytes, raw⟩ := raw
  have own : (({} : StackFlow.Builder).raw bytes).bytes.toList = bytes := by
    simp [StackFlow.Builder.raw]
  rw [appended, unpack_append, raw, raw, own]

theorem exists_push_eq_raw (data : List UInt8) :
    ∃ bytes, ∀ b : StackFlow.Builder, b.push data = b.raw bytes := by
  let immediate := if data.isEmpty then [0] else data.drop (data.length - 32)
  cases opcode : Opcode.pushOfLength? immediate.length with
  | some o =>
    refine ⟨o.toByte :: immediate, fun b ↦ ?_⟩
    simp only [StackFlow.Builder.push, immediate, opcode]
  | none =>
    refine ⟨[], fun b ↦ ?_⟩
    simp only [StackFlow.Builder.push, StackFlow.Builder.raw, immediate, opcode,
      Array.appendList_nil]

theorem unpack_op (b : Builder) (o : Opcode) : (b.op o).unpack = b.unpack.op o :=
  b.unpack_appended ⟨_, fun _ ↦ rfl⟩

theorem unpack_push (b : Builder) (data : List UInt8) :
    (b.push data).unpack = b.unpack.push data :=
  b.unpack_appended (exists_push_eq_raw data)

theorem unpack_pushNumber (b : Builder) (n : Nat) :
    (b.pushNumber n).unpack = b.unpack.pushNumber n :=
  b.unpack_appended (exists_push_eq_raw _)

theorem unpack_relative (b : Builder) (o : Opcode) (d : Int) :
    (b.relative o d).map unpack = b.unpack.relative o d := by
  unfold relative StackFlow.Builder.relative
  split
  · exact congrArg Except.ok (unpack_append b _)
  · rfl

theorem unpack_label (b : Builder) :
    b.label.2.unpack = b.unpack.label.2 := by
  simp [label, unpack, StackFlow.Builder.label, code]

/-- A label is placed where the builder stands, as long as that is a word. -/
theorem unpack_place {b : Builder} (short : b.size ≤ lastNumber) (l : UInt32) :
    (b.place l).map unpack = b.unpack.place ⟨l.toNat⟩ := by
  have slots : b.unpack.labels.size = b.labels.size := Array.size_map
  unfold place StackFlow.Builder.place
  rw [slots]
  split
  · have set : (b.labels.set! l.toNat (some b.pc)).map (Option.map UInt32.toNat) =
        b.unpack.labels.set! l.toNat (some b.unpack.pc) := by
      rw [← toNat_pc short]
      simp [unpack]
    exact congrArg Except.ok (by rw [← set]; rfl)
  · rfl

/-- A displacement counts from where the builder stands, as long as that is a word. -/
theorem unpack_toLabel {b : Builder} (short : b.size ≤ lastNumber) (o : Opcode) (l : UInt32) :
    (b.toLabel o l).unpack = b.unpack.toLabel o ⟨l.toNat⟩ := by
  have bytes := code_append b [o.toByte, 0, 0]
  have fixups : (b.fixups.push { base := b.pc, label := l }).map Fixup.unpack =
      b.unpack.fixups.push { base := b.unpack.pc, label := ⟨l.toNat⟩ } := by
    rw [← toNat_pc short, Array.map_push]
    rfl
  unfold toLabel StackFlow.Builder.toLabel
  rw [← fixups]
  change StackFlow.Builder.mk (b.append [o.toByte, 0, 0]).code _ _ = _
  rw [bytes]
  rfl

end Builder

end StackFlow.Packed
