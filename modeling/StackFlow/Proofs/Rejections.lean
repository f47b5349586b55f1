import StackFlow.Proofs.Labels
import StackFlow.Proofs.Views

/-!
# Every rejection is a true statement about the code

`Violation.Holds` says of each violation what the bytes of the code show at its
offset, and for paths that meet with different heights what the trace shows.
`Check.holds_of_stops` proves it of the violation at which a check stops.  That
the height before an overflow was within the limit is no matter of the failing
instruction, but an invariant of the whole check (`Check.Passes.room`).
-/

namespace StackFlow

variable {code : Code} {limits : Limits}

/-! ## Instructions by their bytes -/

section Bytes

variable {pc : Nat} {i : Instr} {op : Opcode}

theorem getElem?_of_decode (h : decode code pc = some i) {k : Nat} (hk : k < i.bytes.length) :
    code[pc + k]? = i.bytes[k]? := by
  rw [← Array.getElem?_toList, ← List.getElem?_drop, drop_of_decode h,
    List.getElem?_append_left hk]

theorem opcodeByte_of_decode (h : decode code pc = some i) (opcode : i.opcode? = some op) :
    code[pc]? = some op.toByte := by
  rw [byte_of_decode h, Opcode.toByte_of_ofByte? opcode]

/-- A target is as far from the instruction as the two bytes behind the opcode say. -/
theorem exists_displacement_of_decode (h : decode code pc = some i) {t : Int}
    (target : i.target? = some t) :
    ∃ hi lo, code[pc + 1]? = some hi ∧ code[pc + 2]? = some lo ∧
      t = pc + Displacement.ofBytes hi lo := by
  obtain ⟨_, d, -, -, rfl, fits, bytes⟩ := Instr.bytes_of_target? target
  refine ⟨Displacement.high d, Displacement.low d, ?_, ?_, ?_⟩
  · rw [getElem?_of_decode h (by simp [bytes]), bytes]
    rfl
  · rw [getElem?_of_decode h (by simp [bytes]), bytes]
    rfl
  · rw [pc_of_decode h, Displacement.ofBytes_high_low fits]

/-- A relative instruction without a target is cut off. -/
theorem size_lt_of_target?_eq_none (h : decode code pc = some i) (opcode : i.opcode? = some op)
    (relative : op.isRelative = true) (target : i.target? = none) : code.size < pc + 3 := by
  have width : i.width = 2 := by
    rw [Instr.width_of_opcode? opcode, Opcode.immediateLength_of_isRelative relative]
  have isRelative : i.isRelative = true := by rw [Instr.isRelative, opcode]; exact relative
  have behind : i.next = pc + 3 := by rw [Instr.next, width, pc_of_decode h]
  rw [← behind, ← isTruncated_iff h, Instr.isTruncated, decide_eq_true_eq, width]
  apply Nat.lt_of_le_of_ne (width ▸ length_immediate_le h)
  intro whole
  obtain ⟨hi, lo, immediate⟩ := List.length_eq_two.mp whole
  simp [Instr.target?, Instr.displacement?, isRelative, immediate] at target

end Bytes

/-! ## What a violation says -/

/-- What a violation says of a code holds: the bytes at its offset bear it out, and where two paths
meet, one has been there and the other comes there. -/
inductive Violation.Holds (code : Code) (limits : Limits) : Violation → Prop where
  | codeTooLong (long : limits.maxCodeLength < code.size) :
      Holds code limits (.codeTooLong code.size limits.maxCodeLength)
  /-- The byte is no opcode, or that of an invalid instruction. -/
  | invalidInstruction {pc : Nat} {byte : UInt8} (here : code[pc]? = some byte)
      (illegal : ∀ op, Opcode.ofByte? byte = some op → op.flow = .invalid) :
      Holds code limits (.invalidInstruction pc byte)
  | truncatedDisplacement {pc : Nat} {op : Opcode} (here : code[pc]? = some op.toByte)
      (relative : op.isRelative = true) (short : code.size < pc + 3) :
      Holds code limits (.truncatedDisplacement pc)
  /-- The displacement is complete, but leads to no instruction start. -/
  | invalidDestination {pc : Nat} {op : Opcode} {hi lo : UInt8} {target : Int}
      (here : code[pc]? = some op.toByte) (relative : op.isRelative = true)
      (high : code[pc + 1]? = some hi) (low : code[pc + 2]? = some lo)
      (displaced : target = pc + Displacement.ofBytes hi lo)
      (wild : ∀ t : Nat, target = t → ¬ IsStart code t) :
      Holds code limits (.invalidDestination pc target)
  | stackUnderflow {pc available : Nat} {op : Opcode} (here : code[pc]? = some op.toByte)
      (few : available < op.inputs) : Holds code limits (.stackUnderflow pc op.inputs available)
  /-- The height before the instruction was within the limit. -/
  | stackOverflow {pc height : Nat} {op : Opcode} (here : code[pc]? = some op.toByte)
      (exceeds : limits.stack.toNat < height) (grown : op.outputs ≤ height)
      (room : height - op.outputs + op.inputs ≤ limits.stack.toNat) :
      Holds code limits (.stackOverflow pc height limits.stack.toNat)
  | returnUnderflow {pc : Nat} (here : code[pc]? = some Opcode.returnsub.toByte) :
      Holds code limits (.returnUnderflow pc)
  /-- The call itself is in order. -/
  | returnOverflow {pc t : Nat} {hi lo : UInt8} (here : code[pc]? = some Opcode.rjumpsub.toByte)
      (high : code[pc + 1]? = some hi) (low : code[pc + 2]? = some lo)
      (displaced : (t : Int) = pc + Displacement.ofBytes hi lo) (start : IsStart code t) :
      Holds code limits (.returnOverflow pc limits.calls.toNat)
  /-- The expected height is that of an earlier visit, and the actual one that of a path which the
  check comes to afterwards. -/
  | heightMismatch {pc expected depth : Nat} {byte : UInt8} {events : List Event}
      {s : Check.State} {f : Check.Frame} (here : code[pc]? = some byte)
      (before : Check.Traced code limits s events) (path : s.path? = some f)
      (visited : .visit pc byte expected depth ∈ events)
      (reported : events ⊆ trace code limits) (meets : f.pc = pc) (other : expected ≠ f.height) :
      Holds code limits (.heightMismatch pc expected f.height)

namespace Check

variable {s : State} {f : Frame} {w : Violation}

/-- The whole stack of a frame is within the limit. -/
theorem Passes.room (h : Passes code limits s) (holds : s.Holds f) :
    f.base + f.height ≤ limits.stack.toNat := by
  refine h.holds_induct (Q := fun f ↦ f.base + f.height ≤ limits.stack.toNat) (Nat.zero_le _)
    (fun {f i op m} _ _ room takes before g hg ↦ ?_) f holds
  cases takes with
  | halt | ret => cases hg
  | next =>
    cases List.mem_singleton.mp hg
    exact room
  | jump =>
    cases List.mem_singleton.mp hg
    exact before
  | branch =>
    rcases List.mem_cons.mp hg with rfl | hg
    · exact room
    · cases List.mem_singleton.mp hg
      exact room
  | call =>
    rcases List.mem_cons.mp hg with rfl | hg
    · exact before
    · cases List.mem_singleton.mp hg
      exact before

theorem Frame.Fails.holds {i : Instr} (room : f.base + f.height ≤ limits.stack.toNat)
    (fetch : decode code f.pc = some i) (h : f.Fails limits (.ofCode code) i w) :
    w.Holds code limits := by
  have here := pc_of_decode fetch
  cases h with
  | illegal illegal =>
    rw [here]
    exact .invalidInstruction (byte_of_decode fetch) illegal
  | @underflow op opcode items => exact .stackUnderflow (opcodeByte_of_decode fetch opcode) items
  | @overflow op opcode items exceeds =>
    have after : f.after op = f.height - op.inputs + op.outputs := rfl
    exact .stackOverflow (opcodeByte_of_decode fetch opcode) exceeds (by omega) (by omega)
  | truncated opcode relative target =>
    rw [here]
    exact .truncatedDisplacement (opcodeByte_of_decode fetch opcode) relative
      (size_lt_of_target?_eq_none fetch opcode relative target)
  | @destination op t opcode relative target start =>
    obtain ⟨hi, lo, high, low, displaced⟩ := exists_displacement_of_decode fetch target
    rw [here]
    refine .invalidDestination (opcodeByte_of_decode fetch opcode) relative high low displaced ?_
    intro pc ht isStart
    rw [Starts.contains_ofCode.mpr ⟨pc, ht, isStart⟩] at start
    cases start
  | @returnOverflow op t opcode flow target start =>
    obtain ⟨hi, lo, high, low, displaced⟩ := exists_displacement_of_decode fetch target
    obtain rfl : op = .rjumpsub := EdgeKind.call.eq_opcode_iff.mpr flow
    exact .returnOverflow (opcodeByte_of_decode fetch opcode) high low displaced
      (Starts.contains_natCast.mp start)
  | @returnUnderflow op opcode flow =>
    obtain rfl : op = .returnsub := EdgeKind.ret.eq_opcode_iff.mpr flow
    exact .returnUnderflow (opcodeByte_of_decode fetch opcode)

/-- The violation at which a check stops holds, and it shows at an instruction start. -/
theorem Traced.holds_of_stops {events : List Event} (traced : Traced code limits s events)
    (reported : events ⊆ trace code limits) (path : s.path? = some f)
    (stops : s.Stops code (.ofCode code) limits f w) :
    w.Holds code limits ∧ IsStart code w.pc := by
  have inv := traced.passes.inv
  have sound := inv.sound f (.inl (.inl path))
  rw [stops.pc_eq]
  cases stops with
  | conflict known other =>
    obtain ⟨byte, depth, here, visited⟩ := traced.exists_visit known
    refine ⟨.heightMismatch here traced path visited reported rfl other, sound.start ?_⟩
    exact (Array.getElem?_eq_some_iff.mp here).1
  | fails fetch _ fails =>
    exact ⟨fails.holds (traced.passes.room (.inl (.inl path))) fetch,
      sound.start (lt_size_of_decode fetch)⟩

end Check

open Check

/-- Code is refused as too long just if it is, and whatever else a check refuses it for holds and
shows at an instruction start. -/
theorem holds_of_verify (code : Code) (limits : Limits) :
    (∀ length max, verify code limits = .error (.codeTooLong length max) ↔
      min limits.codeLength 4294967295 < code.size ∧ length = code.size ∧
        max = min limits.codeLength 4294967295) ∧
    ∀ w, verify code limits = .error w →
      w.Holds code limits ∧ (w.kind ≠ .codeTooLong → IsStart code w.pc) := by
  rcases Nat.lt_or_ge limits.maxCodeLength code.size with long | short
  · rw [verify_of_lt long]
    refine ⟨fun length max ↦ ?_, fun w h ↦ ?_⟩
    · constructor
      · intro h
        cases h
        exact ⟨long, rfl, rfl⟩
      · rintro ⟨-, rfl, rfl⟩
        rfl
    · cases h
      exact ⟨.codeTooLong long, fun h ↦ absurd rfl h⟩
  · have holds (w : Violation) (h : verify code limits = .error w) :
        w.kind ≠ .codeTooLong ∧ w.Holds code limits ∧ IsStart code w.pc := by
      obtain ⟨s, events, new, traced, step, report⟩ := exists_traced_of_error short h
      obtain ⟨f, path, stops⟩ := State.stops_of_step step
      have reported : events ⊆ trace code limits := by
        intro e he
        rw [report]
        simp [he]
      refine ⟨?_, traced.holds_of_stops reported path stops⟩
      cases stops with
      | conflict => nofun
      | fails _ _ fails => cases fails <;> nofun
    refine ⟨fun length max ↦ ⟨fun h ↦ absurd rfl (holds _ h).1, ?_⟩, fun w h ↦ ?_⟩
    · rintro ⟨long, -, -⟩
      exact absurd long (Nat.not_lt_of_le short)
    · exact ⟨(holds w h).2.1, fun _ ↦ (holds w h).2.2⟩

/-- A branch over a push. -/
def branchOverPush : Code := #[0x60, 0x01, 0x5F, 0x00, 0x05, 0x60, 0x01, 0x00]

/-- Both ways lead to the stop behind the push, over the push with one item more. -/
theorem holds_of_verify_branchOverPush :
    (Violation.heightMismatch 7 0 1).Holds branchOverPush {} ∧ IsStart branchOverPush 7 := by
  have h : verify branchOverPush {} = .error (.heightMismatch 7 0 1) := by decide +kernel
  obtain ⟨holds, start⟩ := (holds_of_verify branchOverPush {}).2 _ h
  exact ⟨holds, start nofun⟩

end StackFlow
