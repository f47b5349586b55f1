import Mathlib.Data.List.Chain
import StackFlow.Proofs.Members
import StackFlow.Proofs.Sweep

/-!
# The sweep tiles the code

The instructions of the sweep stand one behind the other and leave nothing out:
their bytes give the code back (`flatMap_bytes_sweep`).  In the other direction
a code is read as the instructions that it was put together from, as long as
all of them are complete (`Tiles.sweepFrom`).  The set of starts, bits in words,
holds the offsets of these instructions and nothing between them
(`sweep_tiles_code`).
-/

namespace StackFlow

variable {code : Code} {pc pc' : Nat} {i : Instr} {is : List Instr} {rest : List UInt8}

theorem immediate_of_decode (h : decode code pc = some i) :
    i.immediate = (code.toList.drop (pc + 1)).take i.width := by
  obtain ⟨b, _, rfl⟩ := Option.map_eq_some_iff.mp h
  simp [Instr.width, List.extract_eq_take_drop]

/-- An instruction is followed by the bytes behind it. -/
theorem drop_of_decode (h : decode code pc = some i) :
    code.toList.drop pc = i.bytes ++ code.toList.drop i.next := by
  have lt : pc < code.toList.length := lt_size_of_decode h
  have byte : code.toList[pc] = i.byte := by
    have := byte_of_decode h
    rw [← Array.getElem?_toList, List.getElem?_eq_getElem lt] at this
    exact Option.some.inj this
  have behind : code.toList.drop i.next = (code.toList.drop (pc + 1)).drop i.width := by
    rw [List.drop_drop, Instr.next, pc_of_decode h]
  rw [List.drop_eq_getElem_cons lt, byte, Instr.bytes, List.cons_append, immediate_of_decode h,
    behind, List.take_append_drop]

/-- Bytes are read as the instruction that they belong to, if no byte of its immediate is left
out. -/
theorem decode_of_drop (h : code.toList.drop i.pc = i.bytes ++ rest)
    (whole : (i.immediate ++ rest).take i.width = i.immediate) : decode code i.pc = some i := by
  have lt : i.pc < code.size := by
    apply Nat.lt_of_not_le
    intro past
    rw [List.drop_eq_nil_of_le past] at h
    cases h
  obtain ⟨j, hj⟩ := exists_decode lt
  have bytes := (drop_of_decode hj).symm.trans h
  rw [Instr.bytes, Instr.bytes, List.cons_append, List.cons_append, List.cons.injEq] at bytes
  have width : j.width = i.width := by rw [Instr.width, bytes.1, Instr.width]
  have immediate : j.immediate = i.immediate := by
    rw [immediate_of_decode hj, width, ← List.drop_drop, h, Instr.bytes, List.cons_append,
      List.drop_one, List.tail_cons, whole]
  have pc : j.pc = i.pc := pc_of_decode hj
  rw [hj, Option.some.injEq]
  cases i
  cases j
  simp_all

theorem length_immediate_le (h : decode code pc = some i) : i.immediate.length ≤ i.width := by
  rw [immediate_of_decode h]
  exact List.length_take_le _ _

/-- An instruction is cut off if and only if the code ends before the next one would start. -/
theorem isTruncated_iff (h : decode code pc = some i) :
    i.isTruncated = true ↔ code.size < i.next := by
  have lt := lt_size_of_decode h
  have := pc_of_decode h
  simp only [Instr.isTruncated, decide_eq_true_eq, immediate_of_decode h, List.length_take,
    List.length_drop, Array.length_toList, Instr.next]
  omega

/-! ## Instructions by their opcode -/

/-- The relative opcodes are the three that are built with a label. -/
theorem Opcode.eq_of_isRelative {op : Opcode} (h : op.isRelative = true) :
    op = .rjump ∨ op = .rjumpi ∨ op = .rjumpsub := by
  cases op <;> first | exact .inl rfl | exact .inr (.inl rfl) | exact .inr (.inr rfl) | cases h

namespace Instr

variable {o : Opcode} {immediate : List UInt8}

/-- The instruction of an opcode. -/
def make (pc : Nat) (o : Opcode) (immediate : List UInt8) : Instr := ⟨pc, o.toByte, immediate⟩

theorem width_of_opcode? (h : i.opcode? = some o) : i.width = o.immediateLength := by
  rw [width, immediateWidth, show Opcode.ofByte? i.byte = some o from h, Option.elim_some]

@[simp] theorem opcode?_make : (make pc o immediate).opcode? = some o := Opcode.ofByte?_toByte o

@[simp] theorem width_make : (make pc o immediate).width = o.immediateLength :=
  width_of_opcode? opcode?_make

@[simp] theorem isRelative_make : (make pc o immediate).isRelative = o.isRelative := by
  rw [isRelative, opcode?_make, Option.any_some]

theorem displacement?_make {hi lo : UInt8} (h : o.isRelative = true) :
    (make pc o [hi, lo]).displacement? = some (Displacement.ofBytes hi lo) := by
  rw [displacement?, isRelative_make, h]
  rfl

end Instr

/-! ## From the code to its instructions -/

theorem flatMap_bytes_sweepFrom (code : Code) (pc : Nat) :
    (sweepFrom code pc).flatMap Instr.bytes = code.toList.drop pc := by
  fun_induction sweepFrom code pc with
  | case1 pc h =>
    rw [decode_eq_none_iff] at h
    exact (List.drop_eq_nil_of_le h).symm
  | case2 pc i h ih => rw [List.flatMap_cons, ih, drop_of_decode h]

/-- The bytes of the instructions are the code. -/
theorem flatMap_bytes_sweep (code : Code) : (sweep code).flatMap Instr.bytes = code.toList :=
  flatMap_bytes_sweepFrom code 0

theorem le_pc_of_mem_sweepFrom (h : i ∈ sweepFrom code pc) : pc ≤ i.pc := by
  fun_induction sweepFrom code pc with
  | case1 => cases h
  | case2 pc j hj ih =>
    rcases List.mem_cons.mp h with rfl | h
    · exact (pc_of_decode hj).ge
    · exact Nat.le_trans (Nat.le_of_lt (lt_next_of_decode hj)) (ih h)

/-- The instructions stand in the order of their offsets. -/
theorem pairwise_sweepFrom (code : Code) (pc : Nat) :
    (sweepFrom code pc).Pairwise (·.pc < ·.pc) := by
  fun_induction sweepFrom code pc with
  | case1 => exact .nil
  | case2 pc i h ih =>
    refine ih.cons fun j hj ↦ ?_
    rw [pc_of_decode h]
    exact Nat.lt_of_lt_of_le (lt_next_of_decode h) (le_pc_of_mem_sweepFrom hj)

namespace Starts

theorem tight_mark {s : IndexSet} (h : s.Tight) (pc : Nat) : (mark code pc s).Tight := by
  fun_induction mark code pc s with
  | case1 => exact h
  | case2 pc s _ _ ih => exact ih (h.insert pc)

/-- The starts are listed as the offsets of the sweep. -/
theorem toList_ofCode (code : Code) : (ofCode code).toList = (sweep code).map Instr.pc := by
  have ascending : ((sweep code).map Instr.pc).Pairwise (· < ·) :=
    List.pairwise_map.mpr (pairwise_sweepFrom code 0)
  refine (IndexSet.pairwise_toList _).eq_of_mem_iff ascending fun k ↦ ?_
  rw [ofCode, IndexSet.mem_toList (tight_mark (IndexSet.tight_empty _) 0), contains_mark rfl,
    List.mem_map]
  simp [sweep]

/-- There are as many starts as instructions in the sweep. -/
theorem count_ofCode (code : Code) : (ofCode code).count = (sweep code).length := by
  have := congrArg List.length (toList_ofCode code)
  rw [List.length_map] at this
  rw [count, IndexSet.count_eq_length]
  exact this

end Starts

/-! ## From instructions to the code -/

/-- Complete instructions stand one behind the other, from one offset to another. -/
inductive Tiles : Nat → List Instr → Nat → Prop where
  | nil (pc : Nat) : Tiles pc [] pc
  | cons {i : Instr} {is : List Instr} {pc : Nat} (complete : i.immediate.length = i.width)
      (rest : Tiles i.next is pc) : Tiles i.pc (i :: is) pc

theorem Tiles.length_bytes (h : Tiles pc is pc') :
    pc + (is.flatMap Instr.bytes).length = pc' := by
  induction h with
  | nil => rfl
  | @cons i is pc complete _ ih =>
    simp only [Instr.next, List.flatMap_cons, List.length_append, Instr.bytes,
      List.length_cons] at ih ⊢
    omega

/-- Where complete instructions have been put together, the sweep meets just them. -/
theorem Tiles.sweepFrom (h : Tiles pc is pc')
    (bytes : code.toList.drop pc = is.flatMap Instr.bytes ++ rest) :
    sweepFrom code pc = is ++ sweepFrom code pc' := by
  induction h with
  | nil => rfl
  | @cons i is pc' complete _ ih =>
    rw [List.flatMap_cons, List.append_assoc] at bytes
    have fetch : decode code i.pc = some i :=
      decode_of_drop bytes (complete ▸ List.take_left)
    have behind : code.toList.drop i.next = is.flatMap Instr.bytes ++ rest :=
      List.append_cancel_left ((drop_of_decode fetch).symm.trans bytes)
    rw [sweepFrom_of_some fetch, ih behind, List.cons_append]

/-- Behind complete instructions another one starts, unless the code ends there. -/
theorem Tiles.isStart_iff (h : Tiles 0 is pc)
    (bytes : code.toList = is.flatMap Instr.bytes ++ rest) : IsStart code pc ↔ pc ≠ code.size := by
  have length : pc + rest.length = code.size := by
    rw [← h.length_bytes, Nat.zero_add, ← List.length_append, ← bytes, Array.length_toList]
  constructor
  · intro start
    exact Nat.ne_of_lt start.lt_size
  · intro ne
    have lt : pc < code.size := by omega
    obtain ⟨i, fetch⟩ := exists_decode lt
    refine ⟨i, ?_, pc_of_decode fetch⟩
    rw [sweep, h.sweepFrom bytes, sweepFrom_of_some fetch]
    exact List.mem_append_right _ List.mem_cons_self

theorem complete_of_decode (h : decode code pc = some i) (le : i.next ≤ code.size) :
    i.immediate.length = i.width := by
  apply Nat.le_antisymm (length_immediate_le h)
  apply Nat.le_of_not_lt
  intro short
  have cut : code.size < i.next := (isTruncated_iff h).mp (decide_eq_true short)
  omega

/-- Up to each of its instructions a sweep is made of complete ones. -/
theorem tiles_of_sweepFrom_eq {is' : List Instr} (h : sweepFrom code pc = is ++ i :: is') :
    Tiles pc is i.pc ∧ sweepFrom code i.pc = i :: is' := by
  induction is generalizing pc with
  | nil =>
    have here : i.pc = pc := by
      cases fetch : decode code pc with
      | none =>
        rw [sweepFrom_of_none fetch] at h
        cases h
      | some j =>
        rw [sweepFrom_of_some fetch] at h
        cases h
        exact pc_of_decode fetch
    rw [here]
    exact ⟨.nil pc, h⟩
  | cons j is ih =>
    cases fetch : decode code pc with
    | none =>
      rw [sweepFrom_of_none fetch] at h
      cases h
    | some k =>
      rw [sweepFrom_of_some fetch, List.cons_append] at h
      obtain ⟨rfl, rest⟩ := List.cons.inj h
      obtain ⟨tiles, sweep⟩ := ih rest
      have mem : i ∈ sweepFrom code k.next := by
        rw [rest]
        exact List.mem_append_right _ List.mem_cons_self
      have behind := le_pc_of_mem_sweepFrom mem
      have lt := lt_size_of_decode (decode_of_mem_sweepFrom mem)
      rw [← pc_of_decode fetch]
      exact ⟨.cons (complete_of_decode fetch (by omega)) tiles, sweep⟩

/-- Up to an instruction start the code is tiled by complete instructions. -/
theorem IsStart.exists_tiles (h : IsStart code pc) :
    ∃ is, Tiles 0 is pc ∧ sweep code = is ++ sweepFrom code pc := by
  obtain ⟨i, mem, rfl⟩ := h
  obtain ⟨is, is', eq⟩ := List.append_of_mem mem
  obtain ⟨tiles, behind⟩ := tiles_of_sweepFrom_eq eq
  exact ⟨is, tiles, eq.trans (congrArg (is ++ ·) behind.symm)⟩

/-! ## The sweep and the starts together -/

theorem pc_of_mem_head?_sweepFrom (h : i ∈ (sweepFrom code pc).head?) : i.pc = pc := by
  cases fetch : decode code pc with
  | none =>
    rw [sweepFrom_of_none fetch] at h
    cases h
  | some j =>
    rw [sweepFrom_of_some fetch] at h
    cases h
    exact pc_of_decode fetch

/-- Each instruction of a sweep stands where the one before it ends. -/
theorem isChain_sweepFrom (code : Code) (pc : Nat) :
    (sweepFrom code pc).IsChain (·.next = ·.pc) := by
  fun_induction sweepFrom code pc with
  | case1 => exact .nil
  | case2 pc i _ ih => exact ih.cons fun j hj ↦ (pc_of_mem_head?_sweepFrom hj).symm

/-- Behind an instruction that is cut off the sweep ends. -/
theorem eq_nil_of_cut {is' : List Instr} (h : sweepFrom code pc = is ++ i :: is')
    (cut : i.isTruncated = true) : is' = [] := by
  obtain ⟨-, behind⟩ := tiles_of_sweepFrom_eq h
  have mem : i ∈ sweepFrom code i.pc := by
    rw [behind]
    exact List.mem_cons_self
  have fetch := decode_of_mem_sweepFrom mem
  have past : decode code i.next = none :=
    decode_eq_none_iff.mpr (Nat.le_of_lt ((isTruncated_iff fetch).mp cut))
  rw [sweepFrom_of_some fetch, sweepFrom_of_none past] at behind
  exact (List.cons.inj behind).2.symm

/-- No instruction starts inside another one. -/
theorem IsStart.not_inside (h : IsStart code pc) (hi : i ∈ sweep code) (lt : i.pc < pc) :
    i.next ≤ pc := by
  obtain ⟨j, hj, rfl⟩ := h
  obtain ⟨is, is', eq⟩ := List.append_of_mem hi
  obtain ⟨-, behind⟩ := tiles_of_sweepFrom_eq eq
  have fetch := decode_of_mem_sweepFrom hi
  rw [sweepFrom_of_some fetch] at behind
  have rest := (List.cons.inj behind).2
  have ascending : (sweep code).Pairwise (·.pc < ·.pc) := pairwise_sweepFrom code 0
  rw [eq] at ascending hj
  have before := (List.pairwise_append.mp ascending).2.2
  rcases List.mem_append.mp hj with hj | hj
  · exact absurd lt (Nat.lt_asymm (before j hj i List.mem_cons_self))
  · rcases List.mem_cons.mp hj with rfl | hj
    · exact absurd lt (Nat.lt_irrefl _)
    · exact le_pc_of_mem_sweepFrom (rest ▸ hj)

/-- The sweep tiles the code, where only the last instruction can be cut off, and the set of
starts is that of its offsets: whatever lies elsewhere cannot be jumped to. -/
theorem sweep_tiles_code (code : Code) :
    (sweep code).flatMap Instr.bytes = code.toList ∧
    (∀ i ∈ (sweep code).head?, i.pc = 0) ∧
    (sweep code).IsChain (·.next = ·.pc) ∧
    (sweep code).Pairwise (·.pc < ·.pc) ∧
    (∀ is i is', sweep code = is ++ i :: is' →
      (i.isTruncated = true ↔ code.size < i.next) ∧ (i.isTruncated = true → is' = [])) ∧
    (∀ t : Int, (Starts.ofCode code).contains t = true ↔ ∃ i ∈ sweep code, t = i.pc) ∧
    (∀ t : Int, (Starts.ofCode code).contains t = true → 0 ≤ t ∧ t < code.size) ∧
    (∀ i ∈ sweep code, ∀ t : Int, i.pc < t → t < i.next →
      (Starts.ofCode code).contains t = false) ∧
    (Starts.ofCode code).toList = (sweep code).map Instr.pc ∧
    (Starts.ofCode code).count = (sweep code).length ∧
    (Starts.ofCode code).codeLength = code.size := by
  refine ⟨flatMap_bytes_sweep code, fun i ↦ pc_of_mem_head?_sweepFrom, isChain_sweepFrom code 0,
    pairwise_sweepFrom code 0, fun is i is' eq ↦ ⟨?_, eq_nil_of_cut eq⟩, fun t ↦ ?_, fun t h ↦ ?_,
    fun i hi t above below ↦ ?_, Starts.toList_ofCode code, Starts.count_ofCode code,
    Starts.bound_mark 0 _⟩
  · have mem : i ∈ sweep code := by
      rw [eq]
      exact List.mem_append_right _ List.mem_cons_self
    exact isTruncated_iff (decode_of_mem_sweepFrom mem)
  · rw [Starts.contains_ofCode]
    constructor
    · rintro ⟨_, rfl, i, mem, rfl⟩
      exact ⟨i, mem, rfl⟩
    · rintro ⟨i, mem, rfl⟩
      exact ⟨i.pc, rfl, i, mem, rfl⟩
  · obtain ⟨pc, rfl, start⟩ := Starts.contains_ofCode.mp h
    exact ⟨Int.natCast_nonneg pc, Int.ofNat_lt.mpr start.lt_size⟩
  · rw [← Bool.not_eq_true, Starts.contains_ofCode]
    rintro ⟨pc, rfl, start⟩
    have := start.not_inside hi (Int.ofNat_lt.mp above)
    exact absurd (Int.ofNat_lt.mp below) (Nat.not_lt.mpr this)

end StackFlow
