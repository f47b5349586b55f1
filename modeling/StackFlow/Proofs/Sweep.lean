import StackFlow.Starts

/-!
# The instruction starts are the offsets of the sweep

The sweep lists the instructions of a code in order, and the set of starts is
what a jump is checked against.  `Starts.contains_ofCode` says that the two
agree, and `IsStart.next` that an instruction start is followed by another one
or by the end of the code.
-/

namespace StackFlow

variable {code code' : Code}

theorem exists_decode {pc : Nat} (h : pc < code.size) : ∃ i, decode code pc = some i :=
  Option.ne_none_iff_exists'.mp fun none ↦ Nat.not_le_of_lt h (decode_eq_none_iff.mp none)

/-- An instruction of the sweep starts at the offset. -/
def IsStart (code : Code) (pc : Nat) : Prop := ∃ i ∈ sweep code, i.pc = pc

theorem sweepFrom_of_none {pc : Nat} (h : decode code pc = none) : sweepFrom code pc = [] := by
  rw [sweepFrom]
  split
  · rfl
  · next h' => rw [h] at h'; cases h'

theorem sweepFrom_of_some {pc : Nat} {i : Instr} (h : decode code pc = some i) :
    sweepFrom code pc = i :: sweepFrom code i.next := by
  rw [sweepFrom]
  split
  · next h' => rw [h] at h'; cases h'
  · next h' => rw [h] at h'; cases h'; rfl

/-- An instruction of the sweep is the one that stands at its offset. -/
theorem decode_of_mem_sweepFrom {pc : Nat} {i : Instr} (h : i ∈ sweepFrom code pc) :
    decode code i.pc = some i := by
  fun_induction sweepFrom code pc with
  | case1 => cases h
  | case2 pc j hj ih =>
    rcases List.mem_cons.mp h with rfl | h
    · rw [pc_of_decode hj, hj]
    · exact ih h

/-- The sweep goes on behind each of its instructions. -/
theorem next_mem_sweepFrom {pc : Nat} {i j : Instr} (h : i ∈ sweepFrom code pc)
    (hj : decode code i.next = some j) : j ∈ sweepFrom code pc := by
  fun_induction sweepFrom code pc with
  | case1 => cases h
  | case2 pc k hk ih =>
    rcases List.mem_cons.mp h with rfl | h
    · rw [sweepFrom_of_some hj]
      exact List.mem_cons_of_mem _ List.mem_cons_self
    · exact List.mem_cons_of_mem _ (ih h)

theorem isStart_zero (h : 0 < code.size) : IsStart code 0 := by
  obtain ⟨i, hi⟩ := exists_decode h
  refine ⟨i, ?_, pc_of_decode hi⟩
  rw [sweep, sweepFrom_of_some hi]
  exact List.mem_cons_self

/-- Behind an instruction start comes another one, or the end of the code. -/
theorem IsStart.next {pc : Nat} {i : Instr} (h : IsStart code pc) (hi : decode code pc = some i)
    (hn : i.next < code.size) : IsStart code i.next := by
  obtain ⟨i', hm, rfl⟩ := h
  obtain rfl : i' = i := Option.some.inj ((decode_of_mem_sweepFrom hm).symm.trans hi)
  obtain ⟨j, hj⟩ := exists_decode hn
  exact ⟨j, next_mem_sweepFrom hm hj, pc_of_decode hj⟩

theorem IsStart.lt_size {pc : Nat} (h : IsStart code pc) : pc < code.size := by
  obtain ⟨i, hm, rfl⟩ := h
  exact lt_size_of_decode (decode_of_mem_sweepFrom hm)

namespace Starts

@[simp] theorem bound_mark (pc : Nat) (s : IndexSet) : (mark code pc s).bound = s.bound := by
  fun_induction mark code pc s with
  | case1 => rfl
  | case2 _ _ _ _ ih => rw [ih, IndexSet.bound_insert]

/-- Marking adds the offsets of the sweep, and nothing else. -/
theorem contains_mark {pc : Nat} {s : IndexSet} (hs : s.bound = code.size) (k : Nat) :
    (mark code pc s).contains k = true ↔
      s.contains k = true ∨ ∃ i ∈ sweepFrom code pc, i.pc = k := by
  fun_induction mark code pc s with
  | case1 pc s h =>
    rw [sweepFrom_of_none h]
    simp
  | case2 pc s i h ih =>
    rw [ih (by rw [IndexSet.bound_insert, hs]), sweepFrom_of_some h, IndexSet.contains_insert]
    have hlt := lt_size_of_decode h
    have hpc := pc_of_decode h
    simp only [hs, hlt, and_true, Bool.or_eq_true, decide_eq_true_eq, List.mem_cons,
      exists_eq_or_imp, hpc, or_assoc, eq_comm (a := k)]

/-- A target is among the starts of a code if it is the offset of an instruction of the sweep. -/
theorem contains_ofCode {t : Int} :
    (ofCode code).contains t = true ↔ ∃ pc : Nat, t = pc ∧ IsStart code pc := by
  rw [contains, ofCode, Bool.and_eq_true, decide_eq_true_eq, contains_mark rfl]
  simp only [IndexSet.contains_empty, Bool.false_eq_true, false_or]
  constructor
  · rintro ⟨h0, h⟩
    exact ⟨t.toNat, (Int.toNat_of_nonneg h0).symm, h⟩
  · rintro ⟨pc, rfl, h⟩
    exact ⟨Int.natCast_nonneg pc, h⟩

/-- An instruction start is all that a target of a jump can be. -/
theorem contains_natCast {pc : Nat} :
    (ofCode code).contains pc = true ↔ IsStart code pc := by
  rw [contains_ofCode]
  constructor
  · rintro ⟨pc', hpc, h⟩
    exact Int.ofNat.inj hpc ▸ h
  · exact fun h ↦ ⟨pc, rfl, h⟩

/-- Two codes agree on a target if they agree on the offset that it is. -/
theorem contains_congr {t : Int} (h : ∀ pc : Nat, t = pc → (IsStart code pc ↔ IsStart code' pc)) :
    (ofCode code).contains t = (ofCode code').contains t := by
  rw [Bool.eq_iff_iff, contains_ofCode, contains_ofCode]
  exact exists_congr fun pc ↦ and_congr_right (h pc)

end Starts

end StackFlow
