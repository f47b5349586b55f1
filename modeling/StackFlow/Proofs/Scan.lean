import Mathlib.Data.Finset.Card
import StackFlow.IndexSet.Scan
import StackFlow.Proofs.Members

/-!
# Words of a set are read bit by bit

The arithmetic on words that a set is read with gives its members: a shift and a
mask is a look at one bit (`readBit_eq`), taking the lowest bit as long as there
is one goes through the set bits in ascending order (`drain_eq`), and the
population count is the number of them (`popCount_eq`).  So a set that indices
have been put into is, whatever they are and in whatever order they come, the
set of those below the bound (`scan_foldl_insert`).
-/

namespace StackFlow.IndexSet

/-! ## Single bits -/

theorem readBit_eq (w : UInt64) {k : Nat} (hk : k < 64) : readBit w k = bit w k := by
  have small : (UInt64.ofNat k).toNat = k :=
    UInt64.toNat_ofNat_of_lt (Nat.lt_of_lt_of_le hk (by decide))
  have value : ((w >>> UInt64.ofNat k) &&& 1).toNat = w.toNat >>> k % 2 := by
    rw [UInt64.toNat_and, UInt64.toNat_shiftRight, small, Nat.mod_eq_of_lt hk, UInt64.toNat_one,
      Nat.and_one_is_mod]
  rw [readBit, bit, Bool.eq_iff_iff, beq_iff_eq, ← UInt64.toNat_inj, value, UInt64.toNat_one,
    Nat.testBit_eq_decide_div_mod_eq, decide_eq_true_eq, Nat.shiftRight_eq_div_pow]

theorem get_eq_contains (s : IndexSet) (i : Nat) : s.get i = s.contains i := by
  unfold get contains
  split
  · next lt =>
    have word : i / 64 < s.words.size := by
      have := s.size_words
      omega
    rw [readBit_eq _ (Nat.mod_lt _ (by decide)), Array.getElem?_eq_getElem word]
    simp [lt]
  · next ge => simp [ge]

/-! ## The lowest bit -/

/-- Subtracting one turns the lowest set bit off and those below it on, so that none of them is
left in both numbers. -/
theorem testBit_and_pred {n c : Nat} (set : n.testBit c = true)
    (low : ∀ j < c, n.testBit j = false) (j : Nat) :
    (n &&& (n - 1)).testBit j = (n.testBit j && decide (j ≠ c)) := by
  have pos : 0 < 2 ^ c := Nat.two_pow_pos c
  have wider : 2 ^ c < 2 ^ (c + 1) := Nat.pow_lt_pow_right (by decide) (Nat.lt_succ_self c)
  have mod : n % 2 ^ (c + 1) = 2 ^ c := by
    refine Nat.eq_of_testBit_eq fun i ↦ ?_
    rw [Nat.testBit_mod_two_pow, Nat.testBit_two_pow]
    rcases Nat.lt_trichotomy i c with lt | rfl | gt
    · rw [low i lt, Bool.and_false, eq_comm, decide_eq_false_iff_not]
      exact Nat.ne_of_gt lt
    · simp [set]
    · rw [decide_eq_false (by omega), decide_eq_false (Nat.ne_of_lt gt), Bool.false_and]
  have pred : n - 1 = 2 ^ (c + 1) * (n / 2 ^ (c + 1)) + (2 ^ c - 1) := by
    have := Nat.div_add_mod n (2 ^ (c + 1))
    omega
  rw [Nat.testBit_and, pred, Nat.testBit_two_pow_mul_add _ (by omega), Nat.testBit_two_pow_sub_one,
    Nat.testBit_div_two_pow]
  rcases Nat.lt_trichotomy j c with lt | rfl | gt
  · rw [low j lt, Bool.false_and, Bool.false_and]
  · simp
  · have above : ¬ j < c + 1 := by omega
    rw [if_neg above, Nat.sub_add_cancel (by omega), Bool.and_self,
      decide_eq_true (Nat.ne_of_gt gt), Bool.and_true]

/-- What is taken from a word is its lowest set bit, and the rest is left. -/
theorem bit_of_takeLowest {w rest : UInt64} {k : Nat} (h : takeLowest w = some (k, rest)) :
    bit w k = true ∧ (∀ j < k, bit w j = false) ∧
      ∀ j, bit rest j = (bit w j && decide (j ≠ k)) := by
  unfold takeLowest at h
  split at h
  · cases h
  · next ne =>
    cases h
    have nonzero : w.toBitVec ≠ 0#64 := fun zero ↦ ne (UInt64.toBitVec_inj.mp zero)
    have pos : 1 ≤ w.toNat := Nat.pos_of_ne_zero fun zero ↦ ne (UInt64.toNat_inj.mp zero)
    have pred : (w - 1).toNat = w.toNat - 1 :=
      UInt64.toNat_sub_of_le w 1 (UInt64.le_iff_toNat_le.mpr pos)
    have set : bit w (trailingZeros w) = true := BitVec.getLsbD_true_ctz_of_ne_zero nonzero
    have low (j : Nat) (hj : j < trailingZeros w) : bit w j = false :=
      BitVec.getLsbD_false_of_lt_ctz hj
    refine ⟨set, low, fun j ↦ ?_⟩
    rw [bit, UInt64.toNat_and, pred]
    exact testBit_and_pred set low j

theorem eq_zero_of_takeLowest {w : UInt64} (h : takeLowest w = none) : w = 0 := by
  unfold takeLowest at h
  split at h
  · next zero => exact zero
  · cases h

/-! ## All bits of a word -/

theorem lt_of_bit {w : UInt64} {k : Nat} (h : bit w k = true) : k < 64 := by
  by_contra ge
  have small : w.toNat < 2 ^ k :=
    Nat.lt_of_lt_of_le w.toNat_lt (Nat.pow_le_pow_right (by decide) (Nat.le_of_not_lt ge))
  rw [bit, Nat.testBit_lt_two_pow small] at h
  cases h

theorem mem_drain {w : UInt64} {k : Nat} : k ∈ drain w ↔ bit w k = true := by
  fun_induction drain w with
  | case1 w h => simp [eq_zero_of_takeLowest h]
  | case2 w j rest h ih =>
    obtain ⟨set, -, other⟩ := bit_of_takeLowest h
    rw [List.mem_cons, ih, other, Bool.and_eq_true, decide_eq_true_eq]
    constructor
    · rintro (rfl | ⟨old, -⟩)
      · exact set
      · exact old
    · intro old
      exact (eq_or_ne k j).imp_right fun ne ↦ ⟨old, ne⟩

theorem pairwise_drain (w : UInt64) : (drain w).Pairwise (· < ·) := by
  fun_induction drain w with
  | case1 => exact .nil
  | case2 w j rest h ih =>
    obtain ⟨-, low, other⟩ := bit_of_takeLowest h
    refine List.pairwise_cons.mpr ⟨fun k hk ↦ ?_, ih⟩
    rw [mem_drain, other, Bool.and_eq_true, decide_eq_true_eq] at hk
    refine Nat.lt_of_le_of_ne (Nat.le_of_not_lt fun lt ↦ ?_) hk.2.symm
    rw [low k lt] at hk
    exact absurd hk.1 (by decide)

/-- Taking the lowest bit again and again goes through the set bits in ascending order. -/
theorem drain_eq (w : UInt64) : drain w = bits w := by
  refine List.Pairwise.eq_of_mem_iff (pairwise_drain w) (pairwise_bits w) fun k ↦ ?_
  rw [mem_drain, mem_bits]
  exact ⟨fun set ↦ ⟨lt_of_bit set, set⟩, And.right⟩

theorem popCount_eq (w : UInt64) : popCount w = (bits w).length := by
  have upTo (n : Nat) :
      w.toBitVec.cpopNatRec n 0 = ((List.range n).filter (bit w)).length := by
    induction n with
    | zero => rfl
    | succ n ih =>
      rw [BitVec.cpopNatRec_succ, BitVec.cpopNatRec_eq, ih, List.range_succ, List.filter_append,
        List.length_append, Nat.zero_add, List.filter_singleton]
      have same : w.toBitVec.getLsbD n = bit w n := rfl
      cases set : bit w n with
      | true => rw [same, set]; rfl
      | false => rw [same, set]; rfl
  rw [popCount, BitVec.toNat_cpop, upTo, bits]

/-! ## All words -/

theorem ones_eq_toList (s : IndexSet) : s.ones = s.toList := by
  simp only [ones, toList, drain_eq]

theorem countOnes_eq_count (s : IndexSet) : s.countOnes = s.count := by
  simp only [countOnes, count, popCount_eq]

/-- The set that any indices have been put into, in any order, is that of those below the bound:
so it reads, bit by bit, so many bits are set, they are listed in ascending order, and none is set
at or past the bound. -/
theorem scan_foldl_insert (bound : Nat) (indices : List Nat) :
    let s : IndexSet := indices.foldl insert (empty bound)
    (∀ i, s.get i = true ↔ i < bound ∧ i ∈ indices) ∧
    s.countOnes = (indices.toFinset.filter (· < bound)).card ∧
    s.ones.Pairwise (· < ·) ∧ (∀ i, i ∈ s.ones ↔ i < bound ∧ i ∈ indices) ∧
    s.words.size = (bound + 63) / 64 ∧
    ∀ k w, s.words[k]? = some w → ∀ b, bit w b = true → 64 * k + b < bound := by
  intro s
  have tight : s.Tight := (tight_empty bound).foldl_insert indices
  have bound_eq : s.bound = bound := bound_foldl_insert indices (empty bound)
  have contains (i : Nat) : s.contains i = true ↔ i < bound ∧ i ∈ indices := by
    rw [contains_foldl_insert, contains_empty]
    simp [empty, and_comm]
  have mem (i : Nat) : i ∈ s.ones ↔ i < bound ∧ i ∈ indices := by
    rw [ones_eq_toList, mem_toList tight, contains]
  have ascending : s.ones.Pairwise (· < ·) := ones_eq_toList s ▸ s.pairwise_toList
  refine ⟨fun i ↦ ?_, ?_, ascending, mem, ?_, fun k w hw b set ↦ ?_⟩
  · rw [get_eq_contains, contains]
  · have members : s.ones.toFinset = indices.toFinset.filter (· < bound) := by
      ext i
      rw [List.mem_toFinset, mem, Finset.mem_filter, List.mem_toFinset, and_comm]
    rw [countOnes_eq_count, count_eq_length, ← ones_eq_toList, ← members,
      List.toFinset_card_of_nodup (ascending.imp Nat.ne_of_lt)]
  · rw [s.size_words, bound_eq]
  · have lt := lt_of_bit set
    have word : (64 * k + b) / 64 = k := by omega
    have place : (64 * k + b) % 64 = b := by omega
    rw [← bound_eq]
    apply tight
    rw [word, place, hw, Option.getD_some, set]

example : ([199, 3, 128, 64, 65, 200].foldl insert (empty 200)).ones = [3, 64, 65, 128, 199] := by
  cbv

end StackFlow.IndexSet
