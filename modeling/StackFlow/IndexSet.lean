/-! # Sets of indices below a bound, sixty-four to a word -/

namespace StackFlow

/-- A set of indices below `bound`. Index `i` is bit `i % 64` of word `i / 64`. -/
structure IndexSet where
  bound : Nat
  words : Array UInt64
  size_words : words.size = (bound + 63) / 64
deriving DecidableEq, Repr

namespace IndexSet

/-- Bit `k` of a word. -/
def bit (w : UInt64) (k : Nat) : Bool := w.toNat.testBit k

/-- The set bits of a word in ascending order. -/
def bits (w : UInt64) : List Nat := (List.range 64).filter (bit w)

/-- Sets bit `k` of a word. -/
def setBit (k : Nat) (w : UInt64) : UInt64 := w ||| 1 <<< UInt64.ofNat k

/-- The set without members. -/
def empty (bound : Nat) : IndexSet where
  bound := bound
  words := Array.replicate ((bound + 63) / 64) 0
  size_words := Array.size_replicate

def contains (s : IndexSet) (i : Nat) : Bool :=
  i < s.bound && bit (s.words[i / 64]?.getD 0) (i % 64)

/-- Adds an index; one that is not below the bound is left out. -/
def insert (s : IndexSet) (i : Nat) : IndexSet :=
  if i < s.bound then
    { s with
      words := s.words.modify (i / 64) (setBit (i % 64))
      size_words := Array.size_modify.trans s.size_words }
  else s

/-- The number of members. -/
def count (s : IndexSet) : Nat := s.words.foldl (fun n w => n + (bits w).length) 0

/-- The members in ascending order. -/
def toList (s : IndexSet) : List Nat :=
  s.words.toList.zipIdx.flatMap fun (w, k) => (bits w).map (64 * k + ·)

@[simp] theorem bit_zero (k : Nat) : bit 0 k = false := by simp [bit]

theorem bit_setBit (w : UInt64) {j : Nat} (hj : j < 64) (k : Nat) :
    bit (setBit j w) k = (bit w k || decide (j = k)) := by
  have small : (UInt64.ofNat j).toNat = j :=
    UInt64.toNat_ofNat_of_lt (Nat.lt_of_lt_of_le hj (by decide))
  have shift : (1 <<< UInt64.ofNat j : UInt64).toNat = 2 ^ j := by
    rw [UInt64.toNat_shiftLeft, small, Nat.mod_eq_of_lt hj, UInt64.toNat_one, Nat.one_shiftLeft]
    exact Nat.mod_eq_of_lt (Nat.pow_lt_pow_right (Nat.lt_succ_self 1) hj)
  simp [bit, setBit, UInt64.toNat_or, shift, Nat.testBit_or, Nat.testBit_two_pow]

@[simp] theorem contains_empty (bound i : Nat) : (empty bound).contains i = false := by
  simp only [contains, empty, Array.getElem?_replicate]
  split <;> simp

@[simp] theorem bound_insert (s : IndexSet) (i : Nat) : (s.insert i).bound = s.bound := by
  unfold insert
  split <;> rfl

theorem contains_insert (s : IndexSet) (i j : Nat) :
    (s.insert i).contains j = (s.contains j || decide (j = i ∧ i < s.bound)) := by
  unfold insert
  split
  · next lt =>
    by_cases hj : j < s.bound
    · have word : j / 64 < s.words.size := by
        have := s.size_words
        omega
      by_cases same : i / 64 = j / 64
      · have mod : i % 64 = j % 64 ↔ j = i := by omega
        have hi : i % 64 < 64 := Nat.mod_lt _ (by decide)
        simp only [contains, same, word, Array.getElem?_eq_getElem, Array.size_modify,
          Array.getElem_modify, Option.getD_some, if_true, bit_setBit _ hi, mod, hj, lt,
          decide_true, Bool.true_and, and_true]
      · have ne : j ≠ i := fun h => same (by rw [h])
        simp [contains, Array.getElem?_modify, same, ne]
    · have ne : j ≠ i := fun h => hj (h ▸ lt)
      simp [contains, hj, ne]
  · next ge => simp [ge]

end IndexSet

end StackFlow
