import StackFlow.IndexSet

/-! # Reading a set of indices by arithmetic on its words -/

namespace StackFlow.IndexSet

/-- Reads a bit by shifting it to the lowest place. -/
def readBit (w : UInt64) (k : Nat) : Bool := (w >>> UInt64.ofNat k) &&& 1 == 1

/-- The number of zeros below the lowest set bit of a word; all sixty-four if none is set. -/
def trailingZeros (w : UInt64) : Nat := w.toBitVec.ctz.toNat

/-- The number of set bits of a word. -/
def popCount (w : UInt64) : Nat := w.toBitVec.cpop.toNat

/-- The place of the lowest set bit, and the word without that bit; none if no bit is set. -/
def takeLowest (w : UInt64) : Option (Nat × UInt64) :=
  if w = 0 then none else some (trailingZeros w, w &&& (w - 1))

theorem toNat_lt_of_takeLowest {w rest : UInt64} {k : Nat} (h : takeLowest w = some (k, rest)) :
    rest.toNat < w.toNat := by
  unfold takeLowest at h
  split at h
  · cases h
  · next ne =>
    cases h
    have pos : 1 ≤ w.toNat := Nat.pos_of_ne_zero fun zero ↦ ne (UInt64.toNat_inj.mp zero)
    have pred : (w - 1).toNat = w.toNat - 1 :=
      UInt64.toNat_sub_of_le w 1 (UInt64.le_iff_toNat_le.mpr pos)
    have le : w.toNat &&& (w.toNat - 1) ≤ w.toNat - 1 := Nat.and_le_right
    rw [UInt64.toNat_and, pred]
    omega

/-- Takes the lowest set bit from a word until none is left. -/
def drain (w : UInt64) : List Nat :=
  match _h : takeLowest w with
  | none => []
  | some (k, rest) => k :: drain rest
termination_by w.toNat
decreasing_by exact toNat_lt_of_takeLowest _h

/-- Reads the bit of an index; none is set at or past the bound. -/
def get (s : IndexSet) (i : Nat) : Bool :=
  if h : i < s.bound then
    have word : i / 64 < s.words.size := by
      have := s.size_words
      omega
    readBit s.words[i / 64] (i % 64)
  else false

/-- The number of set bits. -/
def countOnes (s : IndexSet) : Nat := s.words.foldl (fun n w => n + popCount w) 0

/-- The indices of the set bits, word by word. -/
def ones (s : IndexSet) : List Nat :=
  s.words.toList.zipIdx.flatMap fun (w, k) => (drain w).map (64 * k + ·)

end StackFlow.IndexSet
