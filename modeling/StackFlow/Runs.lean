import StackFlow.Instr

/-!
# Runs: long codes as repeated pieces

A code of some gigabytes can be written down as a few pieces, each repeated.
An instruction is read from the pieces without putting them together
(`decodeRuns`), just as it would be read from the code (`decodeRuns_eq`).
-/

namespace StackFlow

/-- A piece of code, repeated. -/
structure Run where
  bytes : Array UInt8
  copies : Nat := 1
deriving DecidableEq, Repr

namespace Run

/-- The number of bytes of all copies together. -/
def size (r : Run) : Nat := r.copies * r.bytes.size

/-- The copies one behind the other. -/
def toList (r : Run) : List UInt8 := (List.replicate r.copies r.bytes.toList).flatten

theorem getElem?_flatten_replicate {α : Type} (n : Nat) (l : List α) (k : Nat) :
    (List.replicate n l).flatten[k]? = if k < n * l.length then l[k % l.length]? else none := by
  induction n generalizing k with
  | zero => simp
  | succ n ih =>
    rw [List.replicate_succ, List.flatten_cons, List.getElem?_append, ih, Nat.succ_mul]
    split
    · next first => rw [Nat.mod_eq_of_lt first, if_pos (by omega)]
    · next later =>
      have same : (k - l.length) % l.length = k % l.length :=
        (Nat.mod_eq_sub_mod (Nat.le_of_not_lt later)).symm
      rw [same]
      congr 1
      exact propext (by omega)

theorem length_toList (r : Run) : r.toList.length = r.size := by
  simp [toList, size]

theorem getElem?_toList (r : Run) (k : Nat) :
    r.toList[k]? = if k < r.size then r.bytes[k % r.bytes.size]? else none := by
  rw [toList, getElem?_flatten_replicate, Array.getElem?_toList, Array.length_toList, size]

end Run

/-- The code that runs stand for. -/
def codeOfRuns (rs : List Run) : Code := (rs.flatMap Run.toList).toArray

/-- The number of bytes of all runs. -/
def sizeOfRuns : List Run → Nat
  | [] => 0
  | r :: rs => r.size + sizeOfRuns rs

theorem sizeOfRuns_append (rs rs' : List Run) :
    sizeOfRuns (rs ++ rs') = sizeOfRuns rs + sizeOfRuns rs' := by
  induction rs with
  | nil => exact (Nat.zero_add _).symm
  | cons r rs ih => rw [List.cons_append, sizeOfRuns, sizeOfRuns, ih, Nat.add_assoc]

theorem size_codeOfRuns (rs : List Run) : (codeOfRuns rs).size = sizeOfRuns rs := by
  rw [codeOfRuns, List.size_toArray]
  induction rs with
  | nil => rfl
  | cons r rs ih => rw [List.flatMap_cons, List.length_append, r.length_toList, ih, sizeOfRuns]

theorem codeOfRuns_append (rs rs' : List Run) :
    codeOfRuns (rs ++ rs') = codeOfRuns rs ++ codeOfRuns rs' := by
  rw [codeOfRuns, List.flatMap_append, ← List.append_toArray]
  rfl

/-- The byte at an offset. -/
def byteOfRuns? : List Run → Nat → Option UInt8
  | [], _ => none
  | r :: rs, k => if k < r.size then r.bytes[k % r.bytes.size]? else byteOfRuns? rs (k - r.size)

theorem byteOfRuns?_eq (rs : List Run) (k : Nat) : byteOfRuns? rs k = (codeOfRuns rs)[k]? := by
  rw [codeOfRuns, List.getElem?_toArray]
  induction rs generalizing k with
  | nil => rfl
  | cons r rs ih =>
    rw [byteOfRuns?, List.flatMap_cons, List.getElem?_append, r.length_toList, r.getElem?_toList]
    split
    · rfl
    · exact ih _

/-- The instruction at an offset. -/
def decodeRuns (rs : List Run) (pc : Nat) : Option Instr :=
  (byteOfRuns? rs pc).map fun b =>
    { pc, byte := b
      immediate := (List.range (immediateWidth b)).filterMap fun k => byteOfRuns? rs (pc + 1 + k) }

theorem take_drop_eq_filterMap {α : Type} (l : List α) (start n : Nat) :
    (l.drop start).take n = (List.range n).filterMap fun k => l[start + k]? := by
  induction n with
  | zero => rfl
  | succ n ih =>
    rw [List.take_add_one, List.range_succ, List.filterMap_append, ih, List.getElem?_drop]
    rfl

/-- To read an instruction from runs is to read it from their code. -/
theorem decodeRuns_eq (rs : List Run) (pc : Nat) : decodeRuns rs pc = decode (codeOfRuns rs) pc := by
  unfold decodeRuns decode
  rw [byteOfRuns?_eq]
  congr 1
  funext b
  have window : ((codeOfRuns rs).extract (pc + 1) (pc + 1 + immediateWidth b)).toList =
      (List.range (immediateWidth b)).filterMap fun k => (codeOfRuns rs)[pc + 1 + k]? := by
    simp only [Array.toList_extract, Nat.add_sub_cancel_left, take_drop_eq_filterMap,
      Array.getElem?_toList]
  rw [window]
  simp only [byteOfRuns?_eq]

end StackFlow
