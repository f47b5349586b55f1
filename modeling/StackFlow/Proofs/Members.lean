import Mathlib.Data.List.Sort
import StackFlow.IndexSet

/-!
# The members of a set, in order

`IndexSet.toList` goes through the words of a set and lists the bits that it
finds there.  A set is tight if none of them lies at or past the bound, which
the empty set is and `insert` keeps.  Then the list holds the members, in
ascending order, and `count` is its length.
-/

namespace StackFlow.IndexSet

variable {s : IndexSet}

theorem mem_bits {w : UInt64} {k : Nat} : k ∈ bits w ↔ k < 64 ∧ bit w k = true := by
  rw [bits, List.mem_filter, List.mem_range]

theorem pairwise_bits (w : UInt64) : (bits w).Pairwise (· < ·) := List.pairwise_lt_range.filter _

/-- No bit is set at or past the bound. -/
def Tight (s : IndexSet) : Prop :=
  ∀ i, bit (s.words[i / 64]?.getD 0) (i % 64) = true → i < s.bound

theorem tight_empty (bound : Nat) : (empty bound).Tight := by
  intro i h
  rw [empty, Array.getElem?_replicate] at h
  split at h <;> simp at h

theorem Tight.insert (h : s.Tight) (i : Nat) : (s.insert i).Tight := by
  unfold IndexSet.insert
  split
  · next lt =>
    intro j hj
    by_cases same : i / 64 = j / 64
    · have word : j / 64 < s.words.size := by
        have := s.size_words
        omega
      have hi : i % 64 < 64 := Nat.mod_lt _ (by decide)
      simp only [same, word, Array.getElem?_eq_getElem, Array.size_modify, Array.getElem_modify,
        Option.getD_some, if_true, bit_setBit _ hi, Bool.or_eq_true, decide_eq_true_eq] at hj
      rcases hj with old | new
      · apply h j
        rwa [Array.getElem?_eq_getElem word, Option.getD_some]
      · change j < s.bound
        omega
    · rw [Array.getElem?_modify, if_neg same] at hj
      exact h j hj
  · exact h

/-! ## Many insertions -/

theorem Tight.foldl_insert (h : s.Tight) (l : List Nat) : (l.foldl IndexSet.insert s).Tight := by
  induction l generalizing s with
  | nil => exact h
  | cons i l ih => exact ih (h.insert i)

theorem bound_foldl_insert (l : List Nat) (s : IndexSet) :
    (l.foldl IndexSet.insert s).bound = s.bound := by
  induction l generalizing s with
  | nil => rfl
  | cons i l ih => rw [List.foldl_cons, ih, bound_insert]

/-- Whatever the order, the indices below the bound become members. -/
theorem contains_foldl_insert (l : List Nat) (s : IndexSet) (i : Nat) :
    (l.foldl IndexSet.insert s).contains i = true ↔
      s.contains i = true ∨ i ∈ l ∧ i < s.bound := by
  induction l generalizing s with
  | nil => simp
  | cons j l ih =>
    rw [List.foldl_cons, ih, contains_insert, bound_insert, Bool.or_eq_true, decide_eq_true_eq,
      List.mem_cons, or_assoc, or_and_right]
    refine or_congr_right (or_congr_left ⟨?_, ?_⟩)
    · rintro ⟨rfl, lt⟩
      exact ⟨rfl, lt⟩
    · rintro ⟨rfl, lt⟩
      exact ⟨rfl, lt⟩

/-! ## The list -/

/-- The members of a tight set are listed. -/
theorem mem_toList (h : s.Tight) {i : Nat} : i ∈ s.toList ↔ s.contains i = true := by
  rw [contains, Bool.and_eq_true, decide_eq_true_eq]
  simp only [toList, List.mem_flatMap, List.mem_map, mem_bits, Prod.exists,
    List.mem_zipIdx_iff_getElem?, Array.getElem?_toList]
  constructor
  · rintro ⟨w, k, hw, b, ⟨hb, set⟩, rfl⟩
    have word : (64 * k + b) / 64 = k := by omega
    have place : (64 * k + b) % 64 = b := by omega
    have here : bit (s.words[(64 * k + b) / 64]?.getD 0) ((64 * k + b) % 64) = true := by
      rw [word, place, hw, Option.getD_some, set]
    exact ⟨h _ here, here⟩
  · rintro ⟨_, set⟩
    cases hw : s.words[i / 64]? with
    | none =>
      rw [hw, Option.getD_none, bit_zero] at set
      cases set
    | some w =>
      rw [hw, Option.getD_some] at set
      exact ⟨w, i / 64, hw, i % 64, ⟨Nat.mod_lt _ (by decide), set⟩, Nat.div_add_mod i 64⟩

/-- The members are listed in ascending order. -/
theorem pairwise_toList (s : IndexSet) : s.toList.Pairwise (· < ·) := by
  have words : s.words.toList.zipIdx.Pairwise fun p q ↦ p.2 < q.2 := by
    have := List.pairwise_lt_range' (s := 0) (n := s.words.toList.length)
    rwa [← List.zipIdx_map_snd 0 s.words.toList, List.pairwise_map] at this
  rw [toList, List.pairwise_flatMap]
  constructor
  · rintro ⟨w, k⟩ _
    exact (pairwise_bits w).map _ fun _ _ h ↦ Nat.add_lt_add_left h _
  · refine words.imp ?_
    rintro ⟨w, k⟩ ⟨w', k'⟩ hk i hi j hj
    obtain ⟨b, hb, rfl⟩ := List.mem_map.mp hi
    obtain ⟨b', -, rfl⟩ := List.mem_map.mp hj
    have := (mem_bits.mp hb).1
    dsimp only at hk ⊢
    omega

theorem nodup_toList (s : IndexSet) : s.toList.Nodup := s.pairwise_toList.imp Nat.ne_of_lt

/-- As many members are counted as are listed. -/
theorem count_eq_length (s : IndexSet) : s.count = s.toList.length := by
  have sum (ws : List UInt64) (n k : Nat) : ws.foldl (fun n w ↦ n + (bits w).length) n =
      n + ((ws.zipIdx k).flatMap fun p ↦ (bits p.1).map (64 * p.2 + ·)).length := by
    induction ws generalizing n k with
    | nil => rfl
    | cons w ws ih =>
      rw [List.foldl_cons, ih _ (k + 1), List.zipIdx_cons, List.flatMap_cons, List.length_append,
        List.length_map, Nat.add_assoc]
  rw [count, ← Array.foldl_toList, sum, Nat.zero_add]
  rfl

end StackFlow.IndexSet
