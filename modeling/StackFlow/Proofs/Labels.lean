import Mathlib.Data.List.Dedup
import StackFlow.Listing
import StackFlow.Proofs.Tiling

/-!
# Labels are numbered in the order of their offsets

A listing gives a label to each instruction start that some displacement refers
to.  `Listing.mem_offsets` says which offsets these are,
`Listing.offsets_eq_dedup_mergeSort` that they are sorted and each listed once, and
`Listing.number?_eq_some_iff` that the number of a label is its place among
them, so that different offsets have different numbers.
-/

namespace StackFlow

variable {code : Code} {pc k : Nat} {i : Instr}

/-- An instruction with a target consists of a relative opcode and the displacement to it. -/
theorem Instr.bytes_of_target? {t : Int} (h : i.target? = some t) :
    ∃ op d, i.opcode? = some op ∧ op.isRelative = true ∧ t = i.pc + d ∧ Displacement.Fits d ∧
      i.bytes = [op.toByte, Displacement.high d, Displacement.low d] := by
  obtain ⟨d, hd, rfl⟩ := Option.map_eq_some_iff.mp h
  unfold Instr.displacement? at hd
  split at hd
  · next hi lo relative immediate =>
    cases hd
    obtain ⟨op, opcode, relative⟩ := (Option.any_eq_true _ _).mp relative
    refine ⟨op, _, opcode, relative, rfl, Displacement.fits_ofBytes hi lo, ?_⟩
    rw [Instr.bytes, immediate, Displacement.high_ofBytes, Displacement.low_ofBytes,
      Opcode.toByte_of_ofByte? opcode]
  · cases hd

namespace Labels

/-- Numbers are filled in one after the other. -/
theorem join_foldl_set {l : List Nat} {slots : Array (Option Nat)} {n : Nat} (nodup : l.Nodup)
    (bound : ∀ x ∈ l, x < slots.size) :
    ((l.zipIdx n).foldl (fun ns (x, k) ↦ ns.set! x (some k)) slots)[pc]?.join = some k ↔
      (∃ j, l[j]? = some pc ∧ k = n + j) ∨ pc ∉ l ∧ slots[pc]?.join = some k := by
  induction l generalizing slots n with
  | nil => simp
  | cons x l ih =>
    have size : (slots.set! x (some n)).size = slots.size := by simp
    have bound' : ∀ y ∈ l, y < (slots.set! x (some n)).size := by
      intro y hy
      rw [size]
      exact bound y (List.mem_cons_of_mem x hy)
    have hx : x < slots.size := bound x List.mem_cons_self
    obtain ⟨fresh, nodup⟩ := List.nodup_cons.mp nodup
    rw [List.zipIdx_cons, List.foldl_cons, ih nodup bound']
    by_cases here : pc = x
    · subst here
      have slot : (slots.set! pc (some n))[pc]?.join = some n := by simp [hx]
      rw [slot]
      constructor
      · rintro (⟨j, hj, -⟩ | ⟨-, h⟩)
        · exact absurd (List.mem_of_getElem? hj) fresh
        · exact .inl ⟨0, rfl, (Option.some.inj h).symm⟩
      · rintro (⟨j, hj, rfl⟩ | ⟨h, -⟩)
        · cases j with
          | zero => exact .inr ⟨fresh, rfl⟩
          | succ j => exact absurd (List.mem_of_getElem? (l := l) hj) fresh
        · exact absurd List.mem_cons_self h
    · have slot : (slots.set! x (some n))[pc]?.join = slots[pc]?.join := by
        simp [Ne.symm here]
      rw [slot, List.mem_cons, not_or]
      refine or_congr ⟨?_, ?_⟩ ⟨fun h ↦ ⟨⟨here, h.1⟩, h.2⟩, fun h ↦ ⟨h.1.2, h.2⟩⟩
      · rintro ⟨j, hj, rfl⟩
        exact ⟨j + 1, hj, by omega⟩
      · rintro ⟨j, hj, rfl⟩
        cases j with
        | zero => exact absurd (Option.some.inj hj).symm here
        | succ j => exact ⟨j, hj, by omega⟩

/-- The number of a label is its place among the offsets. -/
theorem number?_ofSet {s : IndexSet} (h : s.Tight) :
    (ofSet s).number? pc = some k ↔ (ofSet s).offsets[k]? = some pc := by
  have bound : ∀ x ∈ s.toList, x < (Array.replicate s.bound (none : Option Nat)).size := by
    intro x hx
    rw [IndexSet.mem_toList h, IndexSet.contains, Bool.and_eq_true, decide_eq_true_eq] at hx
    rw [Array.size_replicate]
    exact hx.1
  have none : (Array.replicate s.bound (none : Option Nat))[pc]?.join = none := by
    rw [Array.getElem?_replicate]
    split <;> rfl
  rw [number?, ofSet, join_foldl_set s.nodup_toList bound, none]
  simp

/-- The number of the label at a target. -/
def at? (labels : Labels) (target : Int) : Option Nat :=
  if target < 0 then none else labels.number? target.toNat

/-- A target is written by its label if it has one. -/
theorem reference_eq (labels : Labels) (target : Int) :
    labels.reference target = match labels.at? target with
      | some k => "@L" ++ decimal k
      | none => "@" ++ signedDecimal target := rfl

theorem at?_eq_some_iff {labels : Labels} {target : Int} :
    labels.at? target = some k ↔ ∃ pc : Nat, target = pc ∧ labels.number? pc = some k := by
  unfold Labels.at?
  split
  · next neg =>
    constructor
    · intro h
      cases h
    · rintro ⟨pc, rfl, -⟩
      omega
  · next pos =>
    constructor
    · intro h
      exact ⟨target.toNat, (Int.toNat_of_nonneg (by omega)).symm, h⟩
    · rintro ⟨pc, rfl, h⟩
      exact h

end Labels

namespace Listing

variable {l : Listing}

theorem entries_ofCode (code : Code) :
    (ofCode code).entries = (sweep code).map fun i ↦ ⟨i, none⟩ :=
  List.map_congr_left fun i _ ↦ congrArg (Entry.mk i) (Heights.at?_empty 0 i.pc)

/-- The instruction start that a displacement refers to. -/
def start? (starts : Starts) (i : Instr) : Option Nat :=
  i.target?.bind fun t ↦ if starts.contains t then some t.toNat else none

theorem start?_eq_some_iff {starts : Starts} {i : Instr} :
    start? starts i = some pc ↔ i.target? = some (pc : Int) ∧ starts.contains pc = true := by
  rw [start?, Option.bind_eq_some_iff]
  constructor
  · rintro ⟨t, target, h⟩
    split at h
    · next start =>
      cases h
      have pos : 0 ≤ t := by
        rw [Starts.contains, Bool.and_eq_true, decide_eq_true_eq] at start
        exact start.1
      rw [Int.toNat_of_nonneg pos]
      exact ⟨target, start⟩
    · cases h
  · rintro ⟨target, start⟩
    exact ⟨pc, target, by rw [if_pos start, Int.toNat_natCast]⟩

theorem targets_eq_foldl (l : Listing) :
    l.targets = ((sweep l.code).filterMap (start? l.starts)).foldl IndexSet.insert
      (.empty l.code.size) := by
  rw [List.foldl_filterMap, targets]
  congr 1
  funext s i
  rw [start?]
  cases i.target? with
  | none => rfl
  | some t =>
    dsimp only [Option.bind_some]
    split <;> rfl

theorem tight_targets (l : Listing) : l.targets.Tight := by
  rw [targets_eq_foldl]
  exact (IndexSet.tight_empty _).foldl_insert _

/-- The labelled offsets are the instruction starts that some instruction has as its target. -/
theorem mem_offsets (code : Code) :
    pc ∈ (ofCode code).labels.offsets ↔
      IsStart code pc ∧ ∃ i ∈ sweep code, i.target? = some (pc : Int) := by
  have offsets : (ofCode code).labels.offsets = (ofCode code).targets.toList := rfl
  rw [offsets, IndexSet.mem_toList (tight_targets _), targets_eq_foldl,
    IndexSet.contains_foldl_insert, IndexSet.contains_empty, List.mem_filterMap]
  simp only [start?_eq_some_iff, Bool.false_eq_true, false_or]
  constructor
  · rintro ⟨⟨i, hi, target, start⟩, -⟩
    exact ⟨Starts.contains_natCast.mp start, i, hi, target⟩
  · rintro ⟨start, i, hi, target⟩
    exact ⟨⟨i, hi, target, Starts.contains_natCast.mpr start⟩, start.lt_size⟩

/-- The labelled offsets are those that displacements refer to, sorted and without repetitions. -/
theorem offsets_eq_dedup_mergeSort
    (inside : ∀ pc : Nat, l.starts.contains pc = true → pc < l.code.size) :
    l.labels.offsets =
      (((sweep l.code).filterMap (start? l.starts)).mergeSort (· ≤ ·)).dedup := by
  have sorted (xs : List Nat) : (xs.mergeSort (· ≤ ·)).dedup.Pairwise (· < ·) := by
    have le := (List.pairwise_mergeSort' (· ≤ ·) xs).sublist (List.dedup_sublist _)
    exact (le.and (List.nodup_dedup _)).imp fun h ↦ Nat.lt_of_le_of_ne h.1 h.2
  have listed : l.labels.offsets.Pairwise (· < ·) := l.targets.pairwise_toList
  refine listed.eq_of_mem_iff (sorted _) fun pc ↦ ?_
  rw [List.mem_dedup, List.mem_mergeSort]
  change pc ∈ l.targets.toList ↔ _
  rw [IndexSet.mem_toList l.tight_targets, targets_eq_foldl, IndexSet.contains_foldl_insert,
    IndexSet.contains_empty, or_iff_right Bool.false_ne_true, and_iff_left_iff_imp]
  intro mem
  obtain ⟨i, -, start⟩ := List.mem_filterMap.mp mem
  exact inside pc (start?_eq_some_iff.mp start).2

theorem offsets_ofCode (code : Code) :
    (ofCode code).labels.offsets =
      (((sweep code).filterMap (start? (.ofCode code))).mergeSort (· ≤ ·)).dedup :=
  offsets_eq_dedup_mergeSort fun _ start ↦ (Starts.contains_natCast.mp start).lt_size

theorem number?_eq_some_iff (l : Listing) :
    l.labels.number? pc = some k ↔ l.labels.offsets[k]? = some pc :=
  Labels.number?_ofSet l.tight_targets

/-- A numbered offset is an instruction start. -/
theorem isStart_of_number? (h : (ofCode code).labels.number? pc = some k) : IsStart code pc := by
  rw [number?_eq_some_iff] at h
  exact ((mem_offsets code).mp (List.mem_of_getElem? h)).1

/-- Different offsets have different numbers. -/
theorem number?_inj {l : Listing} {pc' : Nat} (h : l.labels.number? pc = some k)
    (h' : l.labels.number? pc' = some k) : pc = pc' := by
  rw [number?_eq_some_iff] at h h'
  exact Option.some.inj (h.symm.trans h')

end Listing

end StackFlow
