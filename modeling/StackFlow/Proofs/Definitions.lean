import Mathlib.Data.List.Nodup
import Mathlib.Data.List.Perm.Basic
import StackFlow.Proofs.Steps
import StackFlow.Table.Check

/-!
# What a table defines

A table that is well formed defines one opcode for each of its rows, in the order
of their bytes (`definitions_eq_ok_iff`).  That neither bytes nor names occur
twice is seen from neighbours alone, because both have been sorted
(`duplicate?_eq_none_iff`).
-/

namespace StackFlow.Table

variable {a b c k : Keyed} {keyed sorted : List Keyed} {r : Row} {d : Definition}
  {ds : List Definition} {s : Spec}

/-! ## Rows by themselves -/

/-- The byte of a row, if it can be read. -/
def Row.byte? (r : Row) : Option UInt8 := (readByte (trimBlanks r.byte.toList)).toOption

/-- The row is well formed and gives the definition. -/
structure Row.Defines (r : Row) (d : Definition) : Prop where
  byte : r.byte? = some d.byte
  name : r.name = d.name
  mnemonic : r.mnemonic = d.mnemonic
  immediate : r.immediate = d.immediate
  inputs : r.inputs = d.inputs
  outputs : r.outputs = d.outputs
  flow : flow? r.flow = some d.flow
  doc : r.doc? = d.doc?
  displacement : d.flow.isRelative = true → d.immediate = 2
  width : d.immediate ≤ 32
  effect : d.inputs ≤ 1024 ∧ d.outputs ≤ 1024

theorem keyed_eq_ok_iff : r.keyed = .ok k ↔ r.byte? = some k.1 ∧ r = k.2 := by
  obtain ⟨byte, row⟩ := k
  rw [Row.keyed, Row.byte?]
  cases readByte (trimBlanks r.byte.toList) with
  | error cause => simp [Except.toOption]
  | ok byte' => simp [Except.toOption]

theorem define_eq_ok_iff {byte : UInt8} (h : r.byte? = some byte) :
    r.define byte = .ok d ↔ d.byte = byte ∧ r.Defines d := by
  unfold Row.define
  constructor
  · intro ok
    split at ok
    · cases ok
    · next flow hflow =>
      split at ok
      · cases ok
      · next displacement =>
        split at ok
        · cases ok
        · next width =>
          split at ok
          · cases ok
          · next effect =>
            cases ok
            rw [not_or] at effect
            refine ⟨rfl, h, rfl, rfl, rfl, rfl, rfl, hflow, rfl, fun relative ↦ ?_,
              Nat.le_of_not_lt width, Nat.le_of_not_lt effect.1, Nat.le_of_not_lt effect.2⟩
            by_contra two
            exact displacement ⟨relative, two⟩
  · rintro ⟨rfl, defines⟩
    have displacement : ¬ (d.flow.isRelative = true ∧ r.immediate ≠ 2) :=
      fun ⟨relative, two⟩ ↦ two (defines.immediate.trans (defines.displacement relative))
    have width : ¬ r.immediate > 32 := by
      rw [defines.immediate]
      exact Nat.not_lt.mpr defines.width
    have effect : ¬ (r.inputs > 1024 ∨ r.outputs > 1024) := by
      rw [defines.inputs, defines.outputs, not_or, Nat.not_lt, Nat.not_lt]
      exact defines.effect
    simp only [defines.flow, if_neg displacement, if_neg width, if_neg effect]
    simp only [defines.name, defines.mnemonic, defines.immediate, defines.inputs, defines.outputs,
      defines.doc]

/-- All items are mapped if each of them is. -/
theorem mapM_eq_ok_iff {ε α β : Type} {f : α → Except ε β} {l : List α} {l' : List β} :
    l.mapM f = .ok l' ↔ List.Forall₂ (fun x y ↦ f x = .ok y) l l' := by
  induction l generalizing l' with
  | nil =>
    rw [List.mapM_nil, List.forall₂_nil_left_iff]
    exact ⟨fun h ↦ by cases h; rfl, fun h ↦ by rw [h]; rfl⟩
  | cons x l ih =>
    rw [List.mapM_cons, bind_eq_ok, List.forall₂_cons_left_iff]
    constructor
    · rintro ⟨y, hy, h⟩
      obtain ⟨ys, hys, h⟩ := bind_eq_ok.mp h
      cases h
      exact ⟨y, ys, hy, ih.mp hys, rfl⟩
    · rintro ⟨y, ys, hy, hys, rfl⟩
      exact ⟨y, hy, bind_eq_ok.mpr ⟨ys, ih.mpr hys, rfl⟩⟩

theorem exists_mem_of_forall₂ {α β : Type} {R : α → β → Prop} {l : List α} {l' : List β} {x : α}
    (h : List.Forall₂ R l l') (hx : x ∈ l) : ∃ y ∈ l', R x y := by
  induction h with
  | nil => cases hx
  | cons head _ ih =>
    rcases List.mem_cons.mp hx with rfl | hx
    · exact ⟨_, List.mem_cons_self, head⟩
    · obtain ⟨y, hy, rxy⟩ := ih hx
      exact ⟨y, List.mem_cons_of_mem _ hy, rxy⟩

/-! ## Neighbours in what has been sorted -/

/-- In a list that has been sorted, no two items are alike if no two neighbours are. -/
theorem neighbours?_eq_none_iff {α : Type} {alike : α → α → Bool} {lt : α → α → Prop}
    [Trans lt lt lt] {l : List α} (sorted : l.Pairwise fun x y ↦ lt x y ∨ alike x y = true)
    (strict : ∀ x y, lt x y → alike x y = false) :
    neighbours? alike l = none ↔ l.Pairwise lt := by
  rw [← List.isChain_iff_pairwise]
  fun_induction neighbours? alike l with
  | case1 x y rest same =>
    rw [List.isChain_cons_cons]
    refine ⟨fun h ↦ (nomatch h), fun ⟨lt, _⟩ ↦ ?_⟩
    rw [strict x y lt] at same
    cases same
  | case2 x y rest other ih =>
    obtain ⟨head, tail⟩ := List.pairwise_cons.mp sorted
    rw [List.isChain_cons_cons, ih tail]
    exact (and_iff_right ((head y List.mem_cons_self).resolve_right other)).symm
  | case3 l short =>
    match l with
    | [] | [_] => simp
    | x :: y :: rest => exact absurd rfl (short x y rest)

theorem precedes_iff : precedes a b = true ↔ a.1 < b.1 ∨ a.1 = b.1 ∧ a.2.name ≤ b.2.name := by
  simp [precedes]

theorem precedes_trans (hab : precedes a b = true) (hbc : precedes b c = true) :
    precedes a c = true := by
  rw [precedes_iff] at *
  rcases hab with hab | ⟨hab, name⟩ <;> rcases hbc with hbc | ⟨hbc, name'⟩
  · exact .inl (UInt8.lt_trans hab hbc)
  · exact .inl (hbc ▸ hab)
  · exact .inl (hab ▸ hbc)
  · exact .inr ⟨hab.trans hbc, String.le_trans name name'⟩

theorem precedes_total (a b : Keyed) : (precedes a b || precedes b a) = true := by
  rw [Bool.or_eq_true, precedes_iff, precedes_iff]
  by_cases same : a.1 = b.1
  · exact (String.le_total a.2.name b.2.name).imp (.inr ⟨same, ·⟩) (.inr ⟨same.symm, ·⟩)
  · exact (UInt8.lt_or_lt_of_ne same).imp .inl .inl

theorem pairwise_sort (keyed : List Keyed) :
    (keyed.mergeSort precedes).Pairwise fun a b ↦ precedes a b = true :=
  @List.pairwise_mergeSort Keyed precedes (fun _ _ _ ↦ precedes_trans) precedes_total keyed

/-- Rows with different bytes have been sorted by these alone. -/
theorem ascending_sort (bytes : (keyed.map (·.1)).Nodup) :
    (keyed.mergeSort precedes).Pairwise fun a b ↦ a.1 < b.1 := by
  have perm : (keyed.mergeSort precedes).Perm keyed := List.mergeSort_perm keyed precedes
  have nodup : (keyed.mergeSort precedes).Pairwise fun a b ↦ a.1 ≠ b.1 :=
    List.pairwise_map.mp ((perm.map _).nodup_iff.mpr bytes)
  exact ((pairwise_sort keyed).and nodup).imp fun ⟨le, ne⟩ ↦
    (precedes_iff.mp le).resolve_right fun same ↦ ne same.1

theorem pairwise_byte (h : sorted.Pairwise fun a b ↦ precedes a b = true) :
    sorted.Pairwise fun a b ↦ a.1 < b.1 ∨ decide (a.1 = b.1) = true :=
  h.imp fun le ↦ (precedes_iff.mp le).imp_right fun ⟨same, _⟩ ↦ decide_eq_true same

theorem pairwise_sort_names (names : List String) :
    (names.mergeSort (· ≤ ·)).Pairwise fun x y ↦ x < y ∨ decide (x = y) = true := by
  refine (List.pairwise_mergeSort ?_ ?_ names).imp fun {x y} le ↦ ?_
  · intro x y z hxy hyz
    rw [decide_eq_true_eq] at *
    exact String.le_trans hxy hyz
  · intro x y
    rw [Bool.or_eq_true, decide_eq_true_eq, decide_eq_true_eq]
    exact String.le_total x y
  · have le := of_decide_eq_true le
    by_cases same : x = y
    · exact .inr (decide_eq_true same)
    · exact .inl (String.not_le.mp fun ge ↦ same (String.le_antisymm le ge))

theorem neighbours?_sort_eq_none_iff {names : List String} :
    neighbours? (· = ·) (names.mergeSort (· ≤ ·)) = none ↔ names.Nodup := by
  have trans : Trans (fun x y : String ↦ x < y) (fun x y : String ↦ x < y)
      (fun x y : String ↦ x < y) := ⟨String.lt_trans⟩
  have sorted := pairwise_sort_names names
  rw [neighbours?_eq_none_iff sorted fun x y lt ↦ decide_eq_false (String.ne_of_lt lt),
    ← (List.mergeSort_perm names (· ≤ ·)).nodup_iff]
  refine ⟨fun ascending ↦ ascending.imp String.ne_of_lt, fun nodup ↦ ?_⟩
  exact (sorted.and nodup).imp fun ⟨le, ne⟩ ↦
    le.resolve_right fun same ↦ ne (of_decide_eq_true same)

theorem neighbours?_byte_eq_none_iff (h : sorted.Pairwise fun a b ↦ precedes a b = true) :
    neighbours? (fun a b : Keyed ↦ a.1 = b.1) sorted = none ↔
      sorted.Pairwise fun a b ↦ a.1 < b.1 := by
  have trans : Trans (fun a b : Keyed ↦ a.1 < b.1) (fun a b : Keyed ↦ a.1 < b.1)
      (fun a b : Keyed ↦ a.1 < b.1) := ⟨UInt8.lt_trans⟩
  exact neighbours?_eq_none_iff (pairwise_byte h) fun a b lt ↦ decide_eq_false (UInt8.ne_of_lt lt)

/-- Rows that have been sorted show neither a byte nor a name that occurs twice if neither does. -/
theorem duplicate?_eq_none_iff (h : sorted.Pairwise fun a b ↦ precedes a b = true) :
    duplicate? sorted = none ↔
      sorted.Pairwise (fun a b ↦ a.1 < b.1) ∧ (sorted.map (·.2.name)).Nodup := by
  have bytes := neighbours?_byte_eq_none_iff h
  unfold duplicate?
  cases dup : neighbours? (fun a b : Keyed ↦ a.1 = b.1) sorted with
  | some pair =>
    have repeats : ¬ sorted.Pairwise fun a b ↦ a.1 < b.1 := by
      rw [← bytes, dup]
      exact nofun
    simp [repeats]
  | none =>
    rw [Option.map_eq_none_iff, neighbours?_sort_eq_none_iff]
    exact (and_iff_right (bytes.mp dup)).symm

/-! ## Tables -/

/-- The definitions are those of the rows, in the order of their bytes. -/
structure Spec.Defines (s : Spec) (ds : List Definition) : Prop where
  version : s.version = 1
  rows : ∃ ds', List.Forall₂ Row.Defines s.rows ds' ∧ ds'.Perm ds
  ascending : ds.Pairwise (·.byte < ·.byte)
  names : (ds.map (·.name)).Nodup

theorem rows_of_keyed {rows : List Row} (h : rows.mapM Row.keyed = .ok keyed) :
    rows = keyed.map (·.2) ∧ ∀ k ∈ keyed, k.2.byte? = some k.1 := by
  replace h := mapM_eq_ok_iff.mp h
  induction h with
  | nil => exact ⟨rfl, fun k hk ↦ absurd hk List.not_mem_nil⟩
  | cons head _ ih =>
    obtain ⟨byte, rfl⟩ := keyed_eq_ok_iff.mp head
    exact ⟨congrArg _ ih.1, List.forall_mem_cons.mpr ⟨byte, ih.2⟩⟩

theorem forall₂_defines (bytes : ∀ k ∈ sorted, k.2.byte? = some k.1)
    (h : sorted.mapM (fun k ↦ k.2.define k.1) = .ok ds) :
    List.Forall₂ (fun k d ↦ d.byte = k.1 ∧ k.2.Defines d) sorted ds := by
  replace h := mapM_eq_ok_iff.mp h
  induction h with
  | nil => exact .nil
  | cons head _ ih =>
    obtain ⟨byte, bytes⟩ := List.forall_mem_cons.mp bytes
    exact .cons ((define_eq_ok_iff byte).mp head) (ih bytes)

theorem keys_of_forall₂
    (h : List.Forall₂ (fun k d ↦ d.byte = k.1 ∧ k.2.Defines d) sorted ds) :
    ds.map (·.byte) = sorted.map (·.1) ∧ ds.map (·.name) = sorted.map (·.2.name) := by
  induction h with
  | nil => exact ⟨rfl, rfl⟩
  | cons head _ ih => simp [head.1, head.2.name, ih]

theorem definitions_of_version (version : s.version = 1) :
    s.definitions = s.rows.mapM Row.keyed >>= fun keyed ↦
      match duplicate? (keyed.mergeSort precedes) with
      | some fault => .error fault
      | none => (keyed.mergeSort precedes).mapM fun k ↦ k.2.define k.1 := by
  unfold Spec.definitions
  rw [if_neg (not_not.mpr version)]
  rfl

theorem definitions_of_other (version : s.version ≠ 1) :
    s.definitions = .error (.version s.version) := by
  unfold Spec.definitions
  rw [if_pos version]
  rfl

theorem defines_of_definitions (h : s.definitions = .ok ds) : s.Defines ds := by
  have version : s.version = 1 := by
    by_contra version
    rw [definitions_of_other version] at h
    cases h
  rw [definitions_of_version version, bind_eq_ok] at h
  obtain ⟨keyed, read, h⟩ := h
  obtain ⟨rows, bytes⟩ := rows_of_keyed read
  have sort : (keyed.mergeSort precedes).Perm keyed := List.mergeSort_perm keyed precedes
  split at h
  · cases h
  · next unique =>
    obtain ⟨ascending, names⟩ := (duplicate?_eq_none_iff (pairwise_sort keyed)).mp unique
    have defines := forall₂_defines (fun k hk ↦ bytes k (sort.mem_iff.mp hk)) h
    obtain ⟨sameBytes, sameNames⟩ := keys_of_forall₂ defines
    obtain ⟨ds', defines', perm⟩ := List.perm_comp_forall₂ sort.symm defines
    refine ⟨version, ⟨ds', ?_, perm⟩, ?_, sameNames ▸ names⟩
    · rw [rows, List.forall₂_map_left_iff]
      exact defines'.imp fun _ _ ↦ And.right
    · rwa [← List.pairwise_map, sameBytes, List.pairwise_map]

theorem exists_keyed {rows : List Row} (h : List.Forall₂ Row.Defines rows ds) :
    ∃ keyed, rows.mapM Row.keyed = .ok keyed ∧
      List.Forall₂ (fun k d ↦ d.byte = k.1 ∧ k.2.Defines d) keyed ds := by
  simp only [mapM_eq_ok_iff]
  induction h with
  | nil => exact ⟨[], .nil, .nil⟩
  | @cons r d rows ds head _ ih =>
    obtain ⟨keyed, read, defines⟩ := ih
    exact ⟨(d.byte, r) :: keyed, .cons (keyed_eq_ok_iff.mpr ⟨head.byte, rfl⟩) read,
      .cons ⟨rfl, head⟩ defines⟩

/-- A table defines nothing else: there is one order of the bytes. -/
theorem definitions_of_defines (h : s.Defines ds) : s.definitions = .ok ds := by
  obtain ⟨ds', rows, perm⟩ := h.rows
  obtain ⟨keyed, read, defines⟩ := exists_keyed rows
  obtain ⟨ds'', defines, perm'⟩ :=
    List.perm_comp_forall₂ (List.mergeSort_perm keyed precedes) defines
  have perm := perm'.trans perm
  obtain ⟨sameBytes, sameNames⟩ := keys_of_forall₂ defines
  have names : ((keyed.mergeSort precedes).map (·.2.name)).Nodup := by
    rw [← sameNames]
    exact (perm.map _).nodup_iff.mpr h.names
  have bytes : (keyed.map (·.1)).Nodup := by
    have nodup : (ds.map (·.byte)).Nodup := List.pairwise_map.mpr (h.ascending.imp UInt8.ne_of_lt)
    rw [← ((List.mergeSort_perm keyed precedes).map _).nodup_iff, ← sameBytes]
    exact (perm.map _).nodup_iff.mpr nodup
  have ascending := ascending_sort bytes
  have unique := (duplicate?_eq_none_iff (pairwise_sort keyed)).mpr ⟨ascending, names⟩
  have made : (keyed.mergeSort precedes).mapM (fun k ↦ k.2.define k.1) = .ok ds'' :=
    mapM_eq_ok_iff.mpr (defines.imp fun k d ⟨byte, defines⟩ ↦
      (define_eq_ok_iff (byte ▸ defines.byte)).mpr ⟨byte, defines⟩)
  have same : ds'' = ds := by
    refine List.Perm.eq_of_pairwise (fun d d' _ _ lt gt ↦ absurd lt (UInt8.lt_asymm gt)) ?_
      h.ascending perm
    rwa [← List.pairwise_map, sameBytes, List.pairwise_map]
  rw [definitions_of_version h.version, bind_eq_ok]
  refine ⟨keyed, read, ?_⟩
  rw [unique]
  exact same ▸ made

theorem definitions_eq_ok_iff : s.definitions = .ok ds ↔ s.Defines ds :=
  ⟨defines_of_definitions, definitions_of_defines⟩

namespace Spec.Defines

variable (h : s.Defines ds)
include h

theorem exists_definition (hr : r ∈ s.rows) : ∃ d ∈ ds, r.Defines d := by
  obtain ⟨ds', defines, perm⟩ := h.rows
  obtain ⟨d, hd, rd⟩ := exists_mem_of_forall₂ defines hr
  exact ⟨d, perm.mem_iff.mp hd, rd⟩

theorem exists_row (hd : d ∈ ds) : ∃ r ∈ s.rows, r.Defines d := by
  obtain ⟨ds', defines, perm⟩ := h.rows
  exact exists_mem_of_forall₂ defines.flip (perm.mem_iff.mpr hd)

/-- The names and bytes are those of the rows, each as often. -/
theorem perm_rows :
    (ds.map fun d ↦ (d.name, some d.byte)).Perm (s.rows.map fun r ↦ (r.name, r.byte?)) := by
  obtain ⟨ds', defines, perm⟩ := h.rows
  refine (perm.symm.map _).trans (List.Perm.of_eq ?_)
  clear h perm
  generalize s.rows = rows at defines
  induction defines with
  | nil => rfl
  | cons head _ ih => rw [List.map_cons, List.map_cons, ih, head.name, head.byte]

theorem eq_of_byte (hd : d ∈ ds) {d' : Definition} (hd' : d' ∈ ds) (same : d.byte = d'.byte) :
    d = d' := by
  have nodup : (ds.map (·.byte)).Nodup := by
    rw [List.Nodup, List.pairwise_map]
    exact h.ascending.imp UInt8.ne_of_lt
  exact List.inj_on_of_nodup_map nodup hd hd' same

theorem eq_of_name (hd : d ∈ ds) {d' : Definition} (hd' : d' ∈ ds) (same : d.name = d'.name) :
    d = d' := List.inj_on_of_nodup_map h.names hd hd' same

end Spec.Defines

end StackFlow.Table
