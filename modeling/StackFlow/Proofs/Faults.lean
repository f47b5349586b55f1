import Mathlib.Data.List.Chain
import StackFlow.Proofs.Spelling
import StackFlow.Table.Source

/-!
# Why a table is refused

Whether a table is well formed is said of its rows alone, and so is which of its
faults is the first: the version, then the first row whose byte is not spelled,
then what occurs twice, then the row with the smallest byte that is out of shape
(`Spec.FirstFault`).  The check finds just this fault, and none in a table that
is well formed (`accepted_and_refused`).

Duplicates are looked for among neighbours.  In what has been sorted, the first
two that are alike are the smallest, with nothing in front of them that occurs
twice (`split_of_neighbours?`).
-/

namespace StackFlow.Table

variable {a b : Keyed} {keyed keyed' : List Keyed} {byte : UInt8} {r : Row} {f f' : Fault}
  {s : Spec}

/-! ## The first of a list that fails -/

section Lists

variable {ε α β : Type} {g : α → Except ε β} {l : List α} {e : ε}

theorem exists_mapM_eq_ok_iff : (∃ l', l.mapM g = .ok l') ↔ ∀ x ∈ l, ∃ y, g x = .ok y := by
  simp only [mapM_eq_ok_iff]
  constructor
  · rintro ⟨l', h⟩ x hx
    obtain ⟨y, -, hy⟩ := exists_mem_of_forall₂ h hx
    exact ⟨y, hy⟩
  · intro h
    induction l with
    | nil => exact ⟨[], .nil⟩
    | cons x l ih =>
      obtain ⟨⟨y, hy⟩, tail⟩ := List.forall_mem_cons.mp h
      obtain ⟨l', hl⟩ := ih tail
      exact ⟨y :: l', .cons hy hl⟩

/-- The error is that of the first item which gives one. -/
theorem mapM_eq_error_iff :
    l.mapM g = .error e ↔ ∃ before x after, l = before ++ x :: after ∧
      (∀ y ∈ before, ∃ z, g y = .ok z) ∧ g x = .error e := by
  induction l with
  | nil =>
    rw [List.mapM_nil]
    exact ⟨nofun, fun ⟨before, x, after, eq, _⟩ ↦ absurd eq (by simp)⟩
  | cons y l ih =>
    rw [List.mapM_cons, bind_eq_error]
    constructor
    · rintro (here | ⟨z, hz, later⟩)
      · exact ⟨[], y, l, rfl, nofun, here⟩
      · rcases bind_eq_error.mp later with later | ⟨_, _, ⟨⟩⟩
        obtain ⟨before, x, after, rfl, front, fails⟩ := ih.mp later
        exact ⟨y :: before, x, after, rfl, List.forall_mem_cons.mpr ⟨⟨z, hz⟩, front⟩, fails⟩
    · rintro ⟨before, x, after, eq, front, fails⟩
      rcases List.cons_eq_append_iff.mp eq with ⟨rfl, eq⟩ | ⟨before, rfl, rfl⟩
      · cases eq
        exact .inl fails
      · obtain ⟨⟨z, hz⟩, front⟩ := List.forall_mem_cons.mp front
        exact .inr ⟨z, hz, bind_eq_error.mpr (.inl (ih.mpr ⟨before, x, after, rfl, front, fails⟩))⟩

/-- What holds from front to back holds around each item. -/
theorem pairwise_around {R : α → α → Prop} {before after : List α} {x : α}
    (h : (before ++ x :: after).Pairwise R) : (∀ y ∈ before, R y x) ∧ ∀ y ∈ after, R x y := by
  obtain ⟨-, behind, across⟩ := List.pairwise_append.mp h
  exact ⟨fun y hy ↦ across y hy x List.mem_cons_self, (List.pairwise_cons.mp behind).1⟩

end Lists

/-! ## Neighbours that are alike -/

section Sorted

variable {α : Type} {lt : α → α → Prop} [Trans lt lt lt] {x y k : α} {before after l : List α}

/-- In front of the first two neighbours that are alike, everything ascends. -/
theorem split_of_neighbours? {alike : α → α → Bool}
    (sorted : l.Pairwise fun x y ↦ lt x y ∨ alike x y = true)
    (h : neighbours? alike l = some (x, y)) :
    ∃ before after, l = before ++ x :: y :: after ∧ alike x y = true ∧
      (before ++ [x]).Pairwise lt := by
  simp only [← List.isChain_iff_pairwise]
  fun_induction neighbours? alike l with
  | case1 _ _ rest same =>
    cases h
    exact ⟨[], rest, rfl, same, .singleton x⟩
  | case2 z w rest other ih =>
    obtain ⟨head, tail⟩ := List.pairwise_cons.mp sorted
    obtain ⟨before, after, eq, same, chain⟩ := ih tail h
    refine ⟨z :: before, after, congrArg _ eq, same, chain.cons fun v hv ↦ ?_⟩
    have first : v = w := by
      cases before with
      | nil => exact (Option.some.inj hv).symm.trans (List.cons.inj eq).1.symm
      | cons u before => exact (Option.some.inj hv).symm.trans (List.cons.inj eq).1.symm
    rw [first]
    exact (head w List.mem_cons_self).resolve_right other
  | case3 => cases h

/-- Below an item up to which everything ascends, nothing occurs twice. -/
theorem count_le_one_of_lt [DecidableEq α] (irrefl : ∀ x, ¬ lt x x)
    (ascending : (before ++ [k]).Pairwise lt) (above : ∀ y ∈ after, lt k y ∨ k = y)
    (below : lt x k) : (before ++ k :: after).count x ≤ 1 := by
  have absent : x ∉ k :: after := by
    intro mem
    rcases List.mem_cons.mp mem with rfl | mem
    · exact irrefl x below
    · rcases above x mem with lt | rfl
      · exact irrefl x (Trans.trans below lt)
      · exact irrefl k below
  have once : before.Nodup := by
    refine (List.pairwise_append.mp ascending).1.imp fun {y z} lt same ↦ ?_
    exact irrefl z (same ▸ lt)
  rw [List.count_append, List.count_eq_zero_of_not_mem absent]
  exact List.nodup_iff_count_le_one.mp once x

end Sorted

/-! ## What occurs twice -/

/-- The names of the rows with a byte. -/
def namesAt (keyed : List Keyed) (byte : UInt8) : List String :=
  (keyed.filter (·.1 = byte)).map (·.2.name)

/-- The first duplicate among rows: the smallest byte that occurs twice, with the two smallest
names that have it, or else the smallest name that occurs twice. -/
inductive Duplicate (keyed : List Keyed) : Fault → Prop where
  | byte {byte : UInt8} {first second : String} {others : List String}
      (names : (namesAt keyed byte).Perm (first :: second :: others))
      (order : (first :: second :: others).Pairwise (· ≤ ·))
      (least : ∀ c < byte, (keyed.map (·.1)).count c ≤ 1) :
      Duplicate keyed (.duplicateByte byte first second)
  | name {name : String} (bytes : (keyed.map (·.1)).Nodup)
      (twice : 1 < (keyed.map (·.2.name)).count name)
      (least : ∀ n < name, (keyed.map (·.2.name)).count n ≤ 1) :
      Duplicate keyed (.duplicateName name)

theorem length_namesAt (keyed : List Keyed) (byte : UInt8) :
    (namesAt keyed byte).length = (keyed.map (·.1)).count byte := by
  rw [namesAt, List.length_map, List.count, List.countP_map, List.countP_eq_length_filter]
  rfl

theorem one_lt_count_of_namesAt {first second : String} {others : List String}
    (names : (namesAt keyed byte).Perm (first :: second :: others)) :
    1 < (keyed.map (·.1)).count byte := by
  rw [← length_namesAt, names.length_eq, List.length_cons, List.length_cons]
  omega

theorem Duplicate.perm (h : Duplicate keyed f) (perm : keyed.Perm keyed') :
    Duplicate keyed' f := by
  cases h with
  | byte names order least =>
    refine .byte (((perm.filter _).map _).symm.trans names) order fun c hc ↦ ?_
    rw [← (perm.map _).count_eq]
    exact least c hc
  | name bytes twice least =>
    have count n := (perm.map (·.2.name)).count_eq n
    refine .name ((perm.map _).nodup_iff.mp bytes) (count _ ▸ twice) fun n hn ↦ ?_
    rw [← count]
    exact least n hn

theorem Duplicate.not_nodup (h : Duplicate keyed f) (bytes : (keyed.map (·.1)).Nodup) :
    ¬ (keyed.map (·.2.name)).Nodup := by
  intro nodup
  cases h with
  | @byte byte _ _ _ names =>
    exact Nat.not_le_of_lt (one_lt_count_of_namesAt names)
      (List.nodup_iff_count_le_one.mp bytes byte)
  | @name name _ twice =>
    exact Nat.not_le_of_lt twice (List.nodup_iff_count_le_one.mp nodup name)

/-- There is no other first duplicate. -/
theorem Duplicate.unique (h : Duplicate keyed f) (h' : Duplicate keyed f') : f = f' := by
  cases h with
  | @byte byte first second others names order least =>
    have twice := one_lt_count_of_namesAt names
    cases h' with
    | @byte byte' first' second' others' names' order' least' =>
      have same : byte = byte' := by
        by_contra ne
        rcases UInt8.lt_or_lt_of_ne ne with lt | lt
        · exact Nat.not_le_of_lt twice (least' byte lt)
        · exact Nat.not_le_of_lt (one_lt_count_of_namesAt names') (least byte' lt)
      subst same
      have eq := (names.symm.trans names').eq_of_pairwise
        (fun x y _ _ le ge ↦ String.le_antisymm le ge) order order'
      cases eq
      rfl
    | name bytes =>
      exact absurd (List.nodup_iff_count_le_one.mp bytes byte) (Nat.not_le_of_lt twice)
  | @name name bytes twice least =>
    cases h' with
    | @byte byte _ _ _ names =>
      exact absurd (List.nodup_iff_count_le_one.mp bytes byte)
        (Nat.not_le_of_lt (one_lt_count_of_namesAt names))
    | @name name' _ twice' least' =>
      congr 1
      refine String.le_antisymm (String.not_lt.mp fun gt ↦ ?_) (String.not_lt.mp fun lt ↦ ?_)
      · exact Nat.not_le_of_lt twice' (least name' gt)
      · exact Nat.not_le_of_lt twice (least' name lt)

theorem pairwise_namesAt (sorted : keyed.Pairwise fun a b ↦ precedes a b = true) (byte : UInt8) :
    (namesAt keyed byte).Pairwise (· ≤ ·) := by
  rw [namesAt, List.pairwise_map]
  refine (sorted.sublist List.filter_sublist).imp_of_mem fun {a b} ha hb le ↦ ?_
  have ha := of_decide_eq_true (List.mem_filter.mp ha).2
  have hb := of_decide_eq_true (List.mem_filter.mp hb).2
  rcases precedes_iff.mp le with lt | ⟨-, le⟩
  · rw [ha, hb] at lt
    exact absurd lt (UInt8.lt_irrefl byte)
  · exact le

/-- In rows that have been sorted, the first neighbours with one byte are the first duplicate. -/
theorem duplicate_of_bytes (sorted : keyed.Pairwise fun a b ↦ precedes a b = true)
    (h : neighbours? (fun a b : Keyed ↦ a.1 = b.1) keyed = some (a, b)) :
    Duplicate keyed (.duplicateByte a.1 a.2.name b.2.name) := by
  have trans : Trans (fun a b : Keyed ↦ a.1 < b.1) (fun a b : Keyed ↦ a.1 < b.1)
      (fun a b : Keyed ↦ a.1 < b.1) := ⟨UInt8.lt_trans⟩
  have trans' : Trans (fun x y : UInt8 ↦ x < y) (fun x y : UInt8 ↦ x < y)
      (fun x y : UInt8 ↦ x < y) := ⟨UInt8.lt_trans⟩
  obtain ⟨before, after, eq, same, ascending⟩ := split_of_neighbours? (pairwise_byte sorted) h
  have same := of_decide_eq_true same
  have below : before.filter (·.1 = a.1) = [] := by
    refine List.filter_eq_nil_iff.mpr fun k hk here ↦ ?_
    have lt := (pairwise_around ascending).1 k hk
    rw [of_decide_eq_true here] at lt
    exact UInt8.lt_irrefl _ lt
  have names : namesAt keyed a.1 = a.2.name :: b.2.name :: namesAt after a.1 := by
    have here : decide (a.1 = a.1) = true := decide_eq_true rfl
    have next : decide (b.1 = a.1) = true := decide_eq_true same.symm
    rw [namesAt, eq, List.filter_append, below, List.nil_append, List.filter_cons, if_pos here,
      List.filter_cons, if_pos next]
    rfl
  refine .byte (.of_eq names) (names ▸ pairwise_namesAt sorted a.1) fun c hc ↦ ?_
  rw [eq, List.map_append, List.map_cons]
  refine count_le_one_of_lt UInt8.lt_irrefl (k := a.1) ?_ (fun y hy ↦ ?_) hc
  · have := List.pairwise_map.mpr ascending
    rwa [List.map_append] at this
  · obtain ⟨k, hk, rfl⟩ := List.mem_map.mp hy
    rw [eq] at sorted
    have le := (pairwise_around sorted).2 k hk
    exact (precedes_iff.mp le).imp_right And.left

/-- Among names that have been sorted, the first neighbours that are equal are the first
duplicate. -/
theorem duplicate_of_names {n n' : String} (bytes : (keyed.map (·.1)).Nodup)
    (h : neighbours? (· = ·) ((keyed.map (·.2.name)).mergeSort (· ≤ ·)) = some (n, n')) :
    Duplicate keyed (.duplicateName n) := by
  have trans : Trans (fun x y : String ↦ x < y) (fun x y : String ↦ x < y)
      (fun x y : String ↦ x < y) := ⟨String.lt_trans⟩
  have sorted := pairwise_sort_names (keyed.map (·.2.name))
  obtain ⟨before, after, eq, same, ascending⟩ := split_of_neighbours? sorted h
  cases of_decide_eq_true same
  have count m : (keyed.map (·.2.name)).count m = (before ++ n :: n :: after).count m := by
    rw [← eq, (List.mergeSort_perm _ _).count_eq]
  refine .name bytes ?_ fun m hm ↦ ?_
  · rw [count, List.count_append, List.count_cons_self, List.count_cons_self]
    omega
  · rw [count]
    refine count_le_one_of_lt String.lt_irrefl ascending (fun y hy ↦ ?_) hm
    rw [eq] at sorted
    have le := (pairwise_around sorted).2 y hy
    exact le.imp_right of_decide_eq_true

theorem distinct_of_sort (h : duplicate? (keyed.mergeSort precedes) = none) :
    (keyed.map (·.1)).Nodup ∧ (keyed.map (·.2.name)).Nodup := by
  obtain ⟨ascending, names⟩ := (duplicate?_eq_none_iff (pairwise_sort keyed)).mp h
  have bytes : ((keyed.mergeSort precedes).map (·.1)).Nodup :=
    List.pairwise_map.mpr (ascending.imp UInt8.ne_of_lt)
  have perm : (keyed.mergeSort precedes).Perm keyed := List.mergeSort_perm keyed precedes
  exact ⟨(perm.map _).nodup_iff.mp bytes, (perm.map _).nodup_iff.mp names⟩

/-- The check finds the first duplicate. -/
theorem duplicate?_sort_eq_some_iff :
    duplicate? (keyed.mergeSort precedes) = some f ↔ Duplicate keyed f := by
  have perm : (keyed.mergeSort precedes).Perm keyed := List.mergeSort_perm keyed precedes
  have found {f : Fault} (h : duplicate? (keyed.mergeSort precedes) = some f) :
      Duplicate keyed f := by
    refine Duplicate.perm ?_ perm
    have sorted := pairwise_sort keyed
    generalize keyed.mergeSort precedes = keyed at h sorted
    unfold duplicate? at h
    split at h
    · next bytes =>
      cases h
      exact duplicate_of_bytes sorted bytes
    · next bytes =>
      obtain ⟨⟨n, n'⟩, names, rfl⟩ := Option.map_eq_some_iff.mp h
      have ascending := (neighbours?_byte_eq_none_iff sorted).mp bytes
      exact duplicate_of_names (List.pairwise_map.mpr (ascending.imp UInt8.ne_of_lt)) names
  refine ⟨found, fun h ↦ ?_⟩
  cases none : duplicate? (keyed.mergeSort precedes) with
  | some f' => rw [(found none).unique h]
  | none =>
    obtain ⟨bytes, names⟩ := distinct_of_sort none
    exact absurd names (h.not_nodup bytes)

/-! ## Rows out of shape -/

/-- The words for flows. -/
def flowWords : List String :=
  ["next", "terminator", "invalid", "jump", "jump_if", "call", "return"]

/-- The words for flows along a displacement. -/
def relativeWords : List String := ["jump", "jump_if", "call"]

/-- The row is in shape, whatever its byte. -/
structure Row.WellShaped (r : Row) : Prop where
  flow : r.flow ∈ flowWords
  displacement : r.flow ∈ relativeWords → r.immediate = 2
  width : r.immediate ≤ 32
  effect : r.inputs ≤ 1024 ∧ r.outputs ≤ 1024

/-- The first thing that is out of shape in a row: its flow, then the width of a displacement,
then that of any immediate, then the stack effect. -/
inductive Row.Misshapen (r : Row) : Fault → Prop where
  | flow (unknown : r.flow ∉ flowWords) : Misshapen r (.unknownFlow r.flow)
  | displacement (relative : r.flow ∈ relativeWords) (other : r.immediate ≠ 2) :
      Misshapen r (.displacementWidth r.name r.immediate)
  | width (known : r.flow ∈ flowWords) (two : r.flow ∈ relativeWords → r.immediate = 2)
      (long : 32 < r.immediate) : Misshapen r (.immediateWidth r.name r.immediate)
  | effect (known : r.flow ∈ flowWords) (two : r.flow ∈ relativeWords → r.immediate = 2)
      (short : r.immediate ≤ 32) (absurd : 1024 < r.inputs ∨ 1024 < r.outputs) :
      Misshapen r (.stackEffect r.name)

theorem flow?_eq_none_iff {word : String} : flow? word = none ↔ word ∉ flowWords := by
  unfold flow? flowWords
  split <;> simp_all

theorem isRelative_iff {word : String} {flow : Flow} (h : flow? word = some flow) :
    flow.isRelative = true ↔ word ∈ relativeWords := by
  unfold flow? at h
  split at h <;> cases h <;> decide

theorem mem_flowWords {word : String} (h : word ∈ relativeWords) : word ∈ flowWords := by
  have : ∀ word ∈ relativeWords, word ∈ flowWords := by decide
  exact this word h

theorem Row.wellShaped_iff : r.WellShaped ↔ ∀ f, ¬ r.Misshapen f := by
  constructor
  · intro h f fault
    cases fault with
    | flow unknown => exact unknown h.flow
    | displacement relative other => exact other (h.displacement relative)
    | width _ _ long => exact Nat.not_le_of_lt long h.width
    | effect _ _ _ absurd => exact absurd.elim (Nat.not_lt.mpr h.effect.1) (Nat.not_lt.mpr h.effect.2)
  · intro h
    have flow : r.flow ∈ flowWords := Classical.not_not.mp fun unknown ↦ h _ (.flow unknown)
    have two : r.flow ∈ relativeWords → r.immediate = 2 := fun relative ↦
      Classical.not_not.mp fun other ↦ h _ (.displacement relative other)
    have width : r.immediate ≤ 32 := Nat.le_of_not_lt fun long ↦ h _ (.width flow two long)
    refine ⟨flow, two, width, Nat.le_of_not_lt fun many ↦ ?_, Nat.le_of_not_lt fun many ↦ ?_⟩
    · exact h _ (.effect flow two width (.inl many))
    · exact h _ (.effect flow two width (.inr many))

theorem define_eq_error_iff : r.define byte = .error f ↔ r.Misshapen f := by
  unfold Row.define
  cases hflow : flow? r.flow with
  | none =>
    have unknown := flow?_eq_none_iff.mp hflow
    constructor
    · rintro ⟨⟩
      exact .flow unknown
    · rintro (_ | relative | known | known)
      · rfl
      · exact absurd (mem_flowWords relative) unknown
      · exact absurd known unknown
      · exact absurd known unknown
  | some flow =>
    have known : r.flow ∈ flowWords :=
      Classical.not_not.mp fun unknown ↦ nomatch hflow.symm.trans (flow?_eq_none_iff.mpr unknown)
    have relative := isRelative_iff hflow
    dsimp only
    split
    · next wrong =>
      constructor
      · rintro ⟨⟩
        exact .displacement (relative.mp wrong.1) wrong.2
      · rintro (unknown | _ | ⟨_, two⟩ | ⟨_, two⟩)
        · exact absurd known unknown
        · rfl
        · exact absurd (two (relative.mp wrong.1)) wrong.2
        · exact absurd (two (relative.mp wrong.1)) wrong.2
    · next right =>
      have two (h : r.flow ∈ relativeWords) : r.immediate = 2 :=
        Classical.not_not.mp fun other ↦ right ⟨relative.mpr h, other⟩
      split
      · next long =>
        constructor
        · rintro ⟨⟩
          exact .width known two long
        · rintro (unknown | ⟨here, other⟩ | _ | ⟨_, _, short⟩)
          · exact absurd known unknown
          · exact absurd (two here) other
          · rfl
          · exact absurd long (Nat.not_lt.mpr short)
      · next short =>
        split
        · next many =>
          constructor
          · rintro ⟨⟩
            exact .effect known two (Nat.le_of_not_lt short) many
          · rintro (unknown | ⟨here, other⟩ | ⟨_, _, long⟩ | _)
            · exact absurd known unknown
            · exact absurd (two here) other
            · exact absurd long short
            · rfl
        · next fits =>
          refine ⟨nofun, ?_⟩
          rintro (unknown | ⟨here, other⟩ | ⟨_, _, long⟩ | ⟨_, _, _, many⟩)
          · exact absurd known unknown
          · exact absurd (two here) other
          · exact absurd long short
          · exact absurd many fits

theorem exists_define_iff : (∃ d, r.define byte = .ok d) ↔ r.WellShaped := by
  have faultless : r.WellShaped ↔ ∀ f, r.define byte ≠ .error f :=
    Row.wellShaped_iff.trans (forall_congr' fun _ ↦ not_congr define_eq_error_iff.symm)
  rw [faultless]
  cases r.define byte with
  | ok d => exact ⟨fun _ _ ↦ nofun, fun _ ↦ ⟨d, rfl⟩⟩
  | error f => exact ⟨fun ⟨_, h⟩ ↦ (nomatch h), fun h ↦ absurd rfl (h f)⟩

theorem exists_mapM_define_iff :
    (∃ ds, ((keyed.mergeSort precedes).mapM fun k ↦ k.2.define k.1) = .ok ds) ↔
      ∀ k ∈ keyed, k.2.WellShaped := by
  simp only [exists_mapM_eq_ok_iff, exists_define_iff, List.mem_mergeSort]

/-- Among rows with different bytes, the first one out of shape is that with the smallest byte. -/
theorem mapM_define_eq_error_iff (bytes : (keyed.map (·.1)).Nodup) :
    ((keyed.mergeSort precedes).mapM fun k ↦ k.2.define k.1) = .error f ↔
      ∃ k ∈ keyed, k.2.Misshapen f ∧ ∀ q ∈ keyed, q.1 < k.1 → q.2.WellShaped := by
  have ascending := ascending_sort bytes
  have mem_iff {q : Keyed} : q ∈ keyed.mergeSort precedes ↔ q ∈ keyed := List.mem_mergeSort
  simp only [mapM_eq_error_iff, exists_define_iff, define_eq_error_iff, ← mem_iff]
  generalize keyed.mergeSort precedes = sorted at ascending
  constructor
  · rintro ⟨before, k, after, rfl, front, fault⟩
    refine ⟨k, List.mem_append_right _ List.mem_cons_self, fault, fun q hq lt ↦ ?_⟩
    rcases List.mem_append.mp hq with hq | hq
    · exact front q hq
    · rcases List.mem_cons.mp hq with rfl | hq
      · exact absurd lt (UInt8.lt_irrefl _)
      · exact absurd lt (UInt8.lt_asymm ((pairwise_around ascending).2 q hq))
  · rintro ⟨k, mem, fault, least⟩
    obtain ⟨before, after, rfl⟩ := List.append_of_mem mem
    refine ⟨before, k, after, rfl, fun q hq ↦ ?_, fault⟩
    exact least q (List.mem_append_left _ hq) ((pairwise_around ascending).1 q hq)

/-! ## Tables -/

/-- The rows have been read, each with the byte that it spells. -/
structure Spec.Read (s : Spec) (keyed : List Keyed) : Prop where
  rows : s.rows = keyed.map (·.2)
  bytes : ∀ k ∈ keyed, Spells k.1 k.2.byte.toList

/-- The table is well formed. -/
structure Spec.WellFormed (s : Spec) : Prop where
  version : s.version = 1
  bytes : ∃ keyed, s.Read keyed ∧ (keyed.map (·.1)).Nodup
  names : (s.rows.map (·.name)).Nodup
  shapes : ∀ r ∈ s.rows, r.WellShaped

/-- The fault of a table that comes before all others. -/
inductive Spec.FirstFault (s : Spec) : Fault → Prop where
  | version (other : s.version ≠ 1) : FirstFault s (.version s.version)
  | byte {before after : List Row} {r : Row} {cause : ByteFault} (version : s.version = 1)
      (rows : s.rows = before ++ r :: after)
      (read : ∀ q ∈ before, ∃ byte, Spells byte q.byte.toList)
      (unread : ∀ byte, ¬ Spells byte r.byte.toList)
      (here : readByte (trimBlanks r.byte.toList) = .error cause) :
      FirstFault s (.byte (String.ofList (trimBlanks r.byte.toList)) cause)
  | duplicate {keyed : List Keyed} {f : Fault} (version : s.version = 1) (read : s.Read keyed)
      (twice : Duplicate keyed f) : FirstFault s f
  | shape {keyed : List Keyed} {k : Keyed} {f : Fault} (version : s.version = 1)
      (read : s.Read keyed) (bytes : (keyed.map (·.1)).Nodup) (names : (s.rows.map (·.name)).Nodup)
      (mem : k ∈ keyed) (fault : k.2.Misshapen f)
      (least : ∀ q ∈ keyed, q.1 < k.1 → q.2.WellShaped) : FirstFault s f

theorem keyed_eq_error_iff :
    r.keyed = .error f ↔ ∃ cause, readByte (trimBlanks r.byte.toList) = .error cause ∧
      f = .byte (String.ofList (trimBlanks r.byte.toList)) cause := by
  rw [Row.keyed]
  cases readByte (trimBlanks r.byte.toList) <;> simp [eq_comm]

theorem exists_keyed_iff : (∃ k, r.keyed = .ok k) ↔ ∃ byte, Spells byte r.byte.toList := by
  simp only [keyed_eq_ok_iff, byte?_eq_some_iff]
  exact ⟨fun ⟨k, h, _⟩ ↦ ⟨k.1, h⟩, fun ⟨byte, h⟩ ↦ ⟨(byte, r), h, rfl⟩⟩

theorem Spec.read_iff : s.rows.mapM Row.keyed = .ok keyed ↔ s.Read keyed := by
  constructor
  · intro h
    obtain ⟨rows, bytes⟩ := rows_of_keyed h
    exact ⟨rows, fun k hk ↦ byte?_eq_some_iff.mp (bytes k hk)⟩
  · intro h
    rw [mapM_eq_ok_iff, h.rows, List.forall₂_map_left_iff, List.forall₂_same]
    exact fun k hk ↦ keyed_eq_ok_iff.mpr ⟨byte?_eq_some_iff.mpr (h.bytes k hk), rfl⟩

theorem Spec.Read.names (h : s.Read keyed) : s.rows.map (·.name) = keyed.map (·.2.name) := by
  rw [h.rows, List.map_map]
  rfl

/-- What is left to do with rows that have been read. -/
theorem definitions_of_read (version : s.version = 1) (read : s.Read keyed) :
    s.definitions = match duplicate? (keyed.mergeSort precedes) with
      | some fault => .error fault
      | none => (keyed.mergeSort precedes).mapM fun k ↦ k.2.define k.1 := by
  rw [definitions_of_version version, Spec.read_iff.mpr read]
  rfl

theorem definitions_of_distinct (version : s.version = 1) (read : s.Read keyed)
    (bytes : (keyed.map (·.1)).Nodup) (names : (s.rows.map (·.name)).Nodup) :
    s.definitions = (keyed.mergeSort precedes).mapM fun k ↦ k.2.define k.1 := by
  rw [definitions_of_read version read]
  cases twice : duplicate? (keyed.mergeSort precedes) with
  | none => rfl
  | some f => exact absurd (read.names ▸ names) ((duplicate?_sort_eq_some_iff.mp twice).not_nodup bytes)

theorem Spec.Read.forall_mem_rows (h : s.Read keyed) {P : Row → Prop} :
    (∀ r ∈ s.rows, P r) ↔ ∀ k ∈ keyed, P k.2 := by
  rw [h.rows, List.forall_mem_map]

theorem exists_definitions_iff : (∃ ds, s.definitions = .ok ds) ↔ s.WellFormed := by
  constructor
  · rintro ⟨ds, h⟩
    have version := (defines_of_definitions h).version
    have eq := definitions_of_version version
    rw [h] at eq
    obtain ⟨keyed, read, rest⟩ := bind_eq_ok.mp eq.symm
    have read := Spec.read_iff.mp read
    split at rest
    · cases rest
    · next unique =>
      obtain ⟨bytes, names⟩ := distinct_of_sort unique
      exact ⟨version, ⟨keyed, read, bytes⟩, read.names ▸ names,
        read.forall_mem_rows.mpr (exists_mapM_define_iff.mp ⟨ds, rest⟩)⟩
  · rintro ⟨version, ⟨keyed, read, bytes⟩, names, shapes⟩
    rw [definitions_of_distinct version read bytes names]
    exact exists_mapM_define_iff.mpr (read.forall_mem_rows.mp shapes)

theorem firstFault_of_definitions (h : s.definitions = .error f) : s.FirstFault f := by
  by_cases version : s.version = 1
  · have eq := definitions_of_version version
    rw [h] at eq
    rcases bind_eq_error.mp eq.symm with unread | ⟨keyed, read, rest⟩
    · obtain ⟨before, r, after, rows, front, fails⟩ := mapM_eq_error_iff.mp unread
      obtain ⟨cause, here, rfl⟩ := keyed_eq_error_iff.mp fails
      refine .byte version rows (fun q hq ↦ exists_keyed_iff.mp (front q hq)) ?_ here
      intro byte spells
      obtain ⟨k, ok⟩ := exists_keyed_iff.mpr ⟨byte, spells⟩
      rw [fails] at ok
      cases ok
    · have read := Spec.read_iff.mp read
      split at rest
      · next twice =>
        cases rest
        exact .duplicate version read (duplicate?_sort_eq_some_iff.mp twice)
      · next unique =>
        obtain ⟨bytes, names⟩ := distinct_of_sort unique
        obtain ⟨k, mem, fault, least⟩ := (mapM_define_eq_error_iff bytes).mp rest
        exact .shape version read bytes (read.names ▸ names) mem fault least
  · cases h.symm.trans (definitions_of_other version)
    exact .version version

theorem definitions_of_firstFault (h : s.FirstFault f) : s.definitions = .error f := by
  cases h with
  | version other => exact definitions_of_other other
  | byte version rows read unread here =>
    rw [definitions_of_version version, bind_eq_error, mapM_eq_error_iff]
    exact .inl ⟨_, _, _, rows, fun q hq ↦ exists_keyed_iff.mpr (read q hq),
      keyed_eq_error_iff.mpr ⟨_, here, rfl⟩⟩
  | duplicate version read twice =>
    rw [definitions_of_read version read, duplicate?_sort_eq_some_iff.mpr twice]
  | shape version read bytes names mem fault least =>
    rw [definitions_of_distinct version read bytes names]
    exact (mapM_define_eq_error_iff bytes).mpr ⟨_, mem, fault, least⟩

theorem definitions_eq_error_iff : s.definitions = .error f ↔ s.FirstFault f :=
  ⟨firstFault_of_definitions, definitions_of_firstFault⟩

theorem source_eq_error_iff : s.source = .error f ↔ s.FirstFault f := by
  rw [← definitions_eq_error_iff, Spec.source]
  cases s.definitions with
  | ok ds => exact ⟨nofun, nofun⟩
  | error f' => simp [Except.map]

/-- There is a source text for a table if and only if it is well formed, and otherwise its first
fault is told. -/
theorem accepted_and_refused (s : Spec) :
    ((∃ text, s.source = .ok text) ↔ s.WellFormed) ∧
      ∀ f, s.source = .error f ↔ s.FirstFault f := by
  refine ⟨?_, fun f ↦ source_eq_error_iff⟩
  rw [← exists_definitions_iff, Spec.source]
  constructor
  · rintro ⟨text, h⟩
    obtain ⟨ds, definitions, -⟩ := map_eq_ok.mp h
    exact ⟨ds, definitions⟩
  · rintro ⟨ds, h⟩
    exact ⟨source ds, map_eq_ok.mpr ⟨ds, h, rfl⟩⟩

end StackFlow.Table
