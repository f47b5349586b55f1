import StackFlow.Proofs.Filling
import StackFlow.Proofs.Labels

/-!
# A listing can be built again

The instructions of a listing are handed to a builder in their order, with the
labels placed where the listing has them.  What has a label as its target is
built with that label, and everything else as it stands.  The result is the code
that was listed, byte for byte (`rebuild_ofCode`).

The invariant (`Builder.Holds`) says of each moment on the way that the builder
holds the code up to here, no matter which labels have been placed so far: the
displacements come out right under any placement that agrees with the listing.
-/

namespace StackFlow

variable {code : Code} {labels : Labels} {b : Builder} {pc k : Nat} {i : Instr}

/-- The number of a label is its place among the offsets. -/
def Labels.Numbered (labels : Labels) : Prop :=
  ∀ pc k, labels.number? pc = some k ↔ labels.offsets[k]? = some pc

theorem Labels.Numbered.inj (h : labels.Numbered) {pc' : Nat} (hp : labels.number? pc = some k)
    (hp' : labels.number? pc' = some k) : pc = pc' :=
  Option.some.inj (((h pc k).mp hp).symm.trans ((h pc' k).mp hp'))

namespace Builder

/-- Places the label that a listing has at the current offset, if any. -/
def placeNumbered (b : Builder) (labels : Labels) (pc : Nat) : Except UnknownLabel Builder :=
  match labels.number? pc with
  | some k => b.place ⟨k⟩
  | none => .ok b

/-- Appends an instruction: to a label if its target has one, and otherwise its bytes. -/
def emit (b : Builder) (labels : Labels) (i : Instr) : Builder :=
  match i.target?.bind labels.at?, i.opcode? with
  | some k, some .rjump => b.jump ⟨k⟩
  | some k, some .rjumpi => b.jumpIf ⟨k⟩
  | some k, some .rjumpsub => b.call ⟨k⟩
  | _, _ => b.raw i.bytes

/-- Appends a listed instruction, behind its label if it has one. -/
def write (labels : Labels) (b : Builder) (e : Entry) : Except BuildError Builder :=
  match b.placeNumbered labels e.instr.pc with
  | .ok b => .ok (b.emit labels e.instr)
  | .error e => .error (.ofUnknownLabel e)

end Builder

/-- Builds a listing again, with as many labels as it has. -/
def Listing.rebuild (l : Listing) : Except BuildError Code := do
  let labels := l.labels
  let blank : Builder := labels.offsets.foldl (fun b _ ↦ b.label.2) {}
  let b ← l.entries.foldlM (Builder.write labels) blank
  b.finish

theorem take_next_of_decode (h : decode code pc = some i) :
    code.toList.take i.next = code.toList.take pc ++ i.bytes := by
  have behind : code.toList.take i.next ++ code.toList.drop i.next =
      (code.toList.take pc ++ i.bytes) ++ code.toList.drop i.next := by
    rw [List.take_append_drop, List.append_assoc, ← drop_of_decode h, List.take_append_drop]
  exact List.append_cancel_right behind

namespace Builder

/-- A placement of labels under which each stands where the listing has it. -/
def Agrees (labels : Labels) (placed : Array (Option Nat)) : Prop :=
  ∀ pc k, labels.number? pc = some k → placed[k]?.join = some pc

/-- The builder holds the code up to an offset, once the labels stand where the listing has
them. -/
structure Holds (code : Code) (labels : Labels) (pc : Nat) (b : Builder) : Prop where
  inside : b.Inside
  here : b.pc = (code.toList.take pc).length
  finish : ∀ placed, Agrees labels placed →
    (b.withLabels placed).finish = .ok (code.toList.take pc).toArray

/-- The builder has all labels, and has placed those of some instructions. -/
structure Placed (labels : Labels) (done : List Instr) (b : Builder) : Prop where
  made : b.labels.size = labels.offsets.length
  placed : ∀ i ∈ done, ∀ k, labels.number? i.pc = some k → b.labels[k]?.join = some i.pc

theorem foldl_label (l : List Nat) (b : Builder) :
    l.foldl (fun b _ ↦ b.label.2) b =
      { b with labels := b.labels ++ Array.replicate l.length none } := by
  induction l generalizing b with
  | nil => simp
  | cons _ l ih =>
    rw [List.foldl_cons, ih]
    simp [label, Array.replicate_succ']

/-- Every label that a listing has can be placed where it has it. -/
theorem Placed.place {done : List Instr} (h : Placed labels done b) (numbered : labels.Numbered)
    (here : b.pc = i.pc) :
    ∃ placed, b.placeNumbered labels i.pc = .ok (b.withLabels placed) ∧
      Placed labels (done ++ [i]) (b.withLabels placed) := by
  unfold placeNumbered
  split
  · next k number =>
    have lt : k < b.labels.size := by
      rw [h.made]
      exact (List.getElem?_eq_some_iff.mp ((numbered _ _).mp number)).1
    refine ⟨b.labels.set! k (some b.pc), by rw [Builder.place, if_pos lt]; rfl, ?_, ?_⟩
    · rw [← h.made]
      simp [withLabels]
    · intro j hj k' number'
      have slot : (b.withLabels (b.labels.set! k (some b.pc))).labels[k']?.join =
          if k = k' then some b.pc else b.labels[k']?.join := by
        by_cases same : k = k'
        · subst same
          simp [withLabels, lt]
        · simp [withLabels, same]
      rw [slot]
      split
      · next same =>
        subst same
        rw [here, numbered.inj number number']
      · next other =>
        rcases List.mem_append.mp hj with hj | hj
        · exact h.placed j hj k' number'
        · cases List.mem_singleton.mp hj
          exact absurd (Option.some.inj (number.symm.trans number')) other
  · next none =>
    refine ⟨b.labels, rfl, h.made, ?_⟩
    intro j hj k number
    rcases List.mem_append.mp hj with hj | hj
    · exact h.placed j hj k number
    · cases List.mem_singleton.mp hj
      cases none.symm.trans number

/-- The step of the invariant. -/
theorem Holds.emit (h : Holds code labels i.pc b) (fetch : decode code i.pc = some i) :
    Holds code labels i.next (b.emit labels i) ∧ (b.emit labels i).labels = b.labels := by
  have le : i.pc ≤ code.toList.length := Nat.le_of_lt (lt_size_of_decode fetch)
  have here : b.pc = i.pc := by rw [h.here, List.length_take, Nat.min_eq_left le]
  have next := take_next_of_decode fetch
  cases label : i.target?.bind labels.at? with
  | none =>
    have emit : b.emit labels i = b.raw i.bytes := by simp only [Builder.emit, label]
    rw [emit]
    refine ⟨⟨h.inside.raw _, ?_, fun placed agrees ↦ ?_⟩, rfl⟩
    · rw [pc_raw, next, List.length_append, h.here]
    · change ((b.withLabels placed).raw i.bytes).finish = _
      rw [finish_raw (b := b.withLabels placed) h.inside, h.finish placed agrees, next]
      exact congrArg Except.ok (toArray_append_bytes _ _)
  | some k =>
    obtain ⟨target, ht, hk⟩ := Option.bind_eq_some_iff.mp label
    obtain ⟨t, rfl, number⟩ := Labels.at?_eq_some_iff.mp hk
    obtain ⟨op, d, opcode, relative, sum, fits, bytes⟩ := Instr.bytes_of_target? ht
    have emit : b.emit labels i = b.toLabel op ⟨k⟩ := by
      rcases Opcode.eq_of_isRelative relative with rfl | rfl | rfl <;>
        simp only [Builder.emit, label, opcode] <;> rfl
    rw [emit]
    refine ⟨⟨h.inside.toLabel _ _, ?_, fun placed agrees ↦ ?_⟩, rfl⟩
    · rw [pc_toLabel, next, List.length_append, h.here, bytes]
      rfl
    · have displacement : (b.withLabels placed).displacement ⟨b.pc, ⟨k⟩⟩ = .ok d := by
        refine displacement_eq_ok.mpr ⟨t, agrees t k number, ?_, fits⟩
        change d = t - (b.pc : Int)
        omega
      change ((b.withLabels placed).toLabel op ⟨k⟩).finish = _
      rw [finish_toLabel (b := b.withLabels placed) h.inside, h.finish placed agrees, next, bytes]
      change ((b.withLabels placed).displacement ⟨b.pc, ⟨k⟩⟩).map _ = _
      rw [displacement]
      exact congrArg Except.ok (toArray_append_bytes _ _)

/-- A listing's instructions can be written one after the other, and the code comes out. -/
theorem Holds.write_sweep {done : List Instr} (h : Holds code labels pc b)
    (placed : Placed labels done b) (numbered : labels.Numbered) :
    ∃ b', ((sweepFrom code pc).map fun i ↦ ⟨i, none⟩).foldlM (Builder.write labels) b = .ok b' ∧
      (∀ placed, Agrees labels placed → (b'.withLabels placed).finish = .ok code) ∧
      Placed labels (done ++ sweepFrom code pc) b' := by
  fun_induction sweepFrom code pc generalizing b done with
  | case1 pc past =>
    rw [decode_eq_none_iff] at past
    refine ⟨b, rfl, fun ls agrees ↦ ?_, by rwa [List.append_nil]⟩
    rw [h.finish ls agrees, List.take_of_length_le past]
  | case2 pc i fetch ih =>
    have start := pc_of_decode fetch
    subst start
    have here : b.pc = i.pc := by
      rw [h.here, List.length_take]
      exact Nat.min_eq_left (Nat.le_of_lt (lt_size_of_decode fetch))
    obtain ⟨ls, place, placed⟩ := placed.place numbered here
    have holds : Holds code labels i.pc (b.withLabels ls) := ⟨h.inside, h.here, h.finish⟩
    obtain ⟨holds, same⟩ := holds.emit fetch
    have placed : Placed labels (done ++ [i]) ((b.withLabels ls).emit labels i) := by
      refine ⟨?_, ?_⟩
      · rw [same]
        exact placed.made
      · rw [same]
        exact placed.placed
    obtain ⟨b', rest, finish, placed⟩ := ih holds placed
    refine ⟨b', ?_, finish, ?_⟩
    · rw [List.map_cons, List.foldlM_cons, write, place]
      exact rest
    · rwa [List.append_assoc, List.singleton_append] at placed

end Builder

/-- What is listed can be built again, whatever its bytes. -/
theorem rebuild_ofCode (code : Code) : (Listing.ofCode code).rebuild = .ok code := by
  let labels := (Listing.ofCode code).labels
  have numbered : labels.Numbered := fun _ _ ↦ Listing.number?_eq_some_iff _
  let blank : Builder := labels.offsets.foldl (fun b _ ↦ b.label.2) {}
  have blank_eq : blank = Builder.withLabels {} (Array.replicate labels.offsets.length none) := by
    rw [show blank = _ from Builder.foldl_label labels.offsets {}]
    simp [Builder.withLabels]
  have holds : Builder.Holds code labels 0 blank := by
    rw [blank_eq]
    exact ⟨Builder.inside_empty, rfl, fun _ _ ↦ rfl⟩
  have placed : Builder.Placed labels [] blank := by
    rw [blank_eq]
    exact ⟨Array.size_replicate, fun _ h ↦ absurd h List.not_mem_nil⟩
  obtain ⟨b, writes, finish, placed⟩ := holds.write_sweep placed numbered
  have agrees : Builder.Agrees labels b.labels := by
    intro pc k number
    obtain ⟨i, hi, rfl⟩ := Listing.isStart_of_number? number
    exact placed.placed i hi k number
  have result : (Listing.ofCode code).rebuild =
      (Listing.ofCode code).entries.foldlM (Builder.write labels) blank >>= Builder.finish := rfl
  rw [result, Listing.entries_ofCode, sweep, writes]
  exact finish b.labels agrees

end StackFlow
