import StackFlow.Machine

/-!
# Runs on one level of calls

What a subroutine does between its entry and a point of its own body does not
depend on the calls outstanding around it.  `Level` is such a stretch of a run:
steps of the body itself, and calls taken as a whole together with the way back
from them.  `Nested` stacks levels on each other, one for each outstanding
call, and `reachable_iff_nested` says that every run has this shape.
-/

namespace StackFlow.Machine

variable {code : Code}

/-- An offset, and the height of the data stack above the base there. -/
structure Spot where
  pc : Nat
  height : Nat
deriving DecidableEq, Repr

namespace Spot

/-- Where the subroutine at an offset begins. -/
def entry (pc : Nat) : Spot := ⟨pc, 0⟩

/-- The configuration that stands at a spot. -/
def under (a : Spot) (calls : List Outstanding) : Config := ⟨a.pc, a.height, calls⟩

end Spot

/-- The number of items that the callers hold below the current subroutine. -/
def held : List Outstanding → Nat
  | [] => 0
  | k :: calls => k.height + held calls

/-- A step that neither enters nor leaves a subroutine. -/
inductive Flat (code : Code) : Spot → Spot → Prop where
  | next {pc h : Nat} {i : Instr} {op : Opcode} (fetch : Fetch code pc i op)
      (flow : op.flow = .next) (items : op.inputs ≤ h) :
      Flat code ⟨pc, h⟩ ⟨i.next, h - op.inputs + op.outputs⟩
  | jump {pc h t : Nat} {i : Instr} {op : Opcode} (fetch : Fetch code pc i op)
      (flow : op.flow = .jump) (target : i.target? = some (t : Int)) :
      Flat code ⟨pc, h⟩ ⟨t, h⟩
  | branchTaken {pc h t : Nat} {i : Instr} {op : Opcode} (fetch : Fetch code pc i op)
      (flow : op.flow = .jumpIf) (items : op.inputs ≤ h) (target : i.target? = some (t : Int)) :
      Flat code ⟨pc, h⟩ ⟨t, h - op.inputs + op.outputs⟩
  | branchFallthrough {pc h : Nat} {i : Instr} {op : Opcode} (fetch : Fetch code pc i op)
      (flow : op.flow = .jumpIf) (items : op.inputs ≤ h) :
      Flat code ⟨pc, h⟩ ⟨i.next, h - op.inputs + op.outputs⟩

/-- At an offset stands a call of the subroutine at `target` that comes back to `resume`. -/
def Calls (code : Code) (pc target resume : Nat) : Prop :=
  ∃ i op, Fetch code pc i op ∧ op.flow = .call ∧ i.target? = some (target : Int) ∧ i.next = resume

/-- At an offset stands an instruction that leaves the subroutine. -/
def Leaves (code : Code) (pc : Nat) : Prop := ∃ i op, Fetch code pc i op ∧ op.flow = .ret

/-- A configuration is about to return though no call is outstanding. -/
def Underflows (code : Code) (c : Config) : Prop := c.calls = [] ∧ Leaves code c.pc

theorem Flat.lt_size {a b : Spot} (h : Flat code a b) : a.pc < code.size := by
  cases h <;> exact lt_size_of_decode (Fetch.decode ‹_›)

theorem Calls.lt_size {pc t r : Nat} (h : Calls code pc t r) : pc < code.size := by
  obtain ⟨i, op, fetch, _⟩ := h
  exact lt_size_of_decode fetch.decode

theorem Leaves.lt_size {pc : Nat} (h : Leaves code pc) : pc < code.size := by
  obtain ⟨i, op, fetch, _⟩ := h
  exact lt_size_of_decode fetch.decode

theorem Flat.step {a b : Spot} (h : Flat code a b) (calls : List Outstanding) :
    Step code (a.under calls) (b.under calls) := by
  cases h with
  | next fetch flow items => exact .next fetch flow items
  | jump fetch flow target => exact .jump fetch flow target
  | branchTaken fetch flow items target => exact .branchTaken fetch flow items target
  | branchFallthrough fetch flow items => exact .branchFallthrough fetch flow items

theorem Calls.step {a : Spot} {t r : Nat} (h : Calls code a.pc t r) (calls : List Outstanding) :
    Step code (a.under calls) ((Spot.entry t).under (⟨r, a.height⟩ :: calls)) := by
  obtain ⟨i, op, fetch, flow, target, rfl⟩ := h
  exact .call fetch flow target

theorem Leaves.step {a : Spot} (h : Leaves code a.pc) (k : Outstanding)
    (calls : List Outstanding) : Step code (a.under (k :: calls)) ⟨k.resume, k.height, calls⟩ := by
  obtain ⟨i, op, fetch, flow⟩ := h
  exact .ret fetch flow

/-- A step stays on its level, goes one level down or goes one level up. -/
theorem Step.cases_level {a : Spot} {calls : List Outstanding} {c : Config}
    (h : Step code (a.under calls) c) :
    (∃ b, Flat code a b ∧ c = b.under calls) ∨
    (∃ t r, Calls code a.pc t r ∧ c = (Spot.entry t).under (⟨r, a.height⟩ :: calls)) ∨
    ∃ k rest, Leaves code a.pc ∧ calls = k :: rest ∧ c = ⟨k.resume, k.height, rest⟩ := by
  obtain ⟨pc, height⟩ := a
  cases h with
  | next fetch flow items => exact .inl ⟨_, .next fetch flow items, rfl⟩
  | jump fetch flow target => exact .inl ⟨_, .jump fetch flow target, rfl⟩
  | branchTaken fetch flow items target =>
    exact .inl ⟨_, .branchTaken fetch flow items target, rfl⟩
  | branchFallthrough fetch flow items => exact .inl ⟨_, .branchFallthrough fetch flow items, rfl⟩
  | call fetch flow target => exact .inr (.inl ⟨_, _, ⟨_, _, fetch, flow, target, rfl⟩, rfl⟩)
  | ret fetch flow => exact .inr (.inr ⟨_, _, ⟨_, _, fetch, flow⟩, rfl, rfl⟩)

/-! ## Levels -/

/-- A stretch of a run on one level, with whole calls in between.  All instructions that it
executes, those of the calls included, stand at offsets with the property `on`. -/
inductive Level (code : Code) (on : Nat → Prop) : Spot → Spot → Prop where
  | refl (a : Spot) : Level code on a a
  | flat {a b c : Spot} (run : Level code on a b) (here : on b.pc) (last : Flat code b c) :
      Level code on a c
  | call {a b c : Spot} {t r : Nat} (run : Level code on a b) (here : on b.pc)
      (site : Calls code b.pc t r) (body : Level code on (.entry t) c) (there : on c.pc)
      (leaves : Leaves code c.pc) : Level code on a ⟨r, b.height⟩

/-- From a spot a run on the same level comes to where it leaves the subroutine. -/
def Returns (code : Code) (a : Spot) : Prop :=
  ∃ b, Level code (fun _ ↦ True) a b ∧ Leaves code b.pc

theorem Level.reaches {on : Nat → Prop} {a b : Spot} (h : Level code on a b)
    (calls : List Outstanding) : Reaches code (a.under calls) (b.under calls) := by
  induction h generalizing calls with
  | refl a => exact .refl _
  | flat _ _ last ih => exact (ih calls).step (last.step calls)
  | @call a b c t r _ _ site _ _ leaves ih ihb =>
    have hb := ihb (⟨r, b.height⟩ :: calls)
    exact ((Reaches.step (ih calls) (site.step calls)).trans hb).step (leaves.step _ calls)

/-- Either a stretch of a run keeps off the offsets with some property, or it comes to one. -/
theorem Level.avoids_or_meets {a b : Spot} (P : Nat → Prop)
    (h : Level code (fun _ ↦ True) a b) :
    Level code (fun pc ↦ ¬ P pc) a b ∨ ∀ calls, ∃ d, P d.pc ∧
      Reaches code (a.under calls) d ∧ Reaches code d (b.under calls) := by
  induction h with
  | refl a => exact .inl (.refl a)
  | @flat a b c run _ last ih =>
    rcases ih with ih | ih
    · by_cases hb : P b.pc
      · exact .inr fun calls ↦
          ⟨_, hb, run.reaches calls, .step (.refl _) (last.step calls)⟩
      · exact .inl (.flat ih hb last)
    · refine .inr fun calls ↦ ?_
      obtain ⟨d, hd, h1, h2⟩ := ih calls
      exact ⟨d, hd, h1, h2.step (last.step calls)⟩
  | @call a b c t r run _ site body _ leaves ih ihb =>
    have back (calls : List Outstanding) :
        Reaches code ((Spot.entry t).under (⟨r, b.height⟩ :: calls)) ⟨r, b.height, calls⟩ :=
      (body.reaches _).step (leaves.step _ calls)
    rcases ih with ih | ih
    · by_cases hb : P b.pc
      · exact .inr fun calls ↦
          ⟨_, hb, run.reaches calls, (Reaches.step (.refl _) (site.step calls)).trans (back calls)⟩
      rcases ihb with ihb | ihb
      · by_cases hc : P c.pc
        · exact .inr fun calls ↦
            ⟨_, hc, ((run.reaches calls).step (site.step calls)).trans (body.reaches _),
              .step (.refl _) (leaves.step _ calls)⟩
        · exact .inl (.call ih hb site ihb hc leaves)
      · refine .inr fun calls ↦ ?_
        obtain ⟨d, hd, h1, h2⟩ := ihb (⟨r, b.height⟩ :: calls)
        exact ⟨d, hd, ((run.reaches calls).step (site.step calls)).trans h1,
          h2.step (leaves.step _ calls)⟩
    · refine .inr fun calls ↦ ?_
      obtain ⟨d, hd, h1, h2⟩ := ih calls
      exact ⟨d, hd, h1, (h2.step (site.step calls)).trans (back calls)⟩

/-! ## Levels on top of each other -/

/-- A spot that a run comes to with the given outstanding calls: on each level it has gone from
the entry of a subroutine to a call, on the innermost one to the spot. -/
inductive Nested (code : Code) : List Outstanding → Spot → Prop where
  | top {b : Spot} (run : Level code (fun _ ↦ True) (.entry 0) b) : Nested code [] b
  | sub {calls : List Outstanding} {a b : Spot} {t r : Nat} (outer : Nested code calls a)
      (site : Calls code a.pc t r) (run : Level code (fun _ ↦ True) (.entry t) b) :
      Nested code (⟨r, a.height⟩ :: calls) b

theorem Nested.reachable {calls : List Outstanding} {a : Spot} (h : Nested code calls a) :
    Reachable code (a.under calls) := by
  induction h with
  | top run => exact run.reaches []
  | @sub calls a b t r _ site run ih => exact (ih.step (site.step calls)).trans (run.reaches _)

theorem Nested.flat {calls : List Outstanding} {a b : Spot} (h : Nested code calls a)
    (last : Flat code a b) : Nested code calls b := by
  cases h with
  | top run => exact .top (run.flat trivial last)
  | sub outer site run => exact .sub outer site (run.flat trivial last)

theorem Nested.call {calls : List Outstanding} {a b : Spot} {t r : Nat}
    (h : Nested code calls a) (site : Calls code a.pc t r)
    (body : Level code (fun _ ↦ True) (.entry t) b) (leaves : Leaves code b.pc) :
    Nested code calls ⟨r, a.height⟩ := by
  cases h with
  | top run => exact .top (run.call trivial site body trivial leaves)
  | sub outer site' run => exact .sub outer site' (run.call trivial site body trivial leaves)

/-- Every run is made of levels. -/
theorem nested_of_reachable {c : Config} (h : Reachable code c) :
    Nested code c.calls ⟨c.pc, c.height⟩ := by
  unfold Reachable at h
  induction h with
  | refl => exact .top (.refl _)
  | @step b c _ last ih =>
    rcases Step.cases_level (a := ⟨b.pc, b.height⟩) last with
      ⟨d, hd, rfl⟩ | ⟨t, r, site, rfl⟩ | ⟨k, rest, leaves, hk, rfl⟩
    · exact ih.flat hd
    · exact .sub ih site (.refl _)
    · rw [hk] at ih
      cases ih with
      | sub outer site run => exact outer.call site run leaves

theorem reachable_iff_nested {calls : List Outstanding} {a : Spot} :
    Reachable code (a.under calls) ↔ Nested code calls a :=
  ⟨nested_of_reachable, Nested.reachable⟩

end StackFlow.Machine
