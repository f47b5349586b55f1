/-! # Heights: the stack height at which each offset was reached first -/

namespace StackFlow

/-- A slot for each offset of a code, filled by the first arrival. -/
structure Heights where
  slots : Array (Option Nat)
deriving DecidableEq, Repr

/-- What an arrival at an offset amounts to. -/
inductive Arrival where
  /-- Nothing was known of the offset. -/
  | first
  /-- The offset is known at this height. -/
  | again
  /-- The offset is known at another height. -/
  | conflict (expected : Nat)
deriving DecidableEq, Repr

namespace Heights

def empty (size : Nat) : Heights := ⟨Array.replicate size none⟩

/-- The height known at an offset. -/
def at? (m : Heights) (pc : Nat) : Option Nat := m.slots[pc]?.join

/-- Arrives at an offset with a height. The first arrival fills the slot, and no later one changes
it. An offset without a slot counts as known at every height. -/
def arrive (m : Heights) (pc height : Nat) : Arrival × Heights :=
  match m.slots[pc]? with
  | some none => (.first, ⟨m.slots.set! pc (some height)⟩)
  | some (some expected) =>
    if expected = height then (.again, m) else (.conflict expected, m)
  | none => (.again, m)

/-- The number of offsets reached. -/
def reached (m : Heights) : Nat := m.slots.countP Option.isSome

/-- The number of offsets not reached. -/
def unreached (m : Heights) : Nat := m.slots.countP Option.isNone

@[simp] theorem at?_empty (size pc : Nat) : (empty size).at? pc = none := by
  by_cases h : pc < size <;> simp [empty, at?, h]

theorem arrive_of_first {m m' : Heights} {pc height : Nat}
    (h : m.arrive pc height = (.first, m')) :
    m.slots[pc]? = some none ∧ m' = ⟨m.slots.set! pc (some height)⟩ := by
  unfold arrive at h
  split at h
  · next slot => exact ⟨slot, (Prod.mk.inj h).2.symm⟩
  · split at h <;> cases h
  · cases h

theorem arrive_of_again {m m' : Heights} {pc height : Nat}
    (h : m.arrive pc height = (.again, m')) : m' = m := by
  unfold arrive at h
  split at h
  · cases h
  · split at h
    · exact (Prod.mk.inj h).2.symm
    · cases h
  · exact (Prod.mk.inj h).2.symm

/-- A first arrival leaves one offset less to reach. -/
theorem unreached_of_first {m m' : Heights} {pc height : Nat}
    (h : m.arrive pc height = (.first, m')) : m'.unreached + 1 = m.unreached := by
  obtain ⟨slot, rfl⟩ := arrive_of_first h
  obtain ⟨lt, slot⟩ := Array.getElem?_eq_some_iff.mp slot
  have pos : 0 < m.slots.countP Option.isNone :=
    Array.countP_pos_iff.mpr ⟨_, Array.getElem_mem lt, by rw [slot]; rfl⟩
  simp only [unreached, Array.set!_eq_setIfInBounds, Array.setIfInBounds, lt, dite_true,
    Array.countP_set, slot, Option.isNone_none, Option.isNone_some, if_true]
  simp only [Bool.false_eq_true, if_false]
  omega

end Heights

end StackFlow
