import StackFlow.Violation

/-! # Events: what a check reports while it runs -/

namespace StackFlow

/-- The ways in which control passes along. -/
inductive EdgeKind where
  | jump
  | branchTaken
  | branchFallthrough
  | call
  | ret
deriving DecidableEq, Repr

inductive Event where
  /-- The check starts on a code of this length. -/
  | runStart (codeLength : Nat)
  /-- An offset is expanded for the first time, at this height and depth of calls. -/
  | visit (pc : Nat) (byte : UInt8) (height depth : Nat)
  /-- A path ends at an offset that was expanded at the same height before. -/
  | prune (pc height : Nat)
  /-- Control passes from one offset to another. -/
  | edge (kind : EdgeKind) (source target : Nat)
  /-- The check ends, with the violation found if there is one. -/
  | runEnd (violation? : Option Violation)
deriving DecidableEq, Repr

/-- The kinds in which events can be asked for. -/
inductive Event.Kind where
  | run
  | visit
  | prune
  | edge
deriving DecidableEq, Repr

def Event.kind : Event → Event.Kind
  | .runStart _ | .runEnd _ => .run
  | .visit .. => .visit
  | .prune .. => .prune
  | .edge .. => .edge

/-- A set of event kinds. -/
structure EventMask where
  run : Bool := false
  visit : Bool := false
  prune : Bool := false
  edge : Bool := false
deriving DecidableEq, Repr

namespace EventMask

def none : EventMask := {}

def all : EventMask := { run := true, visit := true, prune := true, edge := true }

/-- The mask of one kind. -/
def only : Event.Kind → EventMask
  | .run => { run := true }
  | .visit => { visit := true }
  | .prune => { prune := true }
  | .edge => { edge := true }

/-- Whether events of a kind are asked for. -/
def wants (m : EventMask) : Event.Kind → Bool
  | .run => m.run
  | .visit => m.visit
  | .prune => m.prune
  | .edge => m.edge

def union (m n : EventMask) : EventMask where
  run := m.run || n.run
  visit := m.visit || n.visit
  prune := m.prune || n.prune
  edge := m.edge || n.edge

/-- Whether all kinds of `n` are in `m`. -/
def contains (m n : EventMask) : Bool := m.union n = m

@[simp] theorem wants_none (c : Event.Kind) : none.wants c = false := by cases c <;> rfl

@[simp] theorem wants_all (c : Event.Kind) : all.wants c = true := by cases c <;> rfl

@[simp] theorem wants_only (c d : Event.Kind) : (only c).wants d = decide (c = d) := by
  cases c <;> cases d <;> rfl

@[simp] theorem wants_union (m n : EventMask) (c : Event.Kind) :
    (m.union n).wants c = (m.wants c || n.wants c) := by cases c <;> rfl

end EventMask

/-- A receiver of events with a state of its own. By itself it asks for nothing and leaves its
state alone. -/
structure Sink (σ : Type) where
  mask : EventMask := .none
  record : Event → σ → σ := fun _ s => s

namespace Sink

variable {σ : Type}

/-- Hands over the events that are asked for, in order. -/
def observe (sink : Sink σ) (events : List Event) (s : σ) : σ :=
  events.foldl (fun s e => if sink.mask.wants e.kind then sink.record e s else s) s

/-- A sink that keeps all it receives. -/
def recorder (mask : EventMask) : Sink (Array Event) where
  mask := mask
  record e s := s.push e

@[simp] theorem observe_nil (sink : Sink σ) (s : σ) : sink.observe [] s = s := rfl

theorem observe_append (sink : Sink σ) (es fs : List Event) (s : σ) :
    sink.observe (es ++ fs) s = sink.observe fs (sink.observe es s) := by
  simp [observe]

end Sink

end StackFlow
