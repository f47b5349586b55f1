import StackFlow.Check.Waits
import StackFlow.Heights

/-! # The state of a check, and the step that follows one path by one instruction -/

namespace StackFlow.Check

structure State where
  /-- The path being followed; none once all paths are. -/
  path? : Option Frame
  /-- The paths to follow after it. -/
  work : Worklist
  heights : Heights
  /-- The subroutine in which each offset was reached first; none for the top level. -/
  owners : Array (Option Nat)
  waits : Waits
  /-- The paths that ended where another one had been. -/
  prunes : Nat
  /-- The calls entered. -/
  calls : Nat
deriving DecidableEq, Repr

/-- What a step comes to. -/
inductive Step where
  /-- All paths have been followed. -/
  | done (s : State)
  /-- The path shows a violation. -/
  | fail (v : Violation) (events : List Event)
  /-- The check goes on. -/
  | next (s : State) (events : List Event)
deriving DecidableEq, Repr

namespace State

/-- Nothing is known of a code of this size, and one path starts at its beginning. -/
def initial (size : Nat) : State where
  path? := some .start
  work := (Worklist.push {} .start).pop
  heights := .empty size
  owners := Array.replicate size none
  waits := .empty size
  prunes := 0
  calls := 0

/-- Turns from a path that has ended to the latest work. -/
def turn (s : State) : State :=
  { s with path? := s.work.frames.back?, work := s.work.pop }

/-- Goes along with a move. -/
def follow (s : State) : Move → State
  | .halt => s.turn
  | .next f | .jump f => { s with path? := some f }
  | .branch taken fallthrough =>
    { s with path? := some taken, work := s.work.push fallthrough }
  | .call body resume =>
    let (waits, work) := s.waits.wait body.pc (.resume resume) s.work
    { s with path? := some body, waits, work, calls := s.calls + 1 }
  | .ret c =>
    let (waits, work) := s.waits.release [c.entry] s.work
    turn { s with waits, work }

/-- Ends a path that has come to a known offset. If the offset belongs to another subroutine, the
one that the path runs in returns whenever that one does. -/
def prune (s : State) (f : Frame) : State :=
  match f.entry?, s.owners[f.pc]?.join with
  | some entry, some owner =>
    if entry = owner then turn { s with prunes := s.prunes + 1 }
    else
      let (waits, work) := s.waits.wait owner (.entry entry) s.work
      turn { s with waits, work, prunes := s.prunes + 1 }
  | _, _ => turn { s with prunes := s.prunes + 1 }

/-- Follows the path by one instruction. A path that runs off the end of the code has ended in
success. -/
def step (code : Code) (starts : Starts) (limits : Limits) (s : State) : Step :=
  match s.path? with
  | none => .done s
  | some f =>
    match decode code f.pc with
    | none => .next s.turn []
    | some i =>
      match s.heights.arrive f.pc f.height with
      | (.conflict expected, _) => .fail (.heightMismatch f.pc expected f.height) []
      | (.again, heights) => .next (prune { s with heights } f) [.prune f.pc f.height]
      | (.first, heights) =>
        let visit := Event.visit f.pc i.byte f.height f.depth
        match f.advance limits starts i with
        | .error v => .fail v [visit]
        | .ok move =>
          .next (follow { s with heights, owners := s.owners.set! f.pc f.entry? } move)
            (visit :: move.edges f.pc)

/-- A bound on the steps to come: every offset not reached admits two, and every path at hand, at
work or waiting admits one. -/
def potential (s : State) : Nat :=
  2 * s.heights.unreached + s.path?.toList.length + s.work.frames.size + s.waits.suspended

end State

end StackFlow.Check
