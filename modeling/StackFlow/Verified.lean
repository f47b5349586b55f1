import StackFlow.Check.Run

/-! # Verified code: what a check that finds no violation has shown -/

namespace StackFlow

/-- The work that a check took. -/
structure Stats where
  /-- The offsets expanded. -/
  visits : Nat
  /-- The paths that ended at a known offset. -/
  prunes : Nat
  /-- The frames pushed as work: the first one, fall-throughs of branches, resumed calls. -/
  pushed : Nat
  /-- The most frames there were to follow later. -/
  peak : Nat
  /-- The calls entered. -/
  calls : Nat
deriving DecidableEq, Repr

/-- Code that no static path of which shows a violation. -/
structure Verified where
  code : Code
  starts : Starts
  heights : Heights
  stats : Stats
deriving DecidableEq, Repr

namespace Verified

/-- The height of the data stack at an offset, counted from where the current subroutine was
entered; none if no path comes to the offset. -/
def heightAt? (v : Verified) (pc : Nat) : Option Nat := v.heights.at? pc

/-- Whether some path comes to an offset. -/
def isReachable (v : Verified) (pc : Nat) : Bool := (v.heightAt? pc).isSome

/-- What the final state of a check shows. -/
def ofState (code : Code) (starts : Starts) (s : Check.State) : Verified where
  code := code
  starts := starts
  heights := s.heights
  stats :=
    { visits := s.heights.reached, prunes := s.prunes, pushed := s.work.pushed,
      peak := s.work.peak, calls := s.calls }

end Verified

variable {σ : Type}

/-- Follows all paths of a code that is short enough. -/
def explore (sink : Sink σ) (code : Code) (limits : Limits) (t : σ) :
    Except Violation Verified × σ :=
  if limits.maxCodeLength < code.size then
    (.error (.codeTooLong code.size limits.maxCodeLength), t)
  else
    let starts := Starts.ofCode code
    let (result, t) := (Check.State.initial code.size).run code starts limits sink t
    (result.map (Verified.ofState code starts), t)

/-- The violation that a result reports, if any. -/
def violation? {α : Type} : Except Violation α → Option Violation
  | .ok _ => none
  | .error v => some v

/-- Checks a code, and reports to a sink from start to end. -/
def verifyWith (sink : Sink σ) (code : Code) (limits : Limits) (t : σ) :
    Except Violation Verified × σ :=
  let (result, t) := explore sink code limits (sink.observe [.runStart code.size] t)
  (result, sink.observe [.runEnd (violation? result)] t)

/-- Checks a code. -/
def verify (code : Code) (limits : Limits) : Except Violation Verified :=
  (verifyWith {} code limits ()).1

/-- The verdict on a code under the default limits. -/
def validate (code : Code) : Verdict := .ofResult (verify code {})

end StackFlow
