import StackFlow.Chains
import StackFlow.Packed.Frame

/-! # The tables of a check in machine words, and its step -/

namespace StackFlow.Packed

/-- The frames to be expanded later, the next one on top, with a record of how many were ever
pushed and of how many there were at most. -/
structure Worklist where
  frames : Array Frame := #[]
  pushed : Nat := 0
  peak : Nat := 0
deriving DecidableEq, Repr

namespace Worklist

def push (w : Worklist) (f : Frame) : Worklist :=
  let frames := w.frames.push f
  { frames, pushed := w.pushed + 1, peak := max w.peak frames.size }

def pushAll (w : Worklist) (fs : List Frame) : Worklist := fs.foldl push w

def pop (w : Worklist) : Worklist := { w with frames := w.frames.pop }

end Worklist

/-- What can wait for a subroutine to return: the code behind a call, or another subroutine that
goes over into this one. -/
inductive Waiter where
  | resume (f : Frame)
  | entry (e : UInt32)
deriving DecidableEq, Repr

def Waiter.frame? : Waiter → Option Frame
  | .resume f => some f
  | .entry _ => none

def Waiter.entry? : Waiter → Option UInt32
  | .resume _ => none
  | .entry e => some e

/-- The subroutine entries that are known to return, and the waiters parked at the others, in
lists that are linked by number. -/
structure Waits where
  returning : IndexSet
  parked : Chains Waiter
deriving DecidableEq, Repr

namespace Waits

def empty (size : Nat) : Waits where
  returning := .empty size
  parked := .empty size

/-- The waiters from a link on. -/
def waitersFrom (c : Chains Waiter) (first? : Option Nat) : Except Stop (List Waiter) :=
  match first? with
  | none => .ok []
  | some i =>
    match _h : c.links[i]? with
    | none => .error (.fault (.outOfRange c.links.size i))
    | some l => (waitersFrom c l.next?).map (l.item :: ·)
termination_by first?.elim 0 (· + 1)
decreasing_by
  cases hn : l.next? with
  | none => exact Nat.succ_pos i
  | some j => exact Nat.succ_lt_succ (c.next_lt i l _h j hn)

/-- The waiters parked at an entry. -/
def waitersAt (w : Waits) (e : UInt32) : Except Stop (List Waiter) := do
  let head? ← lookup w.parked.heads e
  waitersFrom w.parked head?

/-- Marks an entry as returning and forgets its waiters. -/
def mark (w : Waits) (e : UInt32) : Waits where
  returning := w.returning.insert e.toNat
  parked := w.parked.clear e.toNat

/-- Parks a waiter at an entry. Its link goes by the next number, or by the last one if none is
left. -/
def park (w : Waits) (e : UInt32) (x : Waiter) : Except Stop Waits := do
  let _ ← lookup w.parked.heads e
  let number := min w.parked.links.size lastNumber
  return { w with parked := w.parked.addAs e.toNat x number (Nat.min_le_left _ _) }

/-- As long as numbers are left, a waiter is parked under the next one. -/
theorem park_of_lt {w : Waits} (room : w.parked.links.size < UInt32.size) (e : UInt32)
    (x : Waiter) :
    w.park e x =
      (lookup w.parked.heads e).map fun _ ↦ { w with parked := w.parked.add e.toNat x } := by
  have next : min w.parked.links.size lastNumber = w.parked.links.size :=
    Nat.min_eq_left (Nat.le_of_lt_succ room)
  simp only [park, w.parked.addAs_eq_add e.toNat x (Nat.min_le_left _ _) next]
  cases lookup w.parked.heads e <;> rfl

theorem waitersFrom_eq_ok {c : Chains Waiter} {first? : Option Nat} {ws : List Waiter}
    (h : waitersFrom c first? = .ok ws) : ws = c.itemsFrom first? := by
  fun_induction waitersFrom c first? generalizing ws with
  | case1 =>
    cases h
    rw [Chains.itemsFrom_none]
  | case2 => cases h
  | case3 i l link ih =>
    rw [c.itemsFrom_some link]
    cases rest : waitersFrom c l.next? with
    | error => simp [rest, Except.map] at h
    | ok rest' =>
      rw [rest] at h
      cases h
      rw [ih rest]

theorem waitersAt_eq_ok {w : Waits} {e : UInt32} {ws : List Waiter} (h : w.waitersAt e = .ok ws) :
    ws = w.parked.items e.toNat := by
  simp only [waitersAt, lookup, bind, Except.bind] at h
  split at h
  · cases h
  · next head? found =>
    split at found
    · next slot =>
      cases found
      rw [waitersFrom_eq_ok h, Chains.items, Chains.head?, slot, Option.join_some]
    · cases found

/-- Marks entries as returning, the first one first. The frames that waited for an entry become
work, and the entries that waited for it are marked next, ahead of the rest. -/
def release (entries : List UInt32) (w : Waits) (work : Worklist) :
    Except Stop (Waits × Worklist) :=
  match entries with
  | [] => .ok (w, work)
  | e :: rest =>
    if w.returning.contains e.toNat then release rest w work
    else
      match _h : w.waitersAt e with
      | .error x => .error x
      | .ok ws =>
        release ((ws.filterMap Waiter.entry?).reverse ++ rest) (w.mark e)
          (work.pushAll (ws.filterMap Waiter.frame?))
termination_by entries.length + w.parked.total List.length
decreasing_by
  · simp
  · have := waitersAt_eq_ok _h
    have := w.parked.total_clear List.length_nil e.toNat
    have := List.length_filterMap_le Waiter.entry? ws
    simp only [mark, List.length_append, List.length_reverse, List.length_cons]
    subst ws
    omega

/-- Makes a waiter wait for an entry, not at all if the entry is known to return. -/
def wait (w : Waits) (e : UInt32) (x : Waiter) (work : Worklist) :
    Except Stop (Waits × Worklist) :=
  if w.returning.contains e.toNat then
    match x with
    | .resume f => .ok (w, work.push f)
    | .entry d => w.release [d] work
  else (w.park e x).map (·, work)

end Waits

structure State where
  /-- The path being followed; none once all paths are. -/
  path? : Option Frame
  /-- The paths to follow after it. -/
  work : Worklist
  /-- The height at which each offset was reached first. -/
  heights : Array (Option UInt16)
  /-- The subroutine in which each offset was reached first; none for the top level. -/
  owners : Array (Option UInt32)
  waits : Waits
  /-- The calls entered, by their numbers. -/
  calls : Array Call
  /-- The offsets reached. -/
  visits : Nat
  /-- The paths that ended where another one had been. -/
  prunes : Nat
deriving DecidableEq, Repr

namespace State

def initial (size : Nat) : State where
  path? := some .start
  work := (Worklist.push {} .start).pop
  heights := Array.replicate size none
  owners := Array.replicate size none
  waits := .empty size
  calls := #[]
  visits := 0
  prunes := 0

/-- Turns from a path that has ended to the latest work. -/
def turn (s : State) : State :=
  { s with path? := s.work.frames.back?, work := s.work.pop }

/-- Makes a waiter wait, as long as there is a number for its link that no other link has. -/
def wait (s : State) (e : UInt32) (x : Waiter) : Except Stop (Waits × Worklist) := do
  let _ ← numberOf s.waits.parked.links.size
  s.waits.wait e x s.work

theorem wait_of_lt {s : State} (room : s.waits.parked.links.size < UInt32.size) (e : UInt32)
    (x : Waiter) : s.wait e x = s.waits.wait e x s.work := by
  rw [wait, numberOf, if_pos room]
  rfl

/-- Enters a subroutine: the call gets a number, and the code behind it waits. -/
def enter (s : State) (entry : UInt32) (resume : Frame) : Except Stop State := do
  let call ← numberOf s.calls.size
  let (waits, work) ← s.wait entry (.resume resume)
  let base ← sum16 resume.base resume.height
  let depth ← sum16 resume.depth 1
  return { s with
    path? := some { pc := entry, height := 0, base, depth, call? := some call }
    calls := s.calls.push { entry, resume := resume.pc }
    waits
    work }

/-- Goes along with a move. -/
def follow (s : State) : Move → Except Stop State
  | .halt => .ok s.turn
  | .next f | .jump f => .ok { s with path? := some f }
  | .branch taken fallthrough =>
    .ok { s with path? := some taken, work := s.work.push fallthrough }
  | .call entry resume => s.enter entry resume
  | .ret c => (s.waits.release [c.entry] s.work).map fun (waits, work) =>
    turn { s with waits, work }

/-- Ends a path that has come to a known offset, in the subroutine `own?`. -/
def prune (s : State) (f : Frame) (own? : Option UInt32) : Except Stop State := do
  let owner? ← lookup s.owners f.pc
  match own?, owner? with
  | some entry, some owner =>
    if entry = owner then return turn { s with prunes := s.prunes + 1 }
    else
      let (waits, work) ← s.wait owner (.entry entry)
      return turn { s with waits, work, prunes := s.prunes + 1 }
  | _, _ => return turn { s with prunes := s.prunes + 1 }

/-- Takes down that a frame has come to a new offset, in the subroutine `own?`. -/
def visit (s : State) (f : Frame) (own? : Option UInt32) : Except Stop State := do
  let heights ← store s.heights f.pc (some f.height)
  let owners ← store s.owners f.pc own?
  return { s with heights, owners, visits := s.visits + 1 }

/-- Follows the path by one instruction, from the frame where it stands. -/
def step (code : Code) (starts : Starts) (limits : Limits) (s : State) (f : Frame) :
    Except Stop State :=
  match decode code f.pc.toNat with
  | none => .ok s.turn
  | some i => do
    let own? ← f.entry? s.calls
    let height? ← lookup s.heights f.pc
    match height? with
    | some expected =>
      if expected = f.height then s.prune f own?
      else throw (.violation (.heightMismatch f.pc.toNat expected.toNat f.height.toNat))
    | none =>
      let s ← s.visit f own?
      let move ← f.advance limits starts s.calls i
      s.follow move

end State

end StackFlow.Packed
