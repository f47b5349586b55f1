import StackFlow.Chains
import StackFlow.Check.Frame

/-! # Waits: work put off until a subroutine is known to return -/

namespace StackFlow.Check

/-- The frames to be expanded later, the next one on top, with a record of how many were ever
pushed and of how many there were at most. -/
structure Worklist where
  frames : Array Frame := #[]
  pushed : Nat := 0
  peak : Nat := 0
deriving DecidableEq, Repr

namespace Worklist

def push (w : Worklist) (f : Frame) : Worklist :=
  let frames := w.frames.push f
  { frames, pushed := w.pushed + 1, peak := max w.peak frames.size }

def pushAll (w : Worklist) (fs : List Frame) : Worklist := fs.foldl push w

def pop (w : Worklist) : Worklist := { w with frames := w.frames.pop }

@[simp] theorem size_push (w : Worklist) (f : Frame) :
    (w.push f).frames.size = w.frames.size + 1 := by
  simp [push]

@[simp] theorem size_pushAll (w : Worklist) (fs : List Frame) :
    (w.pushAll fs).frames.size = w.frames.size + fs.length := by
  induction fs generalizing w with
  | nil => rfl
  | cons f fs ih =>
    have := ih (w.push f)
    simp only [pushAll, List.foldl_cons, size_push, List.length_cons] at this ⊢
    omega

end Worklist

/-- What can wait for a subroutine to return. -/
inductive Waiter where
  /-- The code behind a call. -/
  | resume (f : Frame)
  /-- Another subroutine that goes over into this one, and returns if it does. -/
  | entry (e : Nat)
deriving DecidableEq, Repr

def Waiter.frame? : Waiter → Option Frame
  | .resume f => some f
  | .entry _ => none

def Waiter.entry? : Waiter → Option Nat
  | .resume _ => none
  | .entry e => some e

/-- The subroutine entries that are known to return, and the waiters parked at the others, the
latest first. -/
structure Waits where
  returning : IndexSet
  parked : Chains Waiter
deriving DecidableEq, Repr

namespace Waits

def empty (size : Nat) : Waits where
  returning := .empty size
  parked := .empty size

/-- The waiters parked at an entry. -/
def parkedAt (w : Waits) (e : Nat) : List Waiter := w.parked.items e

/-- Marks an entry as returning and forgets its waiters. -/
def mark (w : Waits) (e : Nat) : Waits where
  returning := w.returning.insert e
  parked := w.parked.clear e

/-- Parks a waiter at an entry. -/
def park (w : Waits) (e : Nat) (waiter : Waiter) : Waits :=
  { w with parked := w.parked.add e waiter }

/-- The number of waiters parked. -/
def waiting (w : Waits) : Nat := w.parked.total List.length

/-- Marks entries as returning, the first one first. The frames that waited for an entry become
work, and the entries that waited for it are marked next, ahead of the rest. -/
def release (entries : List Nat) (w : Waits) (work : Worklist) : Waits × Worklist :=
  match entries with
  | [] => (w, work)
  | e :: rest =>
    if w.returning.contains e then release rest w work
    else
      release (((w.parkedAt e).filterMap Waiter.entry?).reverse ++ rest) (w.mark e)
        (work.pushAll ((w.parkedAt e).filterMap Waiter.frame?))
termination_by entries.length + w.waiting
decreasing_by
  · simp
  · have := w.parked.total_clear List.length_nil e
    have := List.length_filterMap_le Waiter.entry? (w.parkedAt e)
    simp [waiting, mark, parkedAt] at *
    omega

/-- Makes a waiter wait for an entry, not at all if the entry is known to return. -/
def wait (w : Waits) (e : Nat) (waiter : Waiter) (work : Worklist) : Waits × Worklist :=
  if w.returning.contains e then
    match waiter with
    | .resume f => (w, work.push f)
    | .entry d => w.release [d] work
  else (w.park e waiter, work)

/-- The number of frames that wait. -/
def suspended (w : Waits) : Nat := w.parked.total fun ws => (ws.filterMap Waiter.frame?).length

@[simp] theorem suspended_mark (w : Waits) (e : Nat) :
    (w.mark e).suspended + ((w.parkedAt e).filterMap Waiter.frame?).length = w.suspended :=
  w.parked.total_clear rfl e

/-- Releasing moves frames from the waiters to the work, and loses none. -/
theorem size_release (entries : List Nat) (w : Waits) (work : Worklist) :
    (release entries w work).2.frames.size + (release entries w work).1.suspended =
      work.frames.size + w.suspended := by
  fun_induction release entries w work with
  | case1 => rfl
  | case2 _ _ _ _ _ ih => exact ih
  | case3 w work e _ _ ih =>
    have := w.suspended_mark e
    rw [ih, Worklist.size_pushAll]
    omega

theorem suspended_park_le (w : Waits) (e : Nat) (waiter : Waiter) :
    (w.park e waiter).suspended ≤ w.suspended + ([waiter].filterMap Waiter.frame?).length := by
  refine w.parked.total_add_le e fun ws => ?_
  rw [← List.singleton_append, List.filterMap_append, List.length_append]
  omega

/-- A waiter that is a frame adds one frame to those at work and those waiting. -/
theorem size_wait_le (w : Waits) (e : Nat) (waiter : Waiter) (work : Worklist) :
    (w.wait e waiter work).2.frames.size + (w.wait e waiter work).1.suspended ≤
      work.frames.size + w.suspended + ([waiter].filterMap Waiter.frame?).length := by
  unfold wait
  split
  · cases waiter with
    | resume f => simp [Waiter.frame?]; omega
    | entry d => simp only [size_release]; omega
  · have := suspended_park_le w e waiter
    simp only
    omega

end Waits

end StackFlow.Check
