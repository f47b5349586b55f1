import StackFlow.Packed.State
import StackFlow.Result
import StackFlow.Runs
import StackFlow.Verified

/-! # A check in machine words, from start to end -/

namespace StackFlow.Packed

/-! ## Every step uses something up -/

namespace Worklist

@[simp] theorem size_push (w : Worklist) (f : Frame) :
    (w.push f).frames.size = w.frames.size + 1 := by
  simp [push]

@[simp] theorem size_pushAll (w : Worklist) (fs : List Frame) :
    (w.pushAll fs).frames.size = w.frames.size + fs.length := by
  induction fs generalizing w with
  | nil => rfl
  | cons f fs ih =>
    have := ih (w.push f)
    simp only [pushAll, List.foldl_cons, size_push, List.length_cons] at this ⊢
    omega

end Worklist

namespace Waits

variable {w : Waits} {work : Worklist} {r : Waits × Worklist}

/-- The number of frames that wait. -/
def suspended (w : Waits) : Nat := w.parked.total fun ws => (ws.filterMap Waiter.frame?).length

/-- Releasing moves frames from the waiters to the work, and loses none. -/
theorem size_release {entries : List UInt32} (h : w.release entries work = .ok r) :
    r.2.frames.size + r.1.suspended = work.frames.size + w.suspended := by
  fun_induction release entries w work with
  | case1 =>
    cases h
    rfl
  | case2 w work e rest _ ih => exact ih h
  | case3 => cases h
  | case4 w work e rest _ ws here ih =>
    obtain rfl := waitersAt_eq_ok here
    have : (w.mark e).suspended + ((w.parked.items e.toNat).filterMap Waiter.frame?).length =
        w.suspended := w.parked.total_clear rfl e.toNat
    rw [ih h, Worklist.size_pushAll]
    omega

/-- An entry that waits is no frame, and brings none but those that it releases. -/
theorem size_wait_entry {e d : UInt32} (room : w.parked.links.size < UInt32.size)
    (h : w.wait e (.entry d) work = .ok r) :
    r.2.frames.size + r.1.suspended ≤ work.frames.size + w.suspended := by
  unfold wait at h
  split at h
  · exact Nat.le_of_eq (size_release h)
  · obtain ⟨w', parked, rfl⟩ := map_eq_ok.mp h
    rw [park_of_lt room] at parked
    obtain ⟨_, _, rfl⟩ := map_eq_ok.mp parked
    have parked : suspended { w with parked := w.parked.add e.toNat (.entry d) } ≤ w.suspended :=
      w.parked.total_add_le (n := 0) e.toNat fun ws ↦ Nat.le_refl _
    exact Nat.add_le_add_left parked _

end Waits

namespace State

variable {s s' : State} {f : Frame} {own? : Option UInt32}

/-- The number of offsets not reached. -/
def unreached (s : State) : Nat := s.heights.countP Option.isNone

/-- The number of frames at hand, at work or waiting. -/
def pending (s : State) : Nat :=
  s.path?.toList.length + s.work.frames.size + s.waits.suspended

theorem pending_turn (s : State) : s.turn.pending + s.path?.toList.length = s.pending := by
  simp only [pending, turn, Worklist.pop]
  cases h : s.work.frames.back? with
  | none =>
    rw [Array.back?_eq_none_iff] at h
    simp [h]
    omega
  | some f =>
    obtain ⟨fs, h⟩ := Array.back?_eq_some_iff.mp h
    simp [h]
    omega

theorem pending_turn_lt (path : s.path? = some f) : s.turn.pending < s.pending := by
  have := s.pending_turn
  simp only [path, Option.toList_some, List.length_singleton] at this
  omega

theorem prune_lt (path : s.path? = some f) (h : s.prune f own? = .ok s') :
    s'.heights = s.heights ∧ s'.pending < s.pending := by
  have turned (n : Nat) : (turn { s with prunes := n }).pending < s.pending :=
    pending_turn_lt (s := { s with prunes := n }) path
  obtain ⟨owner?, -, h⟩ := bind_eq_ok.mp h
  split at h
  · split at h
    · cases h
      exact ⟨rfl, turned _⟩
    · obtain ⟨⟨waits, work⟩, waited, h⟩ := bind_eq_ok.mp h
      cases h
      obtain ⟨number, room, waited⟩ := bind_eq_ok.mp waited
      have le : work.frames.size + waits.suspended ≤ _ :=
        Waits.size_wait_entry (lt_of_numberOf room) waited
      have lt := pending_turn_lt (s := { s with waits, work, prunes := s.prunes + 1 }) path
      refine ⟨rfl, Nat.lt_of_lt_of_le lt ?_⟩
      simp only [pending]
      omega
  · cases h
    exact ⟨rfl, turned _⟩

theorem heights_follow {m : Move} (h : s.follow m = .ok s') : s'.heights = s.heights := by
  cases m with
  | halt | next | jump | branch =>
    cases h
    rfl
  | call =>
    obtain ⟨call, -, h⟩ := bind_eq_ok.mp h
    obtain ⟨r, -, h⟩ := bind_eq_ok.mp h
    obtain ⟨base, -, h⟩ := bind_eq_ok.mp h
    obtain ⟨depth, -, h⟩ := bind_eq_ok.mp h
    cases h
    rfl
  | ret =>
    obtain ⟨r, -, rfl⟩ := map_eq_ok.mp h
    rfl

theorem unreached_visit (new : lookup s.heights f.pc = .ok none)
    (h : s.visit f own? = .ok s') : s'.unreached < s.unreached := by
  obtain ⟨heights, stored, h⟩ := bind_eq_ok.mp h
  obtain ⟨owners, -, h⟩ := bind_eq_ok.mp h
  cases h
  unfold lookup at new
  split at new
  · next slot =>
    cases new
    obtain ⟨lt, slot⟩ := Array.getElem?_eq_some_iff.mp slot
    have pos : 0 < s.heights.countP Option.isNone :=
      Array.countP_pos_iff.mpr ⟨_, Array.getElem_mem lt, by rw [slot]; rfl⟩
    rw [store, if_pos lt] at stored
    cases stored
    simp only [unreached, Array.set!_eq_setIfInBounds, Array.setIfInBounds, lt, dite_true,
      Array.countP_set, slot, Option.isNone_none, Option.isNone_some, if_true, Bool.false_eq_true,
      if_false]
    omega
  · cases new

/-- A step reaches an offset, or it ends a path. -/
theorem step_lt {code : Code} {starts : Starts} {limits : Limits} (path : s.path? = some f)
    (h : s.step code starts limits f = .ok s') :
    s'.unreached < s.unreached ∨ s'.heights = s.heights ∧ s'.pending < s.pending := by
  unfold step at h
  split at h
  · cases h
    exact .inr ⟨rfl, pending_turn_lt path⟩
  · obtain ⟨own?, -, h⟩ := bind_eq_ok.mp h
    obtain ⟨height?, known, h⟩ := bind_eq_ok.mp h
    split at h
    · split at h
      · exact .inr (prune_lt path h)
      · cases h
    · obtain ⟨visited, visit, h⟩ := bind_eq_ok.mp h
      obtain ⟨m, -, h⟩ := bind_eq_ok.mp h
      have := unreached_visit known visit
      rw [unreached, heights_follow h]
      exact .inl this

/-! ## Runs -/

/-- Follows all paths to their end, or up to the first violation. -/
def run (code : Code) (starts : Starts) (limits : Limits) (s : State) : Except Stop State :=
  match _path : s.path? with
  | none => .ok s
  | some f =>
    match _h : s.step code starts limits f with
    | .error x => .error x
    | .ok s' => run code starts limits s'
termination_by (s.unreached, s.pending)
decreasing_by
  rcases step_lt _path _h with lt | ⟨same, lt⟩
  · exact .left _ _ lt
  · rw [unreached, unreached, same]
    exact .right _ lt

/-- What the final state of a check shows. -/
def verified (code : Code) (starts : Starts) (s : State) : Verified where
  code := code
  starts := starts
  heights := ⟨s.heights.map (Option.map UInt16.toNat)⟩
  stats :=
    { visits := s.visits, prunes := s.prunes, pushed := s.work.pushed, peak := s.work.peak,
      calls := s.calls.size }

end State

/-! ## Instruction starts -/

/-- Adds the offsets that a sweep in words meets from `pc` on. -/
def mark (code : Code) (pc : UInt32) (offsets : IndexSet) : Except Stop IndexSet :=
  match _fetch : decode code pc.toNat with
  | none => .ok offsets
  | some i =>
    match _sum : next i with
    | .error x => .error x
    | .ok behind => mark code behind (offsets.insert pc.toNat)
termination_by code.size - pc.toNat
decreasing_by
  have inside := lt_size_of_decode _fetch
  have ahead := lt_next_of_decode _fetch
  have here := pc_of_decode _fetch
  have := (next_eq_ok_iff (here ▸ pc.toNat_lt_size)).mp _sum
  omega

/-- The instruction starts of a code. -/
def startsOf (code : Code) : Except Stop Starts :=
  (mark code 0 (.empty code.size)).map Starts.mk

/-- Checks a code in machine words. -/
def verify (code : Code) (limits : Limits) : Except Stop Verified :=
  if limits.maxCodeLength < code.size then
    .error (.violation (.codeTooLong code.size limits.maxCodeLength))
  else do
    let starts ← startsOf code
    ((State.initial code.size).run code starts limits).map (State.verified code starts)

/-- Checks the code of runs. It is put together only if it is short enough. -/
def verifyRuns (rs : List Run) (limits : Limits) : Except Stop Verified :=
  if limits.maxCodeLength < sizeOfRuns rs then
    .error (.violation (.codeTooLong (sizeOfRuns rs) limits.maxCodeLength))
  else verify (codeOfRuns rs) limits

theorem verifyRuns_eq (rs : List Run) (limits : Limits) :
    verifyRuns rs limits = verify (codeOfRuns rs) limits := by
  unfold verifyRuns
  split
  · next long =>
    rw [verify, size_codeOfRuns, if_pos long]
  · rfl

end StackFlow.Packed
