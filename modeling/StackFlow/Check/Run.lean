import StackFlow.Check.State

/-! # The run of a check to its end -/

namespace StackFlow.Check

namespace State

theorem potential_turn (s : State) :
    s.turn.potential + s.path?.toList.length = s.potential := by
  simp only [potential, turn, Worklist.pop]
  cases h : s.work.frames.back? with
  | none =>
    rw [Array.back?_eq_none_iff] at h
    simp [h]
    omega
  | some f =>
    obtain ⟨fs, h⟩ := Array.back?_eq_some_iff.mp h
    simp [h]
    omega

theorem potential_follow_le {s : State} {f : Frame} (path : s.path? = some f) (move : Move) :
    (s.follow move).potential ≤ s.potential + 1 := by
  cases move with
  | halt =>
    have := s.potential_turn
    simp only [follow]
    omega
  | next f => simp [follow, potential, path]
  | jump f => simp [follow, potential, path]
  | branch taken fallthrough =>
    simp [follow, potential, path]
    omega
  | call body resume =>
    have := s.waits.size_wait_le body.pc (.resume resume) s.work
    simp [follow, potential, path, Waiter.frame?] at this ⊢
    omega
  | ret c =>
    have := s.waits.size_release [c.entry] s.work
    have turned := potential_turn { s with
      waits := (s.waits.release [c.entry] s.work).1, work := (s.waits.release [c.entry] s.work).2 }
    simp only [follow, potential] at turned ⊢
    omega

theorem potential_prune_lt {s : State} {f : Frame} (path : s.path? = some f) :
    (s.prune f).potential < s.potential := by
  unfold prune
  split
  · next entry owner _ _ =>
    split
    · have := potential_turn { s with prunes := s.prunes + 1 }
      simp only [potential, path, Option.toList_some, List.length_singleton] at this ⊢
      omega
    · have := s.waits.size_wait_le owner (.entry entry) s.work
      have turned := potential_turn { s with
        waits := (s.waits.wait owner (.entry entry) s.work).1
        work := (s.waits.wait owner (.entry entry) s.work).2
        prunes := s.prunes + 1 }
      have none : ([Waiter.entry entry].filterMap Waiter.frame?).length = 0 := rfl
      simp only [potential, path, Option.toList_some, List.length_singleton] at this turned ⊢
      omega
  · have := potential_turn { s with prunes := s.prunes + 1 }
    simp only [potential, path, Option.toList_some, List.length_singleton] at this ⊢
    omega

/-- Every step uses up some of the potential. -/
theorem potential_step {code : Code} {starts : Starts} {limits : Limits} {s s' : State}
    {events : List Event} (h : s.step code starts limits = .next s' events) :
    s'.potential < s.potential := by
  unfold step at h
  split at h
  · cases h
  · next f path =>
    split at h
    · cases h
      have := s.potential_turn
      simp only [path, Option.toList_some, List.length_singleton] at this
      omega
    · split at h
      · cases h
      · next heights known =>
        cases h
        cases Heights.arrive_of_again known
        exact potential_prune_lt path
      · next heights new =>
        split at h
        · cases h
        · next move _ =>
          cases h
          have reached := Heights.unreached_of_first new
          have moved := potential_follow_le (s := { s with
            heights, owners := s.owners.set! f.pc f.entry? }) path move
          simp only [potential] at moved ⊢
          omega

/-- Follows all paths to their end, or up to the first violation, and reports to a sink. -/
def run {σ : Type} (code : Code) (starts : Starts) (limits : Limits) (sink : Sink σ) (s : State)
    (t : σ) : Except Violation State × σ :=
  match _h : s.step code starts limits with
  | .done s => (.ok s, t)
  | .fail v events => (.error v, sink.observe events t)
  | .next s events => run code starts limits sink s (sink.observe events t)
termination_by s.potential
decreasing_by exact potential_step _h

end State

end StackFlow.Check
