import StackFlow.Proofs.Work

/-!
# What a sink receives is a view of the trace

The mask of a sink decides which events it receives, and nothing else: every
check makes the same rounds, comes to the same result, and hands over what the
mask wants of the whole trace, in order (`verifyWith_eq`).  `StopsAt` says where
the trace of rejected code breaks off.
-/

namespace StackFlow

variable {σ : Type} {code : Code} {limits : Limits} {events later : List Event}

namespace Sink

/-- Handing over only what is asked for is handing over all that is left of a filter. -/
theorem observe_eq_foldl (sink : Sink σ) (events : List Event) (t : σ) :
    sink.observe events t =
      (events.filter (sink.mask.wants ·.kind)).foldl (fun t e ↦ sink.record e t) t :=
  List.foldl_filter.symm

@[simp] theorem observe_recorder (mask : EventMask) (events : List Event) (t : Array Event) :
    (recorder mask).observe events t = t ++ (events.filter (mask.wants ·.kind)).toArray := by
  rw [observe_eq_foldl]
  change (events.filter (mask.wants ·.kind)).foldl Array.push t = _
  exact List.foldl_push_eq_append'

end Sink

namespace Check

variable {s last : State} {n : Nat}

/-- The rounds of a check take the events up to a state to those up to the last one, where nothing
is left to follow or the round at hand fails. -/
theorem Rounds.traced (h : Rounds code limits s n later last)
    (before : Traced code limits s events) :
    ∃ body new, later = body ++ new ∧ Traced code limits last (events ++ body) ∧
      (last.path? = none ∧ new = [] ∨
        ∃ w, last.step code (.ofCode code) limits = .fail w new) := by
  induction h generalizing events with
  | done path =>
    exact ⟨[], [], rfl, by rwa [List.append_nil], .inl ⟨path, rfl⟩⟩
  | @fail s w new step =>
    exact ⟨[], new, rfl, by rwa [List.append_nil], .inr ⟨w, step⟩⟩
  | @next s s' last n events' later step _ ih =>
    obtain ⟨body, new, rfl, traced, ends⟩ := ih (before.step step)
    refine ⟨events' ++ body, new, (List.append_assoc _ _ _).symm, ?_, ends⟩
    rwa [← List.append_assoc]

/-- What a check has reported when it stops at a violation. -/
inductive StopsAt (code : Code) (limits : Limits) (w : Violation) : List Event → Prop where
  /-- Nothing, if the code is not looked at. -/
  | unread (kind : w.kind = .codeTooLong) : StopsAt code limits w []
  /-- All up to the arrival at the instruction at fault, if the fault is the height there. -/
  | arrival {s : State} {f : Frame} {events : List Event} (before : Traced code limits s events)
      (path : s.path? = some f) (here : f.pc = w.pc) (kind : w.kind = .heightMismatch) :
      StopsAt code limits w events
  /-- All up to the visit of the instruction at fault, if that cannot be run. -/
  | visit {s : State} {f : Frame} {events : List Event} {byte : UInt8}
      (before : Traced code limits s events) (path : s.path? = some f) (here : f.pc = w.pc)
      (kind : w.kind ≠ .heightMismatch) (fetch : code[w.pc]? = some byte) :
      StopsAt code limits w (events ++ [.visit w.pc byte f.height f.depth])

/-- Code that is short enough is rejected in the round after its rounds so far. -/
theorem exists_traced_of_error {w : Violation} (hle : code.size ≤ limits.maxCodeLength)
    (h : verify code limits = .error w) :
    ∃ s events new, Traced code limits s events ∧
      s.step code (.ofCode code) limits = .fail w new ∧
      trace code limits = .runStart code.size :: (events ++ new) ++ [.runEnd (some w)] := by
  obtain ⟨n, later, last, rounds⟩ := exists_rounds code limits (.initial code.size)
  have report := (rounds.reports hle).1
  obtain ⟨events, new, rfl, traced, ends⟩ := rounds.traced .initial
  rw [h] at report
  refine ⟨last, events, new, traced, ?_, report⟩
  have outcome : (last.outcome code limits).map (Verified.ofState code (.ofCode code)) =
      .error w := by
    rw [verify, rounds.verifyWith_eq hle] at h
    exact h
  rcases rounds.outcome_eq with ⟨-, ok⟩ | ⟨v, new', step, fail⟩
  · rw [ok] at outcome
    cases outcome
  · rw [fail] at outcome
    cases outcome
    rcases ends with ⟨path, -⟩ | ⟨w', step'⟩
    · cases (State.step_of_idle path).symm.trans step
    · cases step'.symm.trans step
      exact step'

end Check

open Check

/-- Every sink sees the result of the check, and of its trace what the mask wants. -/
theorem verifyWith_eq (sink : Sink σ) (code : Code) (limits : Limits) (t : σ) :
    verifyWith sink code limits t =
      (verify code limits, sink.observe (trace code limits) t) := by
  rcases Nat.lt_or_ge limits.maxCodeLength code.size with long | short
  · simp [verifyWith, explore, verify, trace, long, ← Sink.observe_append]
  · obtain ⟨n, events, last, rounds⟩ := exists_rounds code limits (.initial code.size)
    rw [(rounds.reports short).1, verify, rounds.verifyWith_eq short, rounds.verifyWith_eq short]

theorem trace_of_lt (long : limits.maxCodeLength < code.size) :
    trace code limits = [.runStart code.size,
      .runEnd (some (.codeTooLong code.size limits.maxCodeLength))] := by
  simp [trace, verifyWith, explore, long]
  rfl

/-- A sink that records the events of some kinds changes nothing of the result, and it records what
is left of the trace when the other kinds are taken out.  The trace of rejected code stops at the
instruction at fault, and its end carries the violation. -/
theorem verifyWith_recorder (code : Code) (limits : Limits) (mask : EventMask) :
    verifyWith (.recorder mask) code limits #[] =
      (verify code limits, ((trace code limits).filter (mask.wants ·.kind)).toArray) ∧
    ∀ w, verify code limits = .error w → ∃ body, StopsAt code limits w body ∧
      trace code limits = .runStart code.size :: body ++ [.runEnd (some w)] := by
  refine ⟨by rw [verifyWith_eq, Sink.observe_recorder, Array.empty_append], fun w h ↦ ?_⟩
  rcases Nat.lt_or_ge limits.maxCodeLength code.size with long | short
  · rw [verify_of_lt long] at h
    cases h
    exact ⟨[], .unread rfl, trace_of_lt long⟩
  · obtain ⟨s, events, new, traced, step, report⟩ := exists_traced_of_error short h
    obtain ⟨f, path, stops⟩ := State.stops_of_step step
    have here := stops.pc_eq
    refine ⟨events ++ new, ?_, report⟩
    rcases stops.events_eq path traced.passes.inv.slots step with
      ⟨kind, rfl⟩ | ⟨kind, -, i, fetch, rfl⟩
    · rw [List.append_nil]
      exact .arrival traced path here.symm kind
    · have byte := byte_of_decode fetch
      rw [← here] at byte ⊢
      exact .visit traced path here.symm kind byte

/-- A branch to a pop, and one item too few for it. -/
def popBehindBranch : Code := #[0x60, 0x01, 0x5F, 0x00, 0x04, 0x00, 0x50]

/-- A sink for edges and prunes sees the branch alone, while the trace goes on to the pop. -/
theorem verifyWith_recorder_popBehindBranch :
    verifyWith (.recorder { prune := true, edge := true }) popBehindBranch {} #[] =
      (.error (.stackUnderflow 6 1 0),
        #[.edge .branchFallthrough 2 5, .edge .branchTaken 2 6]) ∧
    ∃ body, StopsAt popBehindBranch {} (.stackUnderflow 6 1 0) body ∧
      trace popBehindBranch {} =
        .runStart 7 :: body ++ [.runEnd (some (.stackUnderflow 6 1 0))] := by
  have h : verify popBehindBranch {} = .error (.stackUnderflow 6 1 0) := by decide +kernel
  have report : trace popBehindBranch {} = [.runStart 7, .visit 0 0x60 0 0, .visit 2 0x5F 1 0,
      .edge .branchFallthrough 2 5, .edge .branchTaken 2 6, .visit 6 0x50 0 0,
      .runEnd (some (.stackUnderflow 6 1 0))] := by
    decide +kernel
  obtain ⟨view, stops⟩ := verifyWith_recorder popBehindBranch {} { prune := true, edge := true }
  refine ⟨?_, stops _ h⟩
  rw [view, h, report]
  rfl

end StackFlow
