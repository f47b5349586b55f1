import StackFlow.Proofs.Invariant

/-!
# What a check reports

`trace` lists the events of a whole check.  `Traced` pairs each state that a
check comes through with the events up to it, so that facts about events are
proved along the steps, and `traced_of_verify` says that the events of accepted
code are those up to the last state.  `Traced.visit_spec` reads a visit back
from that state: its offset has the byte and the height of the visit, and it
belongs to a subroutine if calls were outstanding.  `Traced.exists_visit` goes the other way.
-/

namespace StackFlow

variable {code : Code} {limits : Limits}

/-- All that a check reports, in order. -/
def trace (code : Code) (limits : Limits) : List Event :=
  (verifyWith (.recorder .all) code limits #[]).2.toList

@[simp] theorem Sink.toList_observe_recorder_all (events : List Event) (t : Array Event) :
    ((recorder .all).observe events t).toList = t.toList ++ events := by
  induction events generalizing t with
  | nil => simp
  | cons e es ih =>
    have h := ih (t.push e)
    simp_all [observe, recorder]

namespace Check

variable {s s' : State} {events : List Event}

/-- The result of a run does not depend on the sink. -/
theorem State.run_fst {σ τ : Type} {starts : Starts} (sink : Sink σ) (sink' : Sink τ) (t : σ)
    (t' : τ) : (s.run code starts limits sink t).1 = (s.run code starts limits sink' t').1 := by
  fun_induction State.run code starts limits sink s t generalizing t' with
  | case1 s t s' h | case2 s t v events h =>
    rw [State.run]
    split <;> simp_all
  | case3 s t s' events h ih =>
    rw [ih (sink'.observe events t'), State.run.eq_def code starts limits sink' s]
    split <;> simp_all

/-- No event of an edge is one of a visit. -/
theorem Move.visit_not_mem_edges {m : Move} {source pc height depth : Nat} {byte : UInt8} :
    .visit pc byte height depth ∉ m.edges source := by
  cases m <;> simp [Move.edges]

/-- The states that a check comes through, each with the events reported up to it. -/
inductive Traced (code : Code) (limits : Limits) : State → List Event → Prop where
  | initial : Traced code limits (.initial code.size) []
  | step {s s' : State} {events new : List Event} (before : Traced code limits s events)
      (step : s.step code (.ofCode code) limits = .next s' new) :
      Traced code limits s' (events ++ new)

theorem Traced.passes (h : Traced code limits s events) : Passes code limits s := by
  induction h with
  | initial => exact .initial
  | step _ step ih => exact ih.step step

/-- A run that succeeds reports the events up to its end. -/
theorem Traced.run {t : Array Event} (h : Traced code limits s events)
    (ok : (s.run code (.ofCode code) limits (.recorder .all) t).1 = .ok s') :
    s'.path? = none ∧ ∃ new, Traced code limits s' (events ++ new) ∧
      (s.run code (.ofCode code) limits (.recorder .all) t).2.toList = t.toList ++ new := by
  fun_induction State.run code (.ofCode code) limits (.recorder .all) s t generalizing events with
  | case1 s t s' hs =>
    cases ok
    obtain ⟨path, rfl⟩ := State.path?_of_done hs
    exact ⟨path, [], by rwa [List.append_nil], (List.append_nil _).symm⟩
  | case2 s t v es hs => cases ok
  | case3 s t s' es hs ih =>
    obtain ⟨path, new, traced, run⟩ := ih (h.step hs) ok
    refine ⟨path, es ++ new, ?_, ?_⟩
    · rwa [← List.append_assoc]
    · rw [run, Sink.toList_observe_recorder_all, List.append_assoc]

/-- The events of accepted code are those up to a state at which the check is over. -/
theorem traced_of_verify {v : Verified} (h : verify code limits = .ok v) :
    ∃ s events, Traced code limits s events ∧ s.path? = none ∧
      v = .ofState code (.ofCode code) s ∧
      trace code limits = .runStart code.size :: events ++ [.runEnd none] := by
  have hle := (passes_of_verify h).1
  rw [verify_of_le hle] at h
  rw [State.run_fst {} (.recorder .all) () ((Sink.recorder .all).observe [.runStart code.size] #[])]
    at h
  cases hr : ((State.initial code.size).run code (.ofCode code) limits (.recorder .all)
    ((Sink.recorder .all).observe [.runStart code.size] #[])).1 with
  | error w =>
    rw [hr] at h
    cases h
  | ok s =>
    rw [hr] at h
    cases h
    obtain ⟨path, events, traced, run⟩ := Traced.initial.run hr
    refine ⟨s, events, traced, path, rfl, ?_⟩
    simp only [trace, verifyWith, explore, Nat.not_lt_of_le hle, if_false,
      Sink.toList_observe_recorder_all, run, hr]
    rfl

/-- An offset has the byte and keeps the height of its visit, and belongs to a subroutine if it was
visited with calls outstanding. -/
theorem Traced.visit_spec {pc height depth : Nat} {byte : UInt8}
    (h : Traced code limits s events) (visit : .visit pc byte height depth ∈ events) :
    code[pc]? = some byte ∧ s.heights.at? pc = some height ∧
      (0 < depth → ∃ e, s.owner? pc = some e) := by
  induction h with
  | initial => cases visit
  | @step s s' events new before step ih =>
    have inv := before.passes.inv
    obtain ⟨f, path, goes⟩ := State.goes_of_step inv.slots step
    rcases List.mem_append.mp visit with old | visit
    · obtain ⟨here, known, owner⟩ := ih old
      have keeps := goes.keeps inv path
      exact ⟨here, keeps.known known, fun deep ↦ keeps.owner known ▸ owner deep⟩
    · cases goes with
      | ends => cases visit
      | prunes => cases List.mem_singleton.mp visit
      | visits fetch =>
        have hlt := lt_size_of_decode fetch.decode
        cases (List.mem_cons.mp visit).resolve_right Move.visit_not_mem_edges
        rw [State.at?_follow_visit (inv.slots ▸ hlt), State.owner?_follow_visit (inv.owners ▸ hlt),
          if_pos rfl, if_pos rfl]
        refine ⟨byte_of_decode fetch.decode, rfl, fun deep ↦ ?_⟩
        cases call : f.call? with
        | none =>
          rw [(inv.sound f (.inl (.inl path))).depth_top call] at deep
          cases deep
        | some c => exact ⟨c.entry, congrArg (Option.map Call.entry) call⟩

/-- What is known of an offset comes from a visit of it. -/
theorem Traced.exists_visit {pc height : Nat} (h : Traced code limits s events)
    (known : s.heights.at? pc = some height) :
    ∃ byte depth, code[pc]? = some byte ∧ .visit pc byte height depth ∈ events := by
  induction h with
  | initial => simp [State.initial] at known
  | @step s s' events new before step ih =>
    have inv := before.passes.inv
    obtain ⟨f, path, goes⟩ := State.goes_of_step inv.slots step
    have old (known : s.heights.at? pc = some height) :
        ∃ byte depth, code[pc]? = some byte ∧ .visit pc byte height depth ∈ events ++ new := by
      obtain ⟨byte, depth, here, visit⟩ := ih known
      exact ⟨byte, depth, here, List.mem_append_left _ visit⟩
    cases goes with
    | ends => exact old known
    | prunes =>
      rw [State.heights_prune] at known
      exact old known
    | visits fetch =>
      have hlt := lt_size_of_decode fetch.decode
      rcases State.known_of_follow_visit (inv.slots ▸ hlt) known with known | ⟨rfl, rfl⟩
      · exact old known
      · exact ⟨_, f.depth, byte_of_decode fetch.decode,
          List.mem_append_right _ List.mem_cons_self⟩

end Check

end StackFlow
