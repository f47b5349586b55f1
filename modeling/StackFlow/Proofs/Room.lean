import StackFlow.Proofs.Ledger
import StackFlow.Proofs.Rejections

/-!
# How much there is at any moment of a check

The frames of a check are grounded: a frame of the top level has nothing below
its base, and one with calls outstanding names an instruction start as the
subroutine that it is in.  And the tables of a check stay small.  A branch or a
call takes three bytes of code and is visited once, so calls are at most a third
of the code (`Passes.calls_le`).  Each link between waiters was put there by a
call or by a path that was pruned, and there are not many of these either
(`Passes.links_le`).
-/

namespace StackFlow

variable {code : Code} {limits : Limits} {events : List Event} {vs : List (Nat × UInt8)}

/-! ## Relative instructions take up code -/

/-- The relative instructions from an offset on take three bytes each, but for one that the code
cuts off. -/
theorem countP_isRelative_le (code : Code) (pc : Nat) :
    3 * (sweepFrom code pc).countP Instr.isRelative ≤ code.size + 2 - pc := by
  fun_induction sweepFrom code pc with
  | case1 => exact Nat.zero_le _
  | case2 pc i fetch ih =>
    have inside := lt_size_of_decode fetch
    have ahead := lt_next_of_decode fetch
    rw [List.countP_cons]
    split
    · next relative =>
      obtain ⟨op, opcode, relative⟩ := (Option.any_eq_true _ _).mp relative
      have behind : i.next = pc + 3 := by
        rw [Instr.next, Instr.width_of_opcode? opcode, pc_of_decode fetch,
          Opcode.immediateLength_of_isRelative relative]
      omega
    · omega

/-- The visits of branches and calls. -/
def forks (vs : List (Nat × UInt8)) : List (Nat × UInt8) :=
  vs.filter fun p ↦ p.2 = Opcode.rjumpi.toByte ∨ p.2 = Opcode.rjumpsub.toByte

theorem visitsOf_add_le_forks (vs : List (Nat × UInt8)) :
    visitsOf .rjumpi vs + visitsOf .rjumpsub vs ≤ (forks vs).length := by
  have kept (op : Opcode) (h : op = .rjumpi ∨ op = .rjumpsub) :
      visitsOf op (forks vs) = visitsOf op vs := by
    rw [visitsOf, forks, List.countP_filter]
    refine List.countP_congr fun p _ ↦ ?_
    rcases h with rfl | rfl <;> simp +contextual
  have apart := visitsOf_add_le (forks vs)
  rwa [kept _ (.inl rfl), kept _ (.inr rfl)] at apart

theorem isRelative_of_mem_forks {p : Nat × UInt8} {i : Instr} (h : p ∈ forks vs)
    (byte : i.byte = p.2) : i.isRelative = true := by
  have fork := (List.mem_filter.mp h).2
  rcases of_decide_eq_true fork with h | h <;>
    rw [Instr.isRelative, Instr.opcode?, byte, h] <;> rfl

/-- Branches and calls visited at different instruction starts are no more than the relative
instructions. -/
theorem visitsOf_add_le_countP (nodup : (vs.map Prod.fst).Nodup)
    (start : ∀ p ∈ vs, IsStart code p.1) (bytes : ∀ p ∈ vs, code[p.1]? = some p.2) :
    visitsOf .rjumpi vs + visitsOf .rjumpsub vs ≤ (sweep code).countP Instr.isRelative := by
  have starts : (forks vs).map Prod.fst ⊆
      ((sweep code).filter Instr.isRelative).map Instr.pc := by
    intro pc hpc
    obtain ⟨p, fork, rfl⟩ := List.mem_map.mp hpc
    have visited := List.mem_of_mem_filter fork
    obtain ⟨i, met, here⟩ := start p visited
    have byte := byte_of_decode (decode_of_mem_sweepFrom met)
    rw [here, bytes p visited, Option.some.injEq, eq_comm] at byte
    have relative := isRelative_of_mem_forks fork byte
    exact List.mem_map.mpr ⟨i, List.mem_filter.mpr ⟨met, relative⟩, here⟩
  have distinct : ((forks vs).map Prod.fst).Nodup := nodup.sublist (List.filter_sublist.map _)
  have few := (List.subperm_of_subset distinct starts).length_le
  rw [List.length_map, List.length_map] at few
  rw [List.countP_eq_length_filter]
  exact (visitsOf_add_le_forks vs).trans few

namespace Check

open Machine (Fetch)

variable {s s' : State} {f : Frame}

/-! ## Calls and prunes -/

/-- The events up to a state are on the books and in the ledger. -/
theorem Traced.exists_books (h : Traced code limits s events) :
    ∃ n past, Books code n (visits events) s ∧ Recorded (visits events) s ∧
      Ledger code past events s := by
  induction h with
  | initial => exact ⟨0, 0, books_initial code, recorded_initial _, ledger_initial code⟩
  | step before step ih =>
    obtain ⟨n, past, books, recorded, ledger⟩ := ih
    obtain ⟨books, recorded⟩ := books.step before.passes recorded step
    rw [← visits_append] at books recorded
    exact ⟨_, _, books, recorded, ledger.step before.passes step⟩

theorem Passes.exists_traced (h : Passes code limits s) :
    ∃ events, Traced code limits s events := by
  induction h with
  | initial => exact ⟨_, .initial⟩
  | step _ step ih =>
    obtain ⟨events, traced⟩ := ih
    exact ⟨_, traced.step step⟩

/-- The calls entered and the paths pruned are bounded by the length of the code. -/
theorem Passes.calls_le (h : Passes code limits s) :
    3 * s.calls ≤ code.size + 2 ∧ 3 * (s.calls + s.prunes) ≤ 2 * code.size + 7 := by
  obtain ⟨events, traced⟩ := h.exists_traced
  obtain ⟨n, past, books, -, ledger⟩ := traced.exists_books
  have bytes : ∀ p ∈ visits events, code[p.1]? = some p.2 := by
    intro p hp
    obtain ⟨height, depth, visit⟩ := mem_visits.mp hp
    exact (traced.visit_spec visit).1
  have relative := visitsOf_add_le_countP books.nodup books.start bytes
  have room := countP_isRelative_le code 0
  rw [← sweep] at room
  have calls : s.calls = visitsOf .rjumpsub (visits events) := by
    rw [ledger.calls, ledger.edges, List.length_map, ← List.countP_eq_length_filter]
    rfl
  have pushed := books.pushed
  have prunes := books.prunes
  constructor <;> omega

/-! ## Links -/

/-- A link is put there by a call, or by a path that is pruned. -/
theorem Passes.links_le (h : Passes code limits s) :
    s.waits.parked.links.size ≤ s.calls + s.prunes := by
  induction h with
  | initial => exact Nat.zero_le _
  | @step s s' events before step ih =>
    obtain ⟨f, path, goes⟩ := State.goes_of_step before.inv.slots step
    cases goes with
    | ends => exact ih
    | prunes =>
      unfold State.prune
      split
      · next entry owner _ _ =>
        split
        · exact ih.trans (Nat.le_succ _)
        · exact (s.waits.size_links_wait_le owner (.entry entry) s.work).trans (Nat.succ_le_succ ih)
      · exact ih.trans (Nat.le_succ _)
    | @visits i op m =>
      cases m with
      | halt | next | jump | branch => exact ih
      | call body resume =>
        have wait := s.waits.size_links_wait_le body.pc (.resume resume) s.work
        change (s.waits.wait body.pc (.resume resume) s.work).1.parked.links.size ≤
          s.calls + 1 + s.prunes
        omega
      | ret c =>
        change (s.waits.release [c.entry] s.work).1.parked.links.size ≤ _
        rw [Waits.links_release]
        exact ih

/-! ## Grounds -/

/-- A frame has calls outstanding unless it is of the top level, where nothing is below its base,
and the innermost call is one of an instruction start. -/
structure Frame.Grounded (code : Code) (f : Frame) : Prop where
  top : f.call? = none ↔ f.depth = 0
  base : f.depth = 0 → f.base = 0
  entry : ∀ c ∈ f.call?, IsStart code c.entry

theorem Frame.grounded_start (code : Code) : Frame.start.Grounded code where
  top := ⟨fun _ ↦ rfl, fun _ ↦ rfl⟩
  base := fun _ ↦ rfl
  entry := nofun

/-- On the level a frame stays as grounded as it was, and a subroutine is entered at a start. -/
theorem Passes.grounded (h : Passes code limits s) (holds : s.Holds f) : f.Grounded code := by
  refine h.holds_induct (Q := Frame.Grounded code) (Frame.grounded_start code)
    (fun {f i op m} _ _ _ takes before g hg ↦ ?_) f holds
  cases takes with
  | halt | ret => cases hg
  | next | jump =>
    cases List.mem_singleton.mp hg
    exact ⟨before.top, before.base, before.entry⟩
  | branch =>
    rcases List.mem_cons.mp hg with rfl | hg
    · exact ⟨before.top, before.base, before.entry⟩
    · cases List.mem_singleton.mp hg
      exact ⟨before.top, before.base, before.entry⟩
  | call _ _ start =>
    rcases List.mem_cons.mp hg with rfl | hg
    · refine ⟨⟨nofun, nofun⟩, nofun, fun c hc ↦ ?_⟩
      cases hc
      exact Starts.contains_natCast.mp start
    · cases List.mem_singleton.mp hg
      exact ⟨before.top, before.base, before.entry⟩

end Check

end StackFlow
