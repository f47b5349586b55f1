import StackFlow.Proofs.Steps

/-!
# Tighter limits only cut a check short

A limit is looked at in three places only: before the check, where the stack
grows and where a call is entered.  So a check under tighter limits goes along
with the one under wider limits, step by step, until a limit stops it.  `Cuts`
is the relation of the two results, and it passes through `bind`.
-/

namespace StackFlow

/-- One has no limit above that of the other. -/
structure Limits.Tighter (l l' : Limits) : Prop where
  codeLength : l.codeLength ≤ l'.codeLength
  stack : l.stack ≤ l'.stack
  calls : l.calls ≤ l'.calls

/-- The violation is one of a limit, not one of the code. -/
def Violation.OfLimit (v : Violation) : Prop :=
  v.kind = .codeTooLong ∨ v.kind = .stackOverflow ∨ v.kind = .returnOverflow

/-- Two results are the same, or a limit has cut the first one short. -/
def Cuts {α : Type} (r r' : Except Violation α) : Prop :=
  r = r' ∨ ∃ w, r = .error w ∧ w.OfLimit

namespace Cuts

variable {α β : Type} {r r' : Except Violation α}

theorem refl (r : Except Violation α) : Cuts r r := .inl rfl

theorem of_limit {w : Violation} (h : w.OfLimit) : Cuts (.error w) r := .inr ⟨w, rfl, h⟩

theorem bind {g g' : α → Except Violation β} (h : Cuts r r') (hg : ∀ a, Cuts (g a) (g' a)) :
    Cuts (r >>= g) (r' >>= g') := by
  rcases h with rfl | ⟨w, rfl, hw⟩
  · cases r with
    | ok a => exact hg a
    | error w => exact .refl _
  · exact .of_limit hw

theorem map (h : Cuts r r') (g : α → β) : Cuts (r.map g) (r'.map g) := by
  rcases h with rfl | ⟨w, rfl, hw⟩
  · exact .refl _
  · exact .of_limit hw

theorem eq_of_ok {a : α} (h : Cuts (.ok a) r') : r' = .ok a := by
  rcases h with h | ⟨w, h, _⟩
  · exact h.symm
  · cases h

end Cuts

namespace Check

variable {code : Code} {starts : Starts} {l l' : Limits}

theorem Frame.effect_cuts (h : l.Tighter l') (f : Frame) (op : Opcode) :
    Cuts (f.effect l op) (f.effect l' op) := by
  have hs : l.stack.toNat ≤ l'.stack.toNat := UInt16.le_iff_toNat_le.mp h.stack
  unfold effect
  split
  · exact .refl _
  · dsimp only
    split
    · exact .of_limit (.inr (.inl rfl))
    · next room =>
      rw [if_neg fun full ↦ room (Nat.lt_of_le_of_lt hs full)]
      exact .refl _

/-- What an instruction makes of a frame depends on the limits only where one is exceeded. -/
theorem Frame.advance_cuts (h : l.Tighter l') (starts : Starts) (f : Frame) (i : Instr) :
    Cuts (f.advance l starts i) (f.advance l' starts i) := by
  have hc : l.calls.toNat ≤ l'.calls.toNat := UInt16.le_iff_toNat_le.mp h.calls
  unfold advance
  refine .bind (.refl _) fun op ↦ .bind (f.effect_cuts h op) fun height ↦ ?_
  cases op.flow with
  | next | terminator | invalid | jump | jumpIf | ret => exact .refl _
  | call =>
    refine .bind (.refl _) fun t ↦ ?_
    by_cases full : l.calls.toNat ≤ f.depth
    · rw [if_pos full]
      exact .of_limit (.inr (.inr rfl))
    · rw [if_neg full, if_neg fun full' ↦ full (Nat.le_trans hc full')]
      exact .refl _

/-- Under tighter limits a step does the same, unless it fails at a limit. -/
theorem State.step_cuts (h : l.Tighter l') (s : State) :
    s.step code starts l = s.step code starts l' ∨
      ∃ w events, s.step code starts l = .fail w events ∧ w.OfLimit := by
  unfold step
  cases s.path? with
  | none => exact .inl rfl
  | some f =>
    dsimp only
    cases decode code f.pc with
    | none => exact .inl rfl
    | some i =>
      dsimp only
      split
      · exact .inl rfl
      · exact .inl rfl
      · rcases f.advance_cuts h starts i with same | ⟨w, cut, limit⟩
        · exact .inl (by rw [same])
        · exact .inr ⟨w, _, by rw [cut], limit⟩

/-- Under tighter limits a run comes to the same end, unless a limit cuts it short. -/
theorem State.run_cuts {σ : Type} {sink : Sink σ} (h : l.Tighter l') (s : State) (t : σ) :
    Cuts (s.run code starts l sink t).1 (s.run code starts l' sink t).1 := by
  fun_induction State.run code starts l sink s t with
  | case1 s t s' step =>
    rcases s.step_cuts h with same | ⟨w, events, fail, _⟩
    · rw [State.run.eq_def code starts l' sink s, ← same, step]
      exact .refl _
    · cases step.symm.trans fail
  | case2 s t v events step =>
    rcases s.step_cuts h with same | ⟨w, events', fail, limit⟩
    · rw [State.run.eq_def code starts l' sink s, ← same, step]
      exact .refl _
    · cases step.symm.trans fail
      exact .of_limit limit
  | case3 s t s' events step ih =>
    rcases s.step_cuts h with same | ⟨w, events', fail, _⟩
    · rw [State.run.eq_def code starts l' sink s, ← same, step]
      exact ih
    · cases step.symm.trans fail

end Check

open Check

variable {l l' : Limits}

/-- Under tighter limits the result is the same, or it is a violation of a limit.  What is accepted
under tighter limits is accepted under wider ones, with the same heights and statistics. -/
theorem verify_of_tighter (h : l.Tighter l') (code : Code) :
    (verify code l = verify code l' ∨
      ∃ w, verify code l = .error w ∧
        (w.kind = .codeTooLong ∨ w.kind = .stackOverflow ∨ w.kind = .returnOverflow)) ∧
    ∀ v, verify code l = .ok v → verify code l' = .ok v := by
  have cuts : Cuts (verify code l) (verify code l') := by
    rcases Nat.lt_or_ge l.maxCodeLength code.size with long | short
    · rw [verify_of_lt long]
      exact .of_limit (.inl rfl)
    · have wider : l.maxCodeLength ≤ l'.maxCodeLength := by
        have := h.codeLength
        unfold Limits.maxCodeLength
        omega
      rw [verify_of_le short, verify_of_le (Nat.le_trans short wider)]
      exact (State.run_cuts h _ ()).map _
  refine ⟨cuts, fun v accepted ↦ ?_⟩
  rw [accepted] at cuts
  exact cuts.eq_of_ok

/-- A push, and the call of a subroutine that pushes one more item and pops it. -/
def pushTwice : Code := #[0x60, 0x01, 0x5E, 0x00, 0x04, 0x00, 0x60, 0x02, 0x50, 0x5D]

/-- Limits of two items and one call are enough for it, and wider ones change nothing. -/
theorem verify_of_tighter_pushTwice :
    ∃ v, verify pushTwice { codeLength := 10, stack := 2, calls := 1 } = .ok v ∧
      verify pushTwice {} = .ok v ∧ v.heightAt? 8 = some 1 := by
  have tight : Limits.Tighter { codeLength := 10, stack := 2, calls := 1 } {} :=
    ⟨by decide, by decide, by decide⟩
  have h : verify pushTwice { codeLength := 10, stack := 2, calls := 1 } =
      .ok ⟨pushTwice, .ofCode pushTwice,
        ⟨#[some 0, none, some 1, none, none, some 1, some 0, none, some 1, some 0]⟩,
        ⟨6, 0, 2, 1, 1⟩⟩ := by
    decide +kernel
  exact ⟨_, h, (verify_of_tighter tight pushTwice).2 _ h, rfl⟩

end StackFlow
