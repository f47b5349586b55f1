import StackFlow.Proofs.Soundness
import StackFlow.Proofs.Trace

/-!
# Returns propagate through shared bodies

A subroutine that goes over into the code of another one returns whenever that
one does, and what follows its calls has to be checked then.  The main result
says so of runs of the machine: if a run comes from a call to the return that
matches it, and every instruction on the way was reached first in some
subroutine, then the offset behind the call has the height of the caller.
`Within` is such a run, and `Within.level` cuts it into a level.
-/

namespace StackFlow

namespace Machine

variable {code : Code} {on : Nat → Prop} {kept : List Outstanding} {a b : Spot}

/-- A run that keeps some calls outstanding all the way.  All instructions that it executes stand
at offsets with the property `on`. -/
inductive Within (code : Code) (on : Nat → Prop) (kept : List Outstanding) :
    Config → Config → Prop where
  | refl {c : Config} (keeps : kept <:+ c.calls) : Within code on kept c c
  | step {c d e : Config} (run : Within code on kept c d) (here : on d.pc)
      (last : Step code d e) (keeps : kept <:+ e.calls) : Within code on kept c e

/-- Levels on top of each other, the lowest one beginning at spot `a` above the kept calls. -/
inductive Inside (code : Code) (on : Nat → Prop) (kept : List Outstanding) (a : Spot) :
    List Outstanding → Spot → Prop where
  | base {b : Spot} (run : Level code on a b) : Inside code on kept a kept b
  | sub {calls : List Outstanding} {b c : Spot} {t r : Nat} (outer : Inside code on kept a calls b)
      (here : on b.pc) (site : Calls code b.pc t r) (run : Level code on (.entry t) c) :
      Inside code on kept a (⟨r, b.height⟩ :: calls) c

theorem Inside.suffix {calls : List Outstanding} (h : Inside code on kept a calls b) :
    kept <:+ calls := by
  induction h with
  | base => exact List.suffix_rfl
  | sub _ _ _ _ ih => exact ih.trans (List.suffix_cons _ _)

theorem not_cons_suffix (k : Outstanding) (calls : List Outstanding) : ¬ k :: calls <:+ calls :=
  fun h ↦ absurd h.length_le (by simp)

theorem Inside.flat {calls : List Outstanding} {c : Spot} (h : Inside code on kept a calls b)
    (here : on b.pc) (last : Flat code b c) : Inside code on kept a calls c := by
  cases h with
  | base run => exact .base (run.flat here last)
  | sub outer here' site run => exact .sub outer here' site (run.flat here last)

theorem Inside.call {calls : List Outstanding} {c : Spot} {t r : Nat}
    (h : Inside code on kept a calls b) (here : on b.pc) (site : Calls code b.pc t r)
    (body : Level code on (.entry t) c) (there : on c.pc) (leaves : Leaves code c.pc) :
    Inside code on kept a calls ⟨r, b.height⟩ := by
  cases h with
  | base run => exact .base (run.call here site body there leaves)
  | sub outer here' site' run => exact .sub outer here' site' (run.call here site body there leaves)

/-- A run that keeps its calls is made of levels above them. -/
theorem Within.inside {c : Config} (h : Within code on kept (a.under kept) c) :
    Inside code on kept a c.calls ⟨c.pc, c.height⟩ := by
  induction h with
  | refl => exact .base (.refl a)
  | @step d e _ here last keeps ih =>
    rcases Step.cases_level (a := ⟨d.pc, d.height⟩) last with
      ⟨b, flat, rfl⟩ | ⟨t, r, site, rfl⟩ | ⟨k, rest, leaves, hk, rfl⟩
    · exact ih.flat here flat
    · exact .sub ih here site (.refl _)
    · rw [hk] at ih
      cases ih with
      | base => exact absurd keeps (not_cons_suffix _ _)
      | sub outer here' site run => exact outer.call here' site run here leaves

/-- A run that keeps its calls, and has no others outstanding at its end, is a level. -/
theorem Within.level (h : Within code on kept (a.under kept) (b.under kept)) :
    Level code on a b := by
  have inside : Inside code on kept a kept b := h.inside
  cases inside with
  | base run => exact run
  | sub outer => exact absurd outer.suffix (not_cons_suffix _ _)

/-- A call comes back to the offset behind its displacement. -/
theorem calls_of_rjumpsub {pc t : Nat} {i : Instr} (fetch : Fetch code pc i .rjumpsub)
    (target : i.target? = some (t : Int)) : Calls code pc t (pc + 3) := by
  refine ⟨i, .rjumpsub, fetch, rfl, target, ?_⟩
  have opcode : Opcode.ofByte? i.byte = some .rjumpsub := fetch.opcode
  rw [Instr.next, Instr.width, immediateWidth, opcode, pc_of_decode fetch.decode]
  rfl

end Machine

open Machine Check

variable {code : Code} {limits : Limits}

/-- The check visits the offset with calls outstanding. -/
def VisitedInside (code : Code) (limits : Limits) (pc : Nat) : Prop :=
  ∃ byte height depth, .visit pc byte height depth ∈ trace code limits ∧ 0 < depth

/-- If a run of accepted code comes from a call to the matching return by way of code that was
visited in subroutines, no matter which, then the offset behind the call is past the end or has
the height of the caller. -/
theorem height_behind_call {v : Verified} (h : verify code limits = .ok v) {p t height : Nat}
    {i j : Instr} {calls : List Outstanding} {b : Spot} (known : v.heightAt? p = some height)
    (site : Fetch code p i .rjumpsub) (target : i.target? = some (t : Int))
    (run : Within code (VisitedInside code limits) (⟨p + 3, height⟩ :: calls)
      ⟨t, 0, ⟨p + 3, height⟩ :: calls⟩ ⟨b.pc, b.height, ⟨p + 3, height⟩ :: calls⟩)
    (last : Fetch code b.pc j .returnsub) (there : VisitedInside code limits b.pc) :
    code.size ≤ p + 3 ∨ v.heightAt? (p + 3) = some height := by
  obtain ⟨s, events, traced, path, rfl, trace⟩ := traced_of_verify h
  have inv := traced.passes.inv
  -- what was visited with calls outstanding belongs to a subroutine, so nothing strays there
  have owned {pc : Nat} (visited : VisitedInside code limits pc) : s.owner? pc ≠ none := by
    obtain ⟨byte, height, depth, visit, deep⟩ := visited
    have visit : .visit pc byte height depth ∈ events := by simpa [trace] using visit
    obtain ⟨e, owner⟩ := (traced.visit_spec visit).2.2 deep
    rw [owner]
    exact Option.some_ne_none e
  have body : Level code (VisitedInside code limits) (.entry t) b := Within.level run
  have leaves : Leaves code b.pc := ⟨j, .returnsub, last, rfl⟩
  have call := calls_of_rjumpsub site target
  have lands := inv.lands_level path (fun x _ here top ↦ absurd top (owned here)) body
    (inv.lands_body (a := ⟨p, height⟩) path known call)
  obtain ⟨knownb, back⟩ := lands.of_lt_size leaves.lt_size
  obtain ⟨t', ht, returns⟩ := back there (inv.returns_of_leaves path knownb leaves)
  cases ht
  exact (inv.lands_resume (P := fun _ ↦ False) (a := ⟨p, height⟩) path known call returns
    fun _ h ↦ h.elim).admits

/-- Two subroutines, at 7 and at 11, that go over into one return at 15, each called once. -/
def sharedTail : Code :=
  #[0x5E, 0x00, 0x07, 0x5E, 0x00, 0x08, 0x00, 0x5B, 0x5C, 0x00, 0x07, 0x5B, 0x5C, 0x00, 0x03, 0x5D]

/-- The second subroutine is pruned at the return of the first, and still the stop behind its call
has a height. -/
theorem height_behind_call_sharedTail :
    ∃ v, verify sharedTail {} = .ok v ∧ v.heightAt? 6 = some 0 := by
  have h : verify sharedTail {} = .ok ⟨sharedTail, .ofCode sharedTail,
      ⟨#[some 0, none, none, some 0, none, none, some 0, some 0, some 0, none, none, some 0, some 0,
        none, none, some 0]⟩, ⟨8, 1, 3, 1, 2⟩⟩ := by
    decide +kernel
  have label : VisitedInside sharedTail {} 11 := ⟨0x5B, 0, 1, by decide +kernel, by decide⟩
  have jump : VisitedInside sharedTail {} 12 := ⟨0x5C, 0, 1, by decide +kernel, by decide⟩
  have tail : VisitedInside sharedTail {} 15 := ⟨0x5D, 0, 1, by decide +kernel, by decide⟩
  have skip : Fetch sharedTail 11 ⟨11, 0x5B, []⟩ .jumpdest := ⟨rfl, rfl⟩
  have join : Fetch sharedTail 12 ⟨12, 0x5C, [0x00, 0x03]⟩ .rjump := ⟨rfl, rfl⟩
  have run : Within sharedTail (VisitedInside sharedTail {}) [⟨6, 0⟩] ⟨11, 0, [⟨6, 0⟩]⟩
      ⟨15, 0, [⟨6, 0⟩]⟩ :=
    ((Within.refl List.suffix_rfl).step label (.next skip rfl (Nat.zero_le _))
      List.suffix_rfl).step jump (.jump join rfl rfl) List.suffix_rfl
  refine ⟨_, h, ?_⟩
  exact (height_behind_call h (p := 3) (i := ⟨3, 0x5E, [0x00, 0x08]⟩) (j := ⟨15, 0x5D, []⟩)
    (b := ⟨15, 0⟩) rfl ⟨rfl, rfl⟩ rfl run ⟨rfl, rfl⟩ tail).resolve_left (by decide)

end StackFlow
