import StackFlow.Proofs.Shift

/-!
# The result depends on what the check reads

A check reads a code where it visits an instruction, where it looks up the
target of one, and where a path runs off the end.  If another code reads the
same there (`ReadsAlike`), the two checks go along with each other and come to
the same result, whatever else the codes hold and however long they are.  The
states on the way are not equal, since they have slots for all offsets of their
codes, but no lookup tells them apart (`State.Alike`): they are shifted by nothing.
-/

namespace StackFlow

variable {code code' : Code} {limits : Limits}

/-- Two instructions have the same byte, the same offset behind them and the same target. -/
def Instr.Same (i j : Instr) : Prop := j.byte = i.byte ∧ j.next = i.next ∧ j.target? = i.target?

instance (i j : Instr) : Decidable (i.Same j) := inferInstanceAs (Decidable (_ ∧ _ ∧ _))

namespace Check

/-- Where the check of one code reads it, the other code reads the same. -/
structure ReadsAlike (limits : Limits) (code code' : Code) : Prop where
  visited : ∀ f i, Visits code limits f i → ∃ j ∈ decode code' f.pc, i.Same j
  target : ∀ pc : Nat, LooksUp code limits pc → (IsStart code pc ↔ IsStart code' pc)
  past : ∀ pc, RunsOff code limits pc → code'.size ≤ pc

/-! ## States that no lookup tells apart -/

/-- The same entries return, and the same waiters are parked. -/
structure Waits.Alike (w w' : Waits) : Prop where
  returning : ∀ e, w.Returning e ↔ w'.Returning e
  parked : ∀ e, w.parkedAt e = w'.parkedAt e

namespace State

/-- No lookup tells the states apart, and they count the same. -/
structure Alike (s s' : State) : Prop where
  path : s.path? = s'.path?
  work : s.work = s'.work
  known : ∀ pc, s.heights.at? pc = s'.heights.at? pc
  reached : s.heights.reached = s'.heights.reached
  owner : ∀ pc, s.owner? pc = s'.owner? pc
  waits : s.waits.Alike s'.waits
  prunes : s.prunes = s'.prunes
  calls : s.calls = s'.calls

/-- States that no lookup tells apart are those that are shifted by nothing. -/
theorem alike_iff {s s' : State} : s.Alike s' ↔ s.Shifted 0 s' := by
  constructor
  · intro h
    exact ⟨by simp [h.path], by simp [h.work], fun pc ↦ (h.known pc).symm, h.reached.symm,
      fun pc ↦ by simp [h.owner], ⟨fun e ↦ (h.waits.returning e).symm,
        fun e ↦ by simp [h.waits.parked]⟩, h.prunes.symm, h.calls.symm⟩
  · intro h
    have owner (pc : Nat) : s.owner? pc = s'.owner? pc := by simpa using (h.owner pc).symm
    have parked (e : Nat) : s.waits.parkedAt e = s'.waits.parkedAt e := by
      simpa using (h.waits.parked e).symm
    exact ⟨by simpa using h.path.symm, by simpa using h.work.symm, fun pc ↦ (h.known pc).symm,
      h.reached.symm, owner, ⟨fun e ↦ (h.waits.returning e).symm, parked⟩, h.prunes.symm,
      h.calls.symm⟩

end State

/-! ## Two checks side by side -/

theorem ReadsAlike.shifted (reads : ReadsAlike limits code code') :
    ReadsShifted limits 0 code code' where
  visited := by
    intro f i visits
    obtain ⟨j, fetch', byte, next, target⟩ := reads.visited f i visits
    obtain ⟨-, -, -, -, fetch⟩ := visits
    exact ⟨j, fetch', (pc_of_decode fetch').trans (pc_of_decode fetch).symm, byte, next,
      by simp [target]⟩
  target := by
    intro t looks
    rw [Int.natCast_zero, Int.add_zero]
    exact (Starts.contains_congr fun pc hpc ↦ reads.target pc (hpc ▸ looks)).symm
  past := reads.past

/-- Two checks that read alike come to the same violation, or to ends that no lookup tells apart. -/
theorem State.Alike.run {σ : Type} {s s' : State} (h : s.Alike s')
    (reads : ReadsAlike limits code code') (passes : Passes code limits s)
    (passes' : Passes code' limits s') (sink : Sink σ) (t : σ) :
    (∃ w, (s.run code (.ofCode code) limits sink t).1 = .error w ∧
      (s'.run code' (.ofCode code') limits sink t).1 = .error w) ∨
    ∃ e e', (s.run code (.ofCode code) limits sink t).1 = .ok e ∧
      (s'.run code' (.ofCode code') limits sink t).1 = .ok e' ∧ e.Alike e' := by
  rcases (alike_iff.mp h).run reads.shifted passes passes' sink t t with
    ⟨w, error, error'⟩ | ⟨e, e', ok, ok', shifted⟩
  · rw [Violation.shift_zero] at error'
    exact .inl ⟨w, error, error'⟩
  · exact .inr ⟨e, e', ok, ok', alike_iff.mpr shifted⟩

theorem State.alike_initial (size size' : Nat) :
    (State.initial size).Alike (State.initial size') :=
  alike_iff.mpr (shifted_initial size size')

/-! ## Reading alike can be decided -/

/-- Where the path of a state reads the code next, the other code reads the same. -/
def State.ReadsAlike (limits : Limits) (code code' : Code) (s : State) : Prop :=
  ∀ f ∈ s.path?, (code.size ≤ f.pc → code'.size ≤ f.pc) ∧
    (s.heights.at? f.pc = none → ∀ i ∈ decode code f.pc,
      (∃ j ∈ decode code' f.pc, i.Same j) ∧
      ∀ t ∈ i.target?, f.LooksUp limits i t →
        (Starts.ofCode code).contains t = (Starts.ofCode code').contains t)

instance (f : Frame) (i : Instr) (t : Int) : Decidable (f.LooksUp limits i t) :=
  inferInstanceAs (Decidable (_ ∧ ∃ _ ∈ i.opcode?, _))

instance (s : State) : Decidable (s.ReadsAlike limits code code') :=
  inferInstanceAs (Decidable (∀ f ∈ s.path?, _ ∧ (_ → ∀ i ∈ decode code f.pc, _ ∧ _)))

theorem readsAlike_iff :
    (∀ s ∈ (State.initial code.size).course code limits, s.ReadsAlike limits code code') ↔
      ReadsAlike limits code code' := by
  constructor
  · intro h
    refine ⟨?_, ?_, ?_⟩
    · rintro f i ⟨s, passes, path, new, fetch⟩
      exact ((h s (mem_course_iff.mpr passes) f path).2 new i fetch).1
    · rintro pc ⟨f, i, ⟨s, passes, path, new, fetch⟩, looks⟩
      have same := ((h s (mem_course_iff.mpr passes) f path).2 new i fetch).2 pc looks.1 looks
      rw [← Starts.contains_natCast, ← Starts.contains_natCast, same]
    · rintro pc ⟨s, f, passes, path, rfl, past⟩
      exact (h s (mem_course_iff.mpr passes) f path).1 past
  · intro h s hs f path
    have passes := mem_course_iff.mp hs
    refine ⟨fun past ↦ h.past f.pc ⟨s, f, passes, path, rfl, past⟩, fun new i fetch ↦ ?_⟩
    have visits : Visits code limits f i := ⟨s, passes, path, new, fetch⟩
    exact ⟨h.visited f i visits, fun t _ looks ↦ Starts.contains_congr fun pc hpc ↦
      h.target pc ⟨f, i, visits, hpc ▸ looks⟩⟩

instance : Decidable (ReadsAlike limits code code') := decidable_of_iff _ readsAlike_iff

end Check

open Check

/-- Two codes that read alike where the check of the first one reads it have the same result: the
same violation, or the same heights and statistics. -/
theorem verify_of_readsAlike (short : code.size ≤ limits.maxCodeLength)
    (short' : code'.size ≤ limits.maxCodeLength) (reads : ReadsAlike limits code code') :
    (∀ w, verify code limits = .error w ↔ verify code' limits = .error w) ∧
    ∀ v, verify code limits = .ok v → ∃ v', verify code' limits = .ok v' ∧
      (∀ pc, v'.heightAt? pc = v.heightAt? pc) ∧ v'.stats = v.stats := by
  rw [verify_of_le short, verify_of_le short']
  rcases (State.alike_initial code.size code'.size).run reads .initial .initial {} () with
    ⟨w, h, h'⟩ | ⟨s, s', h, h', alike⟩
  · rw [h, h']
    exact ⟨fun _ ↦ Iff.rfl, nofun⟩
  · rw [h, h']
    refine ⟨fun w ↦ ⟨nofun, nofun⟩, fun v hv ↦ ?_⟩
    cases hv
    refine ⟨_, rfl, fun pc ↦ (alike.known pc).symm, ?_⟩
    simp only [Verified.ofState, alike.reached, alike.prunes, alike.work, alike.calls]

end StackFlow
