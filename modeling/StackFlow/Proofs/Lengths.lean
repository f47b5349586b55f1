import StackFlow.Proofs.Faultless
import StackFlow.Proofs.Locality

/-!
# Results in machine words, and the lengths for which they hold

A check in words depends on no more of a code than the check does
(`result_of_readsAlike`), and does not mind jump destinations in front of it
(`verify_behind_jumpdests`), if the codes leave room for thirty-two bytes more.

The limits do not ask for that room.  Where it is missing, an instruction at the
end can make the sweep fault, though no path comes to it (`verify_eq_overflow`).
Nor is a code longer than offsets go admitted, whatever the limits say.
-/

namespace StackFlow.Packed

open Check (ReadsAlike)

variable {code code' : Code} {limits : Limits} {v : Verified} {w : Violation} {i : Instr} {n : Nat}

/-! ## Codes that leave room -/

theorem verify_eq_ok_iff (room : code.size ≤ 4294967263) :
    verify code limits = .ok v ↔ StackFlow.verify code limits = .ok v := by
  rw [verify_eq_mapError room, mapError_eq_ok]

theorem verify_eq_violation_iff (room : code.size ≤ 4294967263) :
    verify code limits = .error (.violation w) ↔ StackFlow.verify code limits = .error w := by
  rw [verify_eq_mapError room, mapError_eq_error]
  constructor
  · rintro ⟨w', h, same⟩
    rwa [Stop.violation.inj same] at h
  · exact fun h ↦ ⟨w, h, rfl⟩

theorem le_maxCodeLength (short : n ≤ limits.codeLength) (room : n ≤ 4294967263) :
    n ≤ limits.maxCodeLength :=
  Nat.le_min.mpr ⟨short, room.trans (by decide)⟩

/-- Both results are the same violation, or both are accepted with the same heights and
statistics. -/
def SameResult (x y : Except Stop Verified) : Prop :=
  (∃ w, x = .error (.violation w) ∧ y = .error (.violation w)) ∨
  ∃ v v', x = .ok v ∧ y = .ok v' ∧ (∀ pc, v'.heightAt? pc = v.heightAt? pc) ∧ v'.stats = v.stats

/-- Two codes that read alike where the check of the first one reads it have the same result. -/
theorem result_of_readsAlike (short : code.size ≤ limits.codeLength)
    (short' : code'.size ≤ limits.codeLength) (room : code.size ≤ 4294967263)
    (room' : code'.size ≤ 4294967263) (reads : ReadsAlike limits code code') :
    SameResult (verify code limits) (verify code' limits) := by
  obtain ⟨rejected, accepted⟩ := verify_of_readsAlike (le_maxCodeLength short room)
    (le_maxCodeLength short' room') reads
  cases result : StackFlow.verify code limits with
  | error w =>
    exact .inl ⟨w, (verify_eq_violation_iff room).mpr result,
      (verify_eq_violation_iff room').mpr ((rejected w).mp result)⟩
  | ok v =>
    obtain ⟨v', result', same⟩ := accepted v result
    exact .inr ⟨v, v', (verify_eq_ok_iff room).mpr result, (verify_eq_ok_iff room').mpr result',
      same⟩

/-- A branch over a stop and a byte that no path comes to. -/
def branchOverStop : Code := #[0x60, 0x01, 0x5F, 0x00, 0x05, 0x00, 0x0C, 0x5B, 0x00]

/-- The same with another item pushed, another byte behind the stop, and data behind the code. -/
def branchOverStop' : Code := #[0x60, 0x02, 0x5F, 0x00, 0x05, 0x00, 0xFE, 0x5B, 0x00, 0x61, 0x0C]

theorem readsAlike_branchOverStop : ReadsAlike {} branchOverStop branchOverStop' := by
  decide +kernel

/-- It has the same heights. -/
theorem result_of_readsAlike_branchOverStop :
    ∃ v, verify branchOverStop' {} = .ok v ∧ v.heightAt? 7 = some 0 ∧ v.heightAt? 6 = none := by
  have alone : StackFlow.verify branchOverStop {} = .ok ⟨branchOverStop, .ofCode branchOverStop,
      ⟨#[some 0, none, some 1, none, none, some 0, none, some 0, some 0]⟩, ⟨5, 0, 2, 1, 0⟩⟩ := by
    decide +kernel
  have accepted := (verify_eq_ok_iff (by decide)).mpr alone
  rcases result_of_readsAlike (by decide) (by decide) (by decide) (by decide)
    readsAlike_branchOverStop with ⟨w, rejected, -⟩ | ⟨v, v', result, result', heights, -⟩
  · cases accepted.symm.trans rejected
  · obtain rfl := Except.ok.inj (accepted.symm.trans result)
    exact ⟨v', result', heights 7, heights 6⟩

/-- Code behind jump destinations is accepted if the code alone is, with its heights and as much
work besides the destinations.  It is rejected for the same violation if the code alone is, unless
that is a target in front of the code. -/
theorem verify_behind_jumpdests (short : code.size + n ≤ limits.codeLength)
    (room : code.size + n ≤ 4294967263) :
    (∀ v, verify code limits = .ok v →
      ∃ v', verify (jumpdests n ++ code) limits = .ok v' ∧
        (∀ pc < n, v'.heightAt? pc = some 0) ∧
        (∀ pc, v'.heightAt? (n + pc) = v.heightAt? pc) ∧
        v'.stats = { v.stats with visits := v.stats.visits + n }) ∧
    ∀ w, verify code limits = .error (.violation w) →
      (∀ pc target, w = .invalidDestination pc target → 0 ≤ target) →
      verify (jumpdests n ++ code) limits = .error (.violation (w.shift n)) := by
  have alone : code.size ≤ 4294967263 := by omega
  have behind : (jumpdests n ++ code).size ≤ 4294967263 := by
    rw [Array.size_append, size_jumpdests]
    omega
  obtain ⟨accepted, rejected⟩ := verify_jumpdests_append (le_maxCodeLength short room)
  constructor
  · intro v result
    obtain ⟨v', result', rest⟩ := accepted v ((verify_eq_ok_iff alone).mp result)
    exact ⟨v', (verify_eq_ok_iff behind).mpr result', rest⟩
  · intro w result inside
    exact (verify_eq_violation_iff behind).mpr
      (rejected w ((verify_eq_violation_iff alone).mp result) inside)

/-- A jump destination and the jump back to it. -/
def backwards : Code := #[0x5B, 0x5C, 0xFF, 0xFF]

/-- A pop where there is nothing to pop. -/
def lonelyPop : Code := #[0x50]

/-- Behind seventy jump destinations the one is accepted and the other rejected, as they are
alone. -/
theorem verify_behind_seventy_jumpdests :
    (∃ v, verify (jumpdests 70 ++ backwards) {} = .ok v ∧ v.heightAt? 69 = some 0 ∧
      v.heightAt? 71 = some 0 ∧ v.heightAt? 72 = none ∧ v.stats = ⟨72, 1, 1, 1, 0⟩) ∧
    verify (jumpdests 70 ++ lonelyPop) {} = .error (.violation (.stackUnderflow 70 1 0)) := by
  have accepted : StackFlow.verify backwards {} = .ok ⟨backwards, .ofCode backwards,
      ⟨#[some 0, some 0, none, none]⟩, ⟨2, 1, 1, 1, 0⟩⟩ := by
    decide +kernel
  have rejected : StackFlow.verify lonelyPop {} = .error (.stackUnderflow 0 1 0) := by
    decide +kernel
  have short : backwards.size + 70 ≤ Limits.codeLength {} := by decide
  have short' : lonelyPop.size + 70 ≤ Limits.codeLength {} := by decide
  constructor
  · obtain ⟨v, ok, before, behind, stats⟩ := (verify_behind_jumpdests short (by decide)).1 _
      ((verify_eq_ok_iff (by decide)).mpr accepted)
    exact ⟨v, ok, before 69 (by decide), behind 1, behind 2, stats⟩
  · exact (verify_behind_jumpdests short' (by decide)).2 _
      ((verify_eq_violation_iff (by decide)).mpr rejected) nofun

/-! ## Codes that leave none -/

theorem eq_overflow_of_next {x : Stop} (h : next i = .error x) : x = .fault .overflow := by
  obtain ⟨_, -, same⟩ := mapError_eq_error.mp h
  exact same.symm

/-- The sweep in words faults at an instruction the offset behind which does not fit, if not
before. -/
theorem mark_eq_overflow {pc : UInt32} {offsets : IndexSet} (mem : i ∈ sweepFrom code pc.toNat)
    (wide : UInt32.size ≤ i.next) : mark code pc offsets = .error (.fault .overflow) := by
  fun_induction mark code pc offsets with
  | case1 pc offsets past =>
    rw [sweepFrom_of_none past] at mem
    cases mem
  | case2 pc offsets j fetch x failed => rw [eq_overflow_of_next failed]
  | case3 pc offsets j fetch behind sum ih =>
    have exact : behind.toNat = j.next :=
      (next_eq_ok_iff (pc_of_decode fetch ▸ pc.toNat_lt_size)).mp sum
    rw [sweepFrom_of_some fetch] at mem
    rcases List.mem_cons.mp mem with rfl | mem
    · have := behind.toNat_lt_size
      omega
    · exact ih (exact ▸ mem)

theorem verify_eq_overflow (short : code.size ≤ limits.maxCodeLength) (mem : i ∈ sweep code)
    (wide : UInt32.size ≤ i.next) : verify code limits = .error (.fault .overflow) := by
  rw [verify, if_neg (Nat.not_lt_of_le short), startsOf]
  have swept : mark code 0 (.empty code.size) = .error (.fault .overflow) :=
    mark_eq_overflow mem wide
  rw [swept]
  rfl

theorem verify_eq_codeTooLong (size : code.size = n) (long : limits.maxCodeLength < n) :
    verify code limits = .error (.violation (.codeTooLong n limits.maxCodeLength)) := by
  subst size
  exact if_pos long

theorem push_mem_sweep_latePush (n : Nat) : ⟨n, 0x7F, []⟩ ∈ sweep (latePush n) := by
  have start : IsStart (latePush n) (0 + n) :=
    isStart_behind_jumpdests.mpr (isStart_zero (by decide))
  obtain ⟨i, mem, here⟩ := start
  have fetch := decode_of_mem_sweepFrom mem
  rw [here, Nat.zero_add, decode_latePush] at fetch
  exact Option.some.inj fetch ▸ mem

/-- A stop, and behind it jump destinations and a push all of whose bytes are missing. -/
def stopBeforePush (n : Nat) : Code := #[0x00] ++ latePush n

theorem size_stopBeforePush (n : Nat) : (stopBeforePush n).size = n + 2 := by
  rw [stopBeforePush, Array.size_append, size_latePush]
  exact Nat.add_comm 1 (n + 1)

theorem decode_stopBeforePush (n : Nat) : decode (stopBeforePush n) 0 = some ⟨0, 0x00, []⟩ := by
  have first : (stopBeforePush n)[0]? = some 0x00 := Array.getElem?_append_left (by decide)
  have none : (stopBeforePush n).extract 1 (1 + immediateWidth 0x00) = #[] :=
    Array.extract_empty_of_stop_le_start (by decide)
  rw [decode, first, Option.map_some, none]

theorem push_mem_sweep_stopBeforePush (n : Nat) :
    ⟨n + 1, 0x7F, []⟩ ∈ sweep (stopBeforePush n) := by
  have behind : sweepFrom (stopBeforePush n) 1 = (sweep (latePush n)).map (Instr.shift 1) :=
    sweepFrom_append #[0x00] (latePush n) 0
  rw [sweep, sweepFrom_of_some (decode_stopBeforePush n)]
  refine List.mem_cons_of_mem _ ?_
  change _ ∈ sweepFrom (stopBeforePush n) 1
  rw [behind]
  exact List.mem_map_of_mem (push_mem_sweep_latePush n)

/-- Limits that admit more bytes than offsets can tell apart. -/
def generous : Limits := { codeLength := 4294967296 }

/-- The check of a stop stays at it. -/
theorem eq_start_of_passes_stop {s : Check.State} {f : Check.Frame}
    (passes : Check.Passes #[0x00] generous s) (path : s.path? = some f) : f = .start := by
  have course : ∀ s ∈ (Check.State.initial 1).course #[0x00] generous,
      ∀ f ∈ s.path?, f = .start := by
    decide +kernel
  exact course s (Check.mem_course_iff.mpr passes) f path

theorem visits_stop {f : Check.Frame} (h : Check.Visits #[0x00] generous f i) :
    f = .start ∧ i = ⟨0, 0x00, []⟩ := by
  obtain ⟨s, passes, path, -, fetch⟩ := h
  obtain rfl := eq_start_of_passes_stop passes path
  have alone : decode #[0x00] 0 = some ⟨0, 0x00, []⟩ := by decide
  exact ⟨rfl, Option.some.inj (fetch.symm.trans alone)⟩

/-- No path of a stop comes to what is behind it. -/
theorem readsAlike_stopBeforePush (n : Nat) : ReadsAlike generous #[0x00] (stopBeforePush n) where
  visited := by
    intro f i visits
    obtain ⟨rfl, rfl⟩ := visits_stop visits
    exact ⟨_, decode_stopBeforePush n, rfl, rfl, rfl⟩
  target := by
    rintro pc ⟨f, i, visits, target, -⟩
    obtain ⟨-, rfl⟩ := visits_stop visits
    cases target
  past := by
    rintro pc ⟨s, f, passes, path, rfl, past⟩
    rw [eq_start_of_passes_stop passes path] at past
    exact absurd past (by decide)

/-- Limits say nothing about the room. Where it is missing the check of a code that reads like a
stop can fault, and where the code is longer than offsets go it is not admitted, though the stop
is accepted. -/
theorem not_forall_sameResult :
    generous.codeLength = 4294967296 ∧
    (∃ v, verify #[0x00] generous = .ok v) ∧
    (ReadsAlike generous #[0x00] (stopBeforePush 4294967262) ∧
      (stopBeforePush 4294967262).size = 4294967264 ∧
      verify (stopBeforePush 4294967262) generous = .error (.fault .overflow)) ∧
    (ReadsAlike generous #[0x00] (stopBeforePush 4294967294) ∧
      (stopBeforePush 4294967294).size = 4294967296 ∧
      verify (stopBeforePush 4294967294) generous =
        .error (.violation (.codeTooLong 4294967296 4294967295))) ∧
    ¬ ∀ code code' limits, code.size ≤ limits.codeLength → code'.size ≤ limits.codeLength →
      ReadsAlike limits code code' → SameResult (verify code limits) (verify code' limits) := by
  have accepted : StackFlow.verify #[0x00] generous = .ok ⟨#[0x00], .ofCode #[0x00], ⟨#[some 0]⟩,
      ⟨1, 0, 1, 1, 0⟩⟩ := by
    decide +kernel
  have alone := (verify_eq_ok_iff (by decide)).mpr accepted
  have size := size_stopBeforePush 4294967262
  have overflow : verify (stopBeforePush 4294967262) generous = .error (.fault .overflow) :=
    verify_eq_overflow (size.trans_le (by decide)) (push_mem_sweep_stopBeforePush _) (by decide)
  have size' := size_stopBeforePush 4294967294
  have long : verify (stopBeforePush 4294967294) generous =
      .error (.violation (.codeTooLong 4294967296 4294967295)) :=
    verify_eq_codeTooLong size' (by decide)
  refine ⟨rfl, ⟨_, alone⟩, ⟨readsAlike_stopBeforePush _, size, overflow⟩,
    ⟨readsAlike_stopBeforePush _, size', long⟩, ?_⟩
  intro all
  rcases all _ _ generous (by decide) size'.le (readsAlike_stopBeforePush 4294967294) with
    ⟨w, rejected, -⟩ | ⟨v, v', -, accepted', -⟩
  · cases alone.symm.trans rejected
  · cases long.symm.trans accepted'

/-- Nor do they for code behind jump destinations.  A push that is accepted alone faults behind so
many that the offset behind it does not fit, and is not admitted behind more. -/
theorem not_forall_behind_jumpdests :
    generous.codeLength = 4294967296 ∧
    (∃ v, verify #[0x7F] generous = .ok v) ∧
    verify (jumpdests 4294967263 ++ #[0x7F]) generous = .error (.fault .overflow) ∧
    verify (jumpdests 4294967295 ++ #[0x7F]) generous =
      .error (.violation (.codeTooLong 4294967296 4294967295)) ∧
    ¬ ∀ code limits n v, code.size + n ≤ limits.codeLength → verify code limits = .ok v →
      ∃ v', verify (jumpdests n ++ code) limits = .ok v' := by
  have accepted : StackFlow.verify #[0x7F] generous = .ok ⟨#[0x7F], .ofCode #[0x7F], ⟨#[some 0]⟩,
      ⟨1, 0, 1, 1, 0⟩⟩ := by
    decide +kernel
  have alone := (verify_eq_ok_iff (by decide)).mpr accepted
  have size := size_latePush 4294967263
  have overflow : verify (latePush 4294967263) generous = .error (.fault .overflow) :=
    verify_eq_overflow (size.trans_le (by decide)) (push_mem_sweep_latePush _) (by decide)
  have long : verify (latePush 4294967295) generous =
      .error (.violation (.codeTooLong 4294967296 4294967295)) :=
    verify_eq_codeTooLong (size_latePush 4294967295) (by decide)
  refine ⟨rfl, ⟨_, alone⟩, overflow, long, ?_⟩
  intro all
  obtain ⟨v', accepted'⟩ := all #[0x7F] generous 4294967295 _ (by decide) alone
  cases long.symm.trans accepted'

end StackFlow.Packed
