import StackFlow.Proofs.Shift
import StackFlow.Proofs.Tiling

/-!
# Code does not depend on its place

Displacements are relative, so code behind other code is the same code, shifted:
its instructions (`decode_append`), its sweep (`sweepFrom_append`) and its starts
(`isStart_append`).  A check that comes to the end of a row of jump destinations
stands where it would have begun without them (`Check.exists_shifted_initial`),
and from there on it goes along with the check of the code alone.  Only a target
in front of the code can tell that there is something now.
-/

namespace StackFlow

variable {code pre : Code} {limits : Limits} {pc n : Nat} {i : Instr}

/-! ## Code behind other code -/

def Instr.shift (n : Nat) (i : Instr) : Instr := { i with pc := i.pc + n }

theorem Instr.shifted_shift (n : Nat) (i : Instr) : i.Shifted n (i.shift n) where
  pc := rfl
  byte := rfl
  next := by
    simp only [next, width, shift]
    omega
  target := by
    have same : (i.shift n).displacement? = i.displacement? := rfl
    rw [target?, target?, same, Option.map_map]
    congr 1
    funext d
    simp only [Function.comp, shift, Int.natCast_add]
    omega

theorem decode_append (pre code : Code) (pc : Nat) :
    decode (pre ++ code) (pc + pre.size) = (decode code pc).map (Instr.shift pre.size) := by
  have byte : (pre ++ code)[pc + pre.size]? = code[pc]? := by
    rw [Array.getElem?_append_right (Nat.le_add_left _ _), Nat.add_sub_cancel]
  unfold decode
  rw [byte, Option.map_map]
  congr 1
  funext b
  have start : pc + pre.size + 1 - pre.size = pc + 1 := by omega
  have stop : pc + pre.size + 1 + immediateWidth b - pre.size = pc + 1 + immediateWidth b := by
    omega
  have before : pre.extract (pc + pre.size + 1) (pc + pre.size + 1 + immediateWidth b) = #[] :=
    Array.extract_empty_of_size_le_start (by omega)
  simp only [Function.comp, Instr.shift, Array.extract_append, before, start, stop,
    Array.empty_append]

theorem sweepFrom_append (pre code : Code) (pc : Nat) :
    sweepFrom (pre ++ code) (pc + pre.size) = (sweepFrom code pc).map (Instr.shift pre.size) := by
  fun_induction sweepFrom code pc with
  | case1 pc h => rw [sweepFrom_of_none (by rw [decode_append, h, Option.map_none]), List.map_nil]
  | case2 pc i h ih =>
    have fetch : decode (pre ++ code) (pc + pre.size) = some (i.shift pre.size) := by
      rw [decode_append, h, Option.map_some]
    rw [sweepFrom_of_some fetch, (i.shifted_shift _).next, ih, List.map_cons]

theorem Tiles.pc_lt {is : List Instr} {pc' : Nat} (h : Tiles pc is pc') (mem : i ∈ is) :
    i.pc < pc' := by
  induction h with
  | nil => cases mem
  | @cons j is pc' _ rest ih =>
    rcases List.mem_cons.mp mem with rfl | mem
    · have := rest.length_bytes
      simp only [Instr.next] at this
      omega
    · exact ih mem

/-- Behind complete instructions the starts are those of the code alone. -/
theorem isStart_append {is : List Instr} (tiles : Tiles 0 is pre.size)
    (bytes : pre.toList = is.flatMap Instr.bytes) :
    IsStart (pre ++ code) (pc + pre.size) ↔ IsStart code pc := by
  have behind := sweepFrom_append pre code 0
  rw [Nat.zero_add] at behind
  have swept : sweep (pre ++ code) = is ++ (sweep code).map (Instr.shift pre.size) := by
    have split : (pre ++ code).toList.drop 0 = is.flatMap Instr.bytes ++ code.toList := by
      rw [List.drop_zero, ← bytes, Array.toList_append]
    rw [sweep, tiles.sweepFrom split, behind, sweep]
  unfold IsStart
  rw [swept]
  constructor
  · rintro ⟨i, mem, here⟩
    rcases List.mem_append.mp mem with mem | mem
    · have := tiles.pc_lt mem
      omega
    · obtain ⟨j, swept, rfl⟩ := List.mem_map.mp mem
      exact ⟨j, swept, Nat.add_right_cancel here⟩
  · rintro ⟨i, mem, rfl⟩
    exact ⟨i.shift pre.size, List.mem_append_right _ (List.mem_map_of_mem mem), rfl⟩

/-! ## Jump destinations -/

/-- A row of instructions that do nothing. -/
def jumpdests (n : Nat) : Code := Array.replicate n Opcode.jumpdest.toByte

@[simp] theorem size_jumpdests (n : Nat) : (jumpdests n).size = n := Array.size_replicate

theorem tiles_jumpdests (k n : Nat) :
    Tiles k ((List.range' k n).map (Instr.make · .jumpdest [])) (k + n) := by
  induction n generalizing k with
  | zero => exact .nil k
  | succ n ih =>
    have rest := ih (k + 1)
    rw [Nat.add_right_comm] at rest
    exact .cons (i := Instr.make k .jumpdest []) rfl rest

theorem toList_jumpdests (k n : Nat) :
    (jumpdests n).toList =
      ((List.range' k n).map (Instr.make · .jumpdest [])).flatMap Instr.bytes := by
  have bytes (l : List Nat) : (l.map (Instr.make · .jumpdest [])).flatMap Instr.bytes =
      List.replicate l.length Opcode.jumpdest.toByte := by
    induction l with
    | nil => rfl
    | cons k l ih =>
      rw [List.map_cons, List.flatMap_cons, ih]
      rfl
  rw [bytes, List.length_range', jumpdests, Array.toList_replicate]

theorem isStart_behind_jumpdests :
    IsStart (jumpdests n ++ code) (pc + n) ↔ IsStart code pc := by
  have tiles : Tiles 0 ((List.range' 0 n).map (Instr.make · .jumpdest [])) (jumpdests n).size := by
    simpa using tiles_jumpdests 0 n
  have starts : IsStart (jumpdests n ++ code) (pc + (jumpdests n).size) ↔ IsStart code pc :=
    isStart_append tiles (toList_jumpdests 0 n)
  rwa [size_jumpdests] at starts

theorem exists_decode_jumpdests {k : Nat} (h : k < n) (code : Code) :
    ∃ i, decode (jumpdests n ++ code) k = some i ∧ i.opcode? = some .jumpdest ∧
      i.next = k + 1 := by
  have byte : (jumpdests n ++ code)[k]? = some Opcode.jumpdest.toByte := by
    rw [Array.getElem?_append_left (by rwa [size_jumpdests])]
    simp [jumpdests, h]
  obtain ⟨i, fetch⟩ := exists_decode (Array.getElem?_eq_some_iff.mp byte).1
  have opcode : i.opcode? = some .jumpdest := by
    rw [Instr.opcode?, ← Option.some.inj (byte.symm.trans (byte_of_decode fetch))]
    rfl
  refine ⟨i, fetch, opcode, ?_⟩
  rw [Instr.next, Instr.width_of_opcode? opcode, pc_of_decode fetch]
  rfl

namespace Check

open State

variable {s s' : State} {f : Frame}

/-! ## The check of the code behind -/

/-- A relative instruction that finds its items and its room is refused if its target is no
start. -/
theorem Frame.LooksUp.advance_eq {starts : Starts} {t : Int} (looks : f.LooksUp limits i t)
    (wild : starts.contains t = false) :
    f.advance limits starts i = .error (.invalidDestination i.pc t) := by
  obtain ⟨target, op, opcode, relative, items, room⟩ := looks
  have flows : op.flow ≠ .invalid := by
    intro flow
    rw [Opcode.isRelative, flow] at relative
    cases relative
  have legal_eq : legal i = .ok op := by
    have opcode : i.opcode? = some op := opcode
    simp [legal, opcode, flows]
  have effect_eq : f.effect limits op = .ok (f.after op) := by
    simp only [effect, Nat.not_lt_of_le items, if_false]
    exact if_neg (Nat.not_lt_of_le room)
  have resolve_eq : resolve starts i = .error (.invalidDestination i.pc t) := by
    simp [resolve, target, wild]
  refine bind_eq_error.mpr (.inr ⟨op, legal_eq, bind_eq_error.mpr (.inr ⟨_, effect_eq, ?_⟩)⟩)
  rcases Opcode.eq_of_isRelative relative with rfl | rfl | rfl <;>
    exact bind_eq_error.mpr (.inl resolve_eq)

/-- Behind jump destinations a code reads the same, unless its check stops at a target in front of
it. -/
theorem readsShifted_behind_jumpdests (n : Nat) (short : code.size ≤ limits.maxCodeLength)
    (inside : ∀ pc t, verify code limits = .error (.invalidDestination pc t) → 0 ≤ t) :
    ReadsShifted limits n code (jumpdests n ++ code) where
  visited := by
    rintro f i ⟨-, -, -, -, fetch⟩
    have behind := decode_append (jumpdests n) code f.pc
    rw [size_jumpdests, fetch, Option.map_some] at behind
    exact ⟨i.shift n, behind, i.shifted_shift n⟩
  target := by
    rintro t ⟨f, i, ⟨s, passes, path, new, fetch⟩, looks⟩
    by_cases nonneg : 0 ≤ t
    · obtain ⟨pc, rfl⟩ := Int.eq_ofNat_of_zero_le nonneg
      rw [← Int.natCast_add, Bool.eq_iff_iff, Starts.contains_natCast, Starts.contains_natCast,
        isStart_behind_jumpdests]
    · have wild : (Starts.ofCode code).contains t = false := by simp [Starts.contains, nonneg]
      have step : s.step code (.ofCode code) limits = _ :=
        step_of_new path fetch new (passes.inv.slots ▸ lt_size_of_decode fetch)
      rw [looks.advance_eq wild] at step
      exact absurd (inside _ t (passes.verify_of_fail short step)) nonneg
  past := by
    rintro pc ⟨-, -, -, -, -, past⟩
    rw [Array.size_append, size_jumpdests]
    omega

theorem advance_jumpdest {starts : Starts} {k : Nat} (opcode : i.opcode? = some .jumpdest)
    (next : i.next = k + 1) :
    (Frame.start.shift k).advance limits starts i = .ok (.next (Frame.start.shift (k + 1))) := by
  have room : (Frame.start.shift k).base + (Frame.start.shift k).after .jumpdest ≤
      limits.stack.toNat := Nat.zero_le _
  rw [Frame.advance_of_next opcode rfl (Nat.zero_le _) room, next]
  simp only [Frame.shift, Frame.start, Nat.zero_add]
  rfl

/-- Each jump destination shifts the beginning by one. -/
theorem State.Shifted.visit_start {size k : Nat} (h : (State.initial size).Shifted k s)
    (slot : (Frame.start.shift k).pc < s.heights.slots.size)
    (owner : (Frame.start.shift k).pc < s.owners.size)
    (new : s.heights.at? (Frame.start.shift k).pc = none) :
    (State.initial size).Shifted (k + 1)
      ((s.visit (Frame.start.shift k)).follow (.next (Frame.start.shift (k + 1)))) := by
  have here : (Frame.start.shift k).pc = k := Nat.zero_add k
  have other (pc : Nat) : pc + (k + 1) ≠ (Frame.start.shift k).pc := by omega
  have behind (pc : Nat) : pc + (k + 1) = pc + 1 + k := by omega
  refine ⟨rfl, ?_, fun pc ↦ ?_, ?_, fun pc ↦ ?_, ⟨fun e ↦ ?_, fun e ↦ ?_⟩, h.prunes, h.calls⟩
  · exact h.work.trans (by simp [State.initial, Worklist.push, Worklist.pop, Worklist.shift])
  · rw [at?_follow_visit slot, if_neg (other pc), behind, h.known]
    simp [State.initial]
  · rw [heights_follow, reached_visit new slot, h.reached]
    rfl
  · rw [owner?_follow_visit owner, if_neg (other pc), behind, h.owner]
    simp
  · exact (behind e ▸ h.waits.returning (e + 1)).trans (by simp [State.initial])
  · exact (behind e ▸ h.waits.parked (e + 1)).trans (by simp [State.initial])

/-- A check that has come through some of the jump destinations stands there as it stood at the
beginning. -/
theorem exists_shifted_initial (code : Code) (limits : Limits) {k : Nat} (h : k ≤ n) :
    ∃ s, Passes (jumpdests n ++ code) limits s ∧ (State.initial code.size).Shifted k s ∧
      ∀ pc < k, s.heights.at? pc = some 0 := by
  induction k with
  | zero => exact ⟨_, .initial, shifted_initial _ _, fun _ h ↦ absurd h (Nat.not_lt_zero _)⟩
  | succ k ih =>
    obtain ⟨s, passes, shifted, known⟩ := ih (Nat.le_of_succ_le h)
    obtain ⟨i, fetch, opcode, next⟩ := exists_decode_jumpdests h code
    have path : s.path? = some (Frame.start.shift k) := shifted.path
    have here : (Frame.start.shift k).pc = k := Nat.zero_add k
    rw [← here] at fetch
    have slot := passes.inv.slots ▸ lt_size_of_decode fetch
    have owner := passes.inv.owners ▸ lt_size_of_decode fetch
    have new : s.heights.at? (Frame.start.shift k).pc = none :=
      (shifted.known 0).trans (Heights.at?_empty _ _)
    have step : s.step _ (.ofCode (jumpdests n ++ code)) limits = _ :=
      step_of_new path fetch new slot
    rw [advance_jumpdest opcode next] at step
    refine ⟨_, passes.step step, shifted.visit_start slot owner new, fun pc hpc ↦ ?_⟩
    rw [at?_follow_visit slot, here]
    split
    · rfl
    · next other => exact known pc (by omega)

/-- What is known on the way is known at the end. -/
theorem Passes.known_run {σ : Type} {sink : Sink σ} {t : σ} {height : Nat}
    (h : Passes code limits s) (ok : (s.run code (.ofCode code) limits sink t).1 = .ok s')
    (known : s.heights.at? pc = some height) : s'.heights.at? pc = some height := by
  fun_induction State.run code (.ofCode code) limits sink s t with
  | case1 s t e step =>
    obtain ⟨-, rfl⟩ := path?_of_done step
    cases ok
    exact known
  | case2 => cases ok
  | case3 s t s₁ events step ih =>
    obtain ⟨f, path, goes⟩ := goes_of_step h.inv.slots step
    exact ih (h.step step) ok ((goes.keeps h.inv path).known known)

end Check

open Check

/-- Code behind jump destinations is accepted if the code alone is, with its heights and as much
work besides the destinations.  It is rejected for the same violation if the code alone is, unless
that is a target in front of the code. -/
theorem verify_jumpdests_append (short : code.size + n ≤ limits.maxCodeLength) :
    (∀ v, verify code limits = .ok v →
      ∃ v', verify (jumpdests n ++ code) limits = .ok v' ∧
        (∀ pc < n, v'.heightAt? pc = some 0) ∧
        (∀ pc, v'.heightAt? (n + pc) = v.heightAt? pc) ∧
        v'.stats = { v.stats with visits := v.stats.visits + n }) ∧
    ∀ w, verify code limits = .error w →
      (∀ pc target, w = .invalidDestination pc target → 0 ≤ target) →
      verify (jumpdests n ++ code) limits = .error (w.shift n) := by
  have short' : (jumpdests n ++ code).size ≤ limits.maxCodeLength := by
    rw [Array.size_append, size_jumpdests]
    omega
  have alone : code.size ≤ limits.maxCodeLength := by omega
  obtain ⟨s, passes, shifted, before⟩ := exists_shifted_initial (n := n) code limits (Nat.le_refl n)
  have sides (inside : ∀ pc t, verify code limits = .error (.invalidDestination pc t) → 0 ≤ t) :=
    shifted.run (readsShifted_behind_jumpdests n alone inside) .initial passes
      ({} : Sink Unit) () ()
  rw [verify_of_le short', passes.run_initial]
  constructor
  · intro v ok
    rw [ok] at sides
    rw [verify_of_le alone] at ok
    rcases sides nofun with ⟨w, error, -⟩ | ⟨e, e', run, run', ends⟩
    · rw [error] at ok
      cases ok
    · rw [run] at ok
      cases ok
      rw [run']
      refine ⟨_, rfl, fun pc hpc ↦ passes.known_run run' (before pc hpc), fun pc ↦ ?_, ?_⟩
      · rw [Nat.add_comm]
        exact ends.known pc
      · simp [Verified.ofState, ends.reached, ends.prunes, ends.work, ends.calls, Worklist.shift]
  · intro w error inside
    rw [error] at sides
    rw [verify_of_le alone] at error
    rcases sides fun pc t h ↦ inside pc t (Except.error.inj h) with
      ⟨w', run, run'⟩ | ⟨e, e', run, -⟩
    · rw [run] at error
      cases error
      rw [run']
      rfl
    · rw [run] at error
      cases error

end StackFlow
