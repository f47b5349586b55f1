import StackFlow.Offset
import StackFlow.Proofs.Placement

/-!
# Offsets of thirty-two bits

Offsets are numbers here, and words of thirty-two bits where the check runs.  A
word holds the offset of each byte of the longest code admitted, but not always
the offset behind an instruction, which may declare thirty-two bytes of
immediate past the end.  As long as these offsets fit in words, no sum wraps,
the sweep in words is the sweep, and a check goes on nowhere but ahead
(`NeverWraps`).  They do so in every code of some length if and only if the
offset thirty-two bytes past the end of such code fits (`forall_neverWraps_iff`).

The limit on the length of code leaves no room for that.  In the longest code
admitted the sweep in words can go on without end
(`not_sweepsInWords_latePush`).
-/

namespace StackFlow

variable {code : Code} {pc n : Nat} {i : Instr} {is is' : List Instr}

/-! ## Words and offsets -/

namespace Instr

/-- The wrapped sum is what is left of the offset in a word. -/
theorem toNat_wrappedNext (i : Instr) : i.wrappedNext.toNat = i.next % UInt32.size := by
  have one : (UInt32.ofNat i.pc + 1).toNat = (i.pc + 1) % UInt32.size := by
    rw [UInt32.toNat_add, UInt32.toNat_ofNat']
    exact Nat.mod_add_mod i.pc _ 1
  rw [wrappedNext, UInt32.toNat_add, UInt32.toNat_ofNat', one]
  exact (Nat.add_mod (i.pc + 1) i.width _).symm

end Instr

/-! ## The sweep in words -/

/-- A sweep whose offsets are words comes to an end and has met the instructions. -/
inductive SweepsInWords (code : Code) : UInt32 → List Instr → Prop where
  | done {pc : UInt32} (past : decode code pc.toNat = none) : SweepsInWords code pc []
  | next {pc : UInt32} {i : Instr} {is : List Instr} (fetch : decode code pc.toNat = some i)
      (rest : SweepsInWords code i.wrappedNext is) : SweepsInWords code pc (i :: is)

theorem SweepsInWords.unique {pc : UInt32} (h : SweepsInWords code pc is)
    (h' : SweepsInWords code pc is') : is = is' := by
  induction h generalizing is' with
  | done past =>
    cases h' with
    | done => rfl
    | next fetch => cases past.symm.trans fetch
  | next fetch _ ih =>
    cases h' with
    | done past => cases past.symm.trans fetch
    | next fetch' rest =>
      obtain rfl := Option.some.inj (fetch.symm.trans fetch')
      rw [ih rest]

/-! ## Code whose offsets fit -/

/-- The offset behind each instruction of the code fits in a word. -/
def OffsetsFit (code : Code) : Prop := ∀ pc i, decode code pc = some i → i.next < UInt32.size

namespace OffsetsFit

theorem of_size_le (h : code.size + 32 < UInt32.size) : OffsetsFit code := by
  intro pc i fetch
  have lt := lt_size_of_decode fetch
  have le := i.next_le
  rw [pc_of_decode fetch] at le
  omega

theorem toNat_wrappedNext (h : OffsetsFit code) (fetch : decode code pc = some i) :
    i.wrappedNext.toNat = i.next := by
  rw [i.toNat_wrappedNext, Nat.mod_eq_of_lt (h pc i fetch)]

theorem exists_checkedNext (h : OffsetsFit code) (fetch : decode code pc = some i) :
    ∃ next, i.checkedNext = .ok next ∧ next.toNat = i.next := by
  have lt := lt_next_of_decode fetch
  have fits := h pc i fetch
  have inside : i.pc < UInt32.size := pc_of_decode fetch ▸ lt.trans fits
  have exact : (UInt32.ofNat i.next).toNat = i.next := UInt32.toNat_ofNat_of_lt' fits
  exact ⟨_, (Instr.checkedNext_eq_ok_iff inside).mpr exact, exact⟩

theorem sweepsInWords (h : OffsetsFit code) (pc : UInt32) :
    SweepsInWords code pc (sweepFrom code pc.toNat) := by
  generalize start : pc.toNat = k
  fun_induction sweepFrom code k generalizing pc with
  | case1 k past => exact .done (start ▸ past)
  | case2 k i fetch ih => exact .next (start ▸ fetch) (ih _ (h.toNat_wrappedNext fetch))

end OffsetsFit

/-! ## Where a check goes on -/

namespace Check

/-- The offsets behind an instruction at which its move goes on, now or later. -/
def Move.behind : Move → List Nat
  | .halt | .jump _ | .ret _ => []
  | .next f => [f.pc]
  | .branch _ fallthrough => [fallthrough.pc]
  | .call body resume => resume.pc :: (body.call?.map Call.resume).toList

theorem Frame.Takes.eq_next_of_mem_behind {limits : Limits} {starts : Starts} {f : Frame}
    {op : Opcode} {m : Move} (h : f.Takes limits starts i op m) (mem : n ∈ m.behind) :
    n = i.next := by
  cases h with
  | halt | jump | ret => cases mem
  | next | branch => exact List.mem_singleton.mp mem
  | call =>
    rcases List.mem_cons.mp mem with rfl | mem
    · rfl
    · exact List.mem_singleton.mp mem

end Check

open Check

/-- In words, the offsets of the code are what they are as numbers. No sum is too great, the sweep
ends and ascends, and whatever the limits, a check falls through and resumes ahead of where it
stands. -/
structure NeverWraps (code : Code) : Prop where
  sum : ∀ pc i, decode code pc = some i → ∃ next, i.checkedNext = .ok next ∧ next.toNat = i.next
  sweep : ∀ is, SweepsInWords code 0 is ↔ is = StackFlow.sweep code
  ascending : ∀ is, SweepsInWords code 0 is → is.Pairwise (·.pc < ·.pc)
  ahead : ∀ limits s f i m, Passes code limits s → s.path? = some f →
    decode code f.pc = some i → f.advance limits (.ofCode code) i = .ok m →
    ∀ n ∈ m.behind, i.wrappedNext.toNat = n ∧ f.pc < n

/-- It takes offsets that fit, and no more. -/
theorem neverWraps_iff : NeverWraps code ↔ OffsetsFit code := by
  constructor
  · intro h pc i fetch
    obtain ⟨next, -, exact⟩ := h.sum pc i fetch
    exact exact ▸ next.toNat_lt_size
  · intro h
    have own : SweepsInWords code 0 (sweep code) := h.sweepsInWords 0
    refine ⟨fun pc i ↦ h.exists_checkedNext, fun is ↦ ⟨fun sweeps ↦ sweeps.unique own, ?_⟩,
      fun is sweeps ↦ ?_, ?_⟩
    · rintro rfl
      exact own
    · rw [sweeps.unique own]
      exact pairwise_sweepFrom code 0
    · intro limits s f i m _ _ fetch move n mem
      obtain ⟨op, -, -, -, -, takes⟩ := Frame.takes_of_advance move
      rw [takes.eq_next_of_mem_behind mem]
      exact ⟨h.toNat_wrappedNext fetch, lt_next_of_decode fetch⟩

/-! ## A push at the end of the longest code -/

/-- Behind a row of jump destinations, a push all of whose bytes are missing. -/
def latePush (n : Nat) : Code := jumpdests n ++ #[0x7F]

theorem size_latePush (n : Nat) : (latePush n).size = n + 1 := by
  rw [latePush, Array.size_append, size_jumpdests]
  rfl

theorem decode_latePush (n : Nat) : decode (latePush n) n = some ⟨n, 0x7F, []⟩ := by
  have behind := decode_append (jumpdests n) #[0x7F] 0
  rw [size_jumpdests, Nat.zero_add] at behind
  have alone : decode #[0x7F] 0 = some ⟨0, 0x7F, []⟩ := by decide
  rw [latePush, behind, alone, Option.map_some, Instr.shift, Nat.zero_add]

theorem next_latePush (n : Nat) : (Instr.mk n 0x7F []).next = n + 33 := rfl

/-- Where the offset behind the push wraps, the sweep in words never ends. -/
theorem not_sweepsInWords_latePush (inside : n < UInt32.size) (wraps : UInt32.size ≤ n + 33)
    {pc : UInt32} (le : pc.toNat ≤ n) : ¬ SweepsInWords (latePush n) pc is := by
  intro h
  induction h with
  | @done pc past =>
    rw [decode_eq_none_iff, size_latePush] at past
    omega
  | @next pc i is fetch _ ih =>
    apply ih
    rw [i.toNat_wrappedNext]
    rcases Nat.lt_or_eq_of_le le with lt | last
    · obtain ⟨j, fetch', -, next⟩ := exists_decode_jumpdests lt #[0x7F]
      obtain rfl := Option.some.inj (fetch.symm.trans fetch')
      rw [next, Nat.mod_eq_of_lt (by omega)]
      exact lt
    · rw [last, decode_latePush] at fetch
      cases fetch
      have large : 33 ≤ UInt32.size := by decide
      rw [next_latePush, Nat.mod_eq_sub_mod wraps]
      exact (Nat.mod_le _ _).trans (by omega)

/-- A check of the code falls through the push to an offset behind its end. -/
theorem exists_passes_latePush {limits : Limits} (room : 1 ≤ limits.stack.toNat) (n : Nat) :
    ∃ s f m, Passes (latePush n) limits s ∧ s.path? = some f ∧ f.pc = n ∧
      f.advance limits (.ofCode (latePush n)) ⟨n, 0x7F, []⟩ = .ok m ∧ n + 33 ∈ m.behind := by
  obtain ⟨s, passes, shifted, -⟩ := exists_shifted_initial #[0x7F] limits (Nat.le_refl n)
  have opcode : (Instr.mk n 0x7F []).opcode? = some (.push 31) := rfl
  refine ⟨s, Frame.start.shift n, _, passes, shifted.path, Nat.zero_add n,
    Frame.advance_of_next opcode rfl (Nat.zero_le _) room, ?_⟩
  exact List.mem_singleton.mpr (next_latePush n).symm

/-! ## Which lengths leave room -/

/-- Nothing wraps in any code of some length if and only if the offset thirty-two bytes past the
end of such code fits in a word. -/
theorem forall_neverWraps_iff (n : Nat) :
    (∀ code : Code, code.size = n → NeverWraps code) ↔ n ≤ 4294967263 := by
  constructor
  · intro h
    by_contra long
    obtain ⟨k, rfl⟩ := Nat.exists_eq_succ_of_ne_zero (show n ≠ 0 by omega)
    have fits := neverWraps_iff.mp (h _ (size_latePush k)) k _ (decode_latePush k)
    rw [next_latePush] at fits
    change k + 33 < 4294967296 at fits
    omega
  · rintro short code rfl
    have room : code.size + 32 < UInt32.size := Nat.lt_succ_of_le (Nat.add_le_add_right short 32)
    exact neverWraps_iff.mpr (.of_size_le room)

/-- The longest code admitted leaves no room. The sum behind the push at its end is too great, and
wraps to an offset near the start, from which a sweep in words goes on without end and to which a
check that gets there falls through. -/
theorem not_forall_neverWraps :
    (latePush 4294967294).size = longestCode ∧
    decode (latePush 4294967294) 4294967294 = some ⟨4294967294, 0x7F, []⟩ ∧
    (Instr.mk 4294967294 0x7F []).checkedNext = .error {} ∧
    (Instr.mk 4294967294 0x7F []).wrappedNext = 31 ∧
    (∀ is, ¬ SweepsInWords (latePush 4294967294) 0 is) ∧
    (∃ s f m, Passes (latePush 4294967294) { codeLength := longestCode } s ∧
      s.path? = some f ∧ f.pc = 4294967294 ∧
      f.advance { codeLength := longestCode } (.ofCode (latePush 4294967294))
        ⟨4294967294, 0x7F, []⟩ = .ok m ∧ 4294967327 ∈ m.behind) ∧
    ¬ ∀ code : Code, code.size ≤ longestCode → NeverWraps code := by
  have size : (latePush 4294967294).size = longestCode := size_latePush 4294967294
  refine ⟨size, decode_latePush _, by decide, by decide, fun is ↦ ?_, ?_, fun all ↦ ?_⟩
  · exact not_sweepsInWords_latePush (by decide) (by decide) (Nat.zero_le _)
  · exact exists_passes_latePush (by decide) 4294967294
  · have fits := neverWraps_iff.mp (all _ size.le) _ _ (decode_latePush 4294967294)
    exact absurd fits (by decide)

end StackFlow
