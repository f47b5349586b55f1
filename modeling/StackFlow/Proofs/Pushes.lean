import StackFlow.Packed.Builder
import StackFlow.Proofs.Assembly

/-!
# Pushes carry their value in the fewest bytes

Whatever a builder has been through, a push appends one instruction to it, which
is read where the builder stood and behind which the builder stands then
(`Builder.Gains`).  Its immediate is what was to be pushed, and for a number the
fewest bytes that stand for it (`Builder.exists_gains`).

The fewest bytes of a number are its eight bytes without the zeros in front,
where the last byte stays even if it is a zero (`pushNumber_eq_push`).

A builder in words knows where it stands as long as the offset is a word.  As long
as it does, the instruction is read at that offset (`Packed.Builder.push_gains`).
-/

namespace StackFlow

variable {k n : Nat}

/-! ## Numbers in a fixed number of digits -/

/-- The last `k` digits of a number, zeros in front included. -/
def lastDigits (b : Nat) : Nat → Nat → List Nat
  | 0, _ => []
  | k + 1, n => lastDigits b k (n / b) ++ [n % b]

theorem lastDigits_zero (b k : Nat) : lastDigits b k 0 = List.replicate k 0 := by
  induction k with
  | zero => rfl
  | succ k ih => rw [lastDigits, Nat.zero_div, Nat.zero_mod, ih, List.replicate_succ']

/-- A number with room to spare has zeros in front of its digits. -/
theorem lastDigits_eq {b : Nat} (hb : 2 ≤ b) (hk : 0 < k) (h : n < b ^ k) :
    lastDigits b k n = List.replicate (k - (digits b n).length) 0 ++ digits b n := by
  fun_induction digits b n generalizing k with
  | case1 n small =>
    have lt : n < b := small.resolve_left (Nat.not_lt.mpr hb)
    obtain ⟨k, rfl⟩ := Nat.exists_eq_succ_of_ne_zero hk.ne'
    rw [lastDigits, Nat.div_eq_of_lt lt, Nat.mod_eq_of_lt lt, lastDigits_zero]
    rfl
  | case2 n big ih =>
    have two : 1 < k := one_lt_of_lt_pow hk (by omega) h
    obtain ⟨k, rfl⟩ := Nat.exists_eq_succ_of_ne_zero hk.ne'
    have quotient : n / b < b ^ k := Nat.div_lt_of_lt_mul (Nat.pow_succ' ▸ h)
    rw [lastDigits, ih (by omega) quotient, List.append_assoc, List.length_append,
      List.length_singleton, Nat.succ_sub_succ]

/-- The digits of a number that is not zero do not begin with a zero. -/
theorem exists_cons_eq_digits (b : Nat) (hn : 0 < n) : ∃ d ds, digits b n = d :: ds ∧ 0 < d := by
  induction n using Nat.strong_induction_on with
  | _ n ih =>
  rw [digits]
  split
  · exact ⟨n, [], rfl, hn⟩
  · next big =>
    have lt : n / b < n := Nat.div_lt_self hn (by omega)
    obtain ⟨d, ds, eq, pos⟩ := ih (n / b) lt (Nat.div_pos (by omega) (by omega))
    exact ⟨d, ds ++ [n % b], by rw [eq, List.cons_append], pos⟩

/-- The eight bytes of a number. -/
def eightBytes (v : UInt64) : List UInt8 := (lastDigits 256 8 v.toNat).map UInt8.ofNat

theorem eightBytes_eq (v : UInt64) :
    eightBytes v = List.replicate (8 - (digits 256 v.toNat).length) 0 ++
      (digits 256 v.toNat).map UInt8.ofNat := by
  have lt : v.toNat < 256 ^ 8 := v.toNat_lt
  rw [eightBytes, lastDigits_eq (by decide) (by decide) lt, List.map_append, List.map_replicate]
  rfl

/-- Without the zeros in front of them, but with their last byte in any case, the eight bytes of a
number are its fewest. -/
theorem drop_eightBytes (v : UInt64) :
    (eightBytes v).drop (min ((eightBytes v).takeWhile (· = 0)).length 7) =
      (digits 256 v.toNat).map UInt8.ofNat := by
  by_cases zero : v = 0
  · rw [zero]
    decide +kernel
  · have pos : 0 < v.toNat := Nat.pos_of_ne_zero fun eq ↦ zero (UInt64.toNat_inj.mp eq)
    have few : (digits 256 v.toNat).length ≤ 8 := length_digits_le (by decide) v.toNat_lt
    have some : 0 < (digits 256 v.toNat).length :=
      List.length_pos_of_ne_nil (digits_ne_nil 256 v.toNat)
    obtain ⟨d, ds, eq, pos⟩ := exists_cons_eq_digits 256 pos
    have lt : d < 256 := lt_of_mem_digits (by decide) (eq ▸ List.mem_cons_self)
    have first : UInt8.ofNat d ≠ 0 := by
      intro eq
      have value : (UInt8.ofNat d).toNat = 0 := congrArg UInt8.toNat eq
      rw [UInt8.toNat_ofNat_of_lt' lt] at value
      exact pos.ne' value
    have zeros : ((eightBytes v).takeWhile (· = 0)).length =
        8 - (digits 256 v.toNat).length := by
      rw [eightBytes_eq, List.takeWhile_append_of_pos, eq, List.map_cons,
        List.takeWhile_cons_of_neg, List.append_nil, List.length_replicate]
      · simpa using first
      · intro byte mem
        exact decide_eq_true (List.eq_of_mem_replicate mem)
    rw [zeros, Nat.min_eq_left (by omega), eightBytes_eq, List.drop_left']
    exact List.length_replicate

namespace Builder

variable {b b' : Builder} {i : Instr} {bytes : List UInt8}

/-- The bytes of a complete instruction are read as it, wherever they have been appended. -/
theorem decode_append_bytes {code : Code} (pc : i.pc = code.size)
    (complete : i.immediate.length = i.width) (rest : List UInt8) :
    decode (code ++ i.bytes ++ rest) i.pc = some i := by
  have behind : (code ++ i.bytes ++ rest).toList.drop i.pc = i.bytes ++ rest := by
    rw [pc, Array.toList_appendList, Array.toList_appendList, List.append_assoc, List.drop_left']
    exact Array.length_toList
  exact decode_of_drop behind (complete ▸ List.take_left)

/-! ## What a builder gains -/

/-- An instruction has been appended to a builder. Whatever bytes follow it, it is read where the
builder stood, also when displacements have been filled in, and behind it stands the builder. -/
structure Gains (b b' : Builder) (i : Instr) : Prop where
  appended : b' = b.raw i.bytes
  pc : i.pc = b.pc
  next : i.next = b'.pc
  complete : i.isTruncated = false
  read : ∀ rest, decode (b'.raw rest).bytes b.pc = some i
  finished : b.Inside → ∀ rest code, (b'.raw rest).finish = .ok code →
    decode code b.pc = some i

theorem gains_raw {o : Opcode} {immediate : List UInt8} (b : Builder)
    (length : immediate.length = o.immediateLength) :
    Gains b (b.raw (o.toByte :: immediate)) (.make b.pc o immediate) := by
  let i := Instr.make b.pc o immediate
  have complete : i.immediate.length = i.width := length.trans Instr.width_make.symm
  refine ⟨rfl, rfl, next_make_eq_pc_raw b length, ?_, decode_append_bytes rfl complete, ?_⟩
  · change decide (i.immediate.length < i.width) = false
    rw [complete]
    exact decide_eq_false (Nat.lt_irrefl _)
  · intro inside rest code finish
    rw [finish_raw (inside.raw _), finish_raw inside] at finish
    obtain ⟨code₁, appended, rfl⟩ := map_eq_ok.mp finish
    obtain ⟨code₀, before, rfl⟩ := map_eq_ok.mp appended
    exact decode_append_bytes (i := i) (size_of_finish before).symm complete rest

/-- The instruction pushes the bytes, as many as its opcode says. -/
structure Pushes (i : Instr) (bytes : List UInt8) : Prop where
  opcode : ∃ k : Fin 32, i.opcode? = some (.push k) ∧ bytes.length = k + 1
  immediate : i.immediate = bytes

theorem pushes_make {k : Fin 32} (pc : Nat)
    (length : bytes.length = (Opcode.push k).immediateLength) :
    Pushes (.make pc (.push k) bytes) bytes :=
  ⟨⟨k, Instr.opcode?_make, length⟩, rfl⟩

/-- A number is pushed as its eight bytes without the zeros in front. -/
theorem pushNumber_eq_push (b : Builder) (v : UInt64) :
    b.pushNumber v.toNat =
      b.push ((eightBytes v).drop (min ((eightBytes v).takeWhile (· = 0)).length 7)) := by
  rw [drop_eightBytes, pushNumber]

/-- To push bytes appends one instruction with those bytes, a zero if there are none and the last
thirty-two if there are more. To push a number appends one with the fewest bytes that stand for
it. -/
theorem exists_gains (b : Builder) :
    (∀ data : List UInt8, ∃ i bytes, Gains b (b.push data) i ∧ Pushes i bytes ∧
      (data = [] → bytes = [0]) ∧
      (data ≠ [] → data.length ≤ 32 → bytes = data) ∧
      (32 < data.length → bytes = data.drop (data.length - 32))) ∧
    ∀ v : UInt64, ∃ i bytes, Gains b (b.pushNumber v.toNat) i ∧ Pushes i bytes ∧
      FewestBytes v.toNat bytes ∧ (v = 0 → bytes = [0]) := by
  constructor
  · intro data
    obtain ⟨k, immediate, raw, length, empty, nonempty⟩ := push_eq_raw b data
    rw [raw]
    refine ⟨_, immediate, gains_raw b length, pushes_make b.pc length, empty, ?_, ?_⟩
    · intro some few
      obtain ⟨suffix, short⟩ := nonempty some
      exact suffix.eq_of_length (short.trans (Nat.min_eq_right few))
    · intro many
      obtain ⟨suffix, short⟩ := nonempty (List.ne_nil_of_length_pos (by omega))
      rw [List.suffix_iff_eq_drop.mp suffix, short, Nat.min_eq_left many.le]
  · intro v
    obtain ⟨k, raw, length⟩ := pushNumber_eq_raw b v
    rw [raw]
    refine ⟨_, _, gains_raw b length, pushes_make b.pc length, fewestBytes_digits v.toNat, ?_⟩
    rintro rfl
    decide +kernel

end Builder

/-! ## In words -/

namespace Packed.Builder

open StackFlow.Builder (Pushes)

variable {b b' : Builder} {i : Instr}

/-- An instruction has been appended to a builder. Whatever bytes follow it, it is read at the
offset of the builder, also when displacements have been filled in. -/
structure Gains (b b' : Builder) (i : Instr) : Prop where
  appended : b'.unpack = b.unpack.raw i.bytes
  pc : i.pc = b.pc.toNat
  next : i.next = b'.size
  complete : i.isTruncated = false
  read : ∀ rest, decode (b'.append rest).code b.pc.toNat = some i
  finished : b.unpack.Inside → ∀ rest code, (b'.append rest).finish = .ok code →
    decode code b.pc.toNat = some i

theorem Gains.of_unpack (short : b.size ≤ lastNumber)
    (h : StackFlow.Builder.Gains b.unpack b'.unpack i) : Gains b b' i where
  appended := h.appended
  pc := h.pc.trans (toNat_pc short).symm
  next := h.next.trans b'.size_code
  complete := h.complete
  read := by
    intro rest
    have code : (b'.append rest).code = (b'.unpack.raw rest).bytes :=
      congrArg StackFlow.Builder.bytes (unpack_append b' rest)
    rw [code, toNat_pc short]
    exact h.read rest
  finished := by
    intro inside rest code finished
    rw [finish, unpack_append] at finished
    rw [toNat_pc short]
    exact h.finished inside rest code finished

/-- To push bytes appends one instruction with those bytes, a zero if there are none and the last
thirty-two if there are more. To push a number appends one with the fewest bytes that stand for
it. -/
theorem push_gains (b : Builder) (short : b.size < 4294967296) :
    (∀ data : List UInt8, ∃ i bytes, Gains b (b.push data) i ∧ Pushes i bytes ∧
      (data = [] → bytes = [0]) ∧
      (data ≠ [] → data.length ≤ 32 → bytes = data) ∧
      (32 < data.length → bytes = data.drop (data.length - 32))) ∧
    ∀ v : UInt64, ∃ i bytes, Gains b (b.pushNumber v.toNat) i ∧ Pushes i bytes ∧
      FewestBytes v.toNat bytes ∧ (v = 0 → bytes = [0]) := by
  have short : b.size ≤ lastNumber := Nat.le_of_lt_succ short
  obtain ⟨pushes, numbers⟩ := b.unpack.exists_gains
  constructor
  · intro data
    obtain ⟨i, bytes, gains, rest⟩ := pushes data
    rw [← unpack_push] at gains
    exact ⟨i, bytes, .of_unpack short gains, rest⟩
  · intro v
    obtain ⟨i, bytes, gains, rest⟩ := numbers v
    rw [← unpack_pushNumber] at gains
    exact ⟨i, bytes, .of_unpack short gains, rest⟩

/-- A builder with a jump destination. -/
def landing : Builder := empty.op .jumpdest

/-- Behind the jump destination two bytes are pushed as they are, and the number zero as one. -/
theorem push_gains_landing :
    landing.size < 4294967296 ∧
    (∃ i, Gains landing (landing.push [1, 2]) i ∧ i.pc = 1 ∧ i.immediate = [1, 2]) ∧
    ∃ i, Gains landing (landing.pushNumber 0) i ∧ i.pc = 1 ∧ i.immediate = [0] := by
  have short : landing.size < 4294967296 := by decide
  obtain ⟨pushes, numbers⟩ := push_gains landing short
  refine ⟨short, ?_, ?_⟩
  · obtain ⟨i, bytes, gains, push, -, same, -⟩ := pushes [1, 2]
    exact ⟨i, gains, gains.pc, push.immediate.trans (same (by decide) (by decide))⟩
  · obtain ⟨i, bytes, gains, push, -, zero⟩ := numbers 0
    exact ⟨i, gains, gains.pc, push.immediate.trans (zero rfl)⟩

/-- A builder with as many jump destinations as there are words. -/
def full : Builder := empty.raw [{ bytes := #[0x5B], copies := 4294967296 }]

/-- Of such a builder the greatest word is the offset, where its last jump destination is read and
not the push behind it. -/
theorem not_forall_push_gains :
    full.size = 4294967296 ∧ full.pc = 4294967295 ∧
    decode (full.push [1]).code 4294967296 = some ⟨4294967296, 0x60, [1]⟩ ∧
    decode (full.push [1]).code 4294967295 = some ⟨4294967295, 0x5B, []⟩ ∧
    ¬ ∀ (b : Builder) (data : List UInt8), ∃ i bytes, Gains b (b.push data) i ∧ Pushes i bytes := by
  have size : full.size = 4294967296 := by decide
  have pc : full.pc = 4294967295 := by decide
  have push : decode (full.push [1]).code 4294967296 = some ⟨4294967296, 0x60, [1]⟩ := by
    rw [decode_code]
    decide +kernel
  have last : decode (full.push [1]).code 4294967295 = some ⟨4294967295, 0x5B, []⟩ := by
    rw [decode_code]
    decide +kernel
  refine ⟨size, pc, push, last, fun all ↦ ?_⟩
  obtain ⟨i, bytes, gains, pushes⟩ := all full [1]
  have read := gains.read []
  rw [code_append, pc, Array.appendList_nil] at read
  obtain rfl := Option.some.inj (last.symm.trans read)
  obtain ⟨k, opcode, -⟩ := pushes.opcode
  cases opcode

end Packed.Builder

end StackFlow
