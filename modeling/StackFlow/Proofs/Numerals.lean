import Mathlib.Algebra.Group.Nat.Defs
import Mathlib.Data.List.Induction
import StackFlow.Text.Numeral

/-!
# Numerals can be told apart

What is written as a numeral can be read again (`readDecimal`), so different
numbers have different numerals, whatever zeros stand in front.  Bytes in
hexadecimal can be told apart, too, as each takes two digits.
-/

namespace StackFlow

variable {b m n k : Nat} {c : Char}

/-! ## The length of a numeral -/

theorem ofDigits_lt {ds : List Nat} (h : ∀ d ∈ ds, d < b) : ofDigits b ds < b ^ ds.length := by
  induction ds using List.reverseRecOn with
  | nil => exact Nat.one_pos
  | append_singleton ds d ih =>
    have head := ih fun d hd ↦ h d (List.mem_append_left _ hd)
    have last := h d (List.mem_append_right _ List.mem_cons_self)
    rw [ofDigits_append_singleton, List.length_append, List.length_singleton, Nat.pow_succ]
    calc ofDigits b ds * b + d < ofDigits b ds * b + b := Nat.add_lt_add_left last _
      _ = (ofDigits b ds + 1) * b := (Nat.succ_mul _ _).symm
      _ ≤ b ^ ds.length * b := Nat.mul_le_mul_right b head

theorem one_lt_of_lt_pow (hk : 0 < k) (le : b ≤ n) (h : n < b ^ k) : 1 < k := by
  by_contra one
  obtain rfl : k = 1 := by omega
  rw [Nat.pow_one] at h
  omega

/-- A number has no more digits than it takes to write it. -/
theorem length_digits_le (hk : 0 < k) (h : n < b ^ k) : (digits b n).length ≤ k := by
  fun_induction digits b n generalizing k with
  | case1 n small => exact hk
  | case2 n big ih =>
    have two : 1 < k := one_lt_of_lt_pow hk (by omega) h
    have quotient : n / b < b ^ (k - 1) := by
      apply Nat.div_lt_of_lt_mul
      rw [← Nat.pow_succ']
      rwa [Nat.succ_eq_add_one, Nat.sub_add_cancel hk]
    have := ih (by omega) quotient
    rw [List.length_append, List.length_singleton]
    omega

/-! ## Decimal numerals -/

/-- The number that decimal digits stand for. -/
def readDecimal (s : String) : Nat := ofDigits 10 (s.toList.map fun c ↦ c.toNat - 48)

theorem map_map_digitChar (n : Nat) :
    ((digits 10 n).map Nat.digitChar).map (fun c ↦ c.toNat - 48) = digits 10 n := by
  rw [List.map_map]
  apply (List.map_congr_left ?_).trans (List.map_id _)
  intro d hd
  exact Nat.toNat_digitChar_sub_48_of_lt_ten (lt_of_mem_digits (by decide) hd)

theorem ofDigits_replicate_append (b k : Nat) (ds : List Nat) :
    ofDigits b (List.replicate k 0 ++ ds) = ofDigits b ds := by
  induction k with
  | zero => rfl
  | succ k ih =>
    rw [List.replicate_succ, List.cons_append, ofDigits, List.foldl_cons, Nat.zero_mul]
    exact ih

@[simp] theorem readDecimal_decimal (n : Nat) : readDecimal (decimal n) = n := by
  rw [readDecimal, decimal, String.toList_ofList, map_map_digitChar, ofDigits_digits]

@[simp] theorem readDecimal_paddedDecimal (width n : Nat) :
    readDecimal (paddedDecimal width n) = n := by
  rw [readDecimal, paddedDecimal, String.toList_ofList, List.leftpad, List.map_append,
    List.map_replicate, map_map_digitChar]
  exact (ofDigits_replicate_append 10 _ _).trans (ofDigits_digits 10 n)

theorem decimal_inj (h : decimal m = decimal n) : m = n := by
  rw [← readDecimal_decimal m, h, readDecimal_decimal]

theorem paddedDecimal_inj {width : Nat} (h : paddedDecimal width m = paddedDecimal width n) :
    m = n := by
  rw [← readDecimal_paddedDecimal width m, h, readDecimal_paddedDecimal]

theorem isDigit_of_mem_decimal (h : c ∈ (decimal n).toList) : c.isDigit = true := by
  rw [decimal, String.toList_ofList, List.mem_map] at h
  obtain ⟨d, hd, rfl⟩ := h
  rw [Nat.isDigit_digitChar, decide_eq_true_eq]
  exact lt_of_mem_digits (by decide) hd

theorem isDigit_of_mem_paddedDecimal {width : Nat} (h : c ∈ (paddedDecimal width n).toList) :
    c.isDigit = true := by
  rw [paddedDecimal, String.toList_ofList, List.leftpad, List.mem_append] at h
  rcases h with zero | digit
  · rw [(List.mem_replicate.mp zero).2]
    decide
  · apply isDigit_of_mem_decimal (n := n)
    rwa [decimal, String.toList_ofList]

theorem mem_signedDecimal {z : Int} (h : c ∈ (signedDecimal z).toList) :
    c = '-' ∨ c.isDigit = true := by
  unfold signedDecimal at h
  split at h
  · rw [String.toList_append, List.mem_append] at h
    rcases h with sign | digit
    · exact .inl (List.mem_singleton.mp sign)
    · exact .inr (isDigit_of_mem_decimal digit)
  · exact .inr (isDigit_of_mem_decimal h)

theorem append_decimal_ne_decimal : "-" ++ decimal m ≠ decimal n := by
  intro h
  have sign : '-' ∈ (decimal n).toList := by
    rw [← h, String.toList_append]
    exact List.mem_append_left _ List.mem_cons_self
  exact absurd (isDigit_of_mem_decimal sign) (by decide)

theorem signedDecimal_inj {y z : Int} (h : signedDecimal y = signedDecimal z) : y = z := by
  unfold signedDecimal at h
  split at h <;> split at h
  · have := decimal_inj ((String.append_right_inj "-").mp h)
    omega
  · exact absurd h append_decimal_ne_decimal
  · exact absurd h.symm append_decimal_ne_decimal
  · have := decimal_inj h
    omega

/-! ## Bytes in hexadecimal -/

theorem digitChar_inj {d e : Nat} (hd : d < 16) (he : e < 16)
    (h : Nat.digitChar d = Nat.digitChar e) : d = e := by
  have all : ∀ d e : Fin 16, Nat.digitChar d = Nat.digitChar e → d = e := by decide
  exact congrArg Fin.val (all ⟨d, hd⟩ ⟨e, he⟩ h)

theorem isAlphanum_digitChar {d : Nat} (hd : d < 16) : (Nat.digitChar d).isAlphanum = true := by
  have all : ∀ d : Fin 16, (Nat.digitChar d).isAlphanum = true := by decide
  exact all ⟨d, hd⟩

theorem toList_hexByte (byte : UInt8) :
    (hexByte byte).toList =
      [Nat.digitChar (byte.toNat / 16), Nat.digitChar (byte.toNat % 16)] :=
  String.toList_ofList

theorem hexByte_inj {byte byte' : UInt8} (h : hexByte byte = hexByte byte') : byte = byte' := by
  have lt := byte.toNat_lt
  have lt' := byte'.toNat_lt
  have chars := congrArg String.toList h
  rw [toList_hexByte, toList_hexByte] at chars
  obtain ⟨high, low⟩ := List.cons.inj chars
  have high := digitChar_inj (by omega) (by omega) high
  have low := digitChar_inj (by omega) (by omega) (List.head_eq_of_cons_eq low)
  apply UInt8.toNat_inj.mp
  omega

theorem toList_hexBytes_cons (byte : UInt8) (bytes : List UInt8) :
    (hexBytes (byte :: bytes)).toList = (hexByte byte).toList ++ (hexBytes bytes).toList := by
  rw [hexBytes, hexBytes, String.toList_join, String.toList_join, List.map_cons, List.flatMap_cons]

theorem hexBytes_inj {bytes bytes' : List UInt8} (h : hexBytes bytes = hexBytes bytes') :
    bytes = bytes' := by
  have chars := congrArg String.toList h
  clear h
  induction bytes generalizing bytes' with
  | nil =>
    cases bytes' with
    | nil => rfl
    | cons byte' bytes' =>
      rw [toList_hexBytes_cons, toList_hexByte] at chars
      cases chars
  | cons byte bytes ih =>
    cases bytes' with
    | nil =>
      rw [toList_hexBytes_cons, toList_hexByte] at chars
      cases chars
    | cons byte' bytes' =>
      rw [toList_hexBytes_cons, toList_hexBytes_cons] at chars
      have two : (hexByte byte).toList.length = (hexByte byte').toList.length := by
        rw [toList_hexByte, toList_hexByte]
        rfl
      obtain ⟨head, tail⟩ := List.append_inj chars two
      rw [hexByte_inj (String.toList_inj.mp head), ih tail]

theorem isAlphanum_of_mem_hexByte {byte : UInt8} (h : c ∈ (hexByte byte).toList) :
    c.isAlphanum = true := by
  have lt := byte.toNat_lt
  rw [toList_hexByte] at h
  rcases List.mem_cons.mp h with rfl | h
  · exact isAlphanum_digitChar (by omega)
  · rw [List.mem_singleton.mp h]
    exact isAlphanum_digitChar (by omega)

theorem isAlphanum_of_mem_hexBytes {bytes : List UInt8} (h : c ∈ (hexBytes bytes).toList) :
    c.isAlphanum = true := by
  rw [hexBytes, String.toList_join, List.mem_flatMap] at h
  obtain ⟨digits, mem, hc⟩ := h
  obtain ⟨byte, -, rfl⟩ := List.mem_map.mp mem
  exact isAlphanum_of_mem_hexByte hc

end StackFlow
