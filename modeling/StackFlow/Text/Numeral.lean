/-! # Numerals: numbers as digits of a base, most significant digit first -/

namespace StackFlow

/-- The fewest digits of `n` in base `b`, at least one. A base below two leaves `n` as its own
digit. -/
def digits (b n : Nat) : List Nat :=
  if b < 2 ∨ n < b then [n] else digits b (n / b) ++ [n % b]
termination_by n
decreasing_by exact Nat.div_lt_self (by omega) (by omega)

/-- The number that a list of digits stands for. -/
def ofDigits (b : Nat) (ds : List Nat) : Nat := ds.foldl (fun n d => n * b + d) 0

@[simp] theorem ofDigits_nil (b : Nat) : ofDigits b [] = 0 := rfl

@[simp] theorem ofDigits_append_singleton (b : Nat) (ds : List Nat) (d : Nat) :
    ofDigits b (ds ++ [d]) = ofDigits b ds * b + d := by
  simp [ofDigits]

/-- Digits read back as their number. -/
@[simp] theorem ofDigits_digits (b n : Nat) : ofDigits b (digits b n) = n := by
  fun_induction digits b n with
  | case1 => simp [ofDigits]
  | case2 n _ ih => rw [ofDigits_append_singleton, ih, Nat.mul_comm, Nat.div_add_mod]

theorem digits_ne_nil (b n : Nat) : digits b n ≠ [] := by
  unfold digits
  split <;> simp

theorem lt_of_mem_digits {b n d : Nat} (hb : 2 ≤ b) (hd : d ∈ digits b n) : d < b := by
  fun_induction digits b n with
  | case1 n h =>
    rw [List.mem_singleton] at hd
    omega
  | case2 n _ ih =>
    rcases List.mem_append.mp hd with hd | hd
    · exact ih hd
    · rw [List.mem_singleton.mp hd]
      exact Nat.mod_lt _ (by omega)

/-- A number in decimal. -/
def decimal (n : Nat) : String := String.ofList ((digits 10 n).map Nat.digitChar)

/-- A number in decimal, filled up with zeros on the left to at least `width` characters. -/
def paddedDecimal (width n : Nat) : String :=
  String.ofList (((digits 10 n).map Nat.digitChar).leftpad width '0')

/-- A signed number in decimal; only a negative one carries a sign. -/
def signedDecimal (z : Int) : String :=
  if z < 0 then "-" ++ decimal z.natAbs else decimal z.natAbs

/-- A byte as two lower-case hexadecimal digits. -/
def hexByte (b : UInt8) : String :=
  String.ofList [Nat.digitChar (b.toNat / 16), Nat.digitChar (b.toNat % 16)]

/-- A byte as two upper-case hexadecimal digits. -/
def upperHexByte (b : UInt8) : String := (hexByte b).toUpper

/-- Bytes as lower-case hexadecimal digits, two to a byte. -/
def hexBytes (bs : List UInt8) : String := String.join (bs.map hexByte)

end StackFlow
