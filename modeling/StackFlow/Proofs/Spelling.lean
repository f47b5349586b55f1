import Mathlib.Data.List.Forall2
import Mathlib.Data.List.TakeWhile
import StackFlow.Proofs.Definitions

/-!
# How bytes are spelled

A byte is spelled by hexadecimal digits, as many as one likes.  A plus sign can
stand in front of them, a mark in front of that, and blanks around it all
(`Spells`).  This is just what can be read (`byte?_eq_some_iff`): the reader,
which leaves out the mark before it looks at what follows, never takes a digit
for a mark.
-/

namespace StackFlow

variable {cs core left right : List Char} {c : Char}

/-! ## Blanks around a text -/

theorem exists_trimBlanks (cs : List Char) :
    ∃ left right, (∀ c ∈ left, isBlank c = true) ∧ (∀ c ∈ right, isBlank c = true) ∧
      cs = left ++ trimBlanks cs ++ right := by
  let rest := cs.dropWhile isBlank
  refine ⟨cs.takeWhile isBlank, (rest.reverse.takeWhile isBlank).reverse,
    fun c hc ↦ List.mem_takeWhile_imp hc,
    fun c hc ↦ List.mem_takeWhile_imp (List.mem_reverse.mp hc), ?_⟩
  have back : trimBlanks cs ++ (rest.reverse.takeWhile isBlank).reverse = rest := by
    rw [trimBlanks, ← List.reverse_append, List.takeWhile_append_dropWhile, List.reverse_reverse]
  rw [List.append_assoc, back, List.takeWhile_append_dropWhile]

theorem dropWhile_isBlank (blank : ∀ c ∈ left, isBlank c = true)
    (inked : ∀ c ∈ core, isBlank c = false) (ne : core ≠ []) :
    (left ++ core ++ right).dropWhile isBlank = core ++ right := by
  rw [List.append_assoc, List.dropWhile_append_of_pos blank]
  cases core with
  | nil => exact absurd rfl ne
  | cons c core =>
    rw [List.cons_append, List.dropWhile_cons, if_neg]
    rw [inked c List.mem_cons_self]
    decide

/-- Nothing else is left out than the blanks around a text. -/
theorem trimBlanks_append (left_blank : ∀ c ∈ left, isBlank c = true)
    (right_blank : ∀ c ∈ right, isBlank c = true) (inked : ∀ c ∈ core, isBlank c = false)
    (ne : core ≠ []) : trimBlanks (left ++ core ++ right) = core := by
  have behind : (core ++ right).reverse = right.reverse ++ core.reverse ++ [] := by
    rw [List.reverse_append, List.append_nil]
  rw [trimBlanks, dropWhile_isBlank left_blank inked ne, behind, dropWhile_isBlank, List.append_nil,
    List.reverse_reverse]
  · exact fun c hc ↦ right_blank c (List.mem_reverse.mp hc)
  · exact fun c hc ↦ inked c (List.mem_reverse.mp hc)
  · exact fun nil ↦ ne (List.reverse_eq_nil_iff.mp nil)

namespace Table

open Json.Token (hexValue?)

variable {n m : Nat} {b : UInt8}

/-! ## Digits -/

/-- The characters are digits of a number, at least one. -/
structure HexDigits (cs : List Char) (n : Nat) : Prop where
  nonempty : cs ≠ []
  value : ∃ ds, List.Forall₂ (fun c d ↦ hexValue? c = some d) cs ds ∧ ofDigits 16 ds = n

theorem le_foldl_digits (n : Nat) (ds : List Nat) :
    n ≤ ds.foldl (fun n d ↦ n * 16 + d) n := by
  induction ds generalizing n with
  | nil => exact Nat.le_refl n
  | cons d ds ih =>
    have := ih (n * 16 + d)
    rw [List.foldl_cons]
    omega

/-- No number on the way is greater than that of all digits. -/
theorem readDigits_eq_ok_iff (small : n < 256) :
    readDigits n cs = .ok m ↔ m < 256 ∧
      ∃ ds, List.Forall₂ (fun c d ↦ hexValue? c = some d) cs ds ∧
        ds.foldl (fun n d ↦ n * 16 + d) n = m := by
  induction cs generalizing n with
  | nil =>
    rw [readDigits]
    constructor
    · rintro ⟨⟩
      exact ⟨small, [], .nil, rfl⟩
    · rintro ⟨-, _, ⟨⟩, rfl⟩
      rfl
  | cons c cs ih =>
    rw [readDigits]
    simp only [List.forall₂_cons_left_iff]
    cases digit : hexValue? c with
    | none =>
      refine ⟨nofun, ?_⟩
      rintro ⟨-, _, ⟨d, ds, here, -, -⟩, -⟩
      cases here
    | some d =>
      dsimp only
      split
      · next fits =>
        rw [ih fits]
        constructor
        · rintro ⟨lt, ds, digits, rfl⟩
          exact ⟨lt, d :: ds, ⟨d, ds, rfl, digits, rfl⟩, rfl⟩
        · rintro ⟨lt, _, ⟨_, ds, ⟨⟩, digits, rfl⟩, rfl⟩
          exact ⟨lt, ds, digits, rfl⟩
      · next exceeds =>
        refine ⟨nofun, ?_⟩
        rintro ⟨lt, _, ⟨_, ds, ⟨⟩, -, rfl⟩, rfl⟩
        have := le_foldl_digits (n * 16 + d) ds
        rw [List.foldl_cons] at lt
        omega

theorem readDigits_zero_eq_ok_iff (ne : cs ≠ []) :
    readDigits 0 cs = .ok m ↔ m < 256 ∧ HexDigits cs m := by
  rw [readDigits_eq_ok_iff (by decide)]
  exact and_congr_right fun _ ↦ ⟨fun value ↦ ⟨ne, value⟩, HexDigits.value⟩

theorem HexDigits.forall_mem (h : HexDigits cs n) : ∀ c ∈ cs, (hexValue? c).isSome = true := by
  obtain ⟨ds, digits, -⟩ := h.value
  intro c hc
  obtain ⟨d, -, value⟩ := exists_mem_of_forall₂ digits hc
  rw [value, Option.isSome_some]

/-! ## Signs and marks -/

/-- What can stand in front of the digits. -/
def signs : List (List Char) := [[], ['+']]

/-- What can stand in front of the sign. -/
def marks : List (List Char) := [[], ['0', 'x'], ['0', 'X']]

theorem readNumeral_eq_ok_iff :
    readNumeral cs = .ok m ↔
      m < 256 ∧ ∃ sign ∈ signs, ∃ digits, cs = sign ++ digits ∧ HexDigits digits m := by
  constructor
  · intro h
    unfold readNumeral at h
    split at h
    · cases h
    · cases h
    · next digits single =>
      have ne : digits ≠ [] := fun nil ↦ single (nil ▸ rfl)
      obtain ⟨lt, digits⟩ := (readDigits_zero_eq_ok_iff ne).mp h
      exact ⟨lt, ['+'], by decide, _, rfl, digits⟩
    · next empty _ _ =>
      obtain ⟨lt, digits⟩ := (readDigits_zero_eq_ok_iff fun nil ↦ empty nil).mp h
      exact ⟨lt, [], by decide, _, rfl, digits⟩
  · rintro ⟨lt, sign, hsign, digits, rfl, value⟩
    have read := (readDigits_zero_eq_ok_iff value.nonempty).mpr ⟨lt, value⟩
    have plus : '+' ∉ digits := fun mem ↦ absurd (value.forall_mem '+' mem) (by decide)
    obtain ⟨c, cs, rfl⟩ := List.exists_cons_of_ne_nil value.nonempty
    rcases List.mem_cons.mp hsign with rfl | hsign
    · rw [List.nil_append]
      unfold readNumeral
      split
      · next nil => cases nil
      · next eq => exact absurd (eq ▸ List.mem_cons_self) plus
      · next eq => exact absurd (eq ▸ List.mem_cons_self) plus
      · exact read
    · cases List.mem_singleton.mp hsign
      exact read

/-- A sign and digits do not begin like a mark. -/
theorem unmarked_append {mark numeral : List Char} (hmark : mark ∈ marks)
    (x : 'x' ∉ numeral) (X : 'X' ∉ numeral) : unmarked (mark ++ numeral) = numeral := by
  rcases List.mem_cons.mp hmark with rfl | hmark
  · rw [List.nil_append]
    unfold unmarked
    split
    · exact absurd (List.mem_cons_of_mem _ List.mem_cons_self) x
    · exact absurd (List.mem_cons_of_mem _ List.mem_cons_self) X
    · rfl
  · rcases List.mem_cons.mp hmark with rfl | hmark
    · rfl
    · cases List.mem_singleton.mp hmark
      rfl

theorem exists_unmarked (cs : List Char) : ∃ mark ∈ marks, cs = mark ++ unmarked cs := by
  unfold unmarked
  split
  · exact ⟨['0', 'x'], by decide, rfl⟩
  · exact ⟨['0', 'X'], by decide, rfl⟩
  · exact ⟨[], by decide, rfl⟩

/-! ## Bytes -/

/-- The characters spell a byte. -/
inductive Spells (b : UInt8) : List Char → Prop where
  | intro {left mark sign digits right : List Char} (blank : ∀ c ∈ left, isBlank c = true)
      (hmark : mark ∈ marks) (hsign : sign ∈ signs) (value : HexDigits digits b.toNat)
      (blank' : ∀ c ∈ right, isBlank c = true) :
      Spells b (left ++ (mark ++ (sign ++ digits)) ++ right)

theorem isBlank_of_hexValue? (h : (hexValue? c).isSome = true) : isBlank c = false := by
  have range : 48 ≤ c.toNat ∧ c.toNat ≤ 102 := by
    unfold hexValue? at h
    split at h
    · next digit =>
      have range := Char.isDigit_iff_toNat.mp digit
      exact ⟨range.1, Nat.le_trans range.2 (by decide)⟩
    · split at h
      · next low =>
        rw [Bool.and_eq_true, decide_eq_true_eq, decide_eq_true_eq] at low
        exact ⟨Nat.le_trans (by decide) (Char.le_def.mp low.1), Char.le_def.mp low.2⟩
      · split at h
        · next high =>
          rw [Bool.and_eq_true, decide_eq_true_eq, decide_eq_true_eq] at high
          exact ⟨Nat.le_trans (by decide) (Char.le_def.mp high.1),
            Nat.le_trans (Char.le_def.mp high.2) (by decide)⟩
        · cases h
  rw [← Bool.not_eq_true, isBlank, List.any_eq_true]
  rintro ⟨⟨low, high⟩, mem, inside⟩
  rw [Bool.and_eq_true, decide_eq_true_eq, decide_eq_true_eq] at inside
  have outside : ∀ r ∈ blankRanges, r.2 < 48 ∨ 102 < r.1 := by decide
  have := outside _ mem
  omega

theorem readByte_eq_ok_iff :
    readByte cs = .ok b ↔ ∃ mark ∈ marks, ∃ sign ∈ signs, ∃ digits,
      cs = mark ++ (sign ++ digits) ∧ HexDigits digits b.toNat := by
  rw [readByte, map_eq_ok]
  constructor
  · rintro ⟨m, read, rfl⟩
    obtain ⟨lt, sign, hsign, digits, eq, value⟩ := readNumeral_eq_ok_iff.mp read
    obtain ⟨mark, hmark, front⟩ := exists_unmarked cs
    rw [UInt8.toNat_ofNat_of_lt' lt]
    exact ⟨mark, hmark, sign, hsign, digits, eq ▸ front, value⟩
  · rintro ⟨mark, hmark, sign, hsign, digits, rfl, value⟩
    have plain : ∀ c, (hexValue? c).isSome = false → c ≠ '+' → c ∉ sign ++ digits := by
      intro c other plus mem
      rcases List.mem_append.mp mem with mem | mem
      · have : ∀ sign ∈ signs, ∀ c ∈ sign, c = '+' := by simp [signs]
        exact plus (this sign hsign c mem)
      · rw [value.forall_mem c mem] at other
        cases other
    refine ⟨b.toNat, readNumeral_eq_ok_iff.mpr ⟨b.toNat_lt, sign, hsign, digits, ?_, value⟩,
      UInt8.ofNat_toNat⟩
    exact unmarked_append hmark (plain 'x' (by decide) (by decide))
      (plain 'X' (by decide) (by decide))

/-- What can be read as a byte is what spells it. -/
theorem byte?_eq_some_iff {r : Row} : r.byte? = some b ↔ Spells b r.byte.toList := by
  have read : r.byte? = some b ↔ readByte (trimBlanks r.byte.toList) = .ok b := by
    rw [Row.byte?]
    cases readByte (trimBlanks r.byte.toList) <;> simp [Except.toOption]
  rw [read, readByte_eq_ok_iff]
  constructor
  · rintro ⟨mark, hmark, sign, hsign, digits, eq, value⟩
    obtain ⟨left, right, left_blank, right_blank, whole⟩ := exists_trimBlanks r.byte.toList
    rw [whole, eq]
    exact .intro left_blank hmark hsign value right_blank
  · intro h
    generalize r.byte.toList = cs at h
    obtain ⟨left_blank, hmark, hsign, value, right_blank⟩ := h
    refine ⟨_, hmark, _, hsign, _, trimBlanks_append left_blank right_blank ?_ ?_, value⟩
    · intro c hc
      rcases List.mem_append.mp hc with hc | hc
      · have : ∀ mark ∈ marks, ∀ c ∈ mark, isBlank c = false := by
          simp [marks, isBlank, blankRanges]
        exact this _ hmark c hc
      · rcases List.mem_append.mp hc with hc | hc
        · have : ∀ sign ∈ signs, ∀ c ∈ sign, isBlank c = false := by
            simp [signs, isBlank, blankRanges]
          exact this _ hsign c hc
        · exact isBlank_of_hexValue? (value.forall_mem c hc)
    · simp [value.nonempty]

end Table

end StackFlow
