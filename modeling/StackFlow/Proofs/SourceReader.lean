import StackFlow.Proofs.Numerals
import StackFlow.Proofs.Words
import StackFlow.Table.Source

/-!
# Reading source text

A reader for source text of the kind that is written for a table: enumerations
with numbered members, and functions that are one match.  It goes by lines, so
that what a line says can be read off by itself (`Line.read_member`,
`Line.read_arm`), and what a block holds from its lines (`block_append`).

The reader knows nothing of tables.  Numbers are read as the literals of the
language are, strings as literals without escapes.
-/

namespace StackFlow.Table

/-! ## Literals -/

/-- The text between an opening and a closing part. -/
def between? (opening closing : String) (cs : List Char) : Option String :=
  ((cs.dropPrefix? opening.toList).bind (·.dropSuffix? closing.toList)).map String.ofList

/-- The number that an integer literal stands for. -/
def literal? (s : String) : Option Nat :=
  match s.toList with
  | '0' :: 'x' :: ds =>
    if ds = [] then none else (ds.mapM Json.Token.hexValue?).map (ofDigits 16)
  | ds => if ds ≠ [] ∧ ds.all Char.isDigit then some (readDecimal s) else none

/-- The byte that an integer literal stands for. -/
def byteLiteral? (s : String) : Option UInt8 :=
  (literal? s).bind fun n ↦ if n < 256 then some (UInt8.ofNat n) else none

/-- The text that a string literal without escapes stands for. -/
def stringLiteral? (s : String) : Option String :=
  (between? "\"" "\"" s.toList).filter fun t ↦ t.toList.all fun c ↦ c ≠ '"' && c ≠ '\\'

/-- The variant that an optional variant of an enumeration names, if there is one. -/
def variant? (s : String) : Option (Option String) :=
  if s = "None" then some none else (between? "Some(Self::" ")" s.toList).map some

theorem between?_append (opening closing s : String) :
    between? opening closing (opening ++ s ++ closing).toList = some s := by
  have opened : (opening ++ s ++ closing).toList.dropPrefix? opening.toList =
      some (s.toList ++ closing.toList) := by
    rw [List.dropPrefix?_eq_some_iff]
    exact ⟨opening.toList, by simp, by simp⟩
  have closed : (s.toList ++ closing.toList).dropSuffix? closing.toList = some s.toList := by
    rw [List.dropSuffix?_eq_some_iff]
    exact ⟨closing.toList, rfl, by simp⟩
  rw [between?, opened, Option.bind_some, closed, Option.map_some, String.ofList_toList]

theorem literal?_decimal (n : Nat) : literal? (decimal n) = some n := by
  have digits : ∀ c ∈ (decimal n).toList, c.isDigit = true := fun c ↦ isDigit_of_mem_decimal
  have nonempty : (decimal n).toList ≠ [] := by
    rw [decimal, String.toList_ofList, ne_eq, List.map_eq_nil_iff]
    exact digits_ne_nil 10 n
  unfold literal?
  split
  · next ds h =>
    rw [h] at digits
    exact absurd (digits 'x' (List.mem_cons_of_mem _ List.mem_cons_self)) (by decide)
  · next ds _ =>
    rw [if_pos ⟨nonempty, List.all_eq_true.mpr digits⟩, readDecimal_decimal]

theorem hexValue?_toUpper_digitChar {d : Nat} (h : d < 16) :
    Json.Token.hexValue? (Nat.digitChar d).toUpper = some d := by
  have all : ∀ d : Fin 16, Json.Token.hexValue? (Nat.digitChar d).toUpper = some d.val := by decide
  exact all ⟨d, h⟩

theorem toList_byteText (b : UInt8) :
    (byteText b).toList = '0' :: 'x' ::
      [(Nat.digitChar (b.toNat / 16)).toUpper, (Nat.digitChar (b.toNat % 16)).toUpper] := by
  rw [byteText, upperHexByte, String.toList_append, String.toUpper, String.toList_map,
    toList_hexByte]
  rfl

theorem byteLiteral?_byteText (b : UInt8) : byteLiteral? (byteText b) = some b := by
  have lt := b.toNat_lt
  have high : Json.Token.hexValue? (Nat.digitChar (b.toNat / 16)).toUpper = some (b.toNat / 16) :=
    hexValue?_toUpper_digitChar (by omega)
  have low : Json.Token.hexValue? (Nat.digitChar (b.toNat % 16)).toUpper = some (b.toNat % 16) :=
    hexValue?_toUpper_digitChar (by omega)
  have value : ofDigits 16 [b.toNat / 16, b.toNat % 16] = b.toNat := by
    simp only [ofDigits, List.foldl_cons, List.foldl_nil]
    omega
  have read : literal? (byteText b) = some b.toNat := by
    rw [literal?, toList_byteText]
    simp [high, low, value]
  rw [byteLiteral?, read, Option.bind_some, if_pos lt, UInt8.ofNat_toNat]

theorem byteLiteral?_wildcard : byteLiteral? "_" = none := by decide

theorem stringLiteral?_quoted {s : String} (h : ∀ c ∈ s.toList, c ≠ '"' ∧ c ≠ '\\') :
    stringLiteral? ("\"" ++ s ++ "\"") = some s := by
  rw [stringLiteral?, between?_append, Option.filter_some, if_pos]
  simpa using h

theorem variant?_some (name : String) :
    variant? ("Some(" ++ ("Self::" ++ name) ++ ")") = some (some name) := by
  have parts : "Some(" ++ ("Self::" ++ name) ++ ")" = "Some(Self::" ++ name ++ ")" := by
    rw [← String.append_assoc]
    rfl
  have other : "Some(Self::" ++ name ++ ")" ≠ "None" := by
    intro same
    have := congrArg String.toList same
    simp at this
  rw [parts, variant?, if_neg other, between?_append, Option.map_some]

/-! ## Lines -/

/-- What a line of source text says. -/
inductive Line where
  /-- Nothing, or what is for its readers alone. -/
  | blank
  /-- The head of an enumeration. -/
  | enumeration (name : String)
  /-- The head of a function. -/
  | function (name : String)
  /-- The head of a match. -/
  | select
  /-- A member of an enumeration and its value. -/
  | member (name value : String)
  /-- An arm of a match. -/
  | arm (pattern result : String)
  /-- The end of what has a head. -/
  | close
  /-- Anything else. -/
  | other
deriving DecidableEq

namespace Line

/-- Reads a line from its first word and what follows. -/
def ofParts (word rest : List Char) : Line :=
  if word = [] ∨ ['/', '/'] <+: word then blank
  else
    match between? " = " "," rest, between? " => " "," rest with
    | some value, _ => member (String.ofList word) value
    | none, some result => arm (String.ofList word) result
    | none, none =>
      match ((word ++ rest).splitOn ' ').map String.ofList with
      | ["pub", "enum", name, "\x7b"] => enumeration name
      | "pub" :: "const" :: "fn" :: signature :: _ =>
        function (String.ofList (signature.toList.takeWhile (· ≠ '(')))
      | ["match", _, "\x7b"] => select
      | ["\x7d"] => close
      | _ => other

/-- Reads the characters of a line.  Blanks in front do not count. -/
def ofChars (cs : List Char) : Line :=
  let cs := cs.dropWhile (· = ' ')
  ofParts (cs.takeWhile (· ≠ ' ')) (cs.dropWhile (· ≠ ' '))

def read (line : String) : Line := ofChars line.toList

def member? : Line → Option (String × UInt8)
  | member name value => (byteLiteral? value).map (name, ·)
  | _ => none

def arm? : Line → Option (String × String)
  | arm pattern result => some (pattern, result)
  | _ => none

end Line

/-- What lines say, but for those that say nothing. -/
def code (ls : List String) : List Line := (ls.map Line.read).filter (· ≠ .blank)

/-- The lines behind a head, up to the next one that closes. -/
def block (head : Line) (ls : List Line) : List Line :=
  ((ls.dropWhile (· ≠ head)).drop 1).takeWhile (· ≠ .close)

/-- The members of an enumeration, if nothing else stands in it. -/
def members? (text name : String) : Option (List (String × UInt8)) :=
  (block (.enumeration name) (code (readLines text))).mapM Line.member?

/-- The arms of the match that a function starts with, if nothing else stands in it. -/
def arms? (text name : String) : Option (List (String × String)) :=
  (block .select (block (.function name) (code (readLines text)))).mapM Line.arm?

/-- What the first arm gives whose pattern fits, or else that for any value. -/
def choose (fits : String → Bool) (arms : List (String × String)) : Option String :=
  ((arms.find? (fits ·.1)).or (arms.find? (·.1 = "_"))).map (·.2)

/-- What a function gives where a pattern fits. -/
def result? (text name : String) (fits : String → Bool) : Option String :=
  (arms? text name).bind (choose fits)

/-! ## What a line says -/

def IsIndent (s : String) : Prop := ∀ c ∈ s.toList, c = ' '

instance (s : String) : Decidable (IsIndent s) :=
  decidable_of_iff (s.toList.all fun c ↦ c = ' ') (by simp [IsIndent])

/-- A word that can stand in front of a line. -/
def IsToken (s : String) : Prop := s ≠ "" ∧ ∀ c ∈ s.toList, c ≠ ' ' ∧ c ≠ '\n' ∧ c ≠ '/'

instance (s : String) : Decidable (IsToken s) :=
  decidable_of_iff (s ≠ "" ∧ s.toList.all fun c ↦ c ≠ ' ' && c ≠ '\n' && c ≠ '/')
    (by simp [IsToken, and_assoc])

variable {i w r s : String}

namespace Line

theorem read_append {cs : List Char} (indent : IsIndent i) (nonempty : w ≠ "")
    (word : ∀ c ∈ w.toList, c ≠ ' ') (blank : r.toList = ' ' :: cs) :
    read (i ++ w ++ r) = ofParts w.toList r.toList := by
  have front : (i ++ w ++ r).toList.dropWhile (· = ' ') = w.toList ++ r.toList := by
    rw [String.toList_append, String.toList_append, List.append_assoc,
      List.dropWhile_append_of_pos (by simpa [IsIndent] using indent)]
    obtain ⟨c, cs, hw⟩ := List.exists_cons_of_ne_nil (mt String.toList_eq_nil_iff.mp nonempty)
    rw [hw] at word ⊢
    exact List.dropWhile_cons_of_neg (by simpa using word c List.mem_cons_self)
  simp only [read, ofChars, front]
  rw [List.takeWhile_append_of_pos (by simpa using word),
    List.dropWhile_append_of_pos (by simpa using word), blank,
    List.takeWhile_cons_of_neg (by simp), List.dropWhile_cons_of_neg (by simp), List.append_nil]

theorem ofParts_of_isToken (h : IsToken w) : ¬ (w.toList = [] ∨ ['/', '/'] <+: w.toList) := by
  rintro (empty | comment)
  · exact h.1 (String.toList_eq_nil_iff.mp empty)
  · exact (h.2 '/' (comment.subset List.mem_cons_self)).2.2 rfl

theorem read_member (indent : IsIndent i) (h : IsToken w) :
    read (i ++ w ++ " = " ++ s ++ ",") = member w s := by
  have parts : i ++ w ++ " = " ++ s ++ "," = i ++ w ++ (" = " ++ s ++ ",") := by
    simp only [String.append_assoc]
  rw [parts, read_append indent h.1 (fun c hc ↦ (h.2 c hc).1) (by simp; rfl), ofParts,
    if_neg (ofParts_of_isToken h), between?_append, String.ofList_toList]

theorem between?_eq_none_of_arrow : between? " = " "," (" => " ++ s ++ ",").toList = none := by
  simp [between?, List.dropPrefix?]

theorem read_arm (indent : IsIndent i) (h : IsToken w) :
    read (i ++ w ++ " => " ++ s ++ ",") = arm w s := by
  have parts : i ++ w ++ " => " ++ s ++ "," = i ++ w ++ (" => " ++ s ++ ",") := by
    simp only [String.append_assoc]
  rw [parts, read_append indent h.1 (fun c hc ↦ (h.2 c hc).1) (by simp; rfl), ofParts,
    if_neg (ofParts_of_isToken h), between?_append, between?_eq_none_of_arrow,
    String.ofList_toList]

theorem read_comment (indent : IsIndent i) : read (i ++ "///" ++ (" " ++ s)) = blank := by
  rw [read_append indent (by decide) (by simp) (by simp; rfl), ofParts, if_pos (.inr (by decide))]

end Line

/-! ## Blocks -/

theorem code_append (ls ls' : List String) : code (ls ++ ls') = code ls ++ code ls' := by
  rw [code, List.map_append, List.filter_append, code, code]

theorem block_cons (head : Line) (ls : List Line) :
    block head (head :: ls) = ls.takeWhile (· ≠ .close) := by
  rw [block, List.dropWhile_cons_of_neg (by simp), List.drop_one, List.tail_cons]

theorem block_append {head : Line} {before body after : List Line} (first : head ∉ before)
    (last : .close ∉ body) : block head (before ++ head :: (body ++ .close :: after)) = body := by
  have skip : ∀ l ∈ before, decide (l ≠ head) = true :=
    fun l hl ↦ decide_eq_true fun same ↦ first (same ▸ hl)
  have stay : ∀ l ∈ body, decide (l ≠ .close) = true :=
    fun l hl ↦ decide_eq_true fun same ↦ last (same ▸ hl)
  rw [block, List.dropWhile_append_of_pos skip]
  exact (block_cons head _).trans (by
    rw [List.takeWhile_append_of_pos stay, List.takeWhile_cons_of_neg (by simp), List.append_nil])

theorem mapM_map_eq_some {α β γ : Type} {f : α → β} {g : β → Option γ} {k : α → γ} {l : List α}
    (h : ∀ a ∈ l, g (f a) = some (k a)) : (l.map f).mapM g = some (l.map k) := by
  induction l with
  | nil => rfl
  | cons a l ih =>
    obtain ⟨head, tail⟩ := List.forall_mem_cons.mp h
    rw [List.map_cons, List.mapM_cons, head, ih tail]
    rfl

/-! ## Arms -/

variable {fits : String → Bool} {arms : List (String × String)} {other : String}

/-- The arm of an item is found if no other fits. -/
theorem choose_map {α : Type} {items : List α} {x : α} {pattern result : α → String}
    (hx : x ∈ items) (fit : fits (pattern x) = true)
    (unique : ∀ y ∈ items, fits (pattern y) = true → y = x)
    (others : ∀ a ∈ arms, fits a.1 = false) :
    choose fits (items.map (fun y ↦ (pattern y, result y)) ++ arms) = some (result x) := by
  have found : (items.map (fun y ↦ (pattern y, result y)) ++ arms).find? (fits ·.1) =
      some (pattern x, result x) := by
    cases h : (items.map (fun y ↦ (pattern y, result y)) ++ arms).find? (fits ·.1) with
    | none =>
      have mem := List.mem_append_left arms
        (List.mem_map_of_mem (f := fun y ↦ (pattern y, result y)) hx)
      exact absurd fit (List.find?_eq_none.mp h _ mem)
    | some a =>
      have fit' : fits a.1 = true := (List.find?_some h :)
      rcases List.mem_append.mp (List.mem_of_find?_eq_some h) with ha | ha
      · obtain ⟨y, hy, rfl⟩ := List.mem_map.mp ha
        rw [unique y hy fit']
      · rw [others a ha] at fit'
        cases fit'
  rw [choose, found, Option.some_or, Option.map_some]

theorem choose_of_forall (others : ∀ a ∈ arms, fits a.1 = false ∧ a.1 ≠ "_")
    (wildcard : fits "_" = false) : choose fits (arms ++ [("_", other)]) = some other := by
  have first : arms.find? (fits ·.1) = none :=
    List.find?_eq_none.mpr fun a ha ↦ by simp [(others a ha).1]
  have second : arms.find? (·.1 = "_") = none :=
    List.find?_eq_none.mpr fun a ha ↦ by simp [(others a ha).2]
  simp [choose, List.find?_append, first, second, wildcard]

end StackFlow.Table
