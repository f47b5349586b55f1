/-! # JSON tokens -/

namespace StackFlow.Json

/-- A string as read. There is none if an escape stands for half of a surrogate pair: the token
is well formed, but stands for no text. -/
abbrev Text := Option String

inductive Token where
  | listStart
  | listEnd
  | objectStart
  | objectEnd
  | comma
  | colon
  | null
  | bool (b : Bool)
  /-- A number as it is written. -/
  | number (numeral : List Char)
  | string (text : Text)
deriving DecidableEq, Repr

namespace Token

def isSpace (c : Char) : Bool := c = ' ' || c = '\n' || c = '\r' || c = '\t'

/-- The characters that can occur in a number. -/
def isNumeric (c : Char) : Bool :=
  c.isDigit || c = '-' || c = '+' || c = '.' || c = 'e' || c = 'E'

/-- Whether what follows the digits of a number up to here is an exponent, or nothing. -/
def isExponent : List Char → Bool
  | [] => true
  | e :: cs =>
    (e = 'e' || e = 'E') &&
      match cs with
      | '+' :: ds | '-' :: ds => !ds.isEmpty && ds.all Char.isDigit
      | ds => !ds.isEmpty && ds.all Char.isDigit

/-- Whether what follows the integer of a number is a fraction and an exponent, or one of them, or
nothing. -/
def isFraction : List Char → Bool
  | '.' :: cs => !(cs.takeWhile Char.isDigit).isEmpty && isExponent (cs.dropWhile Char.isDigit)
  | cs => isExponent cs

/-- Whether the characters are a number without its sign. Only zero starts with a zero. -/
def isMagnitude : List Char → Bool
  | '0' :: cs => isFraction cs
  | cs => !(cs.takeWhile Char.isDigit).isEmpty && isFraction (cs.dropWhile Char.isDigit)

/-- Whether the characters are a number. -/
def isNumeral : List Char → Bool
  | '-' :: cs => isMagnitude cs
  | cs => isMagnitude cs

/-- The value of a hexadecimal digit. -/
def hexValue? (c : Char) : Option Nat :=
  if c.isDigit then some (c.toNat - '0'.toNat)
  else if 'a' ≤ c && c ≤ 'f' then some (c.toNat - 'a'.toNat + 10)
  else if 'A' ≤ c && c ≤ 'F' then some (c.toNat - 'A'.toNat + 10)
  else none

/-- The number in four hexadecimal digits. -/
def hexQuad? (a b c d : Char) : Option Nat := do
  return (((← hexValue? a) * 16 + (← hexValue? b)) * 16 + (← hexValue? c)) * 16 + (← hexValue? d)

/-- What a backslash and a character stand for. -/
def escaped? : Char → Option Char
  | '"' => some '"'
  | '\\' => some '\\'
  | '/' => some '/'
  | 'b' => some '\x08'
  | 'f' => some '\x0c'
  | 'n' => some '\n'
  | 'r' => some '\r'
  | 't' => some '\t'
  | _ => none

def isHighSurrogate (n : Nat) : Bool := 0xD800 ≤ n && n < 0xDC00

def isLowSurrogate (n : Nat) : Bool := 0xDC00 ≤ n && n < 0xE000

/-- The character of a surrogate pair. -/
def ofSurrogates (high low : Nat) : Char :=
  Char.ofNat (0x10000 + (high - 0xD800) * 1024 + (low - 0xDC00))

/-- The text that has been read so far, latest first; none once half a surrogate pair was met. -/
abbrev Scanned := Option (List Char)

def Scanned.push (c : Char) (read : Scanned) : Scanned := read.map (c :: ·)

def Scanned.text (read : Scanned) : Text := read.map fun cs => String.ofList cs.reverse

/-- The low surrogate that an escape in front stands for, and what follows it. -/
def lowSurrogate? : List Char → Option (Nat × List Char)
  | '\\' :: 'u' :: a :: b :: c :: d :: rest =>
    (hexQuad? a b c d).bind fun n => if isLowSurrogate n then some (n, rest) else none
  | _ => none

theorem length_lowSurrogate? {cs rest : List Char} {n : Nat}
    (h : lowSurrogate? cs = some (n, rest)) : rest.length < cs.length := by
  unfold lowSurrogate? at h
  split at h
  · obtain ⟨m, _, h⟩ := Option.bind_eq_some_iff.mp h
    split at h
    · cases h
      simp only [List.length_cons]
      omega
    · cases h
  · cases h

/-- Reads a string behind its opening quote, and gives what follows the closing one. -/
def scanString (read : Scanned) (cs : List Char) : Option (Text × List Char) :=
  match cs with
  | [] => none
  | '"' :: rest => some (read.text, rest)
  | '\\' :: 'u' :: a :: b :: c :: d :: rest =>
    match hexQuad? a b c d with
    | none => none
    | some n =>
      if isLowSurrogate n then scanString none rest
      else if isHighSurrogate n then
        match _h : lowSurrogate? rest with
        | some (m, rest') => scanString (read.push (ofSurrogates n m)) rest'
        | none => scanString none rest
      else scanString (read.push (Char.ofNat n)) rest
  | '\\' :: c :: rest =>
    match escaped? c with
    | none => none
    | some c => scanString (read.push c) rest
  | c :: rest => if c < ' ' then none else scanString (read.push c) rest
termination_by cs.length
decreasing_by
  all_goals try have := length_lowSurrogate? _h
  all_goals (simp only [List.length_cons]; omega)

theorem length_scanString {read : Scanned} {cs rest : List Char} {text : Text}
    (h : scanString read cs = some (text, rest)) : rest.length ≤ cs.length := by
  fun_induction scanString read cs with
  | case5 _ _ _ _ _ _ _ _ _ _ _ _ low ih =>
    have := ih h
    have := length_lowSurrogate? low
    simp only [List.length_cons]
    omega
  | case2 => cases h; simp
  | case1 | case3 | case8 | case10 => cases h
  | case4 | case6 | case7 | case9 | case11 =>
    rename_i ih
    have := ih h
    simp only [List.length_cons]
    omega

/-- Reads one token that starts with the character `c`, and gives what follows it. -/
def read? (c : Char) (cs : List Char) : Option (Token × List Char) :=
  match c with
  | '[' => some (.listStart, cs)
  | ']' => some (.listEnd, cs)
  | '\x7b' => some (.objectStart, cs)
  | '\x7d' => some (.objectEnd, cs)
  | ',' => some (.comma, cs)
  | ':' => some (.colon, cs)
  | '"' => (scanString (some []) cs).map fun (text, rest) => (.string text, rest)
  | c =>
    if isNumeric c then
      let numeral := c :: cs.takeWhile isNumeric
      if isNumeral numeral then some (.number numeral, cs.dropWhile isNumeric) else none
    else
      let rest := cs.dropWhile Char.isAlpha
      match String.ofList (c :: cs.takeWhile Char.isAlpha) with
      | "null" => some (.null, rest)
      | "true" => some (.bool true, rest)
      | "false" => some (.bool false, rest)
      | _ => none

theorem length_read? {c : Char} {cs rest : List Char} {t : Token}
    (h : read? c cs = some (t, rest)) : rest.length ≤ cs.length := by
  have drop (p : Char → Bool) : (cs.dropWhile p).length ≤ cs.length :=
    (List.dropWhile_suffix p).length_le
  unfold read? at h
  split at h <;> try (cases h; exact Nat.le_refl _)
  · obtain ⟨⟨text, rest'⟩, scanned, h⟩ := Option.map_eq_some_iff.mp h
    cases h
    exact length_scanString scanned
  · split at h
    · simp only at h
      split at h
      · cases h
        exact drop _
      · cases h
    · simp only at h
      split at h <;> cases h <;> exact drop _

/-- Reads tokens up to the end, behind those read before. -/
def readAll? (read : Array Token) (cs : List Char) : Option (List Token) :=
  match cs with
  | [] => some read.toList
  | c :: cs =>
    if isSpace c then readAll? read cs
    else
      match _h : read? c cs with
      | none => none
      | some (t, rest) => readAll? (read.push t) rest
termination_by cs.length
decreasing_by
  · simp
  · have := length_read? _h
    simp only [List.length_cons]
    omega

end Token

end StackFlow.Json
