import StackFlow.Proofs.SourceReader

/-!
# What the lines of a source text say

Each line of the source text of a table can be read by itself.  What the lines
say is worked out once for all functions (`reads_matchLines`), and put together
as the lines are (`code_source`).
-/

namespace StackFlow.Table

variable {ds : List Definition} {d : Definition}

/-! ## What can be written in source text -/

/-- A name in source text: letters, digits, low lines, and what is not ASCII; a number sign stands
in a raw one. -/
def IsIdentifier (s : String) : Prop :=
  s ≠ "" ∧ ∀ c ∈ s.toList, c.isAlphanum = true ∨ c = '_' ∨ c = '#' ∨ 128 ≤ c.toNat

instance (s : String) : Decidable (IsIdentifier s) :=
  decidable_of_iff
    (s ≠ "" ∧ s.toList.all fun c ↦ c.isAlphanum || c = '_' || c = '#' || 128 ≤ c.toNat)
    (by simp [IsIdentifier, or_assoc])

/-- A text that can stand between double quotes as it is. -/
def IsQuotable (s : String) : Prop := ∀ c ∈ s.toList, c ≠ '\n' ∧ c ≠ '"' ∧ c ≠ '\\'

instance (s : String) : Decidable (IsQuotable s) :=
  decidable_of_iff (s.toList.all fun c ↦ c ≠ '\n' && c ≠ '"' && c ≠ '\\')
    (by simp [IsQuotable, and_assoc])

/-- What of a definition is written into source text as it is. -/
structure Definition.Plain (d : Definition) : Prop where
  name : IsIdentifier d.name
  mnemonic : IsQuotable d.mnemonic
  doc : ∀ doc ∈ d.doc?, OneLine doc

/-- An arm that can be read back. -/
structure PlainArm (a : String × String) : Prop where
  pattern : IsToken a.1
  result : OneLine a.2

theorem IsToken.oneLine {s : String} (h : IsToken s) : OneLine s :=
  fun feed ↦ (h.2 _ feed).2.1 rfl

theorem IsQuotable.oneLine {s : String} (h : IsQuotable s) : OneLine s :=
  fun feed ↦ (h _ feed).1 rfl

theorem IsIdentifier.isToken {s : String} (h : IsIdentifier s) : IsToken s := by
  refine ⟨h.1, fun c hc ↦ ?_⟩
  refine ⟨?_, ?_, ?_⟩ <;> (rintro rfl; exact absurd (h.2 _ hc) (by decide))

theorem IsToken.append {s t : String} (hs : IsToken s) (ht : IsToken t) : IsToken (s ++ t) := by
  refine ⟨fun empty ↦ hs.1 (String.append_eq_empty_iff.mp empty).1, fun c hc ↦ ?_⟩
  rw [String.toList_append, List.mem_append] at hc
  exact hc.elim (hs.2 c) (ht.2 c)

theorem isToken_byteText (b : UInt8) : IsToken (byteText b) := by
  have lt := b.toNat_lt
  have digit : ∀ d < 16, (Nat.digitChar d).toUpper ≠ ' ' ∧ (Nat.digitChar d).toUpper ≠ '\n' ∧
      (Nat.digitChar d).toUpper ≠ '/' := by decide
  refine ⟨fun empty ↦ ?_, ?_⟩
  · have := toList_byteText b
    rw [empty] at this
    cases this
  · rw [toList_byteText]
    refine List.forall_mem_cons.mpr ⟨by decide, List.forall_mem_cons.mpr ⟨by decide, ?_⟩⟩
    exact List.forall_mem_cons.mpr ⟨digit _ (by omega),
      List.forall_mem_singleton.mpr (digit _ (by omega))⟩

theorem isToken_wildcard : IsToken "_" := by decide

theorem oneLine_decimal (n : Nat) : OneLine (decimal n) :=
  fun feed ↦ absurd (isDigit_of_mem_decimal feed) (by decide)

theorem oneLine_flowName (f : Flow) : OneLine (flowName f) := by cases f <;> decide

theorem Definition.Plain.isToken (h : d.Plain) : IsToken (opcodePattern d) :=
  IsToken.append (by decide) h.name.isToken

/-! ## What lines say -/

/-- Lines that can be read back one by one, and what they say. -/
structure Reads (ls : List String) (said : List Line) : Prop where
  oneLine : ∀ l ∈ ls, OneLine l
  code : code ls = said

namespace Reads

variable {ls ls' : List String} {said said' : List Line} {α : Type} {as : List α}

theorem append (h : Reads ls said) (h' : Reads ls' said') : Reads (ls ++ ls') (said ++ said') :=
  ⟨fun l hl ↦ (List.mem_append.mp hl).elim (h.oneLine l) (h'.oneLine l),
    by rw [code_append, h.code, h'.code]⟩

theorem flatMap {f : α → List String} {g : α → List Line} (h : ∀ a ∈ as, Reads (f a) (g a)) :
    Reads (as.flatMap f) (as.flatMap g) := by
  induction as with
  | nil => exact ⟨nofun, rfl⟩
  | cons a as ih =>
    obtain ⟨head, tail⟩ := List.forall_mem_cons.mp h
    exact head.append (ih tail)

theorem map {f : α → String} {g : α → Line} (h : ∀ a ∈ as, Reads [f a] [g a]) :
    Reads (as.map f) (as.map g) := by
  rw [List.map_eq_flatMap, List.map_eq_flatMap]
  exact flatMap h

theorem nil : Reads [] [] := ⟨nofun, rfl⟩

/-- A line of characters that are known, so that what it says can be computed. -/
theorem line {cs : List Char} {l : Line} (known : '\n' ∉ cs ∧ Line.ofChars cs = l ∧ l ≠ .blank)
    (h : Reads ls said) : Reads (String.ofList cs :: ls) (l :: said) := by
  obtain ⟨oneLine, read, something⟩ := known
  refine ⟨List.forall_mem_cons.mpr ⟨.ofList oneLine, h.oneLine⟩, ?_⟩
  rw [Table.code, List.map_cons, Line.read, String.toList_ofList, read,
    List.filter_cons_of_pos (by simpa using something)]
  exact congrArg _ h.code

theorem skip {cs : List Char} (known : '\n' ∉ cs ∧ Line.ofChars cs = .blank)
    (h : Reads ls said) : Reads (String.ofList cs :: ls) said := by
  obtain ⟨oneLine, read⟩ := known
  refine ⟨List.forall_mem_cons.mpr ⟨.ofList oneLine, h.oneLine⟩, ?_⟩
  rw [Table.code, List.map_cons, Line.read, String.toList_ofList, read,
    List.filter_cons_of_neg (by simp)]
  exact h.code

theorem single {l : String} {said : Line} (oneLine : OneLine l) (read : Line.read l = said)
    (something : said ≠ .blank) : Reads [l] [said] :=
  ⟨List.forall_mem_singleton.mpr oneLine, by simp [Table.code, read, something]⟩

theorem comment {i s : String} (indent : IsIndent i) (h : OneLine s) :
    Reads [i ++ "///" ++ (" " ++ s)] [] := by
  refine ⟨List.forall_mem_singleton.mpr ?_, by simp [Table.code, Line.read_comment indent]⟩
  have blanks : OneLine i := fun feed ↦ absurd (indent _ feed) (by decide)
  exact (blanks.append (by decide)).append (OneLine.append (by decide) h)

end Reads

/-- What the lines of a function say. -/
def functionCode (f : String × List (String × String)) : List Line :=
  [Line.other, Line.function f.1, Line.select] ++ f.2.map (fun a ↦ Line.arm a.1 a.2) ++
    [Line.close, Line.close]

theorem reads_arm {a : String × String} (h : PlainArm a) : Reads [arm a.1 a.2] [.arm a.1 a.2] := by
  refine .single ?_ (Line.read_arm (by decide) h.pattern) nofun
  exact (((OneLine.append (by decide) h.pattern.oneLine).append (by decide)).append
    h.result).append (by decide)

theorem reads_matchLines {doc signature scrutinee name : String} {arms : List (String × String)}
    (hdoc : OneLine doc) (heads : Reads ["    pub const fn " ++ signature ++ " \x7b",
      "        match " ++ scrutinee ++ " \x7b"] [.function name, .select])
    (plain : ∀ a ∈ arms, PlainArm a) :
    Reads (matchLines doc signature scrutinee (arms.map fun a ↦ arm a.1 a.2))
      (functionCode (name, arms)) := by
  have comment : Reads ["    /// " ++ doc] [] := Reads.comment (i := "    ") (by decide) hdoc
  have mustUse : Reads ["    #[must_use]"] [.other] := .line (by decide) .nil
  have ends : Reads ["        \x7d", "    \x7d"] [.close, .close] :=
    .line (by decide) (.line (by decide) .nil)
  exact ((comment.append (mustUse.append heads)).append
    (Reads.map fun a ha ↦ reads_arm (plain a ha))).append ends

/-! ## The functions of a table -/

/-- Arms for some definitions, and one for the others. -/
def sparse (ds : List Definition) (shown : Definition → Bool) (result : Definition → String)
    (other : String) : List (String × String) :=
  (ds.filter shown).map (fun d ↦ (opcodePattern d, result d)) ++ [("_", other)]

/-- The functions that are written for definitions, with the arms of their matches. -/
def functions (ds : List Definition) : List (String × List (String × String)) :=
  [("from_u8", ds.map (fun d ↦ (byteText d.byte, "Some(" ++ opcodePattern d ++ ")")) ++
      [("_", "None")]),
    ("mnemonic", ds.map fun d ↦ (opcodePattern d, "\"" ++ d.mnemonic ++ "\"")),
    ("immediate_len", sparse ds (·.immediate ≠ 0) (fun d ↦ decimal d.immediate) "0"),
    ("stack_inputs", sparse ds (·.inputs ≠ 0) (fun d ↦ decimal d.inputs) "0"),
    ("stack_outputs", sparse ds (·.outputs ≠ 0) (fun d ↦ decimal d.outputs) "0"),
    ("flow", sparse ds (·.flow ≠ .next) (fun d ↦ "Flow::" ++ flowName d.flow) "Flow::Next")]

/-- What the lines of a source text say: the flows first. -/
def flowCode : List Line :=
  [Line.other, Line.enumeration "Flow"] ++ flows.map (fun _ ↦ Line.other) ++ [Line.close]

def opcodeCode (ds : List Definition) : List Line :=
  [Line.other, Line.other, Line.enumeration "Opcode"] ++
    ds.map (fun d ↦ Line.member d.name (byteText d.byte)) ++ [Line.close]

def implCode (ds : List Definition) : List Line :=
  [Line.other] ++ (functions ds).flatMap functionCode ++ [Line.close]

theorem reads_headLines : Reads headLines [] :=
  .skip (by decide) (.skip (by decide) (.skip (by decide)
    (.skip (by decide) (.skip (by decide) .nil))))

theorem reads_flow (f : Flow) :
    Reads ["    /// " ++ flowDoc f, "    " ++ flowName f ++ ","] [.other] := by
  have doc : OneLine (flowDoc f) := by cases f <;> exact .ofList (by decide)
  have name : Reads ["    " ++ flowName f ++ ","] [.other] := by
    cases f <;> exact ⟨by decide, by decide⟩
  exact (Reads.comment (i := "    ") (by decide) doc).append name

theorem reads_flowLines : Reads flowLines flowCode := by
  have head : Reads ["/// Control-flow class of an opcode.",
      "#[derive(Copy, Clone, Debug, PartialEq, Eq)]", "pub enum Flow \x7b"]
      [.other, .enumeration "Flow"] :=
    .skip (by decide) (.line (by decide) (.line (by decide) .nil))
  have ends : Reads ["\x7d", ""] [.close] :=
    .line (by decide) (.skip (by decide) .nil)
  rw [flowCode, List.map_eq_flatMap]
  exact (head.append (.flatMap fun f _ ↦ reads_flow f)).append ends

theorem oneLine_opcodeDoc (h : d.Plain) : OneLine (opcodeDoc d) := by
  have byte := (isToken_byteText d.byte).oneLine
  refine ((((OneLine.append (by decide) h.mnemonic.oneLine).append (by decide)).append
    byte).append (by decide)).append ?_
  split
  · next doc hdoc => exact OneLine.append (by decide) (h.doc doc hdoc)
  · decide

theorem reads_member (h : d.Plain) :
    Reads ["    /// " ++ opcodeDoc d, "    " ++ d.name ++ " = " ++ byteText d.byte ++ ","]
      [.member d.name (byteText d.byte)] := by
  have comment : Reads ["    /// " ++ opcodeDoc d] [] :=
    Reads.comment (i := "    ") (by decide) (oneLine_opcodeDoc h)
  refine comment.append (.single ?_ (Line.read_member (by decide) h.name.isToken) nofun)
  exact (((OneLine.append (by decide) h.name.isToken.oneLine).append (by decide)).append
    (isToken_byteText d.byte).oneLine).append (by decide)

theorem reads_opcodeLines (h : ∀ d ∈ ds, d.Plain) : Reads (opcodeLines ds) (opcodeCode ds) := by
  have head : Reads ["/// Opcode byte values.",
      "#[derive(Copy, Clone, Debug, PartialEq, Eq, Hash)]", "#[repr(u8)]", "pub enum Opcode \x7b"]
      [.other, .other, .enumeration "Opcode"] :=
    .skip (by decide) (.line (by decide) (.line (by decide) (.line (by decide) .nil)))
  have ends : Reads ["\x7d", ""] [.close] :=
    .line (by decide) (.skip (by decide) .nil)
  rw [opcodeCode, List.map_eq_flatMap]
  exact (head.append (.flatMap fun d hd ↦ reads_member (h d hd))).append ends

theorem reads_decodeLines (h : ∀ d ∈ ds, d.Plain) :
    Reads (decodeLines ds) (functionCode ("from_u8",
      ds.map (fun d ↦ (byteText d.byte, "Some(" ++ opcodePattern d ++ ")")) ++
        [("_", "None")])) := by
  have plain : ∀ a ∈ ds.map (fun d ↦ (byteText d.byte, "Some(" ++ opcodePattern d ++ ")")) ++
      [("_", "None")], PlainArm a := by
    intro a ha
    rcases List.mem_append.mp ha with ha | ha
    · obtain ⟨d, hd, rfl⟩ := List.mem_map.mp ha
      exact ⟨isToken_byteText d.byte,
        (OneLine.append (by decide) (h d hd).isToken.oneLine).append (by decide)⟩
    · rw [List.mem_singleton.mp ha]
      exact ⟨isToken_wildcard, by decide⟩
  have lines : decodeLines ds = matchLines
      "Decodes an opcode byte; returns `None` for bytes outside the legal set."
      "from_u8(b: u8) -> Option<Self>" "b"
      ((ds.map (fun d ↦ (byteText d.byte, "Some(" ++ opcodePattern d ++ ")")) ++
        [("_", "None")]).map fun a ↦ arm a.1 a.2) := by
    rw [List.map_append, List.map_map]
    rfl
  have heads : Reads ["    pub const fn from_u8(b: u8) -> Option<Self> \x7b",
      "        match b \x7b"] [.function "from_u8", .select] :=
    .line (by decide) (.line (by decide) .nil)
  rw [lines]
  exact reads_matchLines (.ofList (by decide)) heads plain

theorem reads_mnemonicLines (h : ∀ d ∈ ds, d.Plain) :
    Reads (mnemonicLines ds) (functionCode ("mnemonic",
      ds.map fun d ↦ (opcodePattern d, "\"" ++ d.mnemonic ++ "\""))) := by
  have plain : ∀ a ∈ ds.map (fun d ↦ (opcodePattern d, "\"" ++ d.mnemonic ++ "\"")),
      PlainArm a := by
    intro a ha
    obtain ⟨d, hd, rfl⟩ := List.mem_map.mp ha
    have mnemonic := (h d hd).mnemonic.oneLine
    exact ⟨(h d hd).isToken, (OneLine.append (by decide) mnemonic).append (by decide)⟩
  have lines : mnemonicLines ds = matchLines "Returns the assembly mnemonic."
      "mnemonic(self) -> &'static str" "self"
      ((ds.map fun d ↦ (opcodePattern d, "\"" ++ d.mnemonic ++ "\"")).map
        fun a ↦ arm a.1 a.2) := by
    rw [List.map_map]
    rfl
  have heads : Reads ["    pub const fn mnemonic(self) -> &'static str \x7b",
      "        match self \x7b"] [.function "mnemonic", .select] :=
    .line (by decide) (.line (by decide) .nil)
  rw [lines]
  exact reads_matchLines (.ofList (by decide)) heads plain

theorem plainArm_of_mem_sparse {shown : Definition → Bool} {result : Definition → String}
    {other : String} (h : ∀ d ∈ ds, d.Plain) (results : ∀ d, OneLine (result d))
    (last : OneLine other) : ∀ a ∈ sparse ds shown result other, PlainArm a := by
  intro a ha
  rcases List.mem_append.mp ha with ha | ha
  · obtain ⟨d, hd, rfl⟩ := List.mem_map.mp ha
    exact ⟨(h d (List.mem_of_mem_filter hd)).isToken, results d⟩
  · rw [List.mem_singleton.mp ha]
    exact ⟨isToken_wildcard, last⟩

theorem map_arm_sparse {shown : Definition → Bool} {result : Definition → String}
    {other : String} : (sparse ds shown result other).map (fun a ↦ arm a.1 a.2) =
      (ds.filter shown).map (fun d ↦ arm (opcodePattern d) (result d)) ++ [arm "_" other] := by
  rw [sparse, List.map_append, List.map_map]
  rfl

theorem reads_numberLines {doc signature name : String} (number : Definition → Nat)
    (h : ∀ d ∈ ds, d.Plain) (hdoc : OneLine doc)
    (heads : Reads ["    pub const fn " ++ signature ++ " \x7b", "        match self \x7b"]
      [.function name, .select]) :
    Reads (numberLines doc signature number ds)
      (functionCode (name, sparse ds (number · ≠ 0) (fun d ↦ decimal (number d)) "0")) := by
  rw [numberLines, ← map_arm_sparse]
  exact reads_matchLines hdoc heads
    (plainArm_of_mem_sparse h (fun d ↦ oneLine_decimal (number d)) (by decide))

theorem reads_flowTableLines (h : ∀ d ∈ ds, d.Plain) :
    Reads (flowTableLines ds) (functionCode ("flow",
      sparse ds (·.flow ≠ .next) (fun d ↦ "Flow::" ++ flowName d.flow) "Flow::Next")) := by
  have heads : Reads ["    pub const fn flow(self) -> Flow \x7b", "        match self \x7b"]
      [.function "flow", .select] :=
    .line (by decide) (.line (by decide) .nil)
  rw [flowTableLines, ← map_arm_sparse]
  exact reads_matchLines (.ofList (by decide)) heads (plainArm_of_mem_sparse h
    (fun d ↦ OneLine.append (by decide) (oneLine_flowName d.flow)) (by decide))

theorem reads_implLines (h : ∀ d ∈ ds, d.Plain) : Reads (implLines ds) (implCode ds) := by
  have head : Reads ["impl Opcode \x7b"] [.other] := .line (by decide) .nil
  have blank : Reads [""] [] := .skip (by decide) .nil
  have ends : Reads ["\x7d"] [.close] := .line (by decide) .nil
  have immediateHeads : Reads ["    pub const fn immediate_len(self) -> u8 \x7b",
      "        match self \x7b"] [.function "immediate_len", .select] :=
    .line (by decide) (.line (by decide) .nil)
  have inputsHeads : Reads ["    pub const fn stack_inputs(self) -> u16 \x7b",
      "        match self \x7b"] [.function "stack_inputs", .select] :=
    .line (by decide) (.line (by decide) .nil)
  have outputsHeads : Reads ["    pub const fn stack_outputs(self) -> u16 \x7b",
      "        match self \x7b"] [.function "stack_outputs", .select] :=
    .line (by decide) (.line (by decide) .nil)
  have immediate : Reads (numberLines
      "Returns the number of immediate bytes following the opcode byte."
      "immediate_len(self) -> u8" (·.immediate) ds) _ :=
    reads_numberLines _ h (.ofList (by decide)) immediateHeads
  have inputs : Reads (numberLines "Returns the number of data-stack items consumed."
      "stack_inputs(self) -> u16" (·.inputs) ds) _ :=
    reads_numberLines _ h (.ofList (by decide)) inputsHeads
  have outputs : Reads (numberLines "Returns the number of data-stack items produced."
      "stack_outputs(self) -> u16" (·.outputs) ds) _ :=
    reads_numberLines _ h (.ofList (by decide)) outputsHeads
  have all := ((((((head.append (reads_decodeLines h)).append blank).append
    (reads_mnemonicLines h)).append blank |>.append immediate).append blank |>.append
    inputs).append blank |>.append outputs).append blank |>.append
    (reads_flowTableLines h) |>.append ends
  rw [implLines, implCode, functions]
  simpa only [List.flatMap_cons, List.flatMap_nil, List.append_nil, List.append_assoc] using all

theorem code_source (h : ∀ d ∈ ds, d.Plain) :
    code (readLines (source ds)) = flowCode ++ opcodeCode ds ++ implCode ds := by
  have lines := ((reads_headLines.append reads_flowLines).append (reads_opcodeLines h)).append
    (reads_implLines h)
  rw [source, sourceLines, readLines_join lines.oneLine, lines.code, List.nil_append]

end StackFlow.Table
