import Mathlib.Data.List.TakeWhile
import StackFlow.Proofs.Definitions
import StackFlow.Proofs.SourceLines

/-!
# The source text of a table says what the table says

The source text of a table can be read back.  A reader of its lines finds the
names and bytes of all rows in the enumeration, and in each function what the
row of a name or of a byte says, be it in an arm of its own or in the last one,
which stands for all that was left out (`shownIn_of_source`).
-/

namespace StackFlow.Table

variable {s : Spec} {ds : List Definition} {d : Definition} {text : String}

/-! ## The blocks of a source text -/

theorem members?_source (h : ∀ d ∈ ds, d.Plain) :
    members? (source ds) "Opcode" = some (ds.map fun d ↦ (d.name, d.byte)) := by
  have parts : flowCode ++ opcodeCode ds ++ implCode ds =
      flowCode ++ [Line.other, Line.other] ++ Line.enumeration "Opcode" ::
        (ds.map (fun d ↦ Line.member d.name (byteText d.byte)) ++ Line.close :: implCode ds) := by
    simp [opcodeCode]
  rw [members?, code_source h, parts, block_append (by decide) (by simp)]
  apply mapM_map_eq_some
  intro d hd
  rw [Line.member?, byteLiteral?_byteText, Option.map_some]

/-- A function is found by its name, as no two have the same. -/
theorem arms?_source (h : ∀ d ∈ ds, d.Plain) {name : String} {arms : List (String × String)}
    (hf : (name, arms) ∈ functions ds) : arms? (source ds) name = some arms := by
  obtain ⟨fs, fs', split⟩ := List.append_of_mem hf
  have nodup : ((functions ds).map (·.1)).Nodup := by
    change ["from_u8", "mnemonic", "immediate_len", "stack_inputs", "stack_outputs", "flow"].Nodup
    decide
  have others : ∀ arms', (name, arms') ∉ fs := by
    rw [split, List.map_append, List.nodup_append] at nodup
    intro arms' h'
    exact nodup.2.2 name (List.mem_map_of_mem h') name List.mem_cons_self rfl
  have parts : flowCode ++ opcodeCode ds ++ implCode ds =
      (flowCode ++ opcodeCode ds ++ (Line.other :: fs.flatMap functionCode) ++ [Line.other]) ++
        Line.function name :: ((Line.select :: arms.map fun a ↦ Line.arm a.1 a.2) ++
          Line.close :: (Line.close :: fs'.flatMap functionCode ++ [Line.close])) := by
    simp [implCode, split, functionCode]
  have first : .function name ∉
      flowCode ++ opcodeCode ds ++ (Line.other :: fs.flatMap functionCode) ++ [Line.other] := by
    simpa [flowCode, opcodeCode, functionCode] using others
  have open' : ∀ l ∈ arms.map (fun a ↦ Line.arm a.1 a.2), decide (l ≠ .close) = true := by
    intro l hl
    obtain ⟨a, -, rfl⟩ := List.mem_map.mp hl
    exact decide_eq_true Line.noConfusion
  have read : (arms.map fun a ↦ Line.arm a.1 a.2).mapM Line.arm? = some (arms.map id) :=
    mapM_map_eq_some fun _ _ ↦ rfl
  rw [arms?, code_source h, parts, block_append first (by simp), block_cons,
    List.takeWhile_eq_self_iff.mpr open', read, List.map_id]

/-! ## What is found in the arms -/

/-- What the function that decodes gives for a byte. -/
def decode? (text : String) (b : UInt8) : Option (Option String) :=
  (result? text "from_u8" fun p ↦ byteLiteral? p = some b).bind variant?

/-- What a function of the opcodes gives for one of them. -/
def value? (text function name : String) : Option String :=
  result? text function (· = "Self::" ++ name)

/-- The flow that a variant of its enumeration names. -/
def flowLiteral? : String → Option Flow
  | "Flow::Next" => some .next
  | "Flow::Terminator" => some .terminator
  | "Flow::Invalid" => some .invalid
  | "Flow::Jump" => some .jump
  | "Flow::JumpIf" => some .jumpIf
  | "Flow::Call" => some .call
  | "Flow::Return" => some .ret
  | _ => none

theorem opcodePattern_ne_wildcard (d : Definition) : opcodePattern d ≠ "_" := by
  intro same
  have := congrArg String.toList same
  simp [opcodePattern] at this

section Found

variable (h : ∀ d ∈ ds, d.Plain)
include h

theorem decode?_source (hd : d ∈ ds) (unique : ∀ d' ∈ ds, d'.byte = d.byte → d' = d) :
    decode? (source ds) d.byte = some (some d.name) := by
  rw [decode?, result?, arms?_source h (List.mem_cons_self : ("from_u8", _) ∈ functions ds),
    Option.bind_some, choose_map hd, Option.bind_some, opcodePattern, variant?_some]
  · exact decide_eq_true (byteLiteral?_byteText d.byte)
  · intro d' hd' fit
    have fit := of_decide_eq_true fit
    rw [byteLiteral?_byteText] at fit
    exact unique d' hd' (Option.some_inj.mp fit)
  · simp [byteLiteral?_wildcard]

theorem decode?_source_of_forall {b : UInt8} (others : ∀ d ∈ ds, d.byte ≠ b) :
    decode? (source ds) b = some none := by
  rw [decode?, result?, arms?_source h (List.mem_cons_self : ("from_u8", _) ∈ functions ds),
    Option.bind_some, choose_of_forall ?_ (by simp [byteLiteral?_wildcard]), Option.bind_some]
  · rfl
  · intro a ha
    obtain ⟨d, hd, rfl⟩ := List.mem_map.mp ha
    refine ⟨by simpa [byteLiteral?_byteText] using others d hd, fun wildcard ↦ ?_⟩
    have wildcard : byteText d.byte = "_" := wildcard
    have byte := byteLiteral?_byteText d.byte
    rw [wildcard, byteLiteral?_wildcard] at byte
    cases byte

variable (hd : d ∈ ds) (unique : ∀ d' ∈ ds, d'.name = d.name → d' = d)
include hd unique

theorem mnemonic?_source :
    (value? (source ds) "mnemonic" d.name).bind stringLiteral? = some d.mnemonic := by
  have chosen : choose (· = "Self::" ++ d.name)
      (ds.map (fun d ↦ (opcodePattern d, "\"" ++ d.mnemonic ++ "\"")) ++ []) =
      some ("\"" ++ d.mnemonic ++ "\"") :=
    choose_map hd (decide_eq_true rfl)
      (fun d' hd' fit ↦ unique d' hd' ((String.append_right_inj _).mp (of_decide_eq_true fit)))
      nofun
  rw [List.append_nil] at chosen
  rw [value?, result?, arms?_source h (List.mem_cons_of_mem _ List.mem_cons_self :
    ("mnemonic", _) ∈ functions ds), Option.bind_some, chosen, Option.bind_some]
  exact stringLiteral?_quoted fun c hc ↦ ((h d hd).mnemonic c hc).2

/-- What an arm of its own does not say, the last one does. -/
theorem value?_source {function other : String} {shown : Definition → Bool}
    {result : Definition → String} (hf : (function, sparse ds shown result other) ∈ functions ds) :
    value? (source ds) function d.name = some (if shown d then result d else other) := by
  have same : ∀ d' ∈ ds, opcodePattern d' = opcodePattern d → d' = d :=
    fun d' hd' h ↦ unique d' hd' ((String.append_right_inj _).mp h)
  have wildcard : ("_" : String) ≠ opcodePattern d := (opcodePattern_ne_wildcard d).symm
  rw [value?, result?, arms?_source h hf, Option.bind_some, sparse]
  cases own : shown d with
  | true =>
    refine choose_map (List.mem_filter.mpr ⟨hd, own⟩) (decide_eq_true rfl)
      (fun d' hd' fit ↦ same d' (List.mem_of_mem_filter hd') (of_decide_eq_true fit)) fun a ha ↦ ?_
    rw [List.mem_singleton.mp ha]
    exact decide_eq_false wildcard
  | false =>
    refine choose_of_forall (fun a ha ↦ ?_) (decide_eq_false wildcard)
    obtain ⟨d', hd', rfl⟩ := List.mem_map.mp ha
    obtain ⟨mem, shown'⟩ := List.mem_filter.mp hd'
    refine ⟨decide_eq_false fun pattern ↦ ?_, opcodePattern_ne_wildcard d'⟩
    rw [same d' mem pattern, own] at shown'
    cases shown'

theorem number?_source {function : String} (number : Definition → Nat)
    (hf : (function, sparse ds (number · ≠ 0) (fun d ↦ decimal (number d)) "0") ∈ functions ds) :
    (value? (source ds) function d.name).bind literal? = some (number d) := by
  rw [value?_source h hd unique hf, Option.bind_some]
  split
  · exact literal?_decimal (number d)
  · next zero =>
    have zero : number d = 0 := by simpa using zero
    rw [zero]
    decide

theorem flow?_source : (value? (source ds) "flow" d.name).bind flowLiteral? = some d.flow := by
  have flow : ("flow", sparse ds (·.flow ≠ .next) (fun d ↦ "Flow::" ++ flowName d.flow)
      "Flow::Next") ∈ functions ds := by simp [functions]
  rw [value?_source h hd unique flow, Option.bind_some]
  cases d.flow <;> decide

end Found

/-! ## What a table says is what its text says -/

/-- The functions in a source text give for the name of a row what the row says. -/
structure Row.ShownIn (r : Row) (text : String) : Prop where
  mnemonic : (value? text "mnemonic" r.name).bind stringLiteral? = some r.mnemonic
  immediate : (value? text "immediate_len" r.name).bind literal? = some r.immediate
  inputs : (value? text "stack_inputs" r.name).bind literal? = some r.inputs
  outputs : (value? text "stack_outputs" r.name).bind literal? = some r.outputs
  flow : ∃ f, flow? r.flow = some f ∧ (value? text "flow" r.name).bind flowLiteral? = some f

/-- A source text says what a table says: the enumeration has the name and the byte of each row
once, in the order of the bytes, and the functions give what the rows say. -/
structure Spec.ShownIn (s : Spec) (text : String) : Prop where
  members : ∃ ms, members? text "Opcode" = some ms ∧ ms.Pairwise (·.2 < ·.2) ∧
    (ms.map fun m ↦ (m.1, some m.2)).Perm (s.rows.map fun r ↦ (r.name, r.byte?))
  decoded : ∀ b name, decode? text b = some (some name) ↔
    ∃ r ∈ s.rows, r.byte? = some b ∧ r.name = name
  undecoded : ∀ b, decode? text b = some none ↔ ∀ r ∈ s.rows, r.byte? ≠ some b
  rows : ∀ r ∈ s.rows, r.ShownIn text

theorem source_eq_ok_iff :
    s.source = .ok text ↔ ∃ ds, s.definitions = .ok ds ∧ source ds = text := by
  unfold Spec.source
  cases s.definitions with
  | error e => exact ⟨nofun, fun ⟨_, h, _⟩ ↦ nomatch h⟩
  | ok ds => simp [Except.map]

section Table

variable (table : s.Defines ds) (plain : ∀ d ∈ ds, d.Plain)
include table plain

theorem row_shownIn_source {r : Row} (hr : r ∈ s.rows) : r.ShownIn (source ds) := by
  obtain ⟨d, hd, defines⟩ := table.exists_definition hr
  have unique : ∀ d' ∈ ds, d'.name = d.name → d' = d := fun d' hd' ↦ table.eq_of_name hd' hd
  constructor <;> rw [defines.name]
  · rw [defines.mnemonic]
    exact mnemonic?_source plain hd unique
  · rw [defines.immediate]
    exact number?_source plain hd unique (·.immediate) (by simp [functions])
  · rw [defines.inputs]
    exact number?_source plain hd unique (·.inputs) (by simp [functions])
  · rw [defines.outputs]
    exact number?_source plain hd unique (·.outputs) (by simp [functions])
  · exact ⟨d.flow, defines.flow, flow?_source plain hd unique⟩

theorem decode?_source_row {r : Row} {b : UInt8} (hr : r ∈ s.rows) (byte : r.byte? = some b) :
    decode? (source ds) b = some (some r.name) := by
  obtain ⟨d, hd, defines⟩ := table.exists_definition hr
  obtain rfl : d.byte = b := Option.some_inj.mp (defines.byte.symm.trans byte)
  rw [defines.name]
  exact decode?_source plain hd fun d' hd' ↦ table.eq_of_byte hd' hd

theorem decode?_source_of_no_row {b : UInt8} (absent : ∀ r ∈ s.rows, r.byte? ≠ some b) :
    decode? (source ds) b = some none := by
  refine decode?_source_of_forall plain fun d hd byte ↦ ?_
  obtain ⟨r, hr, defines⟩ := table.exists_row hd
  exact absent r hr (byte ▸ defines.byte)

end Table

/-- The source text of a table that is well formed says what the table says, if what is written
into it as it is can be told from what stands around it. -/
theorem shownIn_of_source (accepted : s.source = .ok text)
    (names : ∀ r ∈ s.rows, IsIdentifier r.name)
    (mnemonics : ∀ r ∈ s.rows, IsQuotable r.mnemonic)
    (docs : ∀ r ∈ s.rows, ∀ doc ∈ r.doc?, OneLine doc) : s.ShownIn text := by
  obtain ⟨ds, definitions, rfl⟩ := source_eq_ok_iff.mp accepted
  have table := definitions_eq_ok_iff.mp definitions
  have plain : ∀ d ∈ ds, d.Plain := by
    intro d hd
    obtain ⟨r, hr, defines⟩ := table.exists_row hd
    exact ⟨defines.name ▸ names r hr, defines.mnemonic ▸ mnemonics r hr,
      fun doc hdoc ↦ docs r hr doc (defines.doc ▸ hdoc)⟩
  refine ⟨⟨_, members?_source plain, List.pairwise_map.mpr table.ascending, ?_⟩,
    fun b name ↦ ⟨fun found ↦ ?_, ?_⟩,
    fun b ↦ ⟨fun found r hr byte ↦ ?_, decode?_source_of_no_row table plain⟩,
    fun r hr ↦ row_shownIn_source table plain hr⟩
  · rw [List.map_map]
    exact table.perm_rows
  · by_contra absent
    rw [decode?_source_of_no_row table plain] at found
    · cases found
    · intro r hr byte
      rw [decode?_source_row table plain hr byte] at found
      exact absent ⟨r, hr, byte, Option.some_inj.mp (Option.some_inj.mp found)⟩
  · rintro ⟨r, hr, byte, rfl⟩
    exact decode?_source_row table plain hr byte
  · rw [decode?_source_row table plain hr byte] at found
    cases found

/-- A table whose rows are not in the order of their bytes. -/
def jumpAndAdd : Spec where
  version := 1
  rows := [
    { name := "RJUMP", mnemonic := "rjump", byte := " 0x5c", immediate := 2, inputs := 0,
      outputs := 0, flow := "jump" },
    { name := "ADD", mnemonic := "add", byte := "01", inputs := 2, outputs := 1, flow := "next",
      doc? := some "Adds two items." }]

theorem shownIn_of_source_jumpAndAdd :
    ∃ text, jumpAndAdd.source = .ok text ∧ jumpAndAdd.ShownIn text := by
  let add : Definition := ⟨0x01, "ADD", "add", 0, 2, 1, .next, some "Adds two items."⟩
  let jump : Definition := ⟨0x5c, "RJUMP", "rjump", 2, 0, 0, .jump, none⟩
  have rows : List.Forall₂ Row.Defines jumpAndAdd.rows [jump, add] :=
    .cons ⟨by decide, rfl, rfl, rfl, rfl, rfl, by decide, rfl, by decide, by decide, by decide⟩
      (.cons ⟨by decide, rfl, rfl, rfl, rfl, rfl, by decide, rfl, by decide, by decide, by decide⟩
        .nil)
  have table : jumpAndAdd.Defines [add, jump] :=
    ⟨rfl, ⟨_, rows, .swap add jump []⟩, by decide, by decide⟩
  have accepted := source_eq_ok_iff.mpr ⟨_, definitions_eq_ok_iff.mpr table, rfl⟩
  exact ⟨_, accepted, shownIn_of_source accepted (by decide) (by decide) (by decide)⟩

end StackFlow.Table
