import StackFlow.Table.Check

/-! # The source text of an opcode table: two Rust enumerations and their functions -/

namespace StackFlow.Table

/-- The lines in front of all else. -/
def headLines : List String :=
  ["// Copyright 2026 the Subroutine Check Authors",
    "// SPDX-License-Identifier: Apache-2.0 OR MIT",
    "",
    "// @generated by subroutine_check_codegen. Do not edit by hand.",
    ""]

/-- The name of a flow. -/
def flowName : Flow → String
  | .next => "Next"
  | .terminator => "Terminator"
  | .invalid => "Invalid"
  | .jump => "Jump"
  | .jumpIf => "JumpIf"
  | .call => "Call"
  | .ret => "Return"

/-- What is said of a flow. -/
def flowDoc : Flow → String
  | .next => "Continues at the next sequential instruction."
  | .terminator => "Ends the current path successfully."
  | .invalid => "Rejected whenever it is reached."
  | .jump => "Unconditional relative jump."
  | .jumpIf => "Conditional relative jump."
  | .call => "Relative subroutine call."
  | .ret => "Return from the innermost subroutine."

/-- The flows in the order of their enumeration. -/
def flows : List Flow := [.next, .terminator, .invalid, .jump, .jumpIf, .call, .ret]

/-- A byte as it is written in the source. -/
def byteText (b : UInt8) : String := "0x" ++ upperHexByte b

def flowLines : List String :=
  ["/// Control-flow class of an opcode.",
    "#[derive(Copy, Clone, Debug, PartialEq, Eq)]",
    "pub enum Flow \x7b"] ++
  flows.flatMap (fun f => ["    /// " ++ flowDoc f, "    " ++ flowName f ++ ","]) ++
  ["\x7d", ""]

/-- What is said of an opcode. -/
def opcodeDoc (d : Definition) : String :=
  "`" ++ d.mnemonic ++ "` (" ++ byteText d.byte ++ ")" ++
    match d.doc? with
    | some doc => ": " ++ doc
    | none => "."

def opcodeLines (ds : List Definition) : List String :=
  ["/// Opcode byte values.",
    "#[derive(Copy, Clone, Debug, PartialEq, Eq, Hash)]",
    "#[repr(u8)]",
    "pub enum Opcode \x7b"] ++
  ds.flatMap (fun d =>
    ["    /// " ++ opcodeDoc d, "    " ++ d.name ++ " = " ++ byteText d.byte ++ ","]) ++
  ["\x7d", ""]

/-- A case of a match. -/
def arm (pattern result : String) : String := "            " ++ pattern ++ " => " ++ result ++ ","

/-- A function that is one match. -/
def matchLines (doc signature scrutinee : String) (arms : List String) : List String :=
  ["    /// " ++ doc,
    "    #[must_use]",
    "    pub const fn " ++ signature ++ " \x7b",
    "        match " ++ scrutinee ++ " \x7b"] ++ arms ++
  ["        \x7d",
    "    \x7d"]

/-- The pattern of an opcode. -/
def opcodePattern (d : Definition) : String := "Self::" ++ d.name

def decodeLines (ds : List Definition) : List String :=
  matchLines "Decodes an opcode byte; returns `None` for bytes outside the legal set."
    "from_u8(b: u8) -> Option<Self>" "b"
    (ds.map (fun d => arm (byteText d.byte) ("Some(" ++ opcodePattern d ++ ")")) ++
      [arm "_" "None"])

def mnemonicLines (ds : List Definition) : List String :=
  matchLines "Returns the assembly mnemonic." "mnemonic(self) -> &'static str" "self"
    (ds.map fun d => arm (opcodePattern d) ("\"" ++ d.mnemonic ++ "\""))

/-- A table of numbers, in which zeros are left to the last case. -/
def numberLines (doc signature : String) (number : Definition → Nat) (ds : List Definition) :
    List String :=
  matchLines doc signature "self"
    ((ds.filter (number · ≠ 0)).map (fun d => arm (opcodePattern d) (decimal (number d))) ++
      [arm "_" "0"])

/-- The table of flows, in which the common one is left to the last case. -/
def flowTableLines (ds : List Definition) : List String :=
  matchLines "Returns the control-flow class." "flow(self) -> Flow" "self"
    ((ds.filter (·.flow ≠ .next)).map
      (fun d => arm (opcodePattern d) ("Flow::" ++ flowName d.flow)) ++ [arm "_" "Flow::Next"])

def implLines (ds : List Definition) : List String :=
  ["impl Opcode \x7b"] ++ decodeLines ds ++ [""] ++ mnemonicLines ds ++ [""] ++
  numberLines "Returns the number of immediate bytes following the opcode byte."
    "immediate_len(self) -> u8" (·.immediate) ds ++ [""] ++
  numberLines "Returns the number of data-stack items consumed."
    "stack_inputs(self) -> u16" (·.inputs) ds ++ [""] ++
  numberLines "Returns the number of data-stack items produced."
    "stack_outputs(self) -> u16" (·.outputs) ds ++ [""] ++
  flowTableLines ds ++ ["\x7d"]

/-- The lines of the source text of a table. -/
def sourceLines (ds : List Definition) : List String :=
  headLines ++ flowLines ++ opcodeLines ds ++ implLines ds

/-- The source text of a table; every line ends in a line feed. -/
def source (ds : List Definition) : String := String.join ((sourceLines ds).map (· ++ "\n"))

/-- The source text of a table that is well formed, and the first fault of another. -/
def Spec.source (s : Spec) : Except Fault String := s.definitions.map Table.source

end StackFlow.Table
