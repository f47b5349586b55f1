import Mathlib.Data.List.Forall2
import StackFlow.Proofs.Labels
import StackFlow.Proofs.Mnemonics
import StackFlow.Proofs.Words

/-!
# What a line of a listing tells about its instruction

A line falls into words: the offset, the mnemonic, and what stands behind it.
They tell the offset, the opcode and an immediate that is no displacement
(`Instr.alike_of_words`), but of a target only how it is written, and of a
displacement that is cut off nothing.
-/

namespace StackFlow

attribute [ext] Instr

variable {labels labels' : Labels} {i i' : Instr} {is is' : List Instr}

/-! ## The words of a listing -/

namespace Instr

/-- The word behind the mnemonic, if there is one. -/
def operand? (labels : Labels) (i : Instr) : Option String :=
  match i.target? with
  | some target => some (labels.reference target)
  | none =>
    if i.immediate.isEmpty || i.isRelative then none else some ("0x" ++ hexBytes i.immediate)

/-- The words behind the mnemonic. -/
def tail (labels : Labels) (i : Instr) : List String :=
  (i.operand? labels).toList ++ if i.isTruncated then ["<truncated>"] else []

/-- The words of an instruction without a height. -/
def words (labels : Labels) (i : Instr) : List String :=
  (paddedDecimal 6 i.pc ++ ":") :: match i.opcode? with
    | none => ["0x" ++ hexByte i.byte, "(unknown)"]
    | some op => op.mnemonic :: i.tail labels

/-- The lines of an instruction, behind the one of its label if it has one. -/
def lines (labels : Labels) (i : Instr) : List (List String) :=
  match labels.number? i.pc with
  | some k => [["@L" ++ decimal k ++ ":"], i.words labels]
  | none => [i.words labels]

theorem operand_eq_join (labels : Labels) (i : Instr) :
    Entry.operand labels ⟨i, none⟩ =
      String.join ((i.operand? labels).toList.map (" " ++ ·)) := by
  unfold Entry.operand operand?
  cases i.target? with
  | some t => simp
  | none =>
    dsimp only
    split
    · rfl
    · simp [← String.append_assoc]

theorem line_eq_intercalate (labels : Labels) (i : Instr) :
    Entry.line labels ⟨i, none⟩ = " ".intercalate (i.words labels) := by
  have colon (s : String) : ": " ++ s = ":" ++ (" " ++ s) := by
    rw [← String.append_assoc]
    rfl
  rw [words, intercalate_cons]
  unfold Entry.line
  cases i.opcode? with
  | none => simp [← String.toList_inj]
  | some op =>
    dsimp only
    rw [operand_eq_join, tail]
    cases i.isTruncated with
    | false => simp [String.append_assoc, colon]
    | true => simp [String.append_assoc, colon]

theorem linesOf_eq_map (labels : Labels) (i : Instr) :
    Listing.linesOf labels ⟨i, none⟩ = (i.lines labels).map (" ".intercalate ·) := by
  unfold Listing.linesOf lines
  cases number : labels.number? i.pc with
  | some k =>
    simp only [line_eq_intercalate, List.map_cons, List.map_nil, String.intercalate_singleton]
  | none => simp only [line_eq_intercalate, List.map_cons, List.map_nil]

end Instr

theorem Listing.text_ofCode (code : Code) :
    (Listing.ofCode code).text =
      page ((sweep code).flatMap (Instr.lines (Listing.ofCode code).labels)) := by
  rw [Listing.text, Listing.lines, Listing.entries_ofCode, List.flatMap_map, page]
  simp only [Instr.linesOf_eq_map, List.map_flatMap, List.map_map]
  rfl

/-! ## Every line is made of words -/

theorem isWord_of_isDigit {s : String} (h : ∀ c ∈ s.toList, c.isDigit = true) : IsWord s := by
  refine isWord_of_isAlphanum fun c hc ↦ ?_
  rw [Char.isAlphanum, h c hc, Bool.or_true]

theorem isWord_decimal (n : Nat) : IsWord (decimal n) :=
  isWord_of_isDigit fun _ ↦ isDigit_of_mem_decimal

theorem isWord_mnemonic (op : Opcode) : IsWord op.mnemonic := by
  refine isWord_of_isAlphanum fun c hc ↦ ?_
  change (c.isUpper || c.isLower || c.isDigit) = true
  rcases Opcode.isUpper_or_isDigit_of_mem_mnemonic hc with upper | digit
  · rw [upper, Bool.true_or, Bool.true_or]
  · rw [digit, Bool.or_true]

theorem isWord_signedDecimal (z : Int) : IsWord (signedDecimal z) := by
  unfold signedDecimal
  split
  · exact IsWord.append (by decide) (isWord_decimal _)
  · exact isWord_decimal _

theorem Labels.isWord_reference (labels : Labels) (t : Int) : IsWord (labels.reference t) := by
  unfold reference
  split
  · exact IsWord.append (by decide) (isWord_decimal _)
  · exact IsWord.append (by decide) (isWord_signedDecimal t)

namespace Instr

theorem isWord_of_mem_tail {w : String} (h : w ∈ i.tail labels) : IsWord w := by
  rcases List.mem_append.mp h with h | h
  · rw [Option.mem_toList] at h
    unfold operand? at h
    split at h
    · cases h
      exact labels.isWord_reference _
    · split at h
      · cases h
      · cases h
        exact IsWord.append (by decide)
          (isWord_of_isAlphanum fun _ ↦ isAlphanum_of_mem_hexBytes)
  · split at h
    · rw [List.mem_singleton.mp h]
      decide
    · cases h

theorem isLine_words (labels : Labels) (i : Instr) : IsLine (i.words labels) := by
  refine ⟨List.cons_ne_nil _ _, fun w hw ↦ ?_⟩
  rcases List.mem_cons.mp hw with rfl | hw
  · exact (isWord_of_isDigit fun _ ↦ isDigit_of_mem_paddedDecimal).append (by decide)
  · split at hw
    · rcases List.mem_cons.mp hw with rfl | hw
      · exact IsWord.append (by decide) (isWord_of_isAlphanum fun _ ↦ isAlphanum_of_mem_hexByte)
      · rw [List.mem_singleton.mp hw]
        decide
    · rcases List.mem_cons.mp hw with rfl | hw
      · exact isWord_mnemonic _
      · exact isWord_of_mem_tail hw

theorem isLine_of_mem_lines {l : List String} (h : l ∈ i.lines labels) : IsLine l := by
  unfold lines at h
  split at h
  · rcases List.mem_cons.mp h with rfl | h
    · refine ⟨List.cons_ne_nil _ _, fun w hw ↦ ?_⟩
      rw [List.mem_singleton.mp hw]
      exact (IsWord.append (by decide) (isWord_decimal _)).append (by decide)
    · rw [List.mem_singleton.mp h]
      exact isLine_words labels i
  · rw [List.mem_singleton.mp h]
    exact isLine_words labels i

end Instr

/-! ## From a line to its instruction -/

namespace Instr

/-- Both have the same relative opcode at the same offset, and both are cut off. -/
structure CutAlike (i i' : Instr) : Prop where
  pc : i.pc = i'.pc
  byte : i.byte = i'.byte
  relative : i.isRelative = true
  cut : i.isTruncated = true
  cut' : i'.isTruncated = true

/-- Both have the same opcode at the same offset, and targets that are written alike. -/
structure TargetAlike (labels labels' : Labels) (i i' : Instr) : Prop where
  pc : i.pc = i'.pc
  byte : i.byte = i'.byte
  target : ∃ t t', i.target? = some t ∧ i'.target? = some t' ∧
    labels.reference t = labels'.reference t'

/-- An instruction with a relative opcode has a target unless it is cut off. -/
theorem cut_or_target (relative : i.isRelative = true) (le : i.immediate.length ≤ i.width) :
    i.isTruncated = true ∧ i.target? = none ∨ i.isTruncated = false ∧ ∃ t, i.target? = some t := by
  obtain ⟨op, opcode, hop⟩ := (Option.any_eq_true _ _).mp relative
  have width : i.width = 2 := by
    rw [width_of_opcode? opcode, Opcode.immediateLength_of_isRelative hop]
  rw [isTruncated, target?, displacement?, relative, width]
  rw [width] at le
  generalize i.immediate = bytes at le ⊢
  rcases bytes with _ | ⟨hi, _ | ⟨lo, _ | ⟨byte, bytes⟩⟩⟩
  · exact .inl ⟨rfl, rfl⟩
  · exact .inl ⟨rfl, rfl⟩
  · exact .inr ⟨rfl, _, rfl⟩
  · simp only [List.length_cons] at le
    omega

theorem length_immediate_of_cut {op : Opcode} (opcode : i.opcode? = some op)
    (relative : op.isRelative = true) (cut : i.isTruncated = true) : i.immediate.length ≤ 1 := by
  have short : i.immediate.length < i.width := of_decide_eq_true cut
  rw [width_of_opcode? opcode, Opcode.immediateLength_of_isRelative relative] at short
  omega

theorem target?_eq_none (h : i.isRelative = false) : i.target? = none := by
  rw [target?, displacement?, h]
  rfl

/-- Instructions with the same target are the same. -/
theorem ext_of_target {t : Int} (pc : i.pc = i'.pc) (byte : i.byte = i'.byte)
    (h : i.target? = some t) (h' : i'.target? = some t) : i = i' := by
  obtain ⟨op, d, -, -, sum, -, bytes⟩ := bytes_of_target? h
  obtain ⟨op', d', -, -, sum', -, bytes'⟩ := bytes_of_target? h'
  have same : d = d' := by omega
  subst same
  exact Instr.ext pc byte ((List.cons.inj bytes).2.trans (List.cons.inj bytes').2.symm)

theorem reference_ne_truncated (labels : Labels) (t : Int) :
    labels.reference t ≠ "<truncated>" := by
  rw [Labels.reference_eq]
  cases labels.at? t with
  | some k => simp [← String.toList_inj]
  | none => simp [← String.toList_inj]

theorem target?_of_cut (relative : i.isRelative = true) (cut : i.isTruncated = true) :
    i.target? = none := by
  rcases cut_or_target relative (Nat.le_of_lt (of_decide_eq_true cut)) with ⟨-, none⟩ | ⟨whole, -⟩
  · exact none
  · cases cut.symm.trans whole

theorem tail_of_cut (relative : i.isRelative = true) (cut : i.isTruncated = true) :
    i.tail labels = ["<truncated>"] := by
  rw [tail, operand?, target?_of_cut relative cut, relative, cut, Bool.or_true]
  rfl

theorem tail_of_target {t : Int} (whole : i.isTruncated = false) (target : i.target? = some t) :
    i.tail labels = [labels.reference t] := by
  rw [tail, operand?, target, whole]
  rfl

/-- Immediate bytes stand behind the mnemonic, unless they are a displacement. -/
theorem mem_tail (labels : Labels) {s : String} (h : i.isRelative = false) :
    "0x" ++ s ∈ i.tail labels ↔ i.immediate ≠ [] ∧ hexBytes i.immediate = s := by
  have cut : "0x" ++ s ∉ if i.isTruncated then ["<truncated>"] else [] := by
    split
    · simp [← String.toList_inj]
    · exact List.not_mem_nil
  rw [tail, List.mem_append, or_iff_left cut, Option.mem_toList, operand?, target?_eq_none h, h]
  cases i.immediate with
  | nil => simp
  | cons byte bytes => simp

theorem immediate_of_tail (h : i.isRelative = false) (h' : i'.isRelative = false)
    (same : i.tail labels = i'.tail labels') : i.immediate = i'.immediate := by
  by_cases none : i.immediate = []
  · rw [none]
    by_contra ne
    have mem := (mem_tail labels' h').mpr ⟨Ne.symm ne, rfl⟩
    rw [← same] at mem
    exact ((mem_tail labels h).mp mem).1 none
  · have mem := (mem_tail labels h).mpr ⟨none, rfl⟩
    rw [same] at mem
    exact (hexBytes_inj ((mem_tail labels' h').mp mem).2).symm

theorem isRelative_congr (byte : i.byte = i'.byte) : i.isRelative = i'.isRelative := by
  rw [isRelative, isRelative, opcode?, opcode?, byte]

/-- The words behind the same mnemonic. -/
theorem alike_of_tail (pc : i.pc = i'.pc) (byte : i.byte = i'.byte)
    (le : i.immediate.length ≤ i.width) (le' : i'.immediate.length ≤ i'.width)
    (same : i.tail labels = i'.tail labels') :
    i = i' ∨ i.CutAlike i' ∨ i.TargetAlike labels labels' i' := by
  cases relative : i.isRelative with
  | false =>
    have relative' := (isRelative_congr byte).symm.trans relative
    exact .inl (Instr.ext pc byte (immediate_of_tail relative relative' same))
  | true =>
    have relative' := (isRelative_congr byte).symm.trans relative
    rcases cut_or_target relative le with ⟨cut, -⟩ | ⟨whole, t, target⟩ <;>
      rcases cut_or_target relative' le' with ⟨cut', -⟩ | ⟨whole', t', target'⟩
    · exact .inr (.inl ⟨pc, byte, relative, cut, cut'⟩)
    · rw [tail_of_cut relative cut, tail_of_target whole' target'] at same
      exact absurd (List.cons.inj same).1.symm (reference_ne_truncated labels' t')
    · rw [tail_of_cut relative' cut', tail_of_target whole target] at same
      exact absurd (List.cons.inj same).1 (reference_ne_truncated labels t)
    · rw [tail_of_target whole target, tail_of_target whole' target'] at same
      exact .inr (.inr ⟨pc, byte, t, t', target, target', (List.cons.inj same).1⟩)

theorem hex_ne_mnemonic (s : String) (op : Opcode) : "0x" ++ s ≠ op.mnemonic := by
  intro h
  have mem : 'x' ∈ op.mnemonic.toList := by
    rw [← h, String.toList_append]
    exact List.mem_append_left _ (by decide)
  exact absurd (Opcode.isUpper_or_isDigit_of_mem_mnemonic mem) (by decide)

theorem pc_of_words (h : i.words labels = i'.words labels') : i.pc = i'.pc :=
  paddedDecimal_inj ((String.append_left_inj ":").mp (List.cons.inj h).1)

/-- A line tells the instruction, but for its target and for what is left of a displacement that
is cut off. -/
theorem alike_of_words (le : i.immediate.length ≤ i.width) (le' : i'.immediate.length ≤ i'.width)
    (h : i.words labels = i'.words labels') :
    i = i' ∨ i.CutAlike i' ∨ i.TargetAlike labels labels' i' := by
  have pc := pc_of_words h
  have h := (List.cons.inj h).2
  cases opcode : i.opcode? with
  | none =>
    cases opcode' : i'.opcode? with
    | none =>
      rw [opcode, opcode'] at h
      have byte := hexByte_inj ((String.append_right_inj "0x").mp (List.cons.inj h).1)
      have immediate {j : Instr} (illegal : j.opcode? = none) (le : j.immediate.length ≤ j.width) :
          j.immediate = [] := by
        rw [width, immediateWidth, show Opcode.ofByte? j.byte = none from illegal] at le
        exact List.length_eq_zero_iff.mp (Nat.le_zero.mp le)
      exact .inl (Instr.ext pc byte ((immediate opcode le).trans (immediate opcode' le').symm))
    | some op' =>
      rw [opcode, opcode'] at h
      exact absurd (List.cons.inj h).1 (hex_ne_mnemonic _ op')
  | some op =>
    cases opcode' : i'.opcode? with
    | none =>
      rw [opcode, opcode'] at h
      exact absurd (List.cons.inj h).1.symm (hex_ne_mnemonic _ op)
    | some op' =>
      rw [opcode, opcode'] at h
      obtain ⟨mnemonic, tail⟩ := List.cons.inj h
      have byte : i.byte = i'.byte := by
        rw [← Opcode.toByte_of_ofByte? opcode, Opcode.mnemonic_inj mnemonic,
          Opcode.toByte_of_ofByte? opcode']
      exact alike_of_tail pc byte le le' tail

end Instr

/-! ## From the lines to the instructions -/

namespace Instr

theorem words_ne_singleton (labels : Labels) (i : Instr) (w : String) : i.words labels ≠ [w] := by
  intro h
  have rest := (List.cons.inj h).2
  split at rest
  · cases rest
  · cases rest

theorem lines_ne_nil (labels : Labels) (i : Instr) (rest : List (List String)) :
    i.lines labels ++ rest ≠ [] := by
  unfold lines
  split <;> exact List.cons_ne_nil _ _

/-- The lines in front of the same text belong to one instruction each. -/
theorem lines_append_inj {rest rest' : List (List String)}
    (h : i.lines labels ++ rest = i'.lines labels' ++ rest') :
    labels.number? i.pc = labels'.number? i'.pc ∧ i.words labels = i'.words labels' ∧
      rest = rest' := by
  unfold lines at h
  cases number : labels.number? i.pc with
  | none =>
    cases number' : labels'.number? i'.pc with
    | none =>
      rw [number, number'] at h
      obtain ⟨words, rest⟩ := List.cons.inj h
      exact ⟨rfl, words, rest⟩
    | some k' =>
      rw [number, number'] at h
      exact absurd (List.cons.inj h).1 (words_ne_singleton labels i _)
  | some k =>
    cases number' : labels'.number? i'.pc with
    | none =>
      rw [number, number'] at h
      exact absurd (List.cons.inj h).1.symm (words_ne_singleton labels' i' _)
    | some k' =>
      rw [number, number'] at h
      obtain ⟨label, h⟩ := List.cons.inj h
      obtain ⟨words, rest⟩ := List.cons.inj h
      have numeral := (String.append_left_inj ":").mp (List.cons.inj label).1
      have same := decimal_inj ((String.append_right_inj "@L").mp numeral)
      exact ⟨congrArg some same, words, rest⟩

/-- Where the lines are the same, the instructions stand under the same numbers and have the
same words, one by one. -/
theorem forall₂_of_lines (h : is.flatMap (lines labels) = is'.flatMap (lines labels')) :
    List.Forall₂ (fun i i' ↦ labels.number? i.pc = labels'.number? i'.pc ∧
      i.words labels = i'.words labels') is is' := by
  induction is generalizing is' with
  | nil =>
    cases is' with
    | nil => exact .nil
    | cons i' is' => exact absurd h.symm (lines_ne_nil labels' i' _)
  | cons i is ih =>
    cases is' with
    | nil => exact absurd h (lines_ne_nil labels i _)
    | cons i' is' =>
      rw [List.flatMap_cons, List.flatMap_cons] at h
      obtain ⟨number, words, rest⟩ := lines_append_inj h
      exact .cons ⟨number, words⟩ (ih rest)

/-! ## Lines that are the same -/

/-- Listings with the same numbers write an instruction alike. -/
theorem lines_congr (numbers : labels.number? = labels'.number?) (i : Instr) :
    i.lines labels = i.lines labels' := by
  have reference : labels.reference = labels'.reference := by
    funext t
    rw [Labels.reference_eq, Labels.reference_eq, Labels.at?, Labels.at?, numbers]
  rw [lines, lines, words, words, tail, tail, operand?, operand?, numbers, reference]

theorem CutAlike.lines_eq (h : i.CutAlike i') : i.lines labels = i'.lines labels := by
  have relative' := (isRelative_congr h.byte).symm.trans h.relative
  have words : i.words labels = i'.words labels := by
    rw [Instr.words, Instr.words, tail_of_cut h.relative h.cut, tail_of_cut relative' h.cut',
      opcode?, opcode?, h.pc, h.byte]
  rw [lines, lines, words, h.pc]

end Instr

end StackFlow
