import StackFlow.Proofs.Certificate
import StackFlow.Proofs.Lines

/-!
# What a listing shows of labels and heights

The labels of a listing stand at the instruction starts that some displacement
refers to, in ascending order.  As the sweep meets them in this order, the lines
with labels are numbered from the first one on (`Listing.showsLabels`).  The
listing of verified code has the same instructions and the same labels, and as
every height belongs to an instruction start, none of them is left out
(`labels_and_heights_of_listing`).
-/

namespace StackFlow

variable {code : Code} {labels : Labels} {l : Listing} {e : Entry} {pc pc' k k' : Nat}

/-! ## The lines of a text -/

namespace Entry

/-- What stands behind an instruction that can be run, if its height is known. -/
def note (e : Entry) : String :=
  match e.height? with
  | some height => " ; h=" ++ decimal height
  | none => ""

theorem line_of_opcode? {op : Opcode} (h : e.instr.opcode? = some op) :
    e.line labels = Entry.line labels ⟨e.instr, none⟩ ++ e.note := by
  unfold line note
  rw [h]
  cases e.height? <;> simp [operand]

theorem line_of_illegal (h : e.instr.opcode? = none) :
    e.line labels = Entry.line labels ⟨e.instr, none⟩ := by
  unfold line
  rw [h]

theorem oneLine_note (e : Entry) : OneLine e.note := by
  unfold note
  cases e.height? with
  | none => exact List.not_mem_nil
  | some height => exact OneLine.append (by decide) (isWord_decimal height).oneLine

theorem oneLine_line (labels : Labels) (e : Entry) : OneLine (e.line labels) := by
  have plain : OneLine (Entry.line labels ⟨e.instr, none⟩) := by
    rw [Instr.line_eq_intercalate]
    exact (Instr.isLine_words labels e.instr).oneLine
  cases opcode : e.instr.opcode? with
  | none => rwa [line_of_illegal opcode]
  | some op =>
    rw [line_of_opcode? opcode]
    exact plain.append e.oneLine_note

end Entry

namespace Listing

/-- The line of a label. -/
def labelLine (k : Nat) : String := "@L" ++ decimal k ++ ":"

/-- Whether a line is that of a label. -/
def isLabelLine (s : String) : Bool := s.toList.head? = some '@'

theorem linesOf_eq_append (labels : Labels) (e : Entry) :
    linesOf labels e = (labels.number? e.instr.pc).toList.map labelLine ++ [e.line labels] := by
  unfold linesOf
  cases labels.number? e.instr.pc <;> rfl

theorem isLabelLine_labelLine (k : Nat) : isLabelLine (labelLine k) = true := by
  simp [isLabelLine, labelLine]

/-- The line of an instruction starts with a digit. -/
theorem isLabelLine_line (labels : Labels) (e : Entry) : isLabelLine (e.line labels) = false := by
  obtain ⟨rest, line⟩ : ∃ rest, e.line labels = paddedDecimal 6 e.instr.pc ++ rest := by
    unfold Entry.line
    cases e.instr.opcode? <;> exact ⟨_, by simp only [String.append_assoc]; rfl⟩
  have digits (c : Char) (h : c ∈ (paddedDecimal 6 e.instr.pc).toList) : c ≠ '@' := by
    rintro rfl
    exact absurd (isDigit_of_mem_paddedDecimal h) (by decide)
  have nonempty : (paddedDecimal 6 e.instr.pc).toList ≠ [] := by
    simp [paddedDecimal, List.leftpad, digits_ne_nil]
  obtain ⟨c, cs, eq⟩ := List.exists_cons_of_ne_nil nonempty
  rw [isLabelLine, line, String.toList_append, eq, List.cons_append, List.head?_cons,
    decide_eq_false_iff_not, Option.some.injEq]
  exact digits c (eq ▸ List.mem_cons_self)

/-- The text of a listing can be read line by line. -/
theorem readLines_text (l : Listing) : readLines l.text = l.lines := by
  refine readLines_join fun s hs ↦ ?_
  obtain ⟨e, -, mem⟩ := List.mem_flatMap.mp hs
  rw [linesOf_eq_append, List.mem_append, List.mem_singleton] at mem
  rcases mem with mem | rfl
  · obtain ⟨k, -, rfl⟩ := List.mem_map.mp mem
    have word : IsWord (labelLine k) :=
      (IsWord.append (by decide) (isWord_decimal k)).append (by decide)
    exact word.oneLine
  · exact e.oneLine_line _

/-- Among the lines those of labels are found in the order of the instructions. -/
theorem filter_isLabelLine_lines (l : Listing) :
    l.lines.filter isLabelLine =
      (l.entries.filterMap fun e ↦ l.labels.number? e.instr.pc).map labelLine := by
  have each (e : Entry) : (linesOf l.labels e).filter isLabelLine =
      (l.labels.number? e.instr.pc).toList.map labelLine := by
    rw [linesOf_eq_append, List.filter_append, List.filter_cons_of_neg (by
      rw [isLabelLine_line]; decide), List.filter_nil, List.append_nil, List.filter_eq_self]
    intro s hs
    obtain ⟨k, -, rfl⟩ := List.mem_map.mp hs
    exact isLabelLine_labelLine k
  rw [lines, List.filter_flatMap, List.filterMap_eq_flatMap_toList, List.map_flatMap]
  exact List.flatMap_congr fun e _ ↦ each e

/-! ## Numbers in the order of the sweep -/

/-- The labels of a listing are determined by its code. -/
theorem labels_eq (starts : l.starts = .ofCode l.code) : l.labels = (ofCode l.code).labels := by
  rw [labels, targets, starts]
  rfl

theorem pairwise_offsets (l : Listing) : l.labels.offsets.Pairwise (· < ·) :=
  IndexSet.pairwise_toList _

/-- Later offsets have greater numbers. -/
theorem number?_lt (h : l.labels.number? pc = some k) (h' : l.labels.number? pc' = some k')
    (lt : pc < pc') : k < k' := by
  rw [number?_eq_some_iff, List.getElem?_eq_some_iff] at h h'
  obtain ⟨hk, rfl⟩ := h
  obtain ⟨hk', rfl⟩ := h'
  rcases Nat.lt_trichotomy k k' with lt' | rfl | gt
  · exact lt'
  · exact absurd lt (Nat.lt_irrefl _)
  · have := List.pairwise_iff_getElem.mp l.pairwise_offsets k' k hk' hk gt
    exact absurd lt (Nat.lt_asymm this)

/-- The sweep meets the labels 0, 1, 2 and so on. -/
theorem filterMap_number?_sweep (code : Code) :
    (sweep code).filterMap (fun i ↦ (ofCode code).labels.number? i.pc) =
      List.range (ofCode code).labels.offsets.length := by
  refine List.Pairwise.eq_of_mem_iff (r := (· < ·)) ?_ List.pairwise_lt_range fun k ↦ ?_
  · have ascending : (sweep code).Pairwise (·.pc < ·.pc) := pairwise_sweepFrom code 0
    refine ascending.filterMap _ fun i j lt k hk k' hk' ↦ number?_lt hk hk' lt
  · rw [List.mem_filterMap, List.mem_range]
    constructor
    · rintro ⟨i, -, number⟩
      rw [number?_eq_some_iff] at number
      exact (List.getElem?_eq_some_iff.mp number).1
    · intro lt
      have number := (number?_eq_some_iff (ofCode code)).mpr (List.getElem?_eq_getElem lt)
      obtain ⟨i, mem, here⟩ := isStart_of_number? number
      exact ⟨i, mem, here ▸ number⟩

/-- Each label has a line of its own, directly in front of that of its instruction, and these
lines are numbered in the order in which they appear. -/
structure ShowsLabels (l : Listing) : Prop where
  numbered : (readLines l.text).filter isLabelLine =
    (List.range l.labels.offsets.length).map labelLine
  placed : ∀ k pc, l.labels.offsets[k]? = some pc → ∃ e ∈ l.entries, e.instr.pc = pc ∧
    [labelLine k, e.line l.labels] <:+: readLines l.text

theorem map_instr_entries (l : Listing) : l.entries.map Entry.instr = sweep l.code := by
  rw [entries, List.map_map]
  exact List.map_id _

theorem showsLabels (starts : l.starts = .ofCode l.code) : l.ShowsLabels where
  numbered := by
    have numbers : (l.entries.filterMap fun e ↦ l.labels.number? e.instr.pc) =
        (sweep l.code).filterMap fun i ↦ l.labels.number? i.pc := by
      rw [← map_instr_entries, List.filterMap_map]
      rfl
    rw [readLines_text, filter_isLabelLine_lines, numbers, labels_eq starts,
      filterMap_number?_sweep]
  placed := by
    intro k pc here
    rw [← number?_eq_some_iff] at here
    obtain ⟨i, mem, rfl⟩ := isStart_of_number? (labels_eq starts ▸ here)
    rw [← map_instr_entries] at mem
    obtain ⟨e, listed, rfl⟩ := List.mem_map.mp mem
    refine ⟨e, listed, rfl, ?_⟩
    obtain ⟨before, after, eq⟩ := List.append_of_mem listed
    rw [readLines_text, lines, eq, List.flatMap_append, List.flatMap_cons, linesOf_eq_append, here]
    exact ⟨_, _, List.append_assoc _ _ _⟩

/-! ## Heights -/

/-- The offsets that are listed with a height, and the heights. -/
def annotations (l : Listing) : List (Nat × Nat) :=
  l.entries.filterMap fun e ↦ e.height?.map (e.instr.pc, ·)

theorem mem_annotations {height : Nat} :
    (pc, height) ∈ l.annotations ↔ IsStart l.code pc ∧ l.heights.at? pc = some height := by
  rw [annotations, entries, List.filterMap_map, List.mem_filterMap]
  constructor
  · rintro ⟨i, mem, h⟩
    obtain ⟨height, known, eq⟩ := Option.map_eq_some_iff.mp h
    cases eq
    exact ⟨⟨i, mem, rfl⟩, known⟩
  · rintro ⟨⟨i, mem, rfl⟩, known⟩
    exact ⟨i, mem, Option.map_eq_some_iff.mpr ⟨height, known, rfl⟩⟩

/-- Offsets are annotated one after the other, each of them once. -/
theorem pairwise_annotations (l : Listing) :
    (l.annotations.map Prod.fst).Pairwise (· < ·) := by
  have ascending : (sweep l.code).Pairwise (·.pc < ·.pc) := pairwise_sweepFrom l.code 0
  rw [List.pairwise_map, annotations, entries, List.filterMap_map]
  refine ascending.filterMap _ fun i j lt p hp q hq ↦ ?_
  obtain ⟨height, -, rfl⟩ := Option.map_eq_some_iff.mp hp
  obtain ⟨height', -, rfl⟩ := Option.map_eq_some_iff.mp hq
  exact lt

end Listing

open Check

/-- An offset with a known height holds an instruction that can be run. -/
theorem exists_certified_of_heightAt? {limits : Limits} {v : Verified} {height : Nat}
    (h : verify code limits = .ok v) (known : v.heightAt? pc = some height) :
    ∃ i op, v.Certified code limits pc height i op := by
  obtain ⟨-, s, passes, path, rfl⟩ := passes_of_verify h
  exact passes.inv.certified path known

/-- In verified code no height is left out for an illegal byte. -/
theorem line_of_verified {limits : Limits} {v : Verified} (h : verify code limits = .ok v)
    (fetch : decode code e.instr.pc = some e.instr) (height : e.height? = v.heightAt? e.instr.pc) :
    e.line labels = Entry.line labels ⟨e.instr, none⟩ ++ e.note := by
  cases opcode : e.instr.opcode? with
  | some op => exact Entry.line_of_opcode? opcode
  | none =>
    have blank : e.note = "" := by
      cases known : v.heightAt? e.instr.pc with
      | none => rw [Entry.note, height, known]
      | some n =>
        obtain ⟨i, op, here⟩ := exists_certified_of_heightAt? h known
        cases here.fetch.decode.symm.trans fetch
        cases here.fetch.opcode.symm.trans opcode
    rw [Entry.line_of_illegal opcode, blank, String.append_empty]

/-- A listing shows the labels of a code in order, and the listing of the same code, once it is
verified, shows them too, and every height besides. -/
theorem labels_and_heights_of_listing (code : Code) :
    let l := Listing.ofCode code
    l.labels.offsets.Pairwise (· < ·) ∧
    (∀ pc, pc ∈ l.labels.offsets ↔
      IsStart code pc ∧ ∃ i ∈ sweep code, i.target? = some (pc : Int)) ∧
    (∀ pc k, l.labels.number? pc = some k ↔ l.labels.offsets[k]? = some pc) ∧
    (∀ pc, pc ∉ l.labels.offsets → l.labels.number? pc = none) ∧
    l.ShowsLabels ∧
    ∀ limits v, verify code limits = .ok v →
      v.listing.labels = l.labels ∧
      v.listing.entries.map Entry.instr = l.entries.map Entry.instr ∧
      v.listing.ShowsLabels ∧
      (v.listing.annotations.map Prod.fst).Pairwise (· < ·) ∧
      (∀ pc height, (pc, height) ∈ v.listing.annotations ↔ v.heightAt? pc = some height) ∧
      ∀ e ∈ v.listing.entries,
        e.line l.labels = Entry.line l.labels ⟨e.instr, none⟩ ++ e.note := by
  intro l
  refine ⟨l.pairwise_offsets, fun pc ↦ Listing.mem_offsets code,
    fun pc k ↦ Listing.number?_eq_some_iff l, fun pc fresh ↦ ?_, Listing.showsLabels rfl,
    fun limits v h ↦ ?_⟩
  · rw [Option.eq_none_iff_forall_ne_some]
    intro k number
    rw [Listing.number?_eq_some_iff] at number
    exact fresh (List.mem_of_getElem? number)
  · obtain ⟨here, starts⟩ : v.code = code ∧ v.starts = .ofCode code := by
      obtain ⟨-, s, -, -, rfl⟩ := passes_of_verify h
      exact ⟨rfl, rfl⟩
    subst here
    refine ⟨Listing.labels_eq starts, ?_, Listing.showsLabels starts,
      Listing.pairwise_annotations _, fun pc height ↦ ?_, fun e mem ↦ ?_⟩
    · rw [Listing.map_instr_entries, Listing.map_instr_entries]
      rfl
    · rw [Listing.mem_annotations]
      refine ⟨And.right, fun known ↦ ⟨?_, known⟩⟩
      obtain ⟨i, op, certified⟩ := exists_certified_of_heightAt? h known
      exact certified.start
    · obtain ⟨i, swept, rfl⟩ := List.mem_map.mp mem
      exact line_of_verified h (decode_of_mem_sweepFrom swept) rfl

/-- The listing of a call and the stop behind it has one label, and three heights. -/
theorem labels_and_heights_callThenStop :
    let l := Listing.ofCode callThenStop
    ∃ v, verify callThenStop {} = .ok v ∧ v.listing.labels = l.labels ∧
      l.labels.number? 4 = some 0 ∧ l.labels.number? 3 = none ∧
      (readLines v.listing.text).filter Listing.isLabelLine = ["@L0:"] ∧
      (3, 0) ∈ v.listing.annotations ∧ (4, 0) ∈ v.listing.annotations := by
  intro l
  have h : verify callThenStop {} = .ok ⟨callThenStop, .ofCode callThenStop,
      ⟨#[some 0, none, none, some 0, some 0]⟩, ⟨3, 0, 2, 1, 1⟩⟩ := by
    decide +kernel
  have offsets : l.labels.offsets = [4] := by decide +kernel
  obtain ⟨-, -, number, fresh, -, verified⟩ := labels_and_heights_of_listing callThenStop
  obtain ⟨labels, -, shows, -, heights, -⟩ := verified {} _ h
  refine ⟨_, h, labels, (number 4 0).mpr ?_, fresh 3 ?_, ?_, (heights 3 0).mpr rfl,
    (heights 4 0).mpr rfl⟩
  · rw [offsets]
    rfl
  · rw [offsets]
    decide
  · rw [shows.numbered, labels, offsets]
    decide +kernel

end StackFlow
