import StackFlow.Proofs.Lines

/-!
# What a listing tells about the code

The text of a listing determines the code but for one byte
(`text_eq_text_iff`): a displacement of which only the first byte is there is
left out.

A target is written by the number of its label, so that one line does not
determine its instruction.  The texts are therefore compared in two rounds.
First the lines are compared one by one, which shows that the labels stand at
the same offsets (`number?_congr`).  Targets that are written alike are then the
same (`reference_inj`), and with them the instructions (`forall₂_of_text`).
-/

namespace StackFlow

variable {c c' code : Code} {labels' : Labels} {i i' : Instr} {is is' : List Instr}

/-- Listings with the same text have the same words in their lines. -/
theorem lines_of_text (h : (Listing.ofCode c).text = (Listing.ofCode c').text) :
    (sweep c).flatMap (Instr.lines (Listing.ofCode c).labels) =
      (sweep c').flatMap (Instr.lines (Listing.ofCode c').labels) := by
  rw [Listing.text_ofCode, Listing.text_ofCode] at h
  have all (code : Code) :
      ∀ l ∈ (sweep code).flatMap (Instr.lines (Listing.ofCode code).labels), IsLine l := by
    intro l hl
    obtain ⟨i, -, mem⟩ := List.mem_flatMap.mp hl
    exact Instr.isLine_of_mem_lines mem
  exact page_inj (all c) (all c') h

/-- Where the instructions stand at the same offsets under the same numbers, all offsets have
the same numbers. -/
theorem number?_congr
    (h : List.Forall₂ (fun i i' ↦ (Listing.ofCode c).labels.number? i.pc =
        (Listing.ofCode c').labels.number? i'.pc ∧ i.pc = i'.pc) (sweep c) (sweep c')) :
    (Listing.ofCode c).labels.number? = (Listing.ofCode c').labels.number? := by
  have same : (sweep c).map (fun i ↦ (i.pc, (Listing.ofCode c).labels.number? i.pc)) =
      (sweep c').map fun i ↦ (i.pc, (Listing.ofCode c').labels.number? i.pc) := by
    rw [← List.forall₂_eq_eq_eq, List.forall₂_map_left_iff, List.forall₂_map_right_iff]
    exact h.imp fun i i' h ↦ Prod.ext h.2 h.1
  have listed (code : Code) (pc k : Nat) :
      (Listing.ofCode code).labels.number? pc = some k ↔ (pc, some k) ∈
        (sweep code).map fun i ↦ (i.pc, (Listing.ofCode code).labels.number? i.pc) := by
    rw [List.mem_map]
    constructor
    · intro number
      obtain ⟨i, mem, rfl⟩ := Listing.isStart_of_number? number
      exact ⟨i, mem, by rw [number]⟩
    · rintro ⟨i, -, eq⟩
      obtain ⟨rfl, number⟩ := Prod.mk.inj eq
      exact number
  funext pc
  apply Option.ext
  intro k
  rw [listed, listed, same]

theorem label_ne_signedDecimal (k : Nat) (z : Int) :
    "@L" ++ decimal k ≠ "@" ++ signedDecimal z := by
  intro h
  have behind : "L" ++ decimal k = signedDecimal z := by
    rw [← String.append_right_inj "@", ← h, ← String.append_assoc]
    rfl
  have mem : 'L' ∈ (signedDecimal z).toList := by
    rw [← behind, String.toList_append]
    exact List.mem_append_left _ List.mem_cons_self
  rcases mem_signedDecimal mem with sign | digit
  · exact absurd sign (by decide)
  · exact absurd digit (by decide)

/-- Targets that are written alike are the same, if the same offsets have numbers. -/
theorem reference_inj {l : Listing} {t t' : Int} (numbers : l.labels.number? = labels'.number?)
    (h : l.labels.reference t = labels'.reference t') : t = t' := by
  have at? : labels'.at? = l.labels.at? := by
    funext t
    rw [Labels.at?, Labels.at?, numbers]
  rw [Labels.reference_eq, Labels.reference_eq, at?] at h
  cases number : l.labels.at? t with
  | none =>
    cases number' : l.labels.at? t' with
    | none =>
      rw [number, number'] at h
      exact signedDecimal_inj ((String.append_right_inj "@").mp h)
    | some k' =>
      rw [number, number'] at h
      exact absurd h.symm (label_ne_signedDecimal k' t)
  | some k =>
    cases number' : l.labels.at? t' with
    | none =>
      rw [number, number'] at h
      exact absurd h (label_ne_signedDecimal k t')
    | some k' =>
      rw [number, number'] at h
      have same := decimal_inj ((String.append_right_inj "@L").mp h)
      subst same
      obtain ⟨pc, rfl, hp⟩ := Labels.at?_eq_some_iff.mp number
      obtain ⟨pc', rfl, hp'⟩ := Labels.at?_eq_some_iff.mp number'
      rw [Listing.number?_inj hp hp']

/-- Listings with the same text are made of the same instructions, but for one that is cut
off. -/
theorem forall₂_of_text (h : (Listing.ofCode c).text = (Listing.ofCode c').text) :
    List.Forall₂ (fun i i' ↦ i = i' ∨ i.CutAlike i') (sweep c) (sweep c') := by
  have alike := Instr.forall₂_of_lines (lines_of_text h)
  have numbers := number?_congr (alike.imp fun i i' h ↦ ⟨h.1, Instr.pc_of_words h.2⟩)
  have le (code : Code) : ∀ i ∈ sweep code, i.immediate.length ≤ i.width :=
    fun i mem ↦ length_immediate_le (decode_of_mem_sweepFrom mem)
  have left := (List.forall₂_and_left _ _).mpr ⟨le c, alike⟩
  have both := (List.forall₂_and_left _ _).mpr ⟨le c', left.flip⟩
  refine (both.flip).imp ?_
  rintro i i' ⟨le', le, -, words⟩
  rcases Instr.alike_of_words le le' words with same | cut | ⟨pc, byte, t, t', ht, ht', written⟩
  · exact .inl same
  · exact .inr cut
  · have same := reference_inj numbers written
    exact .inl (Instr.ext_of_target pc byte ht (same ▸ ht'))

/-! ## Codes that are cut short -/

/-- Codes that end in the same relative opcode, of whose displacement no more than one byte is
there, and that are the same up to this opcode. -/
def CutShort (c c' : Code) : Prop :=
  ∃ (before : List UInt8) (op : Opcode) (rest rest' : List UInt8),
    op.isRelative = true ∧ rest.length ≤ 1 ∧ rest'.length ≤ 1 ∧
    c.toList = before ++ op.toByte :: rest ∧ c'.toList = before ++ op.toByte :: rest' ∧
    IsStart c before.length

theorem eq_or_exists_of_forall₂ {α : Type} {R : α → α → Prop} {l l' : List α}
    (h : List.Forall₂ (fun a b ↦ a = b ∨ R a b) l l') :
    l = l' ∨ ∃ s a b t t', l = s ++ a :: t ∧ l' = s ++ b :: t' ∧ R a b := by
  induction h with
  | nil => exact .inl rfl
  | cons head _ ih =>
    rcases head with rfl | here
    · rcases ih with rfl | ⟨s, a, b, t, t', rfl, rfl, there⟩
      · exact .inl rfl
      · exact .inr ⟨_ :: s, a, b, t, t', rfl, rfl, there⟩
    · exact .inr ⟨[], _, _, _, _, rfl, rfl, here⟩

/-- An instruction that is cut off is the last one. -/
theorem toList_of_cut (h : sweep code = is ++ i :: is') (cut : i.isTruncated = true) :
    code.toList = is.flatMap Instr.bytes ++ i.bytes := by
  obtain rfl := eq_nil_of_cut h cut
  rw [← flatMap_bytes_sweep, h, List.flatMap_append, List.flatMap_singleton]

theorem cutShort_of_cutAlike {is₁ is₂ : List Instr} (h : sweep c = is ++ i :: is₁)
    (h' : sweep c' = is ++ i' :: is₂) (alike : i.CutAlike i') : CutShort c c' := by
  obtain ⟨op, opcode, relative⟩ := (Option.any_eq_true _ _).mp alike.relative
  have opcode' : i'.opcode? = some op := by
    rw [← opcode, Instr.opcode?, Instr.opcode?, alike.byte]
  refine ⟨is.flatMap Instr.bytes, op, i.immediate, i'.immediate, relative,
    Instr.length_immediate_of_cut opcode relative alike.cut,
    Instr.length_immediate_of_cut opcode' relative alike.cut', ?_, ?_, i, ?_, ?_⟩
  · rw [toList_of_cut h alike.cut, Opcode.toByte_of_ofByte? opcode, Instr.bytes]
  · rw [toList_of_cut h' alike.cut', Opcode.toByte_of_ofByte? opcode', Instr.bytes]
  · rw [h]
    exact List.mem_append_right _ List.mem_cons_self
  · rw [← (tiles_of_sweepFrom_eq h).1.length_bytes, Nat.zero_add]

/-- Behind complete instructions, a relative opcode with fewer than two bytes is read as one that
is cut off. -/
theorem Tiles.exists_cut {pc : Nat} {op : Opcode} {rest : List UInt8} (tiles : Tiles 0 is pc)
    (bytes : code.toList = is.flatMap Instr.bytes ++ op.toByte :: rest)
    (relative : op.isRelative = true) (short : rest.length ≤ 1) :
    ∃ i, sweep code = is ++ [i] ∧ i.pc = pc ∧ i.byte = op.toByte ∧ i.isRelative = true ∧
      i.isTruncated = true := by
  let last : Instr := .make pc op rest
  have width : last.width = 2 :=
    Instr.width_make.trans (Opcode.immediateLength_of_isRelative relative)
  have length := tiles.length_bytes
  rw [Nat.zero_add] at length
  have behind : code.toList.drop last.pc = last.bytes ++ [] := by
    rw [bytes, List.append_nil]
    exact List.drop_left' length
  have whole : (rest ++ []).take last.width = rest := by
    rw [List.append_nil, width]
    exact List.take_of_length_le (Nat.le_succ_of_le short)
  have fetch : decode code pc = some last := decode_of_drop behind whole
  have past : decode code last.next = none := by
    rw [decode_eq_none_iff, ← Array.length_toList, bytes, List.length_append, length,
      Instr.next, width, List.length_cons]
    change pc + (rest.length + 1) ≤ pc + 1 + 2
    omega
  refine ⟨last, ?_, rfl, rfl, ?_, ?_⟩
  · rw [sweep, tiles.sweepFrom bytes, sweepFrom_of_some fetch, sweepFrom_of_none past]
  · rw [Instr.isRelative_make, relative]
  · rw [Instr.isTruncated, width]
    exact decide_eq_true (Nat.lt_succ_of_le short)

/-- Codes have the same numbers if their instructions stand at the same offsets and have the
same targets. -/
theorem number?_congr_of_targets
    (starts : ∀ pc, IsStart c pc ↔ IsStart c' pc)
    (targets : ∀ t, (∃ i ∈ sweep c, i.target? = some t) ↔ ∃ i ∈ sweep c', i.target? = some t) :
    (Listing.ofCode c).labels.number? = (Listing.ofCode c').labels.number? := by
  have offsets : (Listing.ofCode c).labels.offsets = (Listing.ofCode c').labels.offsets := by
    refine (IndexSet.pairwise_toList _).eq_of_mem_iff (IndexSet.pairwise_toList _) fun pc ↦ ?_
    exact (Listing.mem_offsets c).trans
      ((and_congr (starts pc) (targets pc)).trans (Listing.mem_offsets c').symm)
  funext pc
  apply Option.ext
  intro k
  rw [Listing.number?_eq_some_iff, Listing.number?_eq_some_iff, offsets]

/-- What is there of a displacement that is cut off does not show. -/
theorem text_eq_of_cutAlike (h : sweep c = is ++ [i]) (h' : sweep c' = is ++ [i'])
    (alike : i.CutAlike i') : (Listing.ofCode c).text = (Listing.ofCode c').text := by
  have relative' := (Instr.isRelative_congr alike.byte).symm.trans alike.relative
  have numbers : (Listing.ofCode c).labels.number? = (Listing.ofCode c').labels.number? := by
    apply number?_congr_of_targets
    · intro pc
      simp [IsStart, h, h', or_and_right, exists_or, alike.pc]
    · intro t
      simp [h, h', or_and_right, exists_or, Instr.target?_of_cut alike.relative alike.cut,
        Instr.target?_of_cut relative' alike.cut']
  rw [Listing.text_ofCode, Listing.text_ofCode, h, h', List.flatMap_append, List.flatMap_append,
    List.flatMap_singleton, List.flatMap_singleton, alike.lines_eq, Instr.lines_congr numbers i',
    List.flatMap_congr fun i _ ↦ Instr.lines_congr numbers i]

theorem CutShort.text_eq (h : CutShort c c') :
    (Listing.ofCode c).text = (Listing.ofCode c').text := by
  obtain ⟨before, op, rest, rest', relative, short, short', hc, hc', start⟩ := h
  obtain ⟨is, tiles, split⟩ := start.exists_tiles
  obtain rfl : before = is.flatMap Instr.bytes := by
    have bytes := flatMap_bytes_sweep c
    rw [split, List.flatMap_append, hc] at bytes
    have length := tiles.length_bytes
    rw [Nat.zero_add] at length
    exact (List.append_inj_left bytes length).symm
  obtain ⟨i, sweep_c, pc, byte, carries, cut⟩ := tiles.exists_cut hc relative short
  obtain ⟨i', sweep_c', pc', byte', -, cut'⟩ := tiles.exists_cut hc' relative short'
  exact text_eq_of_cutAlike sweep_c sweep_c'
    ⟨pc.trans pc'.symm, byte.trans byte'.symm, carries, cut, cut'⟩

/-- The text of a listing tells the code, but for the only byte of a displacement that is cut
off. -/
theorem text_eq_text_iff :
    (Listing.ofCode c).text = (Listing.ofCode c').text ↔ c = c' ∨ CutShort c c' := by
  constructor
  · intro h
    rcases eq_or_exists_of_forall₂ (forall₂_of_text h) with
      same | ⟨is, i, i', is₁, is₂, hc, hc', alike⟩
    · have bytes := congrArg (List.flatMap Instr.bytes) same
      rw [flatMap_bytes_sweep, flatMap_bytes_sweep] at bytes
      exact .inl (Array.toList_inj.mp bytes)
    · exact .inr (cutShort_of_cutAlike hc hc' alike)
  · rintro (rfl | cut)
    · rfl
    · exact cut.text_eq

/-- A jump without its displacement, and with the first byte of it. -/
example : (Listing.ofCode #[0x5C]).text = (Listing.ofCode #[0x5C, 0x07]).text := by
  decide +kernel

end StackFlow
