import StackFlow.Proofs.Filling
import StackFlow.Proofs.Numerals
import StackFlow.Proofs.Tiling

/-!
# Assembled instructions are read as they were written

A program for a builder is a list of steps, of which some emit an instruction
and others make or place a label.  Where the code can be finished, its sweep
meets one instruction for each emitting step, at the offset at which the builder
stood, complete and as the step has it (`sweep_of_build`).

The width that a step writes and the width that the sweep reads come from
different definitions.  That they agree is shown for each step on its own
(`Step.exists_instr`), and a program only lines them up (`finish_foldl`).
-/

namespace StackFlow

variable {code : Code} {i : Instr}

/-- The bytes are the fewest that stand for a number, the most significant first. -/
structure FewestBytes (n : Nat) (bytes : List UInt8) : Prop where
  value : ofDigits 256 (bytes.map UInt8.toNat) = n
  nonempty : bytes ≠ []
  fewest : ∀ bytes' : List UInt8, bytes' ≠ [] → ofDigits 256 (bytes'.map UInt8.toNat) = n →
    bytes.length ≤ bytes'.length

theorem fewestBytes_digits (n : Nat) : FewestBytes n ((digits 256 n).map UInt8.ofNat) where
  value := by
    have back : ((digits 256 n).map UInt8.ofNat).map UInt8.toNat = digits 256 n := by
      rw [List.map_map]
      apply (List.map_congr_left ?_).trans (List.map_id _)
      intro d hd
      exact UInt8.toNat_ofNat_of_lt (lt_of_mem_digits (by decide) hd)
    rw [back, ofDigits_digits]
  nonempty := fun h ↦ digits_ne_nil 256 n (List.map_eq_nil_iff.mp h)
  fewest := by
    intro bytes' nonempty value
    have lt : n < 256 ^ bytes'.length := by
      rw [← value, ← List.length_map (f := UInt8.toNat)]
      apply ofDigits_lt
      intro d hd
      obtain ⟨byte, -, rfl⟩ := List.mem_map.mp hd
      exact byte.toNat_lt
    rw [List.length_map]
    exact length_digits_le (List.length_pos_of_ne_nil nonempty) lt

namespace Builder

/-- A step of a program for a builder. What appends one certain opcode is a case of `op`. -/
inductive Step where
  | label
  | place (l : Label)
  | op (o : Opcode)
  | push (data : List UInt8)
  | pushNumber (n : UInt64)
  | jump (l : Label)
  | jumpIf (l : Label)
  | call (l : Label)
  | relative (o : Opcode) (d : Int) (relative : o.isRelative = true) (fits : Displacement.Fits d)
deriving DecidableEq

namespace Step

/-- Takes a step. To place a label that the builder does not have changes nothing. -/
def apply (b : Builder) : Step → Builder
  | label => b.label.2
  | place l => (b.place l).toOption.getD b
  | op o => b.op o
  | push data => b.push data
  | pushNumber n => b.pushNumber n.toNat
  | jump l => b.jump l
  | jumpIf l => b.jumpIf l
  | call l => b.call l
  | relative o d _ _ => (b.relative o d).toOption.getD b

/-- Whether the step appends an instruction. -/
def emits : Step → Bool
  | label | place _ => false
  | _ => true

/-- The instruction is what the step writes, when labels stand where `placed` says. -/
def Writes (placed : Label → Nat → Prop) (i : Instr) : Step → Prop
  | label | place _ => False
  | op o => i.opcode? = some o ∧ i.immediate = List.replicate o.immediateLength 0
  | push data =>
    (∃ k : Fin 32, i.opcode? = some (.push k) ∧ i.immediate.length = k + 1) ∧
      (data = [] → i.immediate = [0]) ∧
      (data ≠ [] → i.immediate <:+ data ∧ i.immediate.length = min 32 data.length)
  | pushNumber n =>
    (∃ k : Fin 32, i.opcode? = some (.push k) ∧ i.immediate.length = k + 1) ∧
      FewestBytes n.toNat i.immediate
  | jump l => i.opcode? = some .rjump ∧ ∃ t : Nat, placed l t ∧ i.target? = some (t : Int)
  | jumpIf l => i.opcode? = some .rjumpi ∧ ∃ t : Nat, placed l t ∧ i.target? = some (t : Int)
  | call l => i.opcode? = some .rjumpsub ∧ ∃ t : Nat, placed l t ∧ i.target? = some (t : Int)
  | relative o d _ _ => i.opcode? = some o ∧ i.displacement? = some d

end Step

/-- The builder at the end of a program. -/
def build (steps : List Step) : Builder := steps.foldl Step.apply {}

/-- The emitting steps of a program, each with the offset at which the builder stands before it. -/
def emitted (b : Builder) : List Step → List (Nat × Step)
  | [] => []
  | s :: steps =>
    if s.emits then (b.pc, s) :: emitted (s.apply b) steps else emitted (s.apply b) steps

/-- The offset at which a program places a label for the last time. -/
def LastPlaced (steps : List Step) (l : Label) (t : Nat) : Prop :=
  ∃ before after, steps = before ++ .place l :: after ∧ .place l ∉ after ∧ t = (build before).pc

/-- The instruction that an emitting step has become. -/
structure Emitted (placed : Label → Nat → Prop) (e : Nat × Step) (i : Instr) : Prop where
  pc : i.pc = e.1
  complete : i.isTruncated = false
  writes : e.2.Writes placed i

variable {b : Builder} {s : Step} {steps : List Step} {labels : Array (Option Nat)}
  {placed placed' : Label → Nat → Prop}

theorem Step.Writes.imp (h : s.Writes placed i) (le : ∀ l t, placed l t → placed' l t) :
    s.Writes placed' i := by
  cases s with
  | jump l | jumpIf l | call l =>
    obtain ⟨opcode, t, here, target⟩ := h
    exact ⟨opcode, t, le l t here, target⟩
  | _ => exact h

theorem Emitted.imp {e : Nat × Step} (h : Emitted placed e i)
    (le : ∀ l t, placed l t → placed' l t) : Emitted placed' e i :=
  ⟨h.pc, h.complete, h.writes.imp le⟩

/-! ## What a step appends -/

/-- A push appends its opcode and as many bytes as the opcode declares. -/
theorem push_eq_raw (b : Builder) (data : List UInt8) :
    ∃ (k : Fin 32) (immediate : List UInt8),
      b.push data = b.raw ((Opcode.push k).toByte :: immediate) ∧
      immediate.length = (Opcode.push k).immediateLength ∧
      (data = [] → immediate = [0]) ∧
      (data ≠ [] → immediate <:+ data ∧ immediate.length = min 32 data.length) := by
  let immediate := if data.isEmpty then [0] else data.drop (data.length - 32)
  have empty : data = [] → immediate = [0] := by
    rintro rfl
    rfl
  have nonempty : data ≠ [] →
      immediate <:+ data ∧ immediate.length = min 32 data.length := by
    intro ne
    have eq : immediate = data.drop (data.length - 32) :=
      if_neg (fun h ↦ ne (List.isEmpty_iff.mp h))
    rw [eq, List.length_drop]
    exact ⟨List.drop_suffix _ _, by omega⟩
  have bounds : 1 ≤ immediate.length ∧ immediate.length ≤ 32 := by
    by_cases h : data = []
    · rw [empty h]
      decide
    · have := List.length_pos_of_ne_nil h
      have := (nonempty h).2
      omega
  refine ⟨⟨immediate.length - 1, by omega⟩, immediate, ?_, ?_, empty, nonempty⟩
  · have opcode : Opcode.pushOfLength? immediate.length = some (.push ⟨_, _⟩) := dif_pos bounds
    simp only [push, opcode, immediate]
  · change immediate.length = immediate.length - 1 + 1
    omega

/-- A push of a number appends just its fewest bytes. -/
theorem pushNumber_eq_raw (b : Builder) (n : UInt64) :
    ∃ k : Fin 32, b.pushNumber n.toNat =
        b.raw ((Opcode.push k).toByte :: (digits 256 n.toNat).map UInt8.ofNat) ∧
      ((digits 256 n.toNat).map UInt8.ofNat).length = (Opcode.push k).immediateLength := by
  obtain ⟨k, immediate, raw, length, -, nonempty⟩ :=
    push_eq_raw b ((digits 256 n.toNat).map UInt8.ofNat)
  obtain ⟨suffix, short⟩ := nonempty (fewestBytes_digits n.toNat).nonempty
  have few : (digits 256 n.toNat).length ≤ 8 := length_digits_le (by decide) n.toNat_lt
  have whole : immediate = (digits 256 n.toNat).map UInt8.ofNat := by
    apply suffix.eq_of_length
    rw [short, List.length_map]
    omega
  rw [whole] at raw length
  exact ⟨k, raw, length⟩

theorem relative_eq_raw {o : Opcode} (b : Builder) (d : Int) (h : o.isRelative = true) :
    (b.relative o d).toOption.getD b =
      b.raw [o.toByte, Displacement.high d, Displacement.low d] := by
  rw [relative, if_pos h]
  rfl

/-- Behind an instruction that is appended as its bytes stands the builder. -/
theorem next_make_eq_pc_raw {o : Opcode} {immediate : List UInt8} (b : Builder)
    (length : immediate.length = o.immediateLength) :
    (Instr.make b.pc o immediate).next = (b.raw (o.toByte :: immediate)).pc := by
  rw [Instr.next, Instr.width_make, pc_raw, List.length_cons, length]
  change b.pc + 1 + _ = _
  omega

/-- An instruction has been appended to a builder, as far as finished code can tell. -/
structure Appended (labels : Array (Option Nat)) (b b' : Builder) (code : Code) (i : Instr) :
    Prop where
  pc : i.pc = b.pc
  next : i.next = b'.pc
  complete : i.immediate.length = i.width
  finish : ∃ code₀, (b.withLabels labels).finish = .ok code₀ ∧ code = code₀ ++ i.bytes

theorem appended_raw {o : Opcode} {immediate : List UInt8} (inside : b.Inside)
    (length : immediate.length = o.immediateLength)
    (h : ((b.raw (o.toByte :: immediate)).withLabels labels).finish = .ok code) :
    Appended labels b (b.raw (o.toByte :: immediate)) code (.make b.pc o immediate) where
  pc := rfl
  next := next_make_eq_pc_raw b length
  complete := length.trans Instr.width_make.symm
  finish := by
    have raw := finish_raw (b := b.withLabels labels) inside (o.toByte :: immediate)
    have finish := raw.symm.trans h
    obtain ⟨code₀, before, rfl⟩ := map_eq_ok.mp finish
    exact ⟨code₀, before, rfl⟩

theorem appended_toLabel {o : Opcode} {l : Label} (inside : b.Inside)
    (relative : o.isRelative = true)
    (h : ((b.toLabel o l).withLabels labels).finish = .ok code) :
    ∃ i, Appended labels b (b.toLabel o l) code i ∧ i.opcode? = some o ∧
      ∃ t : Nat, labels[l.number]?.join = some t ∧ i.target? = some (t : Int) := by
  have finish := (finish_toLabel (b := b.withLabels labels) inside o l).symm.trans h
  obtain ⟨code₀, before, finish⟩ := bind_eq_ok.mp finish
  obtain ⟨d, displacement, rfl⟩ := map_eq_ok.mp finish
  obtain ⟨t, here, rfl, fits⟩ := displacement_eq_ok.mp displacement
  have length := Opcode.immediateLength_of_isRelative relative
  refine ⟨.make b.pc o [Displacement.high _, Displacement.low _],
    ⟨rfl, ?_, ?_, code₀, before, rfl⟩, Instr.opcode?_make, t, here, ?_⟩
  · rw [Instr.next, Instr.width_make, length, pc_toLabel]
    rfl
  · rw [Instr.width_make, length]
    rfl
  · rw [Instr.target?, Instr.displacement?_make relative, Displacement.ofBytes_high_low fits]
    change some ((b.pc : Int) + (t - b.pc)) = _
    congr 1
    omega

/-- What a step emits is an instruction of just the width that the sweep expects. -/
theorem Step.exists_instr (inside : b.Inside) (emits : s.emits = true)
    (h : ((s.apply b).withLabels labels).finish = .ok code) :
    ∃ i, Appended labels b (s.apply b) code i ∧
      s.Writes (fun l t ↦ labels[l.number]?.join = some t) i := by
  cases s with
  | label | place l => cases emits
  | op o =>
    have appended := appended_raw inside List.length_replicate h
    exact ⟨_, appended, Instr.opcode?_make, rfl⟩
  | push data =>
    obtain ⟨k, immediate, raw, length, empty, nonempty⟩ := push_eq_raw b data
    rw [apply, raw] at h ⊢
    exact ⟨_, appended_raw inside length h, ⟨k, Instr.opcode?_make, length⟩, empty, nonempty⟩
  | pushNumber n =>
    obtain ⟨k, raw, length⟩ := pushNumber_eq_raw b n
    rw [apply, raw] at h ⊢
    exact ⟨_, appended_raw inside length h, ⟨k, Instr.opcode?_make, length⟩,
      fewestBytes_digits n.toNat⟩
  | jump l => exact appended_toLabel inside rfl h
  | jumpIf l => exact appended_toLabel inside rfl h
  | call l => exact appended_toLabel inside rfl h
  | relative o d relative fits =>
    rw [apply, relative_eq_raw b d relative] at h ⊢
    refine ⟨_, appended_raw inside (Opcode.immediateLength_of_isRelative relative).symm h,
      Instr.opcode?_make, ?_⟩
    rw [Instr.displacement?_make relative, Displacement.ofBytes_high_low fits]

/-- A step that emits nothing changes no more than the labels. -/
theorem Step.withLabels_apply (b : Builder) (labels : Array (Option Nat))
    (silent : s.emits = false) : (s.apply b).withLabels labels = b.withLabels labels := by
  cases s with
  | label => rfl
  | place l =>
    rw [apply, Builder.place]
    split <;> rfl
  | _ => cases silent

/-- A step that emits an instruction appends bytes, and perhaps leaves room among them. -/
theorem Step.apply_of_emits (b : Builder) (emits : s.emits = true) :
    (∃ bytes, s.apply b = b.raw bytes) ∨ ∃ o l, s.apply b = b.toLabel o l := by
  cases s with
  | label | place l => cases emits
  | op o => exact .inl ⟨_, rfl⟩
  | push data =>
    obtain ⟨k, immediate, raw, -⟩ := push_eq_raw b data
    exact .inl ⟨_, raw⟩
  | pushNumber n =>
    obtain ⟨k, raw, -⟩ := pushNumber_eq_raw b n
    exact .inl ⟨_, raw⟩
  | jump l | jumpIf l | call l => exact .inr ⟨_, l, rfl⟩
  | relative o d relative fits => exact .inl ⟨_, relative_eq_raw b d relative⟩

theorem Step.labels_apply (b : Builder) (emits : s.emits = true) :
    (s.apply b).labels = b.labels := by
  rcases Step.apply_of_emits b emits with ⟨bytes, eq⟩ | ⟨o, l, eq⟩
  · rw [eq]
    rfl
  · rw [eq]
    rfl

theorem Inside.apply (h : b.Inside) (s : Step) : (s.apply b).Inside := by
  cases emits : s.emits with
  | false =>
    have same := Step.withLabels_apply b #[] emits
    have inside : (b.withLabels #[]).Inside := h
    rwa [← same] at inside
  | true =>
    rcases Step.apply_of_emits b emits with ⟨bytes, eq⟩ | ⟨o, l, eq⟩
    · rw [eq]
      exact h.raw bytes
    · rw [eq]
      exact h.toLabel o l

theorem inside_build (steps : List Step) : (build steps).Inside := by
  induction steps using List.reverseRecOn with
  | nil => exact inside_empty
  | append_singleton steps s ih =>
    rw [build, List.foldl_concat]
    exact ih.apply s

/-! ## What a program appends -/

/-- A program appends its instructions one behind the other. -/
theorem finish_foldl (inside : b.Inside)
    (h : ((steps.foldl Step.apply b).withLabels labels).finish = .ok code) :
    ∃ code₀ is, (b.withLabels labels).finish = .ok code₀ ∧
      code.toList = code₀.toList ++ is.flatMap Instr.bytes ∧
      Tiles b.pc is (steps.foldl Step.apply b).pc ∧
      List.Forall₂ (Emitted fun l t ↦ labels[l.number]?.join = some t) (emitted b steps) is := by
  induction steps generalizing b with
  | nil => exact ⟨code, [], h, (List.append_nil _).symm, .nil _, .nil⟩
  | cons s steps ih =>
    obtain ⟨code₁, is, finish, bytes, tiles, emitted⟩ := ih (inside.apply s) h
    cases emits : s.emits with
    | false =>
      have same := Step.withLabels_apply b labels emits
      have here : (s.apply b).pc = b.pc := (congrArg Builder.pc same :)
      rw [same] at finish
      refine ⟨code₁, is, finish, bytes, here ▸ tiles, ?_⟩
      rwa [Builder.emitted, if_neg (by rw [emits]; decide)]
    | true =>
      obtain ⟨i, appended, writes⟩ := s.exists_instr inside emits finish
      obtain ⟨code₀, before, rfl⟩ := appended.finish
      refine ⟨code₀, i :: is, before, ?_, ?_, ?_⟩
      · rw [bytes, Array.toList_appendList, List.append_assoc, List.flatMap_cons]
      · rw [← appended.next] at tiles
        exact appended.pc ▸ .cons appended.complete tiles
      · rw [Builder.emitted, if_pos emits]
        refine .cons ⟨appended.pc, ?_, writes⟩ emitted
        rw [Instr.isTruncated, appended.complete]
        exact decide_eq_false (Nat.lt_irrefl _)

theorem finish_build (h : ((build steps).withLabels labels).finish = .ok code) :
    ∃ is, code.toList = is.flatMap Instr.bytes ∧ Tiles 0 is (build steps).pc ∧
      List.Forall₂ (Emitted fun l t ↦ labels[l.number]?.join = some t) (emitted {} steps) is := by
  obtain ⟨code₀, is, finish, bytes, tiles, emitted⟩ := finish_foldl inside_empty h
  cases finish
  exact ⟨is, bytes, tiles, emitted⟩

/-- After a label has been placed, it stands at the current offset if the builder has it, and the
others where they stood. -/
theorem join_place_iff {l m : Label} {t : Nat} :
    ((Step.place m).apply b).labels[l.number]?.join = some t ↔
      m = l ∧ l.number < b.labels.size ∧ t = b.pc ∨
      m ≠ l ∧ b.labels[l.number]?.join = some t := by
  by_cases same : m = l
  · subst same
    rw [Step.apply, place]
    split
    · next lt =>
      change (b.labels.set! m.number (some b.pc))[m.number]?.join = some t ↔ _
      simp only [Array.set!_eq_setIfInBounds, Array.getElem?_setIfInBounds_self, lt]
      simp [eq_comm]
    · next past =>
      change b.labels[m.number]?.join = some t ↔ _
      simp [past]
  · have ne : m.number ≠ l.number := fun eq ↦ same (congrArg Label.mk eq)
    have old : ((Step.place m).apply b).labels[l.number]?.join = b.labels[l.number]?.join := by
      rw [Step.apply, place]
      split
      · change (b.labels.set! m.number (some b.pc))[l.number]?.join = _
        rw [Array.set!_eq_setIfInBounds, Array.getElem?_setIfInBounds_ne ne]
      · rfl
    rw [old]
    simp [same]

/-- A label stands where it has been placed last. -/
theorem lastPlaced_of_build {l : Label} {t : Nat}
    (h : (build steps).labels[l.number]?.join = some t) : LastPlaced steps l t := by
  induction steps using List.reverseRecOn generalizing t with
  | nil => cases h
  | append_singleton steps s ih =>
    have later (ne : s ≠ .place l) (old : (build steps).labels[l.number]?.join = some t) :
        LastPlaced (steps ++ [s]) l t := by
      obtain ⟨before, after, rfl, last, here⟩ := ih old
      refine ⟨before, after ++ [s], List.append_assoc _ _ _, ?_, here⟩
      intro mem
      rcases List.mem_append.mp mem with mem | mem
      · exact last mem
      · exact ne (List.mem_singleton.mp mem).symm
    rw [build, List.foldl_concat] at h
    cases emits : s.emits with
    | true =>
      rw [Step.labels_apply _ emits] at h
      refine later ?_ h
      rintro rfl
      cases emits
    | false =>
      cases s with
      | label =>
        refine later (fun eq ↦ nomatch eq) ?_
        change ((build steps).labels.push none)[l.number]?.join = some t at h
        rw [Array.getElem?_push] at h
        split at h
        · cases h
        · exact h
      | place m =>
        rcases join_place_iff.mp h with ⟨rfl, -, here⟩ | ⟨ne, old⟩
        · exact ⟨steps, [], rfl, List.not_mem_nil, here⟩
        · exact later (fun eq ↦ ne (Step.place.inj eq)) old
      | _ => cases emits

/-- What the sweep meets in assembled code is what its program emits. -/
theorem sweep_of_build (h : (build steps).finish = .ok code) :
    List.Forall₂ (Emitted (LastPlaced steps)) (emitted {} steps) (sweep code) ∧
      ∀ l t, LastPlaced steps l t →
        ((Starts.ofCode code).contains t = true ↔ t ≠ code.size) := by
  constructor
  · have own : ((build steps).withLabels (build steps).labels).finish = .ok code := h
    obtain ⟨is, bytes, tiles, emitted⟩ := finish_build own
    have bytes : code.toList.drop 0 = is.flatMap Instr.bytes ++ [] := by
      rw [List.drop_zero, bytes, List.append_nil]
    have past : decode code (build steps).pc = none :=
      decode_eq_none_iff.mpr (size_of_finish h).le
    rw [sweep, tiles.sweepFrom bytes, sweepFrom_of_none past, List.append_nil]
    exact emitted.imp fun e i h ↦ h.imp fun l t ↦ lastPlaced_of_build
  · rintro l t ⟨before, after, rfl, -, rfl⟩
    have whole : build (before ++ .place l :: after) =
        (Step.place l :: after).foldl Step.apply (build before) := List.foldl_append
    rw [whole, ← withLabels_self (List.foldl _ _ _)] at h
    obtain ⟨code₁, is, finish, behind, -⟩ := finish_foldl (inside_build before) h
    obtain ⟨is₁, bytes, tiles, -⟩ := finish_build finish
    rw [bytes] at behind
    rw [Starts.contains_natCast]
    exact tiles.isStart_iff behind

/-- Two labels, the one jumped back to and the other jumped ahead to. -/
def forthAndBack : List Step :=
  [.label, .label, .place ⟨0⟩, .op .jumpdest, .jump ⟨1⟩, .jump ⟨0⟩, .place ⟨1⟩, .op .stop]

/-- 0: JUMPDEST, 1: RJUMP to 7, 4: RJUMP to 0, 7: STOP. -/
def forthAndBackCode : Code := #[0x5B, 0x5C, 0x00, 0x06, 0x5C, 0xFF, 0xFC, 0x00]

theorem sweep_of_build_forthAndBack :
    (build forthAndBack).finish = .ok forthAndBackCode ∧
    List.Forall₂ (Emitted (LastPlaced forthAndBack)) (emitted {} forthAndBack)
      (sweep forthAndBackCode) ∧
    (Starts.ofCode forthAndBackCode).contains (7 : Nat) = true := by
  have finish : (build forthAndBack).finish = .ok forthAndBackCode := by decide
  have last : LastPlaced forthAndBack ⟨1⟩ 7 :=
    ⟨forthAndBack.take 6, [.op .stop], rfl, by decide, by decide⟩
  obtain ⟨emitted, starts⟩ := sweep_of_build finish
  exact ⟨finish, emitted, (starts ⟨1⟩ 7 last).mpr (by decide)⟩

end Builder

end StackFlow
