import StackFlow.Builder
import StackFlow.Proofs.Steps

/-!
# Displacements are filled in where they stand

A builder leaves room for each displacement to a label and fills it in when the
code is finished.  As long as the room lies inside the bytes (`Builder.Inside`),
finishing goes along with the building: bytes that are appended stay as they are
(`finish_raw`), and an instruction with a label comes out with the displacement
to it (`finish_toLabel`).  What counts is where the labels stand in the end, so
the lemmas speak of builders with other placements than their own
(`withLabels`).
-/

namespace StackFlow

theorem size_append_bytes (code : Code) (bytes : List UInt8) :
    (code ++ bytes).size = code.size + bytes.length := by
  rw [← Array.length_toList, Array.toList_appendList, List.length_append, Array.length_toList]

theorem toArray_append_bytes (l bytes : List UInt8) : l.toArray ++ bytes = (l ++ bytes).toArray :=
  Array.toList_inj.mp (by rw [Array.toList_appendList])

namespace Builder

variable {b : Builder} {code : Code}

/-- The room for each displacement lies inside the bytes. -/
def Inside (b : Builder) : Prop := ∀ f ∈ b.fixups, f.base + 2 < b.bytes.size

/-- The same bytes, with labels that stand elsewhere. -/
def withLabels (b : Builder) (labels : Array (Option Nat)) : Builder := { b with labels }

theorem withLabels_self (b : Builder) : b.withLabels b.labels = b := rfl

@[simp] theorem pc_raw (b : Builder) (bytes : List UInt8) :
    (b.raw bytes).pc = b.pc + bytes.length :=
  size_append_bytes b.bytes bytes

@[simp] theorem pc_toLabel (b : Builder) (o : Opcode) (l : Label) :
    (b.toLabel o l).pc = b.pc + 3 :=
  size_append_bytes b.bytes _

theorem inside_empty : Inside {} := fun f h ↦ absurd h (Array.not_mem_empty f)

theorem Inside.raw (h : b.Inside) (bytes : List UInt8) : (b.raw bytes).Inside := by
  intro f hf
  have inside := h f hf
  have size := size_append_bytes b.bytes bytes
  change f.base + 2 < (b.bytes ++ bytes).size
  omega

theorem Inside.toLabel (h : b.Inside) (o : Opcode) (l : Label) : (b.toLabel o l).Inside := by
  intro f hf
  have size := size_append_bytes b.bytes [o.toByte, 0, 0]
  rw [List.length_cons, List.length_cons, List.length_singleton] at size
  change f.base + 2 < (b.bytes ++ [o.toByte, 0, 0]).size
  rcases Array.mem_push.mp hf with hf | rfl
  · have := h f hf
    omega
  · change b.bytes.size + 2 < _
    omega

/-! ## Displacements -/

/-- The displacement to a label leads from the instruction to where the label stands. -/
theorem displacement_eq_ok {f : Fixup} {d : Int} :
    b.displacement f = .ok d ↔ ∃ t : Nat,
      b.labels[f.label.number]?.join = some t ∧ d = t - f.base ∧ Displacement.Fits d := by
  unfold displacement
  split
  · next h =>
    rw [h]
    simp
  · next t h =>
    rw [h]
    dsimp only
    split
    · next fits =>
      constructor
      · intro ok
        cases ok
        exact ⟨t, rfl, rfl, fits⟩
      · rintro ⟨_, ht, rfl, -⟩
        cases ht
        rfl
    · next unfit =>
      constructor
      · intro ok
        cases ok
      · rintro ⟨_, ht, rfl, fits⟩
        cases ht
        exact absurd fits unfit

@[simp] theorem size_patch (code : Code) (base : Nat) (d : Int) :
    (patch code base d).size = code.size := by
  simp [patch]

theorem patch_append {base : Nat} (h : base + 2 < code.size) (bytes : List UInt8) (d : Int) :
    patch (code ++ bytes) base d = patch code base d ++ bytes := by
  have h1 : base + 1 < code.toList.length := Nat.lt_of_succ_lt h
  have h2 : base + 2 < (code.toList.set (base + 1) (Displacement.high d)).length := by
    rwa [List.length_set]
  apply Array.toList_inj.mp
  simp only [patch, Array.set!_eq_setIfInBounds, Array.toList_setIfInBounds,
    Array.toList_appendList]
  rw [List.set_append_left _ _ h1, List.set_append_left _ _ h2]

/-- The room behind an opcode byte is filled. -/
theorem patch_behind (code : Code) (byte : UInt8) (d : Int) :
    patch (code ++ [byte, 0, 0]) code.size d =
      code ++ [byte, Displacement.high d, Displacement.low d] := by
  apply Array.toList_inj.mp
  have size : code.size = code.toList.length := rfl
  simp only [patch, Array.set!_eq_setIfInBounds, Array.toList_setIfInBounds,
    Array.toList_appendList, size]
  rw [List.set_append_right _ _ (by omega), List.set_append_right _ _ (by omega)]
  simp

/-! ## Finishing -/

/-- Fills in displacements one after the other. -/
def fill (b : Builder) (fs : List Fixup) (code : Code) : Except BuildError Code :=
  fs.foldlM (fun code f ↦ return patch code f.base (← b.displacement f)) code

theorem finish_eq_fill (b : Builder) : b.finish = b.fill b.fixups.toList b.bytes := rfl

theorem fill_cons (b : Builder) (f : Fixup) (fs : List Fixup) (code : Code) :
    b.fill (f :: fs) code =
      b.displacement f >>= fun d ↦ b.fill fs (patch code f.base d) := by
  rw [fill, List.foldlM_cons]
  cases b.displacement f <;> rfl

theorem fill_append {fs : List Fixup} (h : ∀ f ∈ fs, f.base + 2 < code.size)
    (bytes : List UInt8) :
    b.fill fs (code ++ bytes) = (b.fill fs code).map fun code : Code ↦ code ++ bytes := by
  induction fs generalizing code with
  | nil => rfl
  | cons f fs ih =>
    rw [fill_cons, fill_cons]
    cases b.displacement f with
    | error e => rfl
    | ok d =>
      have rest : ∀ g ∈ fs, g.base + 2 < (patch code f.base d).size := by
        intro g hg
        rw [size_patch]
        exact h g (List.mem_cons_of_mem f hg)
      change b.fill fs (patch (code ++ bytes) f.base d) =
        (b.fill fs (patch code f.base d)).map fun code : Code ↦ code ++ bytes
      rw [patch_append (h f List.mem_cons_self), ih rest]

theorem size_of_fill {fs : List Fixup} {code' : Code} (h : b.fill fs code = .ok code') :
    code'.size = code.size := by
  induction fs generalizing code with
  | nil =>
    cases h
    rfl
  | cons f fs ih =>
    rw [fill_cons] at h
    obtain ⟨d, -, h⟩ := bind_eq_ok.mp h
    rw [ih h, size_patch]

/-- The finished code is as long as what was built. -/
theorem size_of_finish (h : b.finish = .ok code) : code.size = b.pc := size_of_fill h

/-- Bytes that are appended stay as they are. -/
theorem finish_raw (h : b.Inside) (bytes : List UInt8) :
    (b.raw bytes).finish = b.finish.map fun code : Code ↦ code ++ bytes :=
  fill_append (fun f hf ↦ h f (Array.mem_toList_iff.mp hf)) bytes

/-- An instruction with a label is appended with the displacement to it. -/
theorem finish_toLabel (h : b.Inside) (o : Opcode) (l : Label) :
    (b.toLabel o l).finish = b.finish >>= fun code ↦
      (b.displacement ⟨b.pc, l⟩).map fun d ↦
        code ++ [o.toByte, Displacement.high d, Displacement.low d] := by
  have fixups : (b.toLabel o l).fixups.toList = b.fixups.toList ++ [⟨b.pc, l⟩] :=
    Array.toList_push
  have old : (b.toLabel o l).fill b.fixups.toList (b.bytes ++ [o.toByte, 0, 0]) =
      b.finish.map fun code : Code ↦ code ++ [o.toByte, 0, 0] :=
    fill_append (fun f hf ↦ h f (Array.mem_toList_iff.mp hf)) _
  rw [finish_eq_fill, fixups, fill, List.foldlM_append]
  change (b.toLabel o l).fill b.fixups.toList (b.bytes ++ [o.toByte, 0, 0]) >>= _ = _
  rw [old]
  cases finish : b.finish with
  | error e => rfl
  | ok code =>
    change (b.toLabel o l).fill [⟨b.pc, l⟩] (code ++ [o.toByte, 0, 0]) =
      (b.displacement ⟨b.pc, l⟩).map _
    rw [fill_cons]
    change b.displacement ⟨b.pc, l⟩ >>= _ = _
    cases b.displacement ⟨b.pc, l⟩ with
    | error e => rfl
    | ok d =>
      change Except.ok (patch (code ++ [o.toByte, 0, 0]) b.pc d) = Except.ok _
      rw [← size_of_finish finish, patch_behind]

end Builder

end StackFlow
