import StackFlow.Packed.Builder
import StackFlow.Proofs.Resolution

/-!
# A builder in words builds the same

As long as its offsets and labels are words, a builder in words stands for the
builder on numbers at every act of a program (`unpack_act`), and so at its end
(`unpack_assembled`).  Neither the runs in which it keeps its code nor the words
show in what it finishes with.
-/

namespace StackFlow.Packed.Builder

open StackFlow.Builder (Act Step assemble)

/-- Takes a step. -/
def take (b : Builder) : Step → Builder
  | .label => b.label.2
  | .place l => (b.place (UInt32.ofNat l.number)).toOption.getD b
  | .op o => b.op o
  | .push data => b.push data
  | .pushNumber n => b.pushNumber n.toNat
  | .jump l => b.jump (UInt32.ofNat l.number)
  | .jumpIf l => b.jumpIf (UInt32.ofNat l.number)
  | .call l => b.call (UInt32.ofNat l.number)
  | .relative o d _ _ => (b.relative o d).toOption.getD b

/-- Does what an act says. -/
def act (b : Builder) : Act → Builder
  | .step s => b.take s
  | .raw bytes => b.append bytes

/-- The builder at the end of a program. -/
def assembled (acts : List Act) : Builder := acts.foldl act empty

/-- The labels that a step names are words. -/
def NamesWords : Act → Prop
  | .step (.place l) | .step (.jump l) | .step (.jumpIf l) | .step (.call l) =>
    l.number < UInt32.size
  | _ => True

variable {b : Builder} {a : Act} {acts : List Act}

theorem getD_map_unpack {ε : Type} (x : Except ε Builder) (b : Builder) :
    (x.toOption.getD b).unpack = (x.map unpack).toOption.getD b.unpack := by
  cases x <;> rfl

/-- An act in words comes to what the act comes to. -/
theorem unpack_act (short : b.size ≤ lastNumber) (names : NamesWords a) :
    (b.act a).unpack = a.apply b.unpack := by
  have word {l : Label} (lt : l.number < UInt32.size) : (UInt32.ofNat l.number).toNat = l.number :=
    UInt32.toNat_ofNat_of_lt' lt
  cases a with
  | raw bytes => exact unpack_append b bytes
  | step s =>
    cases s with
    | label => exact unpack_label b
    | place l =>
      have place := unpack_place short (UInt32.ofNat l.number)
      rw [word names] at place
      change ((b.place _).toOption.getD b).unpack = _
      rw [getD_map_unpack, place]
      rfl
    | op o => exact unpack_op b o
    | push data => exact unpack_push b data
    | pushNumber n => exact unpack_pushNumber b n.toNat
    | jump l | jumpIf l | call l =>
      have jump (o : Opcode) := unpack_toLabel short o (UInt32.ofNat l.number)
      simp only [word names] at jump
      exact jump _
    | relative o d =>
      change ((b.relative o d).toOption.getD b).unpack = _
      rw [getD_map_unpack, unpack_relative]
      rfl

/-- A program in words comes to what the program comes to: by induction on the program, at the end
of which the builder stands no earlier than before. -/
theorem unpack_assembled (short : (assemble acts).pc ≤ lastNumber)
    (names : ∀ a ∈ acts, NamesWords a) : (assembled acts).unpack = assemble acts := by
  induction acts using List.reverseRecOn with
  | nil => simp [assembled, assemble, empty, unpack, code, codeOfRuns]
  | append_singleton acts a ih =>
    rw [StackFlow.Builder.assemble_concat] at short ⊢
    have before : (assemble acts).pc ≤ lastNumber := (a.pc_le_apply _).trans short
    have same := ih before fun a mem ↦ names a (List.mem_append_left _ mem)
    have size : (assembled acts).size = (assemble acts).pc := by
      rw [← same, ← size_code]
      rfl
    rw [assembled, List.foldl_concat]
    change ((assembled acts).act a).unpack = _
    rw [unpack_act (size.trans_le before) (names a (List.mem_append_right _ List.mem_cons_self)),
      same]

/-- The finished code is the same, and so are the errors. -/
theorem finish_assembled (short : (assemble acts).pc ≤ lastNumber)
    (names : ∀ a ∈ acts, NamesWords a) : (assembled acts).finish = (assemble acts).finish := by
  rw [finish, unpack_assembled short names]

end StackFlow.Packed.Builder
