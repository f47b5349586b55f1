import StackFlow.Proofs.Unpacking

/-!
# Instructions in words

`Agrees` says of a computation in words and one on numbers that they come to the
same, with no fault in words.  So do the functions that run an instruction,
wherever the offsets of the code fit in words.  A frame of a subroutine that is
entered is made later in words, when the call has got its number (`Frame.body`).
-/

namespace StackFlow

namespace Opcode

theorem inputs_le (op : Opcode) : op.inputs ≤ 17 := by
  cases op with
  | push => exact Nat.zero_le _
  | dup k =>
    change k.val + 1 ≤ 17
    omega
  | swap k | log k =>
    change k.val + 2 ≤ 17
    omega
  | _ => decide

theorem outputs_le (op : Opcode) : op.outputs ≤ 17 := by
  cases op with
  | push => exact Nat.succ_le_succ (Nat.zero_le _)
  | log => exact Nat.zero_le _
  | dup k | swap k =>
    change k.val + 2 ≤ 17
    omega
  | _ => decide

end Opcode

namespace Packed

variable {code : Code} {limits : Limits} {starts : Starts} {calls : Array Call} {f : Frame}
  {i : Instr} {op : Opcode}

/-! ## Computations that agree -/

/-- The two come to results in a relation, or to the same violation, and none has a fault. -/
inductive Agrees {α β : Type} (r : α → β → Prop) : Except Stop α → Except Violation β → Prop where
  | ok {a : α} {b : β} (h : r a b) : Agrees r (.ok a) (.ok b)
  | violation (v : Violation) : Agrees r (.error (.violation v)) (.error v)

namespace Agrees

variable {α β γ δ : Type} {r : α → β → Prop} {r' : γ → δ → Prop} {x : Except Stop α}
  {y : Except Violation β}

theorem bind {g : α → Except Stop γ} {h : β → Except Violation δ} (agrees : Agrees r x y)
    (rest : ∀ a b, r a b → Agrees r' (g a) (h b)) : Agrees r' (x >>= g) (y >>= h) := by
  cases agrees with
  | ok related => exact rest _ _ related
  | violation v => exact .violation v

end Agrees

/-! ## Words -/

theorem exists_sum16 {a b : UInt16} (room : a.toNat + b.toNat < UInt16.size) :
    ∃ c, sum16 a b = .ok c ∧ c.toNat = a.toNat + b.toNat := by
  refine ⟨a + b, if_pos room, ?_⟩
  rw [UInt16.toNat_add, Nat.mod_eq_of_lt room]

theorem exists_sum32 {a b : UInt32} (room : a.toNat + b.toNat < UInt32.size) :
    ∃ c, sum32 a b = .ok c ∧ c.toNat = a.toNat + b.toNat := by
  refine ⟨a + b, ?_, ?_⟩
  · rw [sum32, addOffsets, if_pos room]
    rfl
  · rw [UInt32.toNat_add, Nat.mod_eq_of_lt room]

theorem exists_narrow {a : UInt32} (room : a.toNat < UInt16.size) :
    ∃ b, narrow a = .ok b ∧ b.toNat = a.toNat := by
  refine ⟨a.toUInt16, if_pos room, ?_⟩
  rw [UInt32.toNat_toUInt16]
  exact Nat.mod_eq_of_lt room

theorem exists_next {pc : Nat} (fits : OffsetsFit code) (fetch : decode code pc = some i) :
    ∃ behind, next i = .ok behind ∧ behind.toNat = i.next := by
  obtain ⟨behind, sum, exact⟩ := fits.exists_checkedNext fetch
  refine ⟨behind, ?_, exact⟩
  rw [next, sum]
  rfl

/-! ## Instructions -/

theorem agrees_legal (i : Instr) :
    Agrees (· = ·) ((Check.legal i).mapError .violation) (Check.legal i) := by
  cases Check.legal i with
  | ok op => exact .ok rfl
  | error v => exact .violation v

theorem agrees_resolve (inside : ∀ t : Nat, starts.contains t = true → t < UInt32.size)
    (i : Instr) : Agrees (fun a b ↦ a.toNat = b) (resolve starts i) (Check.resolve starts i) := by
  unfold resolve Check.resolve
  cases i.target? with
  | none => exact .violation _
  | some t =>
    by_cases start : starts.contains t = true
    · have nonneg : 0 ≤ t := by
        simp only [Starts.contains, Bool.and_eq_true, decide_eq_true_eq] at start
        exact start.1
      have lt : t.toNat < UInt32.size := by
        apply inside
        rwa [Int.toNat_of_nonneg nonneg]
      simp only [start, lt, and_self, if_true]
      exact .ok (UInt32.toNat_ofNat_of_lt' lt)
    · simp only [start]
      exact .violation _

namespace Frame

theorem toNat_inputs (op : Opcode) : (UInt16.ofNat op.inputs).toNat = op.inputs :=
  UInt16.toNat_ofNat_of_lt' (Nat.lt_of_le_of_lt op.inputs_le (by decide))

/-- An opcode that finds its items has room for its sums. -/
theorem exists_sums (items : op.inputs ≤ f.height.toNat) :
    ∃ height absolute,
      sum32 (f.height - UInt16.ofNat op.inputs).toUInt32 (UInt32.ofNat op.outputs) = .ok height ∧
      sum32 f.base.toUInt32 height = .ok absolute ∧
      height.toNat = f.height.toNat - op.inputs + op.outputs ∧
      absolute.toNat = f.base.toNat + (f.height.toNat - op.inputs + op.outputs) := by
  have word : UInt32.size = 4294967296 := rfl
  have enough : UInt16.ofNat op.inputs ≤ f.height := by
    rwa [UInt16.le_iff_toNat_le, toNat_inputs]
  have left : (f.height - UInt16.ofNat op.inputs).toUInt32.toNat = f.height.toNat - op.inputs := by
    rw [UInt16.toNat_toUInt32, UInt16.toNat_sub_of_le _ _ enough, toNat_inputs]
  have outputs : (UInt32.ofNat op.outputs).toNat = op.outputs :=
    UInt32.toNat_ofNat_of_lt' (Nat.lt_of_le_of_lt op.outputs_le (by decide))
  have base : f.base.toUInt32.toNat = f.base.toNat := UInt16.toNat_toUInt32 _
  have := op.outputs_le
  have := f.height.toNat_lt
  have := f.base.toNat_lt
  obtain ⟨height, sum, above⟩ := exists_sum32 (a := (f.height - UInt16.ofNat op.inputs).toUInt32)
    (b := UInt32.ofNat op.outputs) (by omega)
  obtain ⟨absolute, total, whole⟩ := exists_sum32 (a := f.base.toUInt32) (b := height) (by omega)
  exact ⟨height, absolute, sum, total, by omega, by omega⟩

/-- A height that is within the limit fits in sixteen bits. -/
theorem agrees_effect (limits : Limits) (calls : Array Call) (f : Frame) (op : Opcode) :
    Agrees (fun a b ↦ a.toNat = b) (f.effect limits op) ((f.unpack calls).effect limits op) := by
  have few : f.height < UInt16.ofNat op.inputs ↔ f.height.toNat < op.inputs := by
    rw [UInt16.lt_iff_toNat_lt, toNat_inputs]
  unfold effect Check.Frame.effect
  change Agrees _ _ (if f.height.toNat < op.inputs then _ else _)
  simp only [few]
  split
  · rw [toNat_inputs]
    exact .violation _
  · next items =>
    obtain ⟨height, absolute, sum, total, above, whole⟩ := exists_sums (Nat.le_of_not_lt items)
    change Agrees _ _ (if limits.stack.toNat <
      f.base.toNat + (f.height.toNat - op.inputs + op.outputs) then _ else _)
    simp only [sum, total, bind, Except.bind, UInt32.lt_iff_toNat_lt, UInt16.toNat_toUInt32, whole]
    split
    · exact .violation _
    · next room =>
      have := limits.stack.toNat_lt
      obtain ⟨narrowed, fits, same⟩ := exists_narrow (a := height)
        (show height.toNat < 65536 by omega)
      rw [fits]
      exact .ok (same.trans above)

theorem Numbered.exists_entry (h : f.Numbered calls) :
    ∃ own?, f.entry? calls = .ok own? ∧
      Check.Frame.entry? (f.unpack calls) = own?.map UInt32.toNat := by
  unfold entry? Check.Frame.entry?
  cases call : f.call? with
  | none =>
    refine ⟨none, rfl, ?_⟩
    rw [unpack, call]
    rfl
  | some n =>
    obtain ⟨c, slot, same⟩ := h.exists_call call
    refine ⟨some c.entry, ?_, ?_⟩
    · simp only [lookup, slot]
      rfl
    · rw [same]
      rfl

/-- The frame in which a subroutine is entered, once its call has the last number. -/
def body (calls : Array Call) (c : Call) (base depth : UInt16) : Frame :=
  { pc := c.entry, height := 0, base, depth, call? := some (UInt32.ofNat calls.size) }

theorem body_spec (room : calls.size < UInt32.size) (c : Call) (base depth : UInt16) :
    (body calls c base depth).Numbered (calls.push c) ∧
      (body calls c base depth).unpack (calls.push c) =
        { pc := c.entry.toNat, height := 0, base := base.toNat, depth := depth.toNat,
          call? := some c.unpack } := by
  have last : (UInt32.ofNat calls.size).toNat = calls.size := UInt32.toNat_ofNat_of_lt' room
  constructor
  · rintro n ⟨⟩
    rw [last, Array.size_push]
    exact Nat.lt_succ_self _
  · rw [unpack, body, Option.bind_some, last, Array.getElem?_push_size]
    rfl

end Frame

namespace Move

/-- The move that a move in words stands for.  The frame in which a subroutine is entered is not
made yet in words. -/
def unpack (calls : Array Call) : Move → Check.Move
  | .halt => .halt
  | .next f => .next (f.unpack calls)
  | .jump f => .jump (f.unpack calls)
  | .branch taken fallthrough => .branch (taken.unpack calls) (fallthrough.unpack calls)
  | .call entry resume =>
    .call
      { pc := entry.toNat, height := 0, base := resume.base.toNat + resume.height.toNat,
        depth := resume.depth.toNat + 1,
        call? := some { entry := entry.toNat, resume := resume.pc.toNat } }
      (resume.unpack calls)
  | .ret c => .ret c.unpack

/-- The frames of a move. -/
def frames : Move → List Frame
  | .halt | .ret _ => []
  | .next f | .jump f | .call _ f => [f]
  | .branch taken fallthrough => [taken, fallthrough]

end Move

/-- An instruction in words does what it does on numbers, and its frames stay in the subroutine. -/
theorem Frame.agrees_advance (limits : Limits) (fits : OffsetsFit code) (own : f.Numbered calls)
    (inside : ∀ t : Nat, starts.contains t = true → t < UInt32.size)
    (fetch : decode code f.pc.toNat = some i) :
    Agrees (fun m n ↦ m.unpack calls = n ∧ ∀ g ∈ m.frames, g.Numbered calls)
      (f.advance limits starts calls i) ((f.unpack calls).advance limits starts i) := by
  obtain ⟨behind, next_eq, same⟩ := exists_next fits fetch
  unfold advance Check.Frame.advance
  refine (agrees_legal i).bind fun op _ h ↦ ?_
  subst h
  refine (agrees_effect limits calls f op).bind fun height n h ↦ ?_
  subst h
  rw [next_eq, ← same]
  cases op.flow with
  | next => exact .ok ⟨rfl, List.forall_mem_singleton.mpr own⟩
  | terminator | invalid => exact .ok ⟨rfl, List.forall_mem_nil _⟩
  | jump =>
    refine (agrees_resolve inside i).bind fun target t h ↦ ?_
    subst h
    exact .ok ⟨rfl, List.forall_mem_singleton.mpr own⟩
  | jumpIf =>
    refine (agrees_resolve inside i).bind fun target t h ↦ ?_
    subst h
    exact .ok ⟨rfl, List.forall_mem_cons.mpr ⟨own, List.forall_mem_singleton.mpr own⟩⟩
  | call =>
    refine (agrees_resolve inside i).bind fun target t h ↦ ?_
    subst h
    change Agrees _ _ (ite (limits.calls.toNat ≤ f.depth.toNat) _ _)
    simp only [UInt16.le_iff_toNat_le]
    split
    · exact .violation _
    · exact .ok ⟨rfl, List.forall_mem_singleton.mpr own⟩
  | ret =>
    cases call : f.call? with
    | none =>
      have top : (f.unpack calls).call? = none := by rw [unpack, call, Option.bind_none]
      rw [top]
      exact .violation _
    | some n =>
      obtain ⟨c, slot, same⟩ := own.exists_call call
      simp only [same, lookup, slot]
      exact .ok ⟨rfl, List.forall_mem_nil _⟩

end Packed

end StackFlow
