import StackFlow.Proofs.Invariant

/-!
# Checks side by side, at different places

If one code reads at every offset like another one a number of bytes further on,
their checks go along with each other: all that depends on an offset is shifted,
and nothing else is told apart (`State.Shifted`).  `State.Shifted.step` is the
step of this simulation and `State.Shifted.run` the run.  A check reads a code
where it visits an instruction, where it looks up the target of one, and where a
path runs off the end, so `ReadsShifted` asks for no more than that.
-/

namespace StackFlow

variable {code code' : Code} {limits : Limits} {n : Nat}

/-- An instruction is another one that stands so many bytes further on. -/
structure Instr.Shifted (n : Nat) (i j : Instr) : Prop where
  pc : j.pc = i.pc + n
  byte : j.byte = i.byte
  next : j.next = i.next + n
  target : j.target? = i.target?.map (· + (n : Int))

/-- The violation that shows instead where the code stands so many bytes further on. -/
def Violation.shift (n : Nat) : Violation → Violation
  | .codeTooLong length max => .codeTooLong length max
  | .invalidInstruction pc byte => .invalidInstruction (pc + n) byte
  | .truncatedDisplacement pc => .truncatedDisplacement (pc + n)
  | .invalidDestination pc target => .invalidDestination (pc + n) (target + n)
  | .stackUnderflow pc required available => .stackUnderflow (pc + n) required available
  | .stackOverflow pc height limit => .stackOverflow (pc + n) height limit
  | .returnUnderflow pc => .returnUnderflow (pc + n)
  | .returnOverflow pc limit => .returnOverflow (pc + n) limit
  | .heightMismatch pc expected actual => .heightMismatch (pc + n) expected actual

@[simp] theorem Violation.shift_zero (w : Violation) : w.shift 0 = w := by
  cases w <;> simp [Violation.shift]

namespace Check

/-! ## What a check reads -/

/-- A path of the check comes with frame `f` to an instruction that no path has come to before. -/
def Visits (code : Code) (limits : Limits) (f : Frame) (i : Instr) : Prop :=
  ∃ s, Passes code limits s ∧ s.path? = some f ∧ s.heights.at? f.pc = none ∧
    decode code f.pc = some i

/-- An instruction of a frame has a target that is looked up: it is relative, and finds its items
and its room. -/
def Frame.LooksUp (limits : Limits) (f : Frame) (i : Instr) (t : Int) : Prop :=
  i.target? = some t ∧ ∃ op ∈ i.opcode?, op.isRelative = true ∧ op.inputs ≤ f.height ∧
    f.base + f.after op ≤ limits.stack.toNat

/-- The check looks up a target. -/
def LooksUp (code : Code) (limits : Limits) (t : Int) : Prop :=
  ∃ f i, Visits code limits f i ∧ f.LooksUp limits i t

/-- A path of the check runs off the end of the code at the offset. -/
def RunsOff (code : Code) (limits : Limits) (pc : Nat) : Prop :=
  ∃ s f, Passes code limits s ∧ s.path? = some f ∧ f.pc = pc ∧ code.size ≤ pc

/-- Where the check of one code reads it, the other code reads the same so many bytes further
on. -/
structure ReadsShifted (limits : Limits) (n : Nat) (code code' : Code) : Prop where
  visited : ∀ f i, Visits code limits f i → ∃ j ∈ decode code' (f.pc + n), i.Shifted n j
  target : ∀ t : Int, LooksUp code limits t →
    (Starts.ofCode code').contains (t + n) = (Starts.ofCode code).contains t
  past : ∀ pc, RunsOff code limits pc → code'.size ≤ pc + n

/-! ## Shifting -/

def Call.shift (n : Nat) (c : Call) : Call where
  entry := c.entry + n
  resume := c.resume + n

def Frame.shift (n : Nat) (f : Frame) : Frame :=
  { f with pc := f.pc + n, call? := f.call?.map (Call.shift n) }

def Move.shift (n : Nat) : Move → Move
  | .halt => .halt
  | .next f => .next (f.shift n)
  | .jump f => .jump (f.shift n)
  | .branch taken fallthrough => .branch (taken.shift n) (fallthrough.shift n)
  | .call body resume => .call (body.shift n) (resume.shift n)
  | .ret c => .ret (c.shift n)

def Waiter.shift (n : Nat) : Waiter → Waiter
  | .resume f => .resume (f.shift n)
  | .entry e => .entry (e + n)

def Worklist.shift (n : Nat) (w : Worklist) : Worklist :=
  { w with frames := w.frames.map (Frame.shift n) }

namespace Frame

@[simp] theorem pc_shift (n : Nat) (f : Frame) : (f.shift n).pc = f.pc + n := rfl

@[simp] theorem height_shift (n : Nat) (f : Frame) : (f.shift n).height = f.height := rfl

@[simp] theorem entry?_shift (n : Nat) (f : Frame) :
    Frame.entry? (f.shift n) = f.entry?.map (· + n) := by
  simp only [shift, entry?, Option.map_map]
  rfl

end Frame

namespace Worklist

theorem push_shift (n : Nat) (w : Worklist) (f : Frame) :
    (w.push f).shift n = (w.shift n).push (f.shift n) := by
  simp [shift, push, Array.map_push]

theorem pushAll_shift (n : Nat) (w : Worklist) (fs : List Frame) :
    (w.pushAll fs).shift n = (w.shift n).pushAll (fs.map (Frame.shift n)) := by
  induction fs generalizing w with
  | nil => rfl
  | cons f fs ih =>
    have rest := ih (w.push f)
    rwa [push_shift] at rest

theorem pop_shift (n : Nat) (w : Worklist) : (w.shift n).pop = w.pop.shift n := by
  simp [shift, pop, Array.map_pop]

end Worklist

namespace Waiter

theorem filterMap_frame?_shift (n : Nat) (ws : List Waiter) :
    (ws.map (shift n)).filterMap frame? = (ws.filterMap frame?).map (Frame.shift n) := by
  rw [List.filterMap_map, List.map_filterMap]
  congr 1
  funext x
  cases x <;> rfl

theorem filterMap_entry?_shift (n : Nat) (ws : List Waiter) :
    (ws.map (shift n)).filterMap entry? = (ws.filterMap entry?).map (· + n) := by
  rw [List.filterMap_map, List.map_filterMap]
  congr 1
  funext x
  cases x <;> rfl

end Waiter

@[simp] theorem Call.shift_zero : Call.shift 0 = id := rfl

@[simp] theorem Frame.shift_zero : Frame.shift 0 = id := by
  funext f
  simp [Frame.shift]

@[simp] theorem Waiter.shift_zero : Waiter.shift 0 = id := by
  funext x
  cases x <;> simp [Waiter.shift]

@[simp] theorem Worklist.shift_zero (w : Worklist) : w.shift 0 = w := by
  simp [Worklist.shift]

/-! ## Waits -/

/-- The same entries return, and the same waiters are parked. -/
structure Waits.Shifted (n : Nat) (w w' : Waits) : Prop where
  returning : ∀ e, w'.Returning (e + n) ↔ w.Returning e
  parked : ∀ e, w'.parkedAt (e + n) = (w.parkedAt e).map (Waiter.shift n)

namespace Waits.Shifted

variable {w w' : Waits} {size size' : Nat}

theorem mark (h : w.Shifted n w') (hw : w.Fits size) (hw' : w'.Fits size') {e : Nat}
    (he : e < size) (he' : e + n < size') : (w.mark e).Shifted n (w'.mark (e + n)) where
  returning := fun o ↦ by
    rw [hw.returning_mark he, hw'.returning_mark he', h.returning, Nat.add_right_cancel_iff]
  parked := fun o ↦ by
    rw [parkedAt_mark, parkedAt_mark, h.parked]
    simp only [Nat.add_right_cancel_iff]
    split <;> rfl

theorem park (h : w.Shifted n w') (hw : w.Fits size) (hw' : w'.Fits size') {e : Nat}
    (he : e < size) (he' : e + n < size') (x : Waiter) :
    (w.park e x).Shifted n (w'.park (e + n) (x.shift n)) where
  returning := h.returning
  parked := fun o ↦ by
    rw [parkedAt_park (hw'.parked ▸ he'), parkedAt_park (hw.parked ▸ he), h.parked]
    simp only [Nat.add_right_cancel_iff]
    split <;> rfl

theorem release (h : w.Shifted n w') (hw : w.Fits size) (hw' : w'.Fits size')
    (entries : List Nat) (work : Worklist) (he : ∀ e ∈ entries, e < size)
    (he' : ∀ e ∈ entries.map (· + n), e < size') :
    (w.release entries work).1.Shifted n (w'.release (entries.map (· + n)) (work.shift n)).1 ∧
      (w'.release (entries.map (· + n)) (work.shift n)).2 =
        (w.release entries work).2.shift n := by
  fun_induction Waits.release entries w work generalizing w' with
  | case1 => exact ⟨by simpa [Waits.release] using h, by simp [Waits.release]⟩
  | case2 w work e rest known ih =>
    rw [List.map_cons, release_of_returning ((h.returning e).mpr known)]
    exact ih h hw hw' (List.forall_mem_cons.mp he).2 (List.forall_mem_cons.mp he').2
  | case3 w work e rest new ih =>
    have hlt := he e List.mem_cons_self
    have hlt' : e + n < size' := he' _ List.mem_cons_self
    have entries_eq :
        ((w'.parkedAt (e + n)).filterMap Waiter.entry?).reverse ++ rest.map (· + n) =
          (((w.parkedAt e).filterMap Waiter.entry?).reverse ++ rest).map (· + n) := by
      rw [h.parked, Waiter.filterMap_entry?_shift, List.map_append, List.map_reverse]
    have bounds' := hw'.lt_of_mem_entries_append he'
    rw [entries_eq] at bounds'
    rw [List.map_cons, release_of_not_returning fun hr ↦ new ((h.returning e).mp hr), entries_eq,
      h.parked, Waiter.filterMap_frame?_shift, ← Worklist.pushAll_shift]
    exact ih (h.mark hw hw' hlt hlt') (hw.mark hlt) (hw'.mark hlt')
      (hw.lt_of_mem_entries_append he) bounds'

theorem wait {e : Nat} (h : w.Shifted n w') (hw : w.Fits size) (hw' : w'.Fits size') (x : Waiter)
    (work : Worklist) (he : e < size) (he' : e + n < size')
    (hx : x.Meets (· < size) fun _ ↦ True) (hx' : x.Meets (· + n < size') fun _ ↦ True) :
    (w.wait e x work).1.Shifted n (w'.wait (e + n) (x.shift n) (work.shift n)).1 ∧
      (w'.wait (e + n) (x.shift n) (work.shift n)).2 = (w.wait e x work).2.shift n := by
  by_cases hr : w.Returning e
  · have hr' := (h.returning e).mpr hr
    unfold Returning at hr hr'
    cases x with
    | resume f =>
      simp only [Waits.wait, hr, hr', if_true, Waiter.shift]
      exact ⟨h, (Worklist.push_shift n work f).symm⟩
    | entry d =>
      simp only [Waits.wait, hr, hr', if_true, Waiter.shift]
      refine h.release hw hw' [d] work (fun c hc ↦ ?_) fun c hc ↦ ?_
      · exact List.mem_singleton.mp hc ▸ hx
      · exact List.mem_singleton.mp hc ▸ hx'
  · have hr' : ¬ w'.Returning (e + n) := fun hn ↦ hr ((h.returning e).mp hn)
    unfold Returning at hr hr'
    simp only [Waits.wait, hr, hr']
    exact ⟨h.park hw hw' he he' x, rfl⟩

end Waits.Shifted

/-! ## States -/

namespace State

/-- No lookup tells the states apart but for the places, and they count the same but for the offsets
that come before. -/
structure Shifted (n : Nat) (s s' : State) : Prop where
  path : s'.path? = s.path?.map (Frame.shift n)
  work : s'.work = s.work.shift n
  known : ∀ pc, s'.heights.at? (pc + n) = s.heights.at? pc
  reached : s'.heights.reached = s.heights.reached + n
  owner : ∀ pc, s'.owner? (pc + n) = (s.owner? pc).map (· + n)
  waits : s.waits.Shifted n s'.waits
  prunes : s'.prunes = s.prunes
  calls : s'.calls = s.calls

variable {s s' : State} {size size' : Nat} {f : Frame}

theorem prune_eq_turn (h : ∀ e ∈ f.entry?, ∀ o ∈ s.owner? f.pc, e = o) :
    s.prune f = turn { s with prunes := s.prunes + 1 } := by
  unfold prune
  split
  · next e o he ho => rw [if_pos (h e he o ho)]
  · rfl

theorem prune_eq_wait {e o : Nat} (he : f.entry? = some e) (ho : s.owner? f.pc = some o)
    (hne : e ≠ o) :
    s.prune f = turn { s with
      waits := (s.waits.wait o (.entry e) s.work).1
      work := (s.waits.wait o (.entry e) s.work).2
      prunes := s.prunes + 1 } := by
  rw [owner?] at ho
  simp only [prune, he, ho, hne, if_false]

namespace Shifted

theorem turn (h : s.Shifted n s') : s.turn.Shifted n s'.turn where
  path := by
    simp only [State.turn, h.work]
    exact Array.back?_map
  work := by
    simp only [State.turn, h.work]
    exact Worklist.pop_shift n s.work
  known := h.known
  reached := h.reached
  owner := h.owner
  waits := h.waits
  prunes := h.prunes
  calls := h.calls

theorem visit (h : s.Shifted n s') (new : s.heights.at? f.pc = none)
    (hs : f.pc < s.heights.slots.size) (hs' : f.pc + n < s'.heights.slots.size)
    (ho : f.pc < s.owners.size) (ho' : f.pc + n < s'.owners.size) :
    (s.visit f).Shifted n (s'.visit (f.shift n)) where
  path := h.path
  work := h.work
  known := fun pc ↦ by
    rw [at?_visit (f := f.shift n) hs', at?_visit hs, h.known]
    simp only [Frame.pc_shift, Frame.height_shift, Nat.add_right_cancel_iff]
  reached := by
    have new' : s'.heights.at? (f.shift n).pc = none := (h.known f.pc).trans new
    rw [reached_visit new' hs', reached_visit new hs, h.reached, Nat.add_right_comm]
  owner := fun pc ↦ by
    rw [owner?_visit (f := f.shift n) ho', owner?_visit ho, h.owner]
    simp only [Frame.pc_shift, Frame.entry?_shift, Nat.add_right_cancel_iff]
    split <;> rfl
  waits := h.waits
  prunes := h.prunes
  calls := h.calls

theorem follow {m : Move} (h : s.Shifted n s') (hw : s.waits.Fits size)
    (hw' : s'.waits.Fits size') (hm : m.InBounds size) (hm' : (m.shift n).InBounds size') :
    (s.follow m).Shifted n (s'.follow (m.shift n)) := by
  cases m with
  | halt => exact h.turn
  | next f | jump f => exact { h with path := rfl }
  | branch taken fallthrough =>
    refine { h with path := rfl, work := ?_ }
    simp only [State.follow, Move.shift, h.work, Worklist.push_shift]
  | call body resume =>
    obtain ⟨waits, work⟩ := h.waits.wait hw hw' (.resume resume) s.work hm hm' trivial trivial
    rw [← h.work] at waits work
    exact { h with path := rfl, work, waits, calls := congrArg (· + 1) h.calls }
  | ret c =>
    obtain ⟨waits, work⟩ := h.waits.release hw hw' [c.entry] s.work
      (fun e he ↦ List.mem_singleton.mp he ▸ hm) fun e he ↦ List.mem_singleton.mp he ▸ hm'
    rw [← h.work] at waits work
    have released : Shifted n
        { s with
          waits := (s.waits.release [c.entry] s.work).1
          work := (s.waits.release [c.entry] s.work).2 }
        { s' with
          waits := (s'.waits.release [c.entry + n] s'.work).1
          work := (s'.waits.release [c.entry + n] s'.work).2 } :=
      { h with work, waits }
    exact released.turn

theorem prune (h : s.Shifted n s') (hw : s.waits.Fits size) (hw' : s'.waits.Fits size')
    (he : ∀ e ∈ f.entry?, e < size ∧ e + n < size')
    (ho : ∀ o ∈ s.owner? f.pc, o < size ∧ o + n < size') :
    (s.prune f).Shifted n (s'.prune (f.shift n)) := by
  have entry := f.entry?_shift n
  have owner : s'.owner? (f.shift n).pc = _ := h.owner f.pc
  by_cases same : ∀ e ∈ f.entry?, ∀ o ∈ s.owner? f.pc, e = o
  · have same' : ∀ e ∈ Frame.entry? (f.shift n), ∀ o ∈ s'.owner? (f.shift n).pc, e = o := by
      rw [entry, owner]
      intro e' entry' o' owner'
      obtain ⟨e, hfe, rfl⟩ := Option.map_eq_some_iff.mp entry'
      obtain ⟨o, hfo, rfl⟩ := Option.map_eq_some_iff.mp owner'
      rw [same e hfe o hfo]
    rw [prune_eq_turn same, prune_eq_turn same']
    have counted :
        Shifted n { s with prunes := s.prunes + 1 } { s' with prunes := s'.prunes + 1 } :=
      { h with prunes := congrArg (· + 1) h.prunes }
    exact counted.turn
  · obtain ⟨e, hfe, o, hfo, hne⟩ : ∃ e ∈ f.entry?, ∃ o ∈ s.owner? f.pc, e ≠ o := by
      simpa only [Classical.not_forall, exists_prop] using same
    have hfe' : Frame.entry? (f.shift n) = some (e + n) := by rw [entry, hfe, Option.map_some]
    have hfo' : s'.owner? (f.shift n).pc = some (o + n) := by rw [owner, hfo, Option.map_some]
    rw [prune_eq_wait hfe hfo hne, prune_eq_wait hfe' hfo' fun h ↦ hne (Nat.add_right_cancel h)]
    obtain ⟨waits, work⟩ := h.waits.wait hw hw' (.entry e) s.work (ho o hfo).1 (ho o hfo).2
      (he e hfe).1 (he e hfe).2
    rw [← h.work] at waits work
    have linked : Shifted n
        { s with
          waits := (s.waits.wait o (.entry e) s.work).1
          work := (s.waits.wait o (.entry e) s.work).2
          prunes := s.prunes + 1 }
        { s' with
          waits := (s'.waits.wait (o + n) (.entry (e + n)) s'.work).1
          work := (s'.waits.wait (o + n) (.entry (e + n)) s'.work).2
          prunes := s'.prunes + 1 } :=
      { h with work, waits, prunes := congrArg (· + 1) h.prunes }
    exact linked.turn

end Shifted

end State

/-! ## Two checks side by side -/

/-- Two steps that come to the same at different places. -/
inductive Step.Shifted (n : Nat) : Step → Step → Prop where
  | done {s s' : State} (h : s.Shifted n s') : Shifted n (.done s) (.done s')
  | fail (w : Violation) (events events' : List Event) :
      Shifted n (.fail w events) (.fail (w.shift n) events')
  | next {s s' : State} (h : s.Shifted n s') (events events' : List Event) :
      Shifted n (.next s events) (.next s' events')

/-- A result at another place. -/
def shiftResult {α β : Type} (n : Nat) (g : α → β) : Except Violation α → Except Violation β
  | .ok a => .ok (g a)
  | .error w => .error (w.shift n)

theorem shiftResult_bind {α β γ δ : Type} {g : α → β} {h : γ → δ} {x : Except Violation α}
    {k : α → Except Violation γ} {k' : β → Except Violation δ}
    (hk : ∀ a, x = .ok a → k' (g a) = shiftResult n h (k a)) :
    shiftResult n g x >>= k' = shiftResult n h (x >>= k) := by
  cases x with
  | ok a => exact hk a rfl
  | error w => rfl

section Advance

variable {starts starts' : Starts} {f : Frame} {i j : Instr} {op : Opcode}

theorem legal_shift (shifted : i.Shifted n j) : legal j = shiftResult n id (legal i) := by
  simp only [legal, Instr.opcode?, shifted.byte, shifted.pc]
  cases Opcode.ofByte? i.byte with
  | none => rfl
  | some op =>
    by_cases invalid : op.flow = .invalid <;> simp [invalid, shiftResult, Violation.shift]

theorem Frame.effect_shift (f : Frame) (op : Opcode) :
    (f.shift n).effect limits op = shiftResult n id (f.effect limits op) := by
  by_cases items : f.height < op.inputs
  · simp [Frame.effect, Frame.shift, items, shiftResult, Violation.shift]
  · by_cases room : f.base + (f.height - op.inputs + op.outputs) > limits.stack.toNat
    · simp [Frame.effect, Frame.shift, items, room, shiftResult, Violation.shift]
    · simp [Frame.effect, Frame.shift, items, room, shiftResult]

theorem resolve_shift (shifted : i.Shifted n j)
    (same : ∀ t, i.target? = some t → starts'.contains (t + n) = starts.contains t) :
    resolve starts' j = shiftResult n (· + n) (resolve starts i) := by
  simp only [resolve, shifted.target, shifted.pc]
  cases target : i.target? with
  | none => rfl
  | some t =>
    simp only [Option.map_some, same t target]
    cases start : starts.contains t with
    | true =>
      have nonneg : 0 ≤ t := by
        simp only [Starts.contains, Bool.and_eq_true, decide_eq_true_eq] at start
        exact start.1
      have toNat : (t + n).toNat = t.toNat + n := by omega
      simp [shiftResult, toNat]
    | false => simp [shiftResult, Violation.shift]

/-- What an instruction makes of a frame is shifted with it, if the targets that are looked up are
starts at both places or at none. -/
theorem Frame.advance_shift (shifted : i.Shifted n j)
    (same : ∀ t, f.LooksUp limits i t → starts'.contains (t + n) = starts.contains t) :
    (f.shift n).advance limits starts' j =
      shiftResult n (Move.shift n) (f.advance limits starts i) := by
  unfold advance
  rw [legal_shift shifted]
  refine shiftResult_bind fun op hop ↦ ?_
  simp only [id_eq, effect_shift]
  refine shiftResult_bind fun height hheight ↦ ?_
  obtain ⟨opcode, -⟩ := of_legal_eq_ok hop
  obtain ⟨items, room, -⟩ := of_effect_eq_ok hheight
  have resolved (relative : op.isRelative = true) :
      resolve starts' j = shiftResult n (· + n) (resolve starts i) :=
    resolve_shift shifted fun t target ↦ same t ⟨target, op, opcode, relative, items, room⟩
  cases flow : op.flow with
  | next =>
    simp only [shifted.next]
    rfl
  | terminator | invalid => rfl
  | jump =>
    simp only
    rw [resolved (by rw [Opcode.isRelative, flow]; rfl)]
    exact shiftResult_bind fun t _ ↦ rfl
  | jumpIf =>
    simp only
    rw [resolved (by rw [Opcode.isRelative, flow]; rfl), shifted.next]
    exact shiftResult_bind fun t _ ↦ rfl
  | call =>
    simp only
    rw [resolved (by rw [Opcode.isRelative, flow]; rfl), shifted.next]
    refine shiftResult_bind fun t _ ↦ ?_
    simp only [shift]
    by_cases full : limits.calls.toNat ≤ f.depth
    · simp only [full, if_true]
      rfl
    · simp only [full, if_false]
      rfl
  | ret =>
    simp only [shift]
    cases f.call? with
    | none => rfl
    | some c => rfl

end Advance

namespace State.Shifted

variable {s s' : State}

/-- The step of the simulation. -/
theorem step (h : s.Shifted n s') (reads : ReadsShifted limits n code code')
    (passes : Passes code limits s) (passes' : Passes code' limits s') :
    (s.step code (.ofCode code) limits).Shifted n (s'.step code' (.ofCode code') limits) := by
  have inv := passes.inv
  have inv' := passes'.inv
  cases path : s.path? with
  | none =>
    have path' : s'.path? = none := by rw [h.path, path, Option.map_none]
    rw [step_of_idle path, step_of_idle path']
    exact .done h
  | some f =>
    have path' : s'.path? = some (f.shift n) := by rw [h.path, path, Option.map_some]
    have sound := inv.sound f (.inl (.inl path))
    have sound' := inv'.sound _ (.inl (.inl path'))
    rcases Nat.lt_or_ge f.pc code.size with hlt | past
    · obtain ⟨i, fetch⟩ := exists_decode hlt
      cases known : s.heights.at? f.pc with
      | some height =>
        -- a known offset has a slot in either state, so it lies in either code
        have known' : s'.heights.at? (f.shift n).pc = some height := (h.known f.pc).trans known
        obtain ⟨hlt', -⟩ := Array.getElem?_eq_some_iff.mp (Heights.slot_of_at? known')
        obtain ⟨j, fetch'⟩ := exists_decode (inv'.slots ▸ hlt')
        rw [step_of_known path fetch known, step_of_known path' fetch' known', Frame.height_shift]
        split
        · refine .next (h.prune inv.waits inv'.waits (fun e he ↦ ?_) fun o ho ↦ ?_) _ _
          · have entry' : Frame.entry? (f.shift n) = some (e + n) := by
              rw [Frame.entry?_shift, he, Option.map_some]
            exact ⟨sound.entry_lt e he, sound'.entry_lt _ entry'⟩
          · have owner' : s'.owner? (f.pc + n) = some (o + n) := by
              rw [h.owner, ho, Option.map_some]
            exact ⟨inv.owner_lt f.pc o ho, inv'.owner_lt _ _ owner'⟩
        · exact .fail (.heightMismatch f.pc height f.height) _ _
      | none =>
        have visits : Visits code limits f i := ⟨s, passes, path, known, fetch⟩
        obtain ⟨j, fetch', shifted⟩ := reads.visited f i visits
        have known' : s'.heights.at? (f.shift n).pc = none := (h.known f.pc).trans known
        have hlt' := lt_size_of_decode fetch'
        have same : (f.shift n).advance limits (.ofCode code') j =
            shiftResult n (Move.shift n) (f.advance limits (.ofCode code) i) :=
          Frame.advance_shift shifted fun t looks ↦ reads.target t ⟨f, i, visits, looks⟩
        rw [step_of_new path fetch known (inv.slots ▸ hlt),
          step_of_new path' fetch' known' (inv'.slots ▸ hlt'), same]
        cases run : f.advance limits (.ofCode code) i with
        | error w => exact .fail w _ _
        | ok m =>
          rw [run] at same
          obtain ⟨_, -, -, -, -, takes⟩ := Frame.takes_of_advance run
          obtain ⟨_, -, -, -, -, takes'⟩ := Frame.takes_of_advance same
          have visited := h.visit known (inv.slots ▸ hlt) (inv'.slots ▸ hlt') (inv.owners ▸ hlt)
            (inv'.owners ▸ hlt')
          exact .next (visited.follow inv.waits inv'.waits (sound.of_takes fetch takes).2
            (sound'.of_takes fetch' takes').2) _ _
    · have past' := reads.past f.pc ⟨s, f, passes, path, rfl, past⟩
      rw [step_of_past path past, step_of_past path' past']
      exact .next h.turn _ _

/-- The run of the simulation: the same violation, or ends that no lookup tells apart, either way
but for the place. -/
theorem run {σ : Type} (h : s.Shifted n s') (reads : ReadsShifted limits n code code')
    (passes : Passes code limits s) (passes' : Passes code' limits s') (sink : Sink σ) (t t' : σ) :
    (∃ w, (s.run code (.ofCode code) limits sink t).1 = .error w ∧
      (s'.run code' (.ofCode code') limits sink t').1 = .error (w.shift n)) ∨
    ∃ e e', (s.run code (.ofCode code) limits sink t).1 = .ok e ∧
      (s'.run code' (.ofCode code') limits sink t').1 = .ok e' ∧ e.Shifted n e' := by
  fun_induction State.run code (.ofCode code) limits sink s t generalizing s' t' with
  | case1 s t e step =>
    have shifted := h.step reads passes passes'
    rw [step] at shifted
    rw [State.run.eq_def code']
    generalize s'.step code' (.ofCode code') limits = step' at shifted
    cases shifted with
    | done h => exact .inr ⟨_, _, rfl, rfl, h⟩
  | case2 s t w events step =>
    have shifted := h.step reads passes passes'
    rw [step] at shifted
    rw [State.run.eq_def code']
    generalize s'.step code' (.ofCode code') limits = step' at shifted
    cases shifted with
    | fail w events events' => exact .inl ⟨w, rfl, rfl⟩
  | case3 s t s₁ events step ih =>
    have shifted := h.step reads passes passes'
    rw [step] at shifted
    rw [State.run.eq_def code']
    generalize step' : s'.step code' (.ofCode code') limits = r at shifted
    cases shifted with
    | next h => exact ih h (passes.step step) (passes'.step step') _

end State.Shifted

@[simp] theorem State.owner?_initial (size pc : Nat) : (initial size).owner? pc = none := by
  by_cases h : pc < size <;> simp [initial, owner?, h]

theorem State.shifted_initial (size size' : Nat) :
    (State.initial size).Shifted 0 (State.initial size') where
  path := by simp [initial]
  work := by simp [initial]
  known := by simp [initial]
  reached := by simp [initial, Heights.reached, Heights.empty, Array.countP_replicate]
  owner := by simp
  waits := ⟨by simp [initial], by simp [initial]⟩
  prunes := rfl
  calls := rfl

end Check

end StackFlow
