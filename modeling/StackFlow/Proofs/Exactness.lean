import StackFlow.Proofs.Soundness

/-!
# Exactness on code whose subroutines share nothing

If no path is ever pruned in a subroutine other than the one that owns the
offset, the check follows runs of the machine and nothing else.  The invariant
is that every pending frame is realized by a run (`Frame.Realized`), whatever
calls are outstanding, and that a parked one will be once the subroutine is
known to return.  Acceptance then describes the reachable configurations, and
each violation is one that some run shows (`Shows`).
-/

namespace StackFlow.Check

open Machine

variable {code : Code} {limits : Limits} {s : State} {f g : Frame}

/-- Whenever a path is pruned, the offset was reached first in the same subroutine. -/
def Unshared (code : Code) (limits : Limits) : Prop :=
  ∀ f owner?, Merges code limits f owner? → f.entry? = owner?

theorem Unshared.not_stray (h : Unshared code limits) (pc : Nat) : ¬ Stray code limits pc := by
  rintro ⟨f, o, merges, top, -⟩
  rw [h f _ merges] at top
  cases top

theorem unshared_iff :
    (∀ s ∈ (State.initial code.size).course code limits, ∀ f ∈ s.path?,
      s.heights.at? f.pc = some f.height → f.entry? = s.owner? f.pc) ↔ Unshared code limits := by
  constructor
  · rintro h f - ⟨s, passes, path, known, rfl⟩
    exact h s (mem_course_iff.mpr passes) f path known
  · intro h s hs f path known
    exact h f _ ⟨s, mem_course_iff.mp hs, path, known, rfl⟩

instance : Decidable (Unshared code limits) := decidable_of_iff _ unshared_iff

/-! ## Runs to frames -/

namespace Frame

/-- Where the level of a frame begins. -/
def origin (f : Frame) : Spot := .entry (f.call?.elim 0 Call.entry)

/-- A run comes to the frame: on its level it comes from where the level begins, and it can do so
with as many calls outstanding and as many items below as the frame counts. -/
def Realized (code : Code) (f : Frame) : Prop :=
  Level code (fun _ ↦ True) f.origin f.spot ∧
    ∃ calls, Nested code calls f.spot ∧ calls.length = f.depth ∧ held calls = f.base

theorem realized_start : Frame.start.Realized code :=
  ⟨.refl _, [], .top (.refl _), rfl, rfl⟩

theorem Realized.flat (hf : f.Realized code) (last : Flat code f.spot g.spot)
    (hg : g.call? = f.call? ∧ g.base = f.base ∧ g.depth = f.depth) : g.Realized code := by
  obtain ⟨level, calls, nested, length, sum⟩ := hf
  obtain ⟨hc, hb, hd⟩ := hg
  constructor
  · rw [origin, hc]
    exact level.flat trivial last
  · exact ⟨calls, nested.flat last, length.trans hd.symm, sum.trans hb.symm⟩

/-- Where the move of a realized frame leads is realized too, behind a call if the subroutine
returns. -/
theorem Realized.meets {i : Instr} {op : Opcode} {m : Move} {starts : Starts}
    (hf : f.Realized code) (fetch : Fetch code f.pc i op) (items : op.inputs ≤ f.height)
    (takes : f.Takes limits starts i op m) :
    m.Meets (fun e ↦ Machine.Returns code (.entry e)) (Realized code) := by
  have flat {g : Frame} (hg : g ∈ m.flats) : g.Realized code :=
    hf.flat (takes.flat fetch items hg).1 (takes.flat fetch items hg).2
  cases takes with
  | halt => trivial
  | next => exact flat List.mem_cons_self
  | jump => exact flat List.mem_cons_self
  | branch => exact ⟨flat List.mem_cons_self, flat (List.mem_cons_of_mem _ List.mem_cons_self)⟩
  | @call t flow target start room =>
    obtain ⟨level, calls, nested, length, sum⟩ := hf
    have site : Calls code f.spot.pc t i.next := ⟨i, op, fetch, flow, target, rfl⟩
    constructor
    · refine ⟨.refl _, ⟨i.next, f.height⟩ :: calls, .sub nested site (.refl _), ?_, ?_⟩
      · rw [List.length_cons, length]
      · rw [held, sum, Nat.add_comm]
    · -- the call is taken as a whole, whatever other call let the subroutine return
      rintro ⟨b, body, leaves⟩
      exact ⟨level.call trivial site body trivial leaves, calls, nested.call site body leaves,
        length, sum⟩
  | @ret c flow call =>
    have level := hf.1
    rw [origin, call] at level
    exact ⟨f.spot, level, i, op, fetch, flow⟩

end Frame

/-- What a check holds at some moment is true of the runs of the machine. -/
structure State.Realized (code : Code) (s : State) : Prop where
  returns : ∀ e, s.waits.Returning e → Machine.Returns code (.entry e)
  pending : ∀ g, s.Pending g → g.Realized code
  parked : ∀ o, Machine.Returns code (.entry o) → ∀ x ∈ s.waits.parkedAt o,
    x.Meets (fun e ↦ Machine.Returns code (.entry e)) (Frame.Realized code)
  known : ∀ pc height, s.heights.at? pc = some height →
    ∃ calls, Reachable code ⟨pc, height, calls⟩

theorem State.realized_initial : (State.initial code.size).Realized code where
  returns := by simp [initial]
  pending := by
    rintro g (h | h)
    · cases h
      exact Frame.realized_start
    · simp [initial, Worklist.push, Worklist.pop] at h
  parked := by simp [initial]
  known := by simp [initial]

theorem Passes.realized (unshared : Unshared code limits) (h : Passes code limits s) :
    s.Realized code := by
  induction h with
  | initial => exact State.realized_initial
  | @step s s' events before step ih =>
    have inv := before.inv
    obtain ⟨f, path, goes⟩ := State.goes_of_step inv.slots step
    have sound := inv.sound f (.inl (.inl path))
    have work (g : Frame) (hg : g ∈ s.work.frames) : g.Realized code := ih.pending g (.inr hg)
    cases goes with
    | ends past =>
      obtain ⟨h1, h2, h3⟩ := State.turn_induct ih.returns work
      exact ⟨h1, h2, fun o ho x hx ↦ ih.parked o ho x (h3 o x hx), ih.known⟩
    | prunes fetch known =>
      -- so that no entry ever comes to wait for another one
      have same := unshared f _ ⟨s, before, path, known, rfl⟩
      have alone (e o : Nat) (he : e ∈ f.entry?) (ho : o ∈ s.owner? f.pc) : e = o := by
        rw [same] at he
        exact Option.mem_unique he ho
      obtain ⟨h1, h2, h3⟩ := State.prune_induct inv.waits sound.entry_lt (inv.owner_lt f.pc)
        ih.returns work ih.parked fun e he o ho hne ↦ absurd (alone e o he ho) hne
      refine ⟨h1, h2, fun o ho x hx ↦ ?_, ?_⟩
      · rcases h3 o x hx with hx | ⟨e, he, howner, hne, -⟩
        · exact ih.parked o ho x hx
        · exact absurd (alone e o he howner) hne
      · rw [State.heights_prune]
        exact ih.known
    | @visits i op m fetch new legal items room takes =>
      have hslots : f.pc < s.heights.slots.size := inv.slots ▸ lt_size_of_decode fetch.decode
      have bounds := (sound.of_takes fetch.decode takes).2
      have here := ih.pending f (.inl path)
      have meets := here.meets fetch items takes
      obtain ⟨h1, h2, h3⟩ := State.follow_induct (s := s.visit f) inv.waits bounds
        ih.returns work ih.parked meets
      refine ⟨h1, h2, fun o ho x hx ↦ ?_, fun pc height h ↦ ?_⟩
      · rcases h3 o x hx with hx | ⟨body, resume, rfl, rfl, rfl⟩
        · exact ih.parked o ho x hx
        · exact meets.2 ho
      · rcases State.known_of_follow_visit hslots h with h | ⟨rfl, rfl⟩
        · exact ih.known pc height h
        · obtain ⟨-, calls, nested, -⟩ := here
          exact ⟨calls, nested.reachable⟩

/-! ## Runs to violations -/

/-- A run of the machine shows a violation at the offset that it comes to. -/
inductive Shows (code : Code) (limits : Limits) : Violation → Prop where
  | invalidInstruction {c : Config} {byte : UInt8} (reach : Reachable code c)
      (here : code[c.pc]? = some byte)
      (illegal : ∀ op, Opcode.ofByte? byte = some op → op.flow = .invalid) :
      Shows code limits (.invalidInstruction c.pc byte)
  | truncatedDisplacement {c : Config} {i : Instr} {op : Opcode} (reach : Reachable code c)
      (fetch : Fetch code c.pc i op) (relative : op.isRelative = true)
      (target : i.target? = none) : Shows code limits (.truncatedDisplacement c.pc)
  | invalidDestination {c : Config} {i : Instr} {op : Opcode} {t : Int} (reach : Reachable code c)
      (fetch : Fetch code c.pc i op) (relative : op.isRelative = true)
      (target : i.target? = some t) (wild : ∀ pc : Nat, t = pc → ¬ IsStart code pc) :
      Shows code limits (.invalidDestination c.pc t)
  | stackUnderflow {c : Config} {i : Instr} {op : Opcode} (reach : Reachable code c)
      (fetch : Fetch code c.pc i op) (items : c.height < op.inputs) :
      Shows code limits (.stackUnderflow c.pc op.inputs c.height)
  /-- The items of the callers count. -/
  | stackOverflow {c : Config} {i : Instr} {op : Opcode} {total : Nat} (reach : Reachable code c)
      (fetch : Fetch code c.pc i op) (items : op.inputs ≤ c.height)
      (sum : total = held c.calls + (c.height - op.inputs + op.outputs))
      (room : limits.stack.toNat < total) :
      Shows code limits (.stackOverflow c.pc total limits.stack.toNat)
  | returnUnderflow {c : Config} (reach : Reachable code c) (underflows : Underflows code c) :
      Shows code limits (.returnUnderflow c.pc)
  | returnOverflow {c : Config} {t r : Nat} (reach : Reachable code c)
      (site : Calls code c.pc t r) (full : c.calls.length = limits.calls.toNat) :
      Shows code limits (.returnOverflow c.pc limits.calls.toNat)
  /-- Two runs meet. -/
  | heightMismatch {c c' : Config} (reach : Reachable code c) (reach' : Reachable code c')
      (here : c.pc = c'.pc) (other : c.height ≠ c'.height) :
      Shows code limits (.heightMismatch c.pc c.height c'.height)

theorem Frame.Realized.shows {i : Instr} {v : Violation} (hf : f.Realized code)
    (sound : f.Sound code limits) (fetch : decode code f.pc = some i)
    (fails : f.Fails limits (.ofCode code) i v) : Shows code limits v := by
  obtain ⟨-, calls, nested, length, sum⟩ := hf
  have reach := nested.reachable
  have hpc := pc_of_decode fetch
  cases fails with
  | illegal h =>
    rw [hpc]
    exact .invalidInstruction reach (byte_of_decode fetch) h
  | underflow opcode items => exact .stackUnderflow reach ⟨fetch, opcode⟩ items
  | overflow opcode items room =>
    refine .stackOverflow reach ⟨fetch, opcode⟩ items ?_ room
    exact congrArg (· + f.after _) sum.symm
  | truncated opcode relative target =>
    rw [hpc]
    exact .truncatedDisplacement reach ⟨fetch, opcode⟩ relative target
  | @destination op t opcode relative target start =>
    rw [hpc]
    refine .invalidDestination reach ⟨fetch, opcode⟩ relative target fun pc ht hs ↦ ?_
    rw [Starts.contains_ofCode.mpr ⟨pc, ht, hs⟩] at start
    cases start
  | returnOverflow opcode flow target start room =>
    have full : calls.length = limits.calls.toNat :=
      length.trans (Nat.le_antisymm sound.depth_le room)
    exact .returnOverflow reach ⟨_, _, ⟨fetch, opcode⟩, flow, target, rfl⟩ full
  | returnUnderflow opcode flow call =>
    have top : calls = [] := List.eq_nil_of_length_eq_zero (length.trans (sound.depth_top call))
    exact .returnUnderflow reach ⟨top, _, _, ⟨fetch, opcode⟩, flow⟩

theorem Passes.shows {v : Violation} {events : List Event} (unshared : Unshared code limits)
    (h : Passes code limits s) (step : s.step code (.ofCode code) limits = .fail v events) :
    Shows code limits v := by
  obtain ⟨f, path, stops⟩ := State.stops_of_step step
  have realized := h.realized unshared
  have here := realized.pending f (.inl path)
  cases stops with
  | conflict known other =>
    obtain ⟨calls, reach⟩ := realized.known _ _ known
    obtain ⟨-, calls', nested, -⟩ := here
    exact .heightMismatch reach nested.reachable rfl other
  | fails fetch new fails => exact here.shows (h.inv.sound f (.inl (.inl path))) fetch fails

end StackFlow.Check

namespace StackFlow

open Machine Check

variable {code : Code} {limits : Limits}

/-- On code whose subroutines share nothing the check is exact.  If it accepts, the heights are
those of the runs, and no run comes to an instruction that it cannot run or returns without an
outstanding call.  If it rejects, some run shows the violation. -/
theorem exact_of_unshared (short : code.size ≤ limits.maxCodeLength)
    (unshared : Unshared code limits) :
    (∀ v, verify code limits = .ok v →
      (∀ pc height, pc < code.size →
        (v.heightAt? pc = some height ↔ ∃ calls, Reachable code ⟨pc, height, calls⟩)) ∧
      ∀ c, Reachable code c → c.pc < code.size →
        Runnable code c.pc c.height ∧ ¬ Underflows code c) ∧
    ∀ w, verify code limits = .error w → Shows code limits w := by
  constructor
  · intro v h
    obtain ⟨-, s, passes, path, rfl⟩ := passes_of_verify h
    have inv := passes.inv
    have known (c : Config) (reach : Reachable code c) (hc : c.pc < code.size) :
        s.heights.at? c.pc = some c.height := by
      refine (inv.admits_nested path ?_ (nested_of_reachable reach)).resolve_left
        (Nat.not_le_of_lt hc)
      rintro a calls t r - - ⟨d, stray, -⟩
      exact absurd stray (unshared.not_stray d.pc)
    refine ⟨fun pc height hpc ↦ ⟨(passes.realized unshared).known pc height, ?_⟩,
      fun c reach hc ↦ ⟨?_, ?_⟩⟩
    · rintro ⟨calls, reach⟩
      exact known _ reach hpc
    · obtain ⟨i, op, certified⟩ := inv.certified path (known c reach hc)
      exact ⟨i, op, certified.runs⟩
    · obtain ⟨pc, height, calls⟩ := c
      rintro ⟨rfl, leaves⟩
      cases nested_of_reachable reach with
      | top run =>
        obtain ⟨d, -, stray, -⟩ := inv.strays_of_leaves path run leaves
        exact unshared.not_stray d.pc stray
  · intro w h
    obtain ⟨s, events, passes, step⟩ := stops_of_verify short h
    exact passes.shows unshared step

/-- Two calls of a subroutine that returns at once, and a stop behind them. -/
def twoCalls : Code := #[0x5E, 0x00, 0x07, 0x5E, 0x00, 0x04, 0x00, 0x5D]

/-- A push, and the call of a subroutine that pushes too. -/
def pushBelow : Code := #[0x60, 0x01, 0x5E, 0x00, 0x03, 0x60, 0x02, 0x5D]

/-- A run comes to the stop behind the two calls, and one shows that the stack grows past a limit
of one item. -/
theorem exact_twoCalls_pushBelow :
    (∃ calls, Reachable twoCalls ⟨6, 0, calls⟩) ∧
    Shows pushBelow { stack := 1 } (.stackOverflow 5 2 1) := by
  constructor
  · have h : verify twoCalls {} = .ok ⟨twoCalls, .ofCode twoCalls,
        ⟨#[some 0, none, none, some 0, none, none, some 0, some 0]⟩, ⟨4, 1, 3, 1, 2⟩⟩ := by
      decide +kernel
    obtain ⟨heights, -⟩ := (exact_of_unshared (by decide) (by decide +kernel)).1 _ h
    exact (heights 6 0 (by decide)).mp rfl
  · exact (exact_of_unshared (by decide) (by decide +kernel)).2 _ (by decide +kernel)

end StackFlow
