import StackFlow.Machine
import StackFlow.Result
import StackFlow.Verified

/-!
# What one step of a check can do

The inversion lemmas of the check: `Frame.takes_of_advance` and
`Frame.fails_of_advance` list what an instruction makes of a frame, and
`State.goes_of_step` and `State.stops_of_step` what a step makes of a state.
`Passes` collects the states on the way, and `passes_of_verify` and
`stops_of_verify` lead from the result of a check to its last state.
-/

namespace StackFlow

namespace Heights

variable {m m' : Heights} {pc height : Nat}

theorem slot_of_at? (h : m.at? pc = some height) : m.slots[pc]? = some (some height) := by
  rwa [at?, Option.join_eq_some_iff] at h

theorem slot_of_unknown (h : m.at? pc = none) (hlt : pc < m.slots.size) :
    m.slots[pc]? = some none := by
  rw [at?, Array.getElem?_eq_getElem hlt, Option.join_some] at h
  rw [Array.getElem?_eq_getElem hlt, h]

theorem at?_of_first (h : m.arrive pc height = (.first, m')) (x : Nat) :
    m.at? pc = none ∧ m'.at? x = if x = pc then some height else m.at? x := by
  obtain ⟨slot, rfl⟩ := arrive_of_first h
  obtain ⟨hlt, _⟩ := Array.getElem?_eq_some_iff.mp slot
  refine ⟨by rw [at?, slot]; rfl, ?_⟩
  simp only [at?, Array.set!_eq_setIfInBounds, Array.getElem?_setIfInBounds, hlt]
  by_cases hx : x = pc
  · simp [hx]
  · simp [hx, Ne.symm hx]

theorem at?_of_again (h : m.arrive pc height = (.again, m')) (hlt : pc < m.slots.size) :
    m.at? pc = some height := by
  unfold arrive at h
  split at h
  · cases h
  · next expected slot =>
    split at h
    · next heq => rw [at?, slot, heq]; rfl
    · cases h
  · next slot => exact absurd (Array.getElem?_eq_none_iff.mp slot) (Nat.not_le_of_lt hlt)

theorem at?_of_conflict {expected : Nat} (h : m.arrive pc height = (.conflict expected, m')) :
    m.at? pc = some expected ∧ expected ≠ height := by
  unfold arrive at h
  split at h
  · cases h
  · next e slot =>
    split at h
    · cases h
    · next hne =>
      cases h
      exact ⟨by rw [at?, slot]; rfl, hne⟩
  · cases h

end Heights

namespace Check

open Machine (Fetch)

/-! ## Instructions -/

/-- The frames at which paths go on after a move, now or later. -/
def Move.frames : Move → List Frame
  | .halt | .ret _ => []
  | .next f | .jump f => [f]
  | .branch taken fallthrough => [taken, fallthrough]
  | .call body resume => [body, resume]

namespace Frame

variable {limits : Limits} {starts : Starts} {f : Frame} {i : Instr} {op : Opcode}

/-- The height that an opcode leaves. -/
def after (f : Frame) (op : Opcode) : Nat := f.height - op.inputs + op.outputs

/-- What an opcode that finds its items and its room makes of a frame. -/
inductive Takes (limits : Limits) (starts : Starts) (f : Frame) (i : Instr) (op : Opcode) :
    Move → Prop where
  | halt (flow : op.flow = .terminator) : Takes limits starts f i op .halt
  | next (flow : op.flow = .next) :
      Takes limits starts f i op (.next { f with pc := i.next, height := f.after op })
  | jump {t : Nat} (flow : op.flow = .jump) (target : i.target? = some (t : Int))
      (start : starts.contains t = true) :
      Takes limits starts f i op (.jump { f with pc := t })
  | branch {t : Nat} (flow : op.flow = .jumpIf) (target : i.target? = some (t : Int))
      (start : starts.contains t = true) :
      Takes limits starts f i op
        (.branch { f with pc := t, height := f.after op }
          { f with pc := i.next, height := f.after op })
  | call {t : Nat} (flow : op.flow = .call) (target : i.target? = some (t : Int))
      (start : starts.contains t = true) (room : f.depth < limits.calls.toNat) :
      Takes limits starts f i op
        (.call
          { pc := t, height := 0, base := f.base + f.height, depth := f.depth + 1,
            call? := some { entry := t, resume := i.next } }
          { f with pc := i.next })
  | ret {c : Call} (flow : op.flow = .ret) (call : f.call? = some c) :
      Takes limits starts f i op (.ret c)

/-- What can be wrong with an instruction where a frame comes to it. -/
inductive Fails (limits : Limits) (starts : Starts) (f : Frame) (i : Instr) : Violation → Prop where
  | illegal (h : ∀ op, i.opcode? = some op → op.flow = .invalid) :
      Fails limits starts f i (.invalidInstruction i.pc i.byte)
  | underflow {op : Opcode} (opcode : i.opcode? = some op) (items : f.height < op.inputs) :
      Fails limits starts f i (.stackUnderflow f.pc op.inputs f.height)
  | overflow {op : Opcode} (opcode : i.opcode? = some op) (items : op.inputs ≤ f.height)
      (room : limits.stack.toNat < f.base + f.after op) :
      Fails limits starts f i (.stackOverflow f.pc (f.base + f.after op) limits.stack.toNat)
  | truncated {op : Opcode} (opcode : i.opcode? = some op) (relative : op.isRelative = true)
      (target : i.target? = none) : Fails limits starts f i (.truncatedDisplacement i.pc)
  | destination {op : Opcode} {t : Int} (opcode : i.opcode? = some op)
      (relative : op.isRelative = true) (target : i.target? = some t)
      (start : starts.contains t = false) : Fails limits starts f i (.invalidDestination i.pc t)
  | returnOverflow {op : Opcode} {t : Nat} (opcode : i.opcode? = some op) (flow : op.flow = .call)
      (target : i.target? = some (t : Int)) (start : starts.contains t = true)
      (room : limits.calls.toNat ≤ f.depth) :
      Fails limits starts f i (.returnOverflow f.pc limits.calls.toNat)
  | returnUnderflow {op : Opcode} (opcode : i.opcode? = some op) (flow : op.flow = .ret)
      (call : f.call? = none) : Fails limits starts f i (.returnUnderflow f.pc)

theorem of_legal_eq_ok (h : legal i = .ok op) : i.opcode? = some op ∧ op.flow ≠ .invalid := by
  unfold legal at h
  split at h
  · next op' hop =>
    split at h
    · cases h
    · next hf =>
      cases h
      exact ⟨hop, hf⟩
  · cases h

theorem of_legal_eq_error {v : Violation} (h : legal i = .error v) :
    Fails limits starts f i v := by
  unfold legal at h
  split at h
  · next op' hop =>
    split at h
    · next hf =>
      cases h
      refine .illegal fun op h ↦ ?_
      cases hop.symm.trans h
      exact hf
    · cases h
  · next hop =>
    cases h
    exact .illegal fun op h ↦ by rw [hop] at h; cases h

theorem of_effect_eq_ok {n : Nat} (h : f.effect limits op = .ok n) :
    op.inputs ≤ f.height ∧ f.base + f.after op ≤ limits.stack.toNat ∧ n = f.after op := by
  unfold effect at h
  split at h
  · cases h
  · next hi =>
    simp only at h
    split at h
    · cases h
    · next hr =>
      cases h
      exact ⟨Nat.le_of_not_lt hi, Nat.le_of_not_lt hr, rfl⟩

theorem of_effect_eq_error {v : Violation} (hop : i.opcode? = some op)
    (h : f.effect limits op = .error v) : Fails limits starts f i v := by
  unfold effect at h
  split at h
  · next hi =>
    cases h
    exact .underflow hop hi
  · next hi =>
    simp only at h
    split at h
    · next hr =>
      cases h
      exact .overflow hop (Nat.le_of_not_lt hi) hr
    · cases h

theorem of_resolve_eq_ok {t : Nat} (h : resolve starts i = .ok t) :
    i.target? = some (t : Int) ∧ starts.contains t = true := by
  unfold resolve at h
  split at h
  · cases h
  · next t' ht =>
    split at h
    · next hc =>
      cases h
      have hn : 0 ≤ t' := by
        simp only [Starts.contains, Bool.and_eq_true, decide_eq_true_eq] at hc
        exact hc.1
      rw [Int.toNat_of_nonneg hn]
      exact ⟨ht, hc⟩
    · cases h

theorem of_resolve_eq_error {v : Violation} (hop : i.opcode? = some op)
    (relative : op.isRelative = true) (h : resolve starts i = .error v) :
    Fails limits starts f i v := by
  unfold resolve at h
  split at h
  · next ht =>
    cases h
    exact .truncated hop relative ht
  · next t ht =>
    split at h
    · cases h
    · next hc =>
      cases h
      exact .destination hop relative ht (by simpa using hc)

/-- An instruction that a frame gets through is legal, finds its items and its room, and does
what its flow says. -/
theorem takes_of_advance {m : Move} (h : f.advance limits starts i = .ok m) :
    ∃ op, i.opcode? = some op ∧ op.flow ≠ .invalid ∧ op.inputs ≤ f.height ∧
      f.base + f.after op ≤ limits.stack.toNat ∧ f.Takes limits starts i op m := by
  unfold advance at h
  obtain ⟨op, hop, h⟩ := bind_eq_ok.mp h
  obtain ⟨n, hn, h⟩ := bind_eq_ok.mp h
  obtain ⟨hop, hf⟩ := of_legal_eq_ok hop
  obtain ⟨hi, hr, rfl⟩ := of_effect_eq_ok hn
  refine ⟨op, hop, hf, hi, hr, ?_⟩
  split at h
  · next flow =>
    cases h
    exact .next flow
  · next flow =>
    cases h
    exact .halt flow
  · next flow => exact absurd flow hf
  · next flow =>
    obtain ⟨t, ht, h⟩ := bind_eq_ok.mp h
    cases h
    exact .jump flow (of_resolve_eq_ok ht).1 (of_resolve_eq_ok ht).2
  · next flow =>
    obtain ⟨t, ht, h⟩ := bind_eq_ok.mp h
    cases h
    exact .branch flow (of_resolve_eq_ok ht).1 (of_resolve_eq_ok ht).2
  · next flow =>
    obtain ⟨t, ht, h⟩ := bind_eq_ok.mp h
    split at h
    · cases h
    · next room =>
      cases h
      exact .call flow (of_resolve_eq_ok ht).1 (of_resolve_eq_ok ht).2 (Nat.lt_of_not_le room)
  · next flow =>
    split at h
    · cases h
    · next c hc =>
      cases h
      exact .ret flow hc

/-- An instruction that finds its items and its room, and does nothing else, is got through. -/
theorem advance_of_next (opcode : i.opcode? = some op) (flow : op.flow = .next)
    (items : op.inputs ≤ f.height) (room : f.base + f.after op ≤ limits.stack.toNat) :
    f.advance limits starts i = .ok (.next { f with pc := i.next, height := f.after op }) := by
  have legal_eq : legal i = .ok op := by simp [legal, opcode, flow]
  have effect_eq : f.effect limits op = .ok (f.after op) := by
    rw [effect, if_neg (Nat.not_lt.mpr items)]
    exact if_neg (Nat.not_lt.mpr room)
  refine bind_eq_ok.mpr ⟨_, legal_eq, bind_eq_ok.mpr ⟨_, effect_eq, ?_⟩⟩
  rw [flow]
  rfl

/-- An instruction that a frame does not get through shows what the violation says. -/
theorem fails_of_advance {v : Violation} (h : f.advance limits starts i = .error v) :
    Fails limits starts f i v := by
  unfold advance at h
  rcases bind_eq_error.mp h with h | ⟨op, hop, h⟩
  · exact of_legal_eq_error h
  obtain ⟨hop, hf⟩ := of_legal_eq_ok hop
  rcases bind_eq_error.mp h with h | ⟨n, hn, h⟩
  · exact of_effect_eq_error hop h
  have relative (hr : op.flow.isRelative = true) : op.isRelative = true := hr
  split at h
  · cases h
  · cases h
  · cases h
  · next flow =>
    rcases bind_eq_error.mp h with h | ⟨t, ht, h⟩
    · exact of_resolve_eq_error hop (relative (by rw [flow]; rfl)) h
    · cases h
  · next flow =>
    rcases bind_eq_error.mp h with h | ⟨t, ht, h⟩
    · exact of_resolve_eq_error hop (relative (by rw [flow]; rfl)) h
    · cases h
  · next flow =>
    rcases bind_eq_error.mp h with h | ⟨t, ht, h⟩
    · exact of_resolve_eq_error hop (relative (by rw [flow]; rfl)) h
    · split at h
      · next room =>
        cases h
        exact .returnOverflow hop flow (of_resolve_eq_ok ht).1 (of_resolve_eq_ok ht).2 room
      · cases h
  · next flow =>
    split at h
    · next hc =>
      cases h
      exact .returnUnderflow hop flow hc
    · cases h

end Frame

/-! ## States -/

namespace State

/-- The subroutine in which an offset was reached first; none for the top level, and for an
offset not reached. -/
def owner? (s : State) (pc : Nat) : Option Nat := s.owners[pc]?.join

/-- Takes down that a frame has come to a new offset. -/
def visit (s : State) (f : Frame) : State :=
  { s with
    heights := ⟨s.heights.slots.set! f.pc (some f.height)⟩
    owners := s.owners.set! f.pc f.entry? }

/-- What a step makes of a state in which the path stands at frame `f`. -/
inductive Goes (code : Code) (starts : Starts) (limits : Limits) (s : State) (f : Frame) :
    State → List Event → Prop where
  | ends (past : code.size ≤ f.pc) : Goes code starts limits s f s.turn []
  | prunes {i : Instr} (fetch : decode code f.pc = some i)
      (known : s.heights.at? f.pc = some f.height) :
      Goes code starts limits s f (s.prune f) [.prune f.pc f.height]
  | visits {i : Instr} {op : Opcode} {m : Move} (fetch : Fetch code f.pc i op)
      (new : s.heights.at? f.pc = none) (legal : op.flow ≠ .invalid) (items : op.inputs ≤ f.height)
      (room : f.base + f.after op ≤ limits.stack.toNat) (takes : f.Takes limits starts i op m) :
      Goes code starts limits s f ((s.visit f).follow m)
        (.visit f.pc i.byte f.height f.depth :: m.edges f.pc)

/-- Why a step fails. -/
inductive Stops (code : Code) (starts : Starts) (limits : Limits) (s : State) (f : Frame) :
    Violation → Prop where
  | conflict {expected : Nat} (known : s.heights.at? f.pc = some expected)
      (other : expected ≠ f.height) :
      Stops code starts limits s f (.heightMismatch f.pc expected f.height)
  | fails {i : Instr} {v : Violation} (fetch : decode code f.pc = some i)
      (new : s.heights.at? f.pc = none) (fails : f.Fails limits starts i v) :
      Stops code starts limits s f v

variable {code : Code} {starts : Starts} {limits : Limits} {s s' : State} {events : List Event}

theorem goes_of_step (hs : s.heights.slots.size = code.size)
    (h : s.step code starts limits = .next s' events) :
    ∃ f, s.path? = some f ∧ s.Goes code starts limits f s' events := by
  unfold step at h
  split at h
  · cases h
  · next f path =>
    refine ⟨f, path, ?_⟩
    split at h
    · next past =>
      cases h
      exact .ends (decode_eq_none_iff.mp past)
    · next i fetch =>
      split at h
      · cases h
      · next heights arrive =>
        cases h
        have known := Heights.at?_of_again arrive (hs ▸ lt_size_of_decode fetch)
        cases Heights.arrive_of_again arrive
        exact .prunes fetch known
      · next heights arrive =>
        split at h
        · cases h
        · next m run =>
          cases h
          have new := (Heights.at?_of_first arrive 0).1
          obtain ⟨_, rfl⟩ := Heights.arrive_of_first arrive
          obtain ⟨op, opcode, legal, items, room, takes⟩ := Frame.takes_of_advance run
          exact .visits ⟨fetch, opcode⟩ new legal items room takes

theorem stops_of_step {v : Violation} (h : s.step code starts limits = .fail v events) :
    ∃ f, s.path? = some f ∧ s.Stops code starts limits f v := by
  unfold step at h
  split at h
  · cases h
  · next f path =>
    refine ⟨f, path, ?_⟩
    split at h
    · cases h
    · next i fetch =>
      split at h
      · next expected heights arrive =>
        cases h
        obtain ⟨known, other⟩ := Heights.at?_of_conflict arrive
        exact .conflict known other
      · cases h
      · next heights arrive =>
        split at h
        · next v' run =>
          cases h
          exact .fails fetch (Heights.at?_of_first arrive 0).1 (Frame.fails_of_advance run)
        · cases h

variable {f : Frame} {i : Instr}

theorem step_of_idle (path : s.path? = none) : s.step code starts limits = .done s := by
  simp only [step, path]

theorem step_of_past (path : s.path? = some f) (past : code.size ≤ f.pc) :
    s.step code starts limits = .next s.turn [] := by
  rw [← decode_eq_none_iff] at past
  simp only [step, path, past]

theorem step_of_known {height : Nat} (path : s.path? = some f)
    (fetch : decode code f.pc = some i) (known : s.heights.at? f.pc = some height) :
    s.step code starts limits =
      if height = f.height then .next (s.prune f) [.prune f.pc f.height]
      else .fail (.heightMismatch f.pc height f.height) [] := by
  simp only [step, path, fetch, Heights.arrive, Heights.slot_of_at? known]
  by_cases h : height = f.height
  · simp only [h, if_true, ← path]
  · simp only [h, if_false]

theorem step_of_new (path : s.path? = some f) (fetch : decode code f.pc = some i)
    (new : s.heights.at? f.pc = none) (hlt : f.pc < s.heights.slots.size) :
    s.step code starts limits =
      match f.advance limits starts i with
      | .error v => .fail v [.visit f.pc i.byte f.height f.depth]
      | .ok m => .next ((s.visit f).follow m)
          (.visit f.pc i.byte f.height f.depth :: m.edges f.pc) := by
  simp only [step, path, fetch, Heights.arrive, Heights.slot_of_unknown new hlt]
  rfl

/-- A violation shows where the path stands. -/
theorem Stops.pc_eq {v : Violation} (h : s.Stops code starts limits f v) : v.pc = f.pc := by
  cases h with
  | conflict => rfl
  | fails fetch _ fails =>
    have here := pc_of_decode fetch
    cases fails with
    | illegal | truncated | destination => exact here
    | underflow | overflow | returnOverflow | returnUnderflow => rfl

/-- A step that fails reports the visit of the instruction at fault, or nothing if the path comes
to a known offset. -/
theorem Stops.events_eq {v : Violation} (h : s.Stops code starts limits f v)
    (path : s.path? = some f) (hs : s.heights.slots.size = code.size)
    (step : s.step code starts limits = .fail v events) :
    v.kind = .heightMismatch ∧ events = [] ∨
      v.kind ≠ .heightMismatch ∧ s.heights.at? f.pc = none ∧
        ∃ i, decode code f.pc = some i ∧ events = [.visit f.pc i.byte f.height f.depth] := by
  cases h with
  | @conflict expected known other =>
    obtain ⟨hlt, -⟩ := Array.getElem?_eq_some_iff.mp (Heights.slot_of_at? known)
    obtain ⟨i, fetch⟩ := Option.ne_none_iff_exists'.mp fun none ↦
      Nat.not_le_of_lt (hs ▸ hlt) (decode_eq_none_iff.mp none)
    rw [step_of_known path fetch known, if_neg other] at step
    cases step
    exact .inl ⟨rfl, rfl⟩
  | @fails i v fetch new fails =>
    refine .inr ⟨?_, new, i, fetch, ?_⟩
    · cases fails <;> nofun
    · rw [step_of_new path fetch new (hs ▸ lt_size_of_decode fetch)] at step
      split at step
      · cases step
        rfl
      · cases step

theorem path?_of_done (h : s.step code starts limits = .done s') : s.path? = none ∧ s' = s := by
  unfold step at h
  split at h
  · next path =>
    cases h
    exact ⟨path, rfl⟩
  · split at h
    · cases h
    · split at h
      · cases h
      · cases h
      · split at h <;> cases h

end State

/-! ## Runs -/

/-- The states that the check of a code comes through. -/
inductive Passes (code : Code) (limits : Limits) : State → Prop where
  | initial : Passes code limits (.initial code.size)
  | step {s s' : State} {events : List Event} (before : Passes code limits s)
      (step : s.step code (.ofCode code) limits = .next s' events) : Passes code limits s'

variable {code : Code} {limits : Limits}

/-- The states of a check from one of them on, in order. -/
def State.course (code : Code) (limits : Limits) (s : State) : List State :=
  match _h : s.step code (.ofCode code) limits with
  | .next s' _ => s :: s'.course code limits
  | .done _ | .fail .. => [s]
termination_by s.potential
decreasing_by exact State.potential_step _h

theorem Passes.of_mem_course {s b : State} (h : Passes code limits s)
    (hb : b ∈ s.course code limits) : Passes code limits b := by
  fun_induction State.course code limits s with
  | case1 s s' events step ih =>
    rcases List.mem_cons.mp hb with rfl | hb
    · exact h
    · exact ih (h.step step) hb
  | case2 s s' step | case3 s v events step => exact List.mem_singleton.mp hb ▸ h

theorem State.mem_course_self (s : State) : s ∈ s.course code limits := by
  rw [course]
  split <;> exact List.mem_cons_self

theorem State.step_mem_course {s b b' : State} {events : List Event}
    (hb : b ∈ s.course code limits) (step : b.step code (.ofCode code) limits = .next b' events) :
    b' ∈ s.course code limits := by
  fun_induction State.course code limits s with
  | case1 s s' events' first ih =>
    rcases List.mem_cons.mp hb with rfl | hb
    · cases first.symm.trans step
      exact List.mem_cons_of_mem _ (State.mem_course_self _)
    · exact List.mem_cons_of_mem _ (ih hb)
  | case2 s s' last | case3 s v events' last =>
    cases List.mem_singleton.mp hb
    cases last.symm.trans step

/-- The course of a check holds the states that it comes through. -/
theorem mem_course_iff {s : State} :
    s ∈ (State.initial code.size).course code limits ↔ Passes code limits s := by
  constructor
  · exact Passes.initial.of_mem_course
  · intro h
    induction h with
    | initial => exact State.mem_course_self _
    | step _ step ih => exact State.step_mem_course ih step

/-- A run from a state on the way ends in one, idle if the run succeeds, stuck if it fails. -/
theorem Passes.run {σ : Type} {sink : Sink σ} {s : State} {t : σ} (h : Passes code limits s) :
    match (s.run code (.ofCode code) limits sink t).1 with
    | .ok s' => Passes code limits s' ∧ s'.path? = none
    | .error v => ∃ s' events, Passes code limits s' ∧
        s'.step code (.ofCode code) limits = .fail v events := by
  fun_induction State.run code (.ofCode code) limits sink s t with
  | case1 s t s' hs =>
    obtain ⟨path, rfl⟩ := State.path?_of_done hs
    exact ⟨h, path⟩
  | case2 s t v events hs => exact ⟨s, events, h, hs⟩
  | case3 s t s' events hs ih => exact ih (h.step hs)

theorem verify_of_lt (h : limits.maxCodeLength < code.size) :
    verify code limits = .error (.codeTooLong code.size limits.maxCodeLength) := by
  simp [verify, verifyWith, explore, h]

theorem verify_of_le (h : code.size ≤ limits.maxCodeLength) :
    verify code limits = ((State.initial code.size).run code (.ofCode code) limits
      ({} : Sink Unit) ()).1.map (Verified.ofState code (.ofCode code)) := by
  simp [verify, verifyWith, explore, Nat.not_lt_of_le h]

/-- The run of a check is that of any state which it comes through. -/
theorem Passes.run_initial {s : State} (h : Passes code limits s) :
    (State.initial code.size).run code (.ofCode code) limits ({} : Sink Unit) () =
      s.run code (.ofCode code) limits {} () := by
  induction h with
  | initial => rfl
  | step _ step ih =>
    rw [ih, State.run]
    split <;> simp_all

/-- A violation at a state that the check comes through is its result. -/
theorem Passes.verify_of_fail {s : State} {w : Violation} {events : List Event}
    (h : Passes code limits s) (hle : code.size ≤ limits.maxCodeLength)
    (step : s.step code (.ofCode code) limits = .fail w events) :
    verify code limits = .error w := by
  have run : (s.run code (.ofCode code) limits ({} : Sink Unit) ()).1 = .error w := by
    rw [State.run]
    split <;> simp_all
  rw [verify_of_le hle, h.run_initial, run]
  rfl

/-- Accepted code has been followed to the end. -/
theorem passes_of_verify {v : Verified} (h : verify code limits = .ok v) :
    code.size ≤ limits.maxCodeLength ∧ ∃ s, Passes code limits s ∧ s.path? = none ∧
      v = .ofState code (.ofCode code) s := by
  rcases Nat.lt_or_ge limits.maxCodeLength code.size with hlt | hle
  · rw [verify_of_lt hlt] at h
    cases h
  refine ⟨hle, ?_⟩
  rw [verify_of_le hle] at h
  have hrun := @Passes.run code limits Unit {} _ () .initial
  split at hrun
  · next s hs =>
    rw [hs] at h
    cases h
    exact ⟨s, hrun.1, hrun.2, rfl⟩
  · next w hw =>
    rw [hw] at h
    cases h

/-- Code that is short enough is rejected at a state where the check cannot go on. -/
theorem stops_of_verify {v : Violation} (hle : code.size ≤ limits.maxCodeLength)
    (h : verify code limits = .error v) :
    ∃ s events, Passes code limits s ∧ s.step code (.ofCode code) limits = .fail v events := by
  rw [verify_of_le hle] at h
  have hrun := @Passes.run code limits Unit {} _ () .initial
  split at hrun
  · next s hs =>
    rw [hs] at h
    cases h
  · next w hw =>
    rw [hw] at h
    cases h
    exact hrun

end Check

end StackFlow
