import StackFlow.Proofs.Tiling
import StackFlow.Proofs.Trace

/-!
# A check does linear work

`Rounds` follows a check round by round to its end and counts.  Every check has
one, so every check ends, and the books kept on the way (`Books`) charge each
round to a first visit or to a frame that ends in it, and each frame to the
branch or call that brought it up, whether it was pushed at once or waited for
a subroutine to return.  Since no offset is visited twice, the rounds are at
most twice as many as the instruction starts, and one.
-/

namespace StackFlow

/-- The offset of a first visit, and the byte there. -/
def Event.visit? : Event → Option (Nat × UInt8)
  | .visit pc byte _ _ => some (pc, byte)
  | _ => none

/-- The first visits among events, in order. -/
def visits (events : List Event) : List (Nat × UInt8) := events.filterMap Event.visit?

/-- The number of visits of an opcode. -/
def visitsOf (op : Opcode) (vs : List (Nat × UInt8)) : Nat := vs.countP fun p ↦ p.2 = op.toByte

variable {code : Code} {limits : Limits} {events later : List Event}

theorem visits_append (events later : List Event) :
    visits (events ++ later) = visits events ++ visits later :=
  List.filterMap_append

theorem visitsOf_append (op : Opcode) (vs ws : List (Nat × UInt8)) :
    visitsOf op (vs ++ ws) = visitsOf op vs + visitsOf op ws :=
  List.countP_append

/-- The opcode whose instructions pass control along the edges of a kind. -/
def EdgeKind.opcode : EdgeKind → Opcode
  | .jump => .rjump
  | .branchTaken | .branchFallthrough => .rjumpi
  | .call => .rjumpsub
  | .ret => .returnsub

/-- The opcodes with edges are told apart from all others by their flow. -/
theorem EdgeKind.eq_opcode_iff (kind : EdgeKind) {op : Opcode} :
    op = kind.opcode ↔ op.flow = kind.opcode.flow := by
  constructor
  · rintro rfl
    rfl
  · cases kind <;> cases op <;> first | exact fun _ ↦ rfl | nofun

/-- Branches and calls are different instructions, so they are not more than all. -/
theorem visitsOf_add_le (vs : List (Nat × UInt8)) :
    visitsOf .rjumpi vs + visitsOf .rjumpsub vs ≤ vs.length := by
  unfold visitsOf
  induction vs with
  | nil => exact Nat.le_refl _
  | cons p ps ih =>
    have apart : ¬ (p.2 = Opcode.rjumpi.toByte ∧ p.2 = Opcode.rjumpsub.toByte) := by
      rintro ⟨h, h'⟩
      rw [h] at h'
      exact absurd h' (by decide)
    simp only [List.countP_cons, List.length_cons, decide_eq_true_eq]
    split <;> split <;> first | omega | exact absurd ⟨‹_›, ‹_›⟩ apart

namespace Check

open Machine (Fetch)

/-! ## Frames -/

/-- The number of frames that a move puts off. -/
def Move.puts : Move → Nat
  | .branch .. | .call .. => 1
  | .halt | .next _ | .jump _ | .ret _ => 0

/-- The number of frames that a move ends. -/
def Move.ends : Move → Nat
  | .halt | .ret _ => 1
  | .next _ | .jump _ | .branch .. | .call .. => 0

namespace Worklist

/-- The work has grown by as many frames as were counted. -/
def Grows (w w' : Worklist) : Prop := w'.pushed + w.frames.size = w.pushed + w'.frames.size

theorem grows_push (w : Worklist) (f : Frame) : w.Grows (w.push f) := by
  simp only [Grows, push, Array.size_push]
  omega

theorem grows_pushAll (w : Worklist) (fs : List Frame) : w.Grows (w.pushAll fs) := by
  induction fs generalizing w with
  | nil => rfl
  | cons f fs ih =>
    have first := w.grows_push f
    have rest := ih (w.push f)
    simp only [Grows, pushAll, List.foldl_cons] at first rest ⊢
    omega

end Worklist

namespace Waits

open Worklist

theorem grows_release (entries : List Nat) (w : Waits) (work : Worklist) :
    work.Grows (release entries w work).2 := by
  fun_induction release entries w work with
  | case1 => rfl
  | case2 _ _ _ _ _ ih => exact ih
  | case3 w work e rest _ ih =>
    have pushed := work.grows_pushAll ((w.parkedAt e).filterMap Waiter.frame?)
    simp only [Grows] at pushed ih ⊢
    omega

theorem grows_wait (w : Waits) (e : Nat) (x : Waiter) (work : Worklist) :
    work.Grows (w.wait e x work).2 := by
  unfold wait
  split
  · cases x with
    | resume f => exact work.grows_push f
    | entry d => exact grows_release [d] w work
  · rfl

end Waits

namespace State

variable {s s' : State} {f : Frame} {size : Nat}

/-- The number of frames at hand or at work. -/
def load (s : State) : Nat := s.path?.toList.length + s.work.frames.size

/-- Between two states so many frames were put off, and so many came to an end.  Releasing a frame
that waits is no more than moving it. -/
structure Spends (put ended : Nat) (s s' : State) : Prop where
  put : s'.work.pushed + s'.waits.suspended = s.work.pushed + s.waits.suspended + put
  ended : s'.load + ended + s.work.pushed = s.load + s'.work.pushed

theorem spends_turn (path : s.path? = some f) : Spends 0 1 s s.turn where
  put := rfl
  ended := by
    have := s.potential_turn
    simp only [potential, path, Option.toList_some, List.length_singleton] at this
    simp only [load, path, Option.toList_some, List.length_singleton, turn, Worklist.pop] at this ⊢
    omega

/-- Taking the waits and the work over first, a path that ends takes no more with it. -/
theorem spends_turn_of_waits {waits : Waits} {work : Worklist} (path : s.path? = some f)
    (same : work.frames.size + waits.suspended = s.work.frames.size + s.waits.suspended)
    (grows : s.work.Grows work) (prunes : Nat) :
    Spends 0 1 s (turn { s with waits, work, prunes }) := by
  obtain ⟨put, ended⟩ := spends_turn (s := { s with waits, work, prunes }) path
  unfold Worklist.Grows at grows
  simp only [load] at put ended
  constructor
  · omega
  · simp only [load]
    omega

theorem spends_follow {m : Move} (path : s.path? = some f) (hw : s.waits.Fits size)
    (hm : m.InBounds size) : Spends m.puts m.ends s (s.follow m) := by
  cases m with
  | halt => exact spends_turn path
  | next g | jump g =>
    constructor <;> simp [follow, load, path, Move.puts, Move.ends]
  | branch taken fallthrough =>
    constructor <;> simp [follow, load, path, Move.puts, Move.ends, Worklist.push] <;> omega
  | call body resume =>
    have waiting := Waits.size_wait hw hm (.resume resume) s.work
    have grows := s.waits.grows_wait body.pc (.resume resume) s.work
    simp only [Worklist.Grows, Waiter.frame?, List.filterMap_cons, List.filterMap_nil,
      List.length_singleton] at waiting grows
    constructor <;> simp only [follow, load, path, Move.puts, Move.ends, Option.toList_some,
      List.length_singleton] <;> omega
  | ret c =>
    have moved := s.waits.size_release [c.entry] s.work
    have grows := Waits.grows_release [c.entry] s.waits s.work
    exact spends_turn_of_waits path moved grows s.prunes

theorem spends_prune (path : s.path? = some f) (hw : s.waits.Fits size)
    (ho : ∀ o ∈ s.owner? f.pc, o < size) :
    Spends 0 1 s (s.prune f) ∧ (s.prune f).prunes = s.prunes + 1 := by
  unfold prune
  split
  · next entry owner _ howner =>
    split
    · exact ⟨spends_turn_of_waits path rfl rfl _, rfl⟩
    · have waiting := Waits.size_wait hw (ho owner howner) (.entry entry) s.work
      have grows := s.waits.grows_wait owner (.entry entry) s.work
      exact ⟨spends_turn_of_waits path waiting grows _, rfl⟩
  · exact ⟨spends_turn_of_waits path rfl rfl _, rfl⟩

@[simp] theorem prunes_follow (s : State) (m : Move) : (s.follow m).prunes = s.prunes := by
  cases m <;> rfl

end State

/-! ## Rounds -/

variable {s s' last : State} {n k : Nat}

/-- From a state on, a check takes so many rounds and reports events on the way to its last state,
where either nothing is left to follow or one more round, counted as well, shows a violation. -/
inductive Rounds (code : Code) (limits : Limits) : State → Nat → List Event → State → Prop where
  | done {s : State} (path : s.path? = none) : Rounds code limits s 0 [] s
  | fail {s : State} {v : Violation} {events : List Event}
      (step : s.step code (.ofCode code) limits = .fail v events) :
      Rounds code limits s 1 events s
  | next {s s' last : State} {n : Nat} {events later : List Event}
      (step : s.step code (.ofCode code) limits = .next s' events)
      (rest : Rounds code limits s' n later last) :
      Rounds code limits s (n + 1) (events ++ later) last

/-- Every check ends. -/
theorem exists_rounds (code : Code) (limits : Limits) (s : State) :
    ∃ n events last, Rounds code limits s n events last := by
  fun_induction State.course code limits s with
  | case1 s s' events step ih =>
    obtain ⟨n, later, last, rest⟩ := ih
    exact ⟨n + 1, events ++ later, last, .next step rest⟩
  | case2 s s' step => exact ⟨0, [], s, .done (State.path?_of_done step).1⟩
  | case3 s v events step => exact ⟨1, events, s, .fail step⟩

/-- What a run comes to that has nothing left to follow but the round at hand. -/
def State.outcome (code : Code) (limits : Limits) (s : State) : Except Violation State :=
  match s.step code (.ofCode code) limits with
  | .fail v _ => .error v
  | .done _ | .next .. => .ok s

/-- A run hands the events of its rounds to the sink, and its result is that of the last state. -/
theorem Rounds.run_eq {σ : Type} (h : Rounds code limits s n events last) (sink : Sink σ) (t : σ) :
    s.run code (.ofCode code) limits sink t =
      (last.outcome code limits, sink.observe events t) := by
  induction h generalizing t with
  | @done s path =>
    have step : s.step code (.ofCode code) limits = .done s := State.step_of_idle path
    rw [State.run, State.outcome]
    split <;> simp_all
  | @fail s v events step =>
    rw [State.run, State.outcome]
    split <;> simp_all
  | @next s s' last n events later step _ ih =>
    rw [State.run]
    split
    · next step' => cases step.symm.trans step'
    · next step' => cases step.symm.trans step'
    · next step' =>
      cases step.symm.trans step'
      rw [ih, Sink.observe_append]

/-- The last state has nothing left to follow, or it shows a violation. -/
theorem Rounds.outcome_eq (h : Rounds code limits s n events last) :
    last.path? = none ∧ last.outcome code limits = .ok last ∨
      ∃ v new, last.step code (.ofCode code) limits = .fail v new ∧
        last.outcome code limits = .error v := by
  induction h with
  | @done s path =>
    refine .inl ⟨path, ?_⟩
    rw [State.outcome, State.step_of_idle path]
  | @fail s v events step =>
    refine .inr ⟨v, events, step, ?_⟩
    rw [State.outcome, step]
  | next _ _ ih => exact ih

/-- A check hands the events of its rounds to the sink, between those of its start and its end. -/
theorem Rounds.verifyWith_eq {σ : Type} (h : Rounds code limits (.initial code.size) n events last)
    (hle : code.size ≤ limits.maxCodeLength) (sink : Sink σ) (t : σ) :
    let result := (last.outcome code limits).map (Verified.ofState code (.ofCode code))
    verifyWith sink code limits t = (result, sink.observe
      (.runStart code.size :: events ++ [.runEnd (violation? result)]) t) := by
  simp only [verifyWith, explore, Nat.not_lt_of_le hle, if_false, h.run_eq, ← Sink.observe_append]
  rfl

/-- The rounds of a whole check give its report, and its heights and counts if it succeeds. -/
theorem Rounds.reports (h : Rounds code limits (.initial code.size) n events last)
    (hle : code.size ≤ limits.maxCodeLength) :
    trace code limits =
      .runStart code.size :: events ++ [.runEnd (violation? (verify code limits))] ∧
    ∀ v, verify code limits = .ok v →
      v = .ofState code (.ofCode code) last ∧ last.path? = none := by
  simp only [trace, verify, h.verifyWith_eq hle, Sink.toList_observe_recorder_all]
  refine ⟨rfl, fun v ok ↦ ?_⟩
  rcases h.outcome_eq with ⟨path, outcome⟩ | ⟨w, new, -, outcome⟩
  · rw [outcome] at ok
    cases ok
    exact ⟨rfl, path⟩
  · rw [outcome] at ok
    cases ok

/-! ## Books -/

/-- What a check has done so far: the offsets visited are different instruction starts, and every
round and every frame is accounted for. -/
structure Books (code : Code) (rounds : Nat) (vs : List (Nat × UInt8)) (s : State) : Prop where
  nodup : (vs.map Prod.fst).Nodup
  start : ∀ p ∈ vs, IsStart code p.1
  pushed : s.work.pushed + s.waits.suspended ≤ 1 + visitsOf .rjumpi vs + visitsOf .rjumpsub vs
  rounds : rounds + s.load ≤ vs.length + s.work.pushed
  prunes : s.prunes + s.load ≤ s.work.pushed

/-- The offsets visited are those known. -/
structure Recorded (vs : List (Nat × UInt8)) (s : State) : Prop where
  known : ∀ p ∈ vs, s.heights.at? p.1 ≠ none
  reached : s.heights.reached = vs.length

variable {vs : List (Nat × UInt8)} {f : Frame} {i : Instr} {op : Opcode} {m : Move}

theorem books_initial (code : Code) : Books code 0 [] (.initial code.size) where
  nodup := List.nodup_nil
  start := fun _ h ↦ absurd h List.not_mem_nil
  pushed := by simp [State.initial, Worklist.push, Worklist.pop, visitsOf]
  rounds := by simp [State.initial, State.load, Worklist.push, Worklist.pop]
  prunes := by simp [State.initial, State.load, Worklist.push, Worklist.pop]

theorem recorded_initial (size : Nat) : Recorded [] (.initial size) where
  known := fun _ h ↦ absurd h List.not_mem_nil
  reached := by simp [State.initial, Heights.reached, Heights.empty]

/-- A round without a visit ends a frame. -/
theorem Books.end (books : Books code n vs s) (spends : State.Spends 0 1 s s')
    (prunes : s'.prunes ≤ s.prunes + 1) : Books code (n + 1) vs s' := by
  obtain ⟨put, ended⟩ := spends
  obtain ⟨nodup, start, pushed, rounds, prunes⟩ := books
  exact ⟨nodup, start, by omega, by omega, by omega⟩

theorem Recorded.nodup_visit (recorded : Recorded vs s) (nodup : (vs.map Prod.fst).Nodup)
    (new : s.heights.at? f.pc = none) (byte : UInt8) :
    ((vs ++ [(f.pc, byte)]).map Prod.fst).Nodup := by
  rw [List.map_append, List.map_singleton]
  refine List.nodup_append.mpr ⟨nodup, List.nodup_singleton _, ?_⟩
  intro pc old pc' here same
  obtain ⟨p, hp, rfl⟩ := List.mem_map.mp old
  apply recorded.known p hp
  rw [same, List.mem_singleton.mp here, new]

/-- The first offset of a frame is visited in a round that fails, too. -/
theorem Books.fail (books : Books code n vs s) (recorded : Recorded vs s)
    (new : s.heights.at? f.pc = none) (start : IsStart code f.pc) (byte : UInt8) :
    Books code (n + 1) (vs ++ [(f.pc, byte)]) s where
  nodup := recorded.nodup_visit books.nodup new byte
  start := by
    intro p hp
    rcases List.mem_append.mp hp with hp | hp
    · exact books.start p hp
    · cases List.mem_singleton.mp hp
      exact start
  pushed := by
    have := books.pushed
    simp only [visitsOf_append]
    omega
  rounds := by
    have := books.rounds
    rw [List.length_append, List.length_singleton]
    omega
  prunes := books.prunes

/-- The byte of an instruction is that of an opcode with edges if the flow is. -/
theorem byte_eq_iff (opcode : i.opcode? = some op) (kind : EdgeKind) :
    i.byte = kind.opcode.toByte ↔ op.flow = kind.opcode.flow := by
  rw [← EdgeKind.eq_opcode_iff, ← Opcode.toByte_of_ofByte? opcode]
  constructor
  · intro h
    rw [← Option.some.injEq, ← Opcode.ofByte?_toByte op, h, Opcode.ofByte?_toByte]
  · rintro rfl
    rfl

theorem visitsOf_singleton (opcode : i.opcode? = some op) (kind : EdgeKind) (pc : Nat) :
    visitsOf kind.opcode [(pc, i.byte)] = if op.flow = kind.opcode.flow then 1 else 0 := by
  simp [visitsOf, byte_eq_iff opcode kind]

/-- A move puts off a frame at a branch or call only. -/
theorem puts_eq (opcode : i.opcode? = some op) (takes : f.Takes limits (.ofCode code) i op m) :
    m.puts = visitsOf .rjumpi [(f.pc, i.byte)] + visitsOf .rjumpsub [(f.pc, i.byte)] := by
  have branch : visitsOf .rjumpi [(f.pc, i.byte)] = _ := visitsOf_singleton opcode .branchTaken _
  have call : visitsOf .rjumpsub [(f.pc, i.byte)] = _ := visitsOf_singleton opcode .call _
  rw [branch, call]
  cases takes with
  | halt flow | next flow | jump flow | branch flow | call flow | ret flow =>
    rw [flow]
    rfl

/-- A round with a visit pays for itself and for the frame that it puts off. -/
theorem Books.visit (books : Books code n vs s) (recorded : Recorded vs s)
    (path : s.path? = some f) (hw : s.waits.Fits code.size) (bounds : m.InBounds code.size)
    (new : s.heights.at? f.pc = none) (start : IsStart code f.pc) (opcode : i.opcode? = some op)
    (takes : f.Takes limits (.ofCode code) i op m) :
    Books code (n + 1) (vs ++ [(f.pc, i.byte)]) ((s.visit f).follow m) := by
  obtain ⟨put, ended⟩ := State.spends_follow (s := s.visit f) (f := f) path hw bounds
  change _ = s.work.pushed + s.waits.suspended + _ at put
  change _ + s.work.pushed = s.load + _ at ended
  have puts := puts_eq opcode takes
  obtain ⟨nodup, starts, pushed, rounds, prunes⟩ := books.fail recorded new start i.byte
  have before := books.pushed
  refine ⟨nodup, starts, ?_, by omega, ?_⟩
  · simp only [visitsOf_append]
    omega
  · rw [State.prunes_follow]
    change s.prunes + _ ≤ _
    omega

theorem Recorded.visit (recorded : Recorded vs s) (new : s.heights.at? f.pc = none)
    (slot : f.pc < s.heights.slots.size) (byte : UInt8) :
    Recorded (vs ++ [(f.pc, byte)]) ((s.visit f).follow m) where
  known := by
    intro p hp
    rw [State.at?_follow_visit slot]
    split
    · exact Option.some_ne_none _
    · next other =>
      rcases List.mem_append.mp hp with hp | hp
      · exact recorded.known p hp
      · exact absurd (congrArg Prod.fst (List.mem_singleton.mp hp)) other
  reached := by
    rw [State.heights_follow, State.reached_visit new slot, recorded.reached, List.length_append,
      List.length_singleton]

@[simp] theorem visits_edges (m : Move) (pc : Nat) : visits (m.edges pc) = [] := by
  cases m <;> rfl

theorem visits_visit (pc : Nat) (byte : UInt8) (height depth : Nat) (es : List Event) :
    visits (.visit pc byte height depth :: es) = (pc, byte) :: visits es := rfl

theorem Books.step {new : List Event} (before : Passes code limits s)
    (books : Books code n vs s) (recorded : Recorded vs s)
    (step : s.step code (.ofCode code) limits = .next s' new) :
    Books code (n + 1) (vs ++ visits new) s' ∧ Recorded (vs ++ visits new) s' := by
  have inv := before.inv
  obtain ⟨f, path, goes⟩ := State.goes_of_step inv.slots step
  cases goes with
  | ends =>
    rw [show visits [] = [] from rfl, List.append_nil]
    exact ⟨books.end (State.spends_turn path) (Nat.le_succ _), recorded.known, recorded.reached⟩
  | prunes =>
    obtain ⟨spends, prunes⟩ := State.spends_prune path inv.waits (inv.owner_lt f.pc)
    rw [show visits [.prune f.pc f.height] = [] from rfl, List.append_nil]
    refine ⟨books.end spends prunes.le, ?_, ?_⟩
    · rw [State.heights_prune]
      exact recorded.known
    · rw [State.heights_prune]
      exact recorded.reached
  | visits fetch unknown _ _ _ takes =>
    have lt := lt_size_of_decode fetch.decode
    have sound := inv.sound f (.inl (.inl path))
    have bounds := (sound.of_takes fetch.decode takes).2
    rw [visits_visit, visits_edges]
    exact ⟨books.visit recorded path inv.waits bounds unknown (sound.start lt) fetch.opcode takes,
      recorded.visit unknown (inv.slots ▸ lt) _⟩

/-- The books of a check that has ended. -/
structure Totals (code : Code) (rounds : Nat) (vs : List (Nat × UInt8)) (last : State) : Prop where
  nodup : (vs.map Prod.fst).Nodup
  start : ∀ p ∈ vs, IsStart code p.1
  pushed : last.work.pushed ≤ 1 + visitsOf .rjumpi vs + visitsOf .rjumpsub vs
  rounds : rounds ≤ vs.length + last.work.pushed
  settled : last.path? = none → last.heights.reached = vs.length ∧ last.prunes ≤ last.work.pushed

theorem Books.totals (books : Books code n vs s)
    (settled : s.path? = none → s.heights.reached = vs.length) : Totals code n vs s where
  nodup := books.nodup
  start := books.start
  pushed := Nat.le_trans (Nat.le_add_right _ _) books.pushed
  rounds := Nat.le_trans (Nat.le_add_right _ _) books.rounds
  settled := fun path ↦ ⟨settled path, Nat.le_trans (Nat.le_add_right _ _) books.prunes⟩

/-- By induction on the rounds: the books are kept up to the end. -/
theorem Rounds.totals (h : Rounds code limits s k later last) (before : Passes code limits s)
    (books : Books code n vs s) (recorded : Recorded vs s) :
    Totals code (n + k) (vs ++ visits later) last := by
  induction h generalizing n vs with
  | done =>
    rw [show visits [] = [] from rfl, List.append_nil]
    exact books.totals fun _ ↦ recorded.reached
  | @fail s v events step =>
    obtain ⟨f, path, stops⟩ := State.stops_of_step step
    rcases stops.events_eq path before.inv.slots step with ⟨-, rfl⟩ | ⟨-, new, i, fetch, rfl⟩
    · have busy : s.path? = none → s.heights.reached = vs.length := by
        intro idle
        cases path.symm.trans idle
      have := books.rounds
      rw [State.load, path, Option.toList_some, List.length_singleton] at this
      rw [show visits [] = [] from rfl, List.append_nil]
      exact { books.totals busy with rounds := by omega }
    · have start : IsStart code f.pc :=
        (before.inv.sound f (.inl (.inl path))).start (lt_size_of_decode fetch)
      refine (books.fail recorded new start i.byte).totals fun idle ↦ ?_
      cases path.symm.trans idle
  | next step _ ih =>
    obtain ⟨books, recorded⟩ := books.step before recorded step
    have totals := ih (before.step step) books recorded
    rwa [List.append_assoc, ← visits_append, Nat.add_right_comm] at totals

/-- There are no more visits than instruction starts. -/
theorem Totals.length_le (h : Totals code n vs last) : vs.length ≤ (sweep code).length := by
  have starts : vs.map Prod.fst ⊆ (sweep code).map Instr.pc := by
    intro pc hpc
    obtain ⟨p, hp, rfl⟩ := List.mem_map.mp hpc
    obtain ⟨i, hi, start⟩ := h.start p hp
    exact List.mem_map.mpr ⟨i, hi, start⟩
  have := (List.subperm_of_subset h.nodup starts).length_le
  rwa [List.length_map, List.length_map] at this

end Check

open Check

/-- The check of a code that is short enough ends, in at most twice as many rounds as there are
instruction starts and one.  It visits no offset twice and no others than starts, and the frames
pushed are at most the branches and calls visited and one. -/
theorem exists_rounds_linear (h : code.size ≤ limits.maxCodeLength) :
    ∃ n events last, Rounds code limits (.initial code.size) n events last ∧
      trace code limits =
        .runStart code.size :: events ++ [.runEnd (violation? (verify code limits))] ∧
      ((visits events).map Prod.fst).Nodup ∧
      (visits events).length ≤ (sweep code).length ∧
      last.work.pushed ≤
        1 + visitsOf .rjumpi (visits events) + visitsOf .rjumpsub (visits events) ∧
      n ≤ 2 * (sweep code).length + 1 ∧
      ∀ v, verify code limits = .ok v → v.stats.visits ≤ v.starts.count ∧
        v.stats.pushed ≤ 1 + v.stats.visits ∧ v.stats.prunes ≤ v.stats.pushed := by
  obtain ⟨n, events, last, rounds⟩ := exists_rounds code limits (.initial code.size)
  obtain ⟨report, result⟩ := rounds.reports h
  have totals := rounds.totals .initial (books_initial code) (recorded_initial _)
  rw [Nat.zero_add, List.nil_append] at totals
  have visited := totals.length_le
  have pushed := totals.pushed
  have apart := visitsOf_add_le (visits events)
  refine ⟨n, events, last, rounds, report, totals.nodup, visited, pushed, ?_, fun v ok ↦ ?_⟩
  · have := totals.rounds
    omega
  · obtain ⟨rfl, idle⟩ := result v ok
    obtain ⟨reached, prunes⟩ := totals.settled idle
    refine ⟨?_, ?_, prunes⟩
    · change last.heights.reached ≤ (Starts.ofCode code).count
      rw [Starts.count_ofCode, reached]
      exact visited
    · change last.work.pushed ≤ 1 + last.heights.reached
      omega

/-- A branch over a call.  Both ways lead to the stop at 8. -/
def branchOverCall : Code := #[0x60, 0x01, 0x5F, 0x00, 0x06, 0x5E, 0x00, 0x04, 0x00, 0x5D]

/-- Five instructions allow eleven rounds. -/
theorem exists_rounds_linear_branchOverCall :
    branchOverCall.size ≤ Limits.maxCodeLength {} ∧ (sweep branchOverCall).length = 5 ∧
    ∃ v, verify branchOverCall {} = .ok v ∧ v.stats.visits ≤ 5 ∧ v.stats.pushed ≤ 6 ∧
    ∃ n events last, Rounds branchOverCall {} (.initial 10) n events last ∧ n ≤ 11 := by
  have size : branchOverCall.size ≤ Limits.maxCodeLength {} := by decide
  have starts : (sweep branchOverCall).length = 5 := by decide +kernel
  have accepted : verify branchOverCall {} = .ok ⟨branchOverCall, .ofCode branchOverCall,
      ⟨#[some 0, none, some 1, none, none, some 0, none, none, some 0, some 0]⟩,
      ⟨5, 1, 3, 1, 1⟩⟩ := by
    decide +kernel
  obtain ⟨n, events, last, rounds, -, -, -, -, bound, stats⟩ := exists_rounds_linear size
  obtain ⟨visits, pushed, -⟩ := stats _ accepted
  rw [Starts.count_ofCode, starts] at visits
  rw [starts] at bound
  exact ⟨size, starts, _, accepted, visits, pushed, n, events, last, rounds, bound⟩

end StackFlow
