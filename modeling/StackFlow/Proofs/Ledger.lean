import StackFlow.Proofs.Views

/-!
# The report of accepted code adds up

An accepted check reports visits, prunes and edges, and counts its work besides.
`Ledger` is the invariant that ties the two together while the check runs: every
move is charged to the instruction that makes it, and the frames that wait at an
entry are as many as the visited calls of it, unless the entry is known to
return.  At the end the frames that still wait are those of calls whose
subroutine never returns (`Ledger.pushed_eq`), and each way that control takes
has led to a visit, to a prune, or past the end (`Ledger.paths_eq`).
-/

namespace StackFlow

variable {code : Code} {limits : Limits} {events later : List Event}

/-! ## Counting events -/

/-- The offset from which an edge of a kind goes out. -/
def Event.source? (kind : EdgeKind) : Event → Option Nat
  | .edge k source _ => if k = kind then some source else none
  | _ => none

/-- The offsets from which the edges of a kind go out, in order. -/
def sources (kind : EdgeKind) (events : List Event) : List Nat :=
  events.filterMap (Event.source? kind)

/-- The number of paths that ended at a known offset. -/
def prunesOf (events : List Event) : Nat := events.countP (·.kind = .prune)

/-- The number of ways that control takes from an instruction, but for the one that goes on behind
a call. -/
def Flow.ways : Flow → Nat
  | .next | .jump | .call => 1
  | .jumpIf => 2
  | .terminator | .invalid | .ret => 0

/-- The number of ways that control takes from the instructions visited. -/
def waysOf : List (Nat × UInt8) → Nat
  | [] => 0
  | p :: vs => (Opcode.ofByte? p.2).elim 0 (·.flow.ways) + waysOf vs

/-- The offset that the instruction at an offset refers to. -/
def targetAt? (code : Code) (pc : Nat) : Option Nat :=
  ((decode code pc).bind Instr.target?).bind Int.toNat?

theorem targetAt?_of_decode {pc t : Nat} {i : Instr} (fetch : decode code pc = some i)
    (target : i.target? = some (t : Int)) : targetAt? code pc = some t := by
  rw [targetAt?, fetch, Option.bind_some, target]
  rfl

/-- The number of visited calls of a subroutine with a property. -/
def callsWhere (code : Code) (P : Nat → Bool) (vs : List (Nat × UInt8)) : Nat :=
  vs.countP fun p ↦ p.2 = Opcode.rjumpsub.toByte ∧ (targetAt? code p.1).any P

theorem sources_append (kind : EdgeKind) (events later : List Event) :
    sources kind (events ++ later) = sources kind events ++ sources kind later :=
  List.filterMap_append

theorem prunesOf_append (events later : List Event) :
    prunesOf (events ++ later) = prunesOf events + prunesOf later :=
  List.countP_append

theorem waysOf_append (vs ws : List (Nat × UInt8)) : waysOf (vs ++ ws) = waysOf vs + waysOf ws := by
  induction vs with
  | nil => exact (Nat.zero_add _).symm
  | cons p vs ih => rw [List.cons_append, waysOf, waysOf, ih, Nat.add_assoc]

theorem callsWhere_append (P : Nat → Bool) (vs ws : List (Nat × UInt8)) :
    callsWhere code P (vs ++ ws) = callsWhere code P vs + callsWhere code P ws :=
  List.countP_append

/-! ## Calls by their targets -/

/-- Every visited call has a target inside the code. -/
def Targeted (code : Code) (vs : List (Nat × UInt8)) : Prop :=
  ∀ p ∈ vs, p.2 = Opcode.rjumpsub.toByte → ∃ t < code.size, targetAt? code p.1 = some t

section Calls

variable {vs : List (Nat × UInt8)} {p : Nat × UInt8}

theorem Targeted.tail (h : Targeted code (p :: vs)) : Targeted code vs :=
  fun q hq ↦ h q (List.mem_cons_of_mem p hq)

theorem callsWhere_cons_of_ne (h : p.2 ≠ Opcode.rjumpsub.toByte) (P : Nat → Bool) :
    callsWhere code P (p :: vs) = callsWhere code P vs := by
  simp [callsWhere, h]

theorem callsWhere_cons_of_call {t : Nat} (h : p.2 = Opcode.rjumpsub.toByte)
    (target : targetAt? code p.1 = some t) (P : Nat → Bool) :
    callsWhere code P (p :: vs) = callsWhere code P vs + (P t).toNat := by
  cases hP : P t <;> simp [callsWhere, h, target, hP]

/-- A call is one of a subroutine with a property or one without. -/
theorem Targeted.callsWhere_add_not (h : Targeted code vs) (P : Nat → Bool) :
    callsWhere code P vs + callsWhere code (!P ·) vs = visitsOf .rjumpsub vs := by
  induction vs with
  | nil => rfl
  | cons p vs ih =>
    have rest := ih h.tail
    by_cases call : p.2 = Opcode.rjumpsub.toByte
    · obtain ⟨t, -, target⟩ := h p List.mem_cons_self call
      rw [callsWhere_cons_of_call call target, callsWhere_cons_of_call call target]
      simp only [visitsOf, List.countP_cons, call, decide_true, if_true] at rest ⊢
      cases P t
      · simp
        omega
      · simp
        omega
    · rw [callsWhere_cons_of_ne call, callsWhere_cons_of_ne call, rest]
      simp [visitsOf, call]

/-- Calls can be counted subroutine by subroutine. -/
theorem Targeted.sumBelow_callsWhere (h : Targeted code vs) (P : Nat → Bool) :
    Chains.sumBelow (fun e ↦ if P e then callsWhere code (· = e) vs else 0) code.size =
      callsWhere code P vs := by
  induction vs with
  | nil => simp [callsWhere]
  | cons p vs ih =>
    have rest := ih h.tail
    by_cases call : p.2 = Opcode.rjumpsub.toByte
    · obtain ⟨t, lt, target⟩ := h p List.mem_cons_self call
      -- the call adds to the term of its own target only
      have change := Chains.sumBelow_change code.size (e := t)
        (f := fun e ↦ if P e then callsWhere code (· = e) vs else 0)
        (g := fun e ↦ if P e then callsWhere code (· = e) (p :: vs) else 0) fun e he ↦ by
          simp [callsWhere_cons_of_call call target, he.symm]
      simp only [lt, if_true, rest, callsWhere_cons_of_call call target] at change ⊢
      cases hP : P t
      · simp_all
      · simp_all
        omega
    · simp only [callsWhere_cons_of_ne call, rest]

end Calls

namespace Check

open Machine (Fetch)

variable {s s' last : State} {f : Frame} {i : Instr} {op : Opcode} {m : Move} {n size past : Nat}

/-! ## What a move is charged to -/

theorem waysOf_singleton (opcode : i.opcode? = some op) (pc : Nat) :
    waysOf [(pc, i.byte)] = op.flow.ways := by
  simp [waysOf, show Opcode.ofByte? i.byte = some op from opcode]

/-- From an instruction control takes one way, unless the path ends there, and two at a branch. -/
theorem ways_add_ends {starts : Starts} (takes : f.Takes limits starts i op m) :
    op.flow.ways + m.ends = 1 + if op.flow = .jumpIf then 1 else 0 := by
  cases takes with
  | halt flow | next flow | jump flow | branch flow | call flow | ret flow =>
    rw [flow]
    rfl

/-- A move has one edge of each kind that its opcode has, and no others. -/
theorem sources_edges {starts : Starts} (takes : f.Takes limits starts i op m) (kind : EdgeKind)
    (pc : Nat) : sources kind (m.edges pc) = if op.flow = kind.opcode.flow then [pc] else [] := by
  cases takes with
  | halt flow | next flow | jump flow | branch flow | call flow | ret flow =>
    rw [flow]
    cases kind <;> rfl

@[simp] theorem prunesOf_edges (m : Move) (pc : Nat) : prunesOf (m.edges pc) = 0 := by
  cases m <;> rfl

/-- The number of frames that a move makes wait for an entry. -/
def Move.awaits (e : Nat) : Move → Nat
  | .call body _ => if body.pc = e then 1 else 0
  | .halt | .next _ | .jump _ | .branch .. | .ret _ => 0

/-- A move makes a frame wait where it is a call, and for the target of that. -/
theorem awaits_eq (fetch : Fetch code f.pc i op) (takes : f.Takes limits (.ofCode code) i op m)
    (e : Nat) : m.awaits e = callsWhere code (· = e) [(f.pc, i.byte)] := by
  have call : i.byte = Opcode.rjumpsub.toByte ↔ op.flow = .call := byte_eq_iff fetch.opcode .call
  cases takes with
  | halt flow | next flow | jump flow | branch flow | ret flow =>
    simp [Move.awaits, callsWhere, call, flow]
  | call flow target =>
    simp [Move.awaits, callsWhere, call, flow, targetAt?_of_decode fetch.decode target,
      List.countP_cons]

namespace State

/-- The number of frames that wait for an entry. -/
def suspendedAt (s : State) (e : Nat) : Nat :=
  ((s.waits.parkedAt e).filterMap Waiter.frame?).length

theorem suspendedAt_follow (hw : s.waits.Fits size) (hm : m.InBounds size) {e : Nat}
    (he : ¬ (s.follow m).waits.Returning e) :
    (s.follow m).suspendedAt e = s.suspendedAt e + m.awaits e := by
  cases m with
  | halt | next f | jump f | branch taken fallthrough => rfl
  | call body resume =>
    have meets : (Waiter.resume resume).Meets (· < size) fun _ ↦ True := trivial
    have parked : (s.waits.wait body.pc (.resume resume) s.work).1.parkedAt e = _ :=
      Waits.parkedAt_wait hw hm meets he
    simp only [suspendedAt, State.follow, parked, Move.awaits, eq_comm]
    split
    · rfl
    · rfl
  | ret c =>
    have bounds : ∀ e ∈ [c.entry], e < size := fun e he ↦ List.mem_singleton.mp he ▸ hm
    have parked : (s.waits.release [c.entry] s.work).1.parkedAt e = _ :=
      Waits.parkedAt_release hw bounds he
    simp only [suspendedAt, State.follow, turn, parked, Move.awaits, Nat.add_zero]

theorem suspendedAt_prune (hw : s.waits.Fits size) (hf : ∀ e ∈ f.entry?, e < size)
    (ho : ∀ o ∈ s.owner? f.pc, o < size) {e : Nat} (he : ¬ (s.prune f).waits.Returning e) :
    (s.prune f).suspendedAt e = s.suspendedAt e := by
  unfold prune at he ⊢
  split
  · next entry owner hentry howner =>
    split
    · rfl
    · next hne =>
      rw [hentry, howner] at he
      simp only [hne, if_false] at he
      have meets : (Waiter.entry entry).Meets (· < size) fun _ ↦ True := hf entry hentry
      have parked : (s.waits.wait owner (.entry entry) s.work).1.parkedAt e = _ :=
        Waits.parkedAt_wait hw (ho owner howner) meets he
      simp only [suspendedAt, turn, parked]
      split
      · rfl
      · rfl
  · rfl

theorem calls_follow (s : State) (m : Move) (pc : Nat) :
    (s.follow m).calls = s.calls + (sources .call (m.edges pc)).length := by
  cases m <;> rfl

@[simp] theorem calls_prune (s : State) (f : Frame) : (s.prune f).calls = s.calls := by
  unfold prune
  split
  · split <;> rfl
  · rfl

/-- The path has come to the end of the code or past it. -/
def isPast (code : Code) (s : State) : Bool := s.path?.any (code.size ≤ ·.pc)

end State

/-! ## The ledger -/

/-- So far the counts of a check are those of its events, and every frame is accounted for. -/
structure Ledger (code : Code) (past : Nat) (events : List Event) (s : State) : Prop where
  prunes : s.prunes = prunesOf events
  calls : s.calls = (sources .call events).length
  edges : ∀ kind, sources kind events =
    ((visits events).filter (·.2 = kind.opcode.toByte)).map Prod.fst
  targeted : Targeted code (visits events)
  /-- The frames put off, whether they have been pushed or wait. -/
  pushed : s.work.pushed + s.waits.suspended =
    1 + visitsOf .rjumpi (visits events) + visitsOf .rjumpsub (visits events)
  /-- The frames that ended, or are still there. -/
  paths : (visits events).length + s.prunes + past + s.load + visitsOf .rjumpi (visits events) =
    s.work.pushed + waysOf (visits events)
  parked : ∀ e < code.size, ¬ s.waits.Returning e →
    s.suspendedAt e = callsWhere code (· = e) (visits events)

theorem ledger_initial (code : Code) : Ledger code 0 [] (.initial code.size) where
  prunes := rfl
  calls := rfl
  edges := fun _ ↦ rfl
  targeted := fun _ h ↦ absurd h List.not_mem_nil
  pushed := by simp [State.initial, Worklist.push, Worklist.pop, visits, visitsOf]
  paths := rfl
  parked := by
    intro e _ _
    simp [State.suspendedAt, State.initial, visits, callsWhere]

/-- A round without a visit ends a frame, at a known offset or past the end. -/
theorem Ledger.end {new : List Event} {k : Nat} (ledger : Ledger code past events s)
    (visits_new : visits new = []) (sources_new : ∀ kind, sources kind new = [])
    (one : prunesOf new + k = 1) (prunes : s'.prunes = s.prunes + prunesOf new)
    (calls : s'.calls = s.calls) (spends : State.Spends 0 1 s s')
    (parked : ∀ e, ¬ s'.waits.Returning e →
      ¬ s.waits.Returning e ∧ s'.suspendedAt e = s.suspendedAt e) :
    Ledger code (past + k) (events ++ new) s' := by
  have same : visits (events ++ new) = visits events := by
    rw [visits_append, visits_new, List.append_nil]
  have sources_same (kind : EdgeKind) : sources kind (events ++ new) = sources kind events := by
    rw [sources_append, sources_new, List.append_nil]
  obtain ⟨put, ended⟩ := spends
  have pushed := ledger.pushed
  have paths := ledger.paths
  refine ⟨?_, ?_, fun kind ↦ ?_, ?_, ?_, ?_, fun e lt he ↦ ?_⟩
  · rw [prunes, ledger.prunes, prunesOf_append]
  · rw [calls, ledger.calls, sources_same]
  · rw [sources_same, same, ledger.edges]
  · rw [same]
    exact ledger.targeted
  · rw [same]
    omega
  · rw [same]
    omega
  · obtain ⟨before, eq⟩ := parked e he
    rw [same, eq, ledger.parked e lt before]

/-- A round with a visit is charged to the instruction. -/
theorem Ledger.visit (ledger : Ledger code past events s) (path : s.path? = some f)
    (hw : s.waits.Fits code.size) (bounds : m.InBounds code.size) (fetch : Fetch code f.pc i op)
    (takes : f.Takes limits (.ofCode code) i op m) :
    Ledger code past (events ++ .visit f.pc i.byte f.height f.depth :: m.edges f.pc)
      ((s.visit f).follow m) := by
  obtain ⟨put, ended⟩ := State.spends_follow (s := s.visit f) (f := f) path hw bounds
  change _ = s.work.pushed + s.waits.suspended + _ at put
  change _ + s.work.pushed = s.load + _ at ended
  have keeps := (State.follow_spec (s := s.visit f) hw bounds).2.1
  have puts := puts_eq fetch.opcode takes
  have ways := ways_add_ends takes
  have branch : visitsOf .rjumpi [(f.pc, i.byte)] = _ :=
    visitsOf_singleton fetch.opcode .branchTaken f.pc
  have visited : visits (.visit f.pc i.byte f.height f.depth :: m.edges f.pc) = [(f.pc, i.byte)] :=
    by rw [visits_visit, visits_edges]
  have edges (kind : EdgeKind) :
      sources kind (.visit f.pc i.byte f.height f.depth :: m.edges f.pc) =
        sources kind (m.edges f.pc) := rfl
  have quiet : prunesOf (.visit f.pc i.byte f.height f.depth :: m.edges f.pc) = 0 :=
    prunesOf_edges m f.pc
  have pushed := ledger.pushed
  have paths := ledger.paths
  refine ⟨?_, ?_, fun kind ↦ ?_, ?_, ?_, ?_, fun e lt he ↦ ?_⟩
  · rw [State.prunes_follow, prunesOf_append, quiet]
    exact ledger.prunes
  · rw [State.calls_follow _ _ f.pc, sources_append, List.length_append, edges]
    exact congrArg (· + _) ledger.calls
  · rw [sources_append, edges, sources_edges takes, visits_append, visited, List.filter_append,
      List.map_append, ledger.edges kind, List.filter_singleton]
    simp only [byte_eq_iff fetch.opcode kind]
    split <;> simp_all
  · rw [visits_append, visited]
    intro p hp call
    rcases List.mem_append.mp hp with hp | hp
    · exact ledger.targeted p hp call
    · cases List.mem_singleton.mp hp
      obtain ⟨t, target, start, -⟩ := takes.exists_call ((byte_eq_iff fetch.opcode .call).mp call)
      exact ⟨t, (Starts.contains_natCast.mp start).lt_size,
        targetAt?_of_decode fetch.decode target⟩
  · rw [visits_append, visited, visitsOf_append, visitsOf_append]
    omega
  · rw [visits_append, visited, visitsOf_append, waysOf_append, waysOf_singleton fetch.opcode,
      List.length_append, List.length_singleton, State.prunes_follow]
    change op.flow.ways + _ = 1 + ite (op.flow = EdgeKind.branchTaken.opcode.flow) 1 0 at ways
    change _ + s.prunes + _ + _ + _ = _
    omega
  · rw [State.suspendedAt_follow (s := s.visit f) hw bounds he, visits_append, visited,
      callsWhere_append, awaits_eq fetch takes]
    exact congrArg (· + _) (ledger.parked e lt fun h ↦ he (keeps.returning h))

theorem Ledger.step {new : List Event} (before : Passes code limits s)
    (ledger : Ledger code past events s)
    (step : s.step code (.ofCode code) limits = .next s' new) :
    Ledger code (past + if s.isPast code then 1 else 0) (events ++ new) s' := by
  have inv := before.inv
  obtain ⟨f, path, goes⟩ := State.goes_of_step inv.slots step
  have sound := inv.sound f (.inl (.inl path))
  have isPast : s.isPast code = decide (code.size ≤ f.pc) := by rw [State.isPast, path]; rfl
  cases goes with
  | ends past =>
    rw [isPast, decide_eq_true past]
    exact ledger.end rfl (fun _ ↦ rfl) rfl rfl rfl (State.spends_turn path) fun e he ↦ ⟨he, rfl⟩
  | prunes fetch =>
    obtain ⟨spends, prunes⟩ := State.spends_prune path inv.waits (inv.owner_lt f.pc)
    have keeps := (State.prune_spec inv.waits sound.entry_lt (inv.owner_lt f.pc)).2.1
    rw [isPast, decide_eq_false (Nat.not_le_of_lt (lt_size_of_decode fetch))]
    refine ledger.end rfl (fun _ ↦ rfl) rfl prunes (State.calls_prune s f) spends fun e he ↦ ?_
    exact ⟨fun h ↦ he (keeps.returning h),
      State.suspendedAt_prune inv.waits sound.entry_lt (inv.owner_lt f.pc) he⟩
  | visits fetch _ _ _ _ takes =>
    rw [isPast, decide_eq_false (Nat.not_le_of_lt (lt_size_of_decode fetch.decode))]
    exact ledger.visit path inv.waits (sound.of_takes fetch.decode takes).2 fetch takes

theorem State.course_of_next {new : List Event}
    (step : s.step code (.ofCode code) limits = .next s' new) :
    s.course code limits = s :: s'.course code limits := by
  rw [State.course]
  split <;> simp_all

theorem State.course_of_idle (path : s.path? = none) : s.course code limits = [s] := by
  rw [State.course, State.step_of_idle path]

/-- By induction on the rounds: the ledger is kept up to the end of a check that succeeds. -/
theorem Rounds.ledger (h : Rounds code limits s n later last) (path : last.path? = none)
    (before : Passes code limits s) (ledger : Ledger code past events s) :
    Ledger code (past + (s.course code limits).countP (·.isPast code)) (events ++ later) last := by
  induction h generalizing past events with
  | @done s idle =>
    have none : s.isPast code = false := by rw [State.isPast, idle]; rfl
    rwa [List.append_nil, State.course_of_idle idle, List.countP_singleton, none]
  | fail step =>
    rw [State.step_of_idle path] at step
    cases step
  | next step _ ih =>
    have rest := ih path (before.step step) (ledger.step before step)
    rwa [State.course_of_next step, List.countP_cons, ← List.append_assoc,
      Nat.add_comm (List.countP _ _), ← Nat.add_assoc]

/-! ## At the end -/

/-- The frames that still wait are those of calls whose subroutine is not known to return. -/
theorem Ledger.suspended_eq (ledger : Ledger code past events s) (hw : s.waits.Fits code.size) :
    s.waits.suspended = callsWhere code (!s.waits.returning.contains ·) (visits events) := by
  rw [← ledger.targeted.sumBelow_callsWhere, Waits.suspended, Chains.total, hw.parked]
  refine Chains.sumBelow_congr fun e he ↦ ?_
  change s.suspendedAt e = _
  cases returns : s.waits.returning.contains e with
  | true => simp [State.suspendedAt, hw.settled e returns]
  | false =>
    have waits : ¬ s.waits.Returning e := by simp [Waits.Returning, returns]
    simpa using ledger.parked e he waits

theorem Ledger.pushed_eq (ledger : Ledger code past events s) (hw : s.waits.Fits code.size) :
    s.work.pushed = 1 + visitsOf .rjumpi (visits events) +
      callsWhere code s.waits.returning.contains (visits events) := by
  have pushed := ledger.pushed
  have suspended := ledger.suspended_eq hw
  have calls := ledger.targeted.callsWhere_add_not s.waits.returning.contains
  omega

theorem Ledger.paths_eq (ledger : Ledger code past events s) (inv : s.Inv code limits)
    (path : s.path? = none) :
    (visits events).length + s.prunes + past = 1 + waysOf (visits events) +
      callsWhere code s.waits.returning.contains (visits events) := by
  have pushed := ledger.pushed_eq inv.waits
  have paths := ledger.paths
  have idle : s.load = 0 := by simp [State.load, path, inv.idle path]
  omega

/-- A path is pruned only where another one has been. -/
theorem Traced.exists_visit_of_prune {before after : List Event} {pc height : Nat}
    (h : Traced code limits s events) (prune : events = before ++ .prune pc height :: after) :
    ∃ byte depth, .visit pc byte height depth ∈ before := by
  induction h generalizing after with
  | initial => cases before <;> cases prune
  | @step s s' events new traced step ih =>
    have known (mem : .prune pc height ∈ new) :
        ∃ byte depth, .visit pc byte height depth ∈ events := by
      obtain ⟨f, path, goes⟩ := State.goes_of_step traced.passes.inv.slots step
      cases goes with
      | ends => cases mem
      | prunes fetch known =>
        cases List.mem_singleton.mp mem
        obtain ⟨byte, depth, -, visit⟩ := traced.exists_visit known
        exact ⟨byte, depth, visit⟩
      | @visits i op m =>
        rcases List.mem_cons.mp mem with mem | mem
        · cases mem
        · cases m <;> simp [Move.edges] at mem
    rcases List.append_eq_append_iff.mp prune with ⟨mid, rfl, here⟩ | ⟨mid, rfl, here⟩
    · obtain ⟨byte, depth, visit⟩ := known (by simp [here])
      exact ⟨byte, depth, List.mem_append_left _ visit⟩
    · cases mid with
      | nil =>
        rw [List.append_nil] at known
        rw [List.nil_append] at here
        exact known (here ▸ List.mem_cons_self)
      | cons e mid =>
        obtain ⟨rfl, -⟩ := List.cons.inj here
        exact ih rfl

end Check

open Check

/-- The number of times that a path of the check comes to the end of the code or past it. -/
def arrivalsPast (code : Code) (limits : Limits) : Nat :=
  ((State.initial code.size).course code limits).countP (·.isPast code)

/-- What the events of a check say fits its heights and its statistics; `returning` holds the
entries that were found to return. -/
structure Verified.Reports (code : Code) (limits : Limits) (v : Verified) (events : List Event)
    (returning : IndexSet) : Prop where
  /-- No offset is visited twice. -/
  nodup : ((visits events).map Prod.fst).Nodup
  bytes : ∀ p ∈ visits events, code[p.1]? = some p.2
  heights : ∀ pc height, v.heightAt? pc = some height ↔
    ∃ byte depth, .visit pc byte height depth ∈ events
  /-- A path is pruned only where another one has been. -/
  pruned : ∀ before after pc height, events = before ++ .prune pc height :: after →
    ∃ byte depth, .visit pc byte height depth ∈ before
  /-- Each visit of an opcode with edges of a kind has one, and there are no others. -/
  edges : ∀ kind pc, (sources kind events).count pc =
    if (pc, kind.opcode.toByte) ∈ visits events then 1 else 0
  stats_visits : v.stats.visits = (visits events).length
  stats_prunes : v.stats.prunes = prunesOf events
  stats_calls : v.stats.calls = (sources .call events).length
  /-- What waits in the end, behind calls of other subroutines, has never been pushed. -/
  stats_pushed : v.stats.pushed = 1 + visitsOf .rjumpi (visits events) +
    callsWhere code returning.contains (visits events)
  /-- Each way that control takes has led to a visit, to a prune, or past the end. -/
  paths : v.stats.visits + v.stats.prunes + arrivalsPast code limits =
    1 + waysOf (visits events) + callsWhere code returning.contains (visits events)

namespace Check

variable {s : State}

theorem mem_visits {p : Nat × UInt8} :
    p ∈ visits events ↔ ∃ height depth, .visit p.1 p.2 height depth ∈ events := by
  simp only [visits, List.mem_filterMap]
  constructor
  · rintro ⟨e, he, h⟩
    cases e <;> cases h
    exact ⟨_, _, he⟩
  · rintro ⟨height, depth, h⟩
    exact ⟨_, h, rfl⟩

theorem Ledger.count_sources {past : Nat} (ledger : Ledger code past events s)
    (nodup : ((visits events).map Prod.fst).Nodup) (kind : EdgeKind) (pc : Nat) :
    (sources kind events).count pc =
      if (pc, kind.opcode.toByte) ∈ visits events then 1 else 0 := by
  have mem : pc ∈ sources kind events ↔ (pc, kind.opcode.toByte) ∈ visits events := by
    simp [ledger.edges kind]
  have once : (sources kind events).Nodup := by
    rw [ledger.edges kind]
    exact nodup.sublist (List.filter_sublist.map _)
  rw [once.count]
  simp only [mem]

end Check

/-- The report of accepted code runs from start to end, and in between it agrees with the heights
and the statistics. -/
theorem exists_reports {v : Verified} {t : Array Event}
    (h : verifyWith (.recorder .all) code limits #[] = (.ok v, t)) :
    ∃ events last, t.toList = .runStart code.size :: events ++ [.runEnd none] ∧
      Traced code limits last events ∧ last.path? = none ∧
      v = .ofState code (.ofCode code) last ∧
      v.Reports code limits events last.waits.returning := by
  obtain ⟨accepted, rfl⟩ := Prod.mk.inj ((verifyWith_eq _ _ _ _).symm.trans h)
  have short := (passes_of_verify accepted).1
  obtain ⟨n, events, last, rounds⟩ := exists_rounds code limits (.initial code.size)
  obtain ⟨report, result⟩ := rounds.reports short
  obtain ⟨rfl, idle⟩ := result v accepted
  obtain ⟨body, new, rfl, traced, ends⟩ := rounds.traced .initial
  obtain rfl : new = [] := by
    rcases ends with ⟨-, rfl⟩ | ⟨w, step⟩
    · rfl
    · rw [State.step_of_idle idle] at step
      cases step
  rw [List.append_nil] at rounds report
  rw [List.nil_append] at traced
  have totals := rounds.totals .initial (books_initial code) (recorded_initial _)
  have ledger := rounds.ledger idle .initial (ledger_initial code)
  rw [Nat.zero_add, List.nil_append] at totals ledger
  have inv := traced.passes.inv
  have reached := (totals.settled idle).1
  have paths := ledger.paths_eq inv idle
  refine ⟨body, last, ?_, traced, idle, rfl, ?_⟩
  · rw [Sink.toList_observe_recorder_all, report, accepted]
    rfl
  constructor
  · exact totals.nodup
  · intro p hp
    obtain ⟨height, depth, visit⟩ := mem_visits.mp hp
    exact (traced.visit_spec visit).1
  · intro pc height
    constructor
    · intro known
      obtain ⟨byte, depth, -, visit⟩ := traced.exists_visit known
      exact ⟨byte, depth, visit⟩
    · rintro ⟨byte, depth, visit⟩
      exact (traced.visit_spec visit).2.1
  · exact fun before after pc height ↦ traced.exists_visit_of_prune
  · exact ledger.count_sources totals.nodup
  · exact reached
  · exact ledger.prunes
  · exact ledger.calls
  · exact ledger.pushed_eq inv.waits
  · change last.heights.reached + last.prunes + arrivalsPast code limits = _
    rw [reached]
    exact paths

/-- Five visits and a prune are the six ways: one from the beginning, one from the push, two from
the branch, and two from the call, whose subroutine returns. -/
theorem exists_reports_branchOverCall :
    ∃ v t, verifyWith (.recorder .all) branchOverCall {} #[] = (.ok v, t) ∧
      v.stats.visits = 5 ∧ v.stats.prunes = 1 ∧
      ∃ events returning, t.toList = .runStart 10 :: events ++ [.runEnd none] ∧
        v.Reports branchOverCall {} events returning := by
  have accepted : verify branchOverCall {} = .ok ⟨branchOverCall, .ofCode branchOverCall,
      ⟨#[some 0, none, some 1, none, none, some 0, none, none, some 0, some 0]⟩,
      ⟨5, 1, 3, 1, 1⟩⟩ := by
    decide +kernel
  have traced := verifyWith_eq (.recorder .all) branchOverCall {} #[]
  rw [accepted] at traced
  obtain ⟨events, last, report, -, -, -, reports⟩ := exists_reports traced
  exact ⟨_, _, traced, rfl, rfl, events, _, report, reports⟩

end StackFlow
