import StackFlow.Proofs.Agreement
import StackFlow.Proofs.Certificate
import StackFlow.Proofs.Room

/-!
# A check in words has no faults

A state in words stands for one of the check (`State.unpack`), in which the calls
of all frames have their numbers (`State.Filed`).  There a step in words comes to
what the step of the check comes to (`State.Stands.matches_step`), since there is
always room: heights and depths are within the limits, every index lies in the
code, and calls and links are too few to use up the numbers of thirty-two bits.
-/

namespace StackFlow.Packed

variable {code : Code} {limits : Limits} {starts : Starts} {f : Frame} {i : Instr} {op : Opcode}

/-! ## States -/

namespace State

/-- The state that a state in words stands for. -/
def unpack (s : State) : Check.State where
  path? := s.path?.map (Frame.unpack s.calls)
  work := s.work.unpack s.calls
  heights := ⟨s.heights.map (Option.map UInt16.toNat)⟩
  owners := s.owners.map (Option.map UInt32.toNat)
  waits := s.waits.unpack s.calls
  prunes := s.prunes
  calls := s.calls.size

/-- The calls of all frames have their numbers, and the offsets reached are counted. -/
structure Filed (s : State) : Prop where
  path : ∀ f ∈ s.path?, f.Numbered s.calls
  waits : s.waits.All (Frame.Numbered s.calls) s.work
  visits : s.visits = s.unpack.heights.reached

variable {s s' : State} {size : Nat}

theorem unpack_initial (size : Nat) : (initial size).unpack = .initial size := by
  have start : Frame.start.unpack #[] = .start := rfl
  have none : Worklist.unpack #[] {} = {} := by simp [Worklist.unpack]
  simp only [unpack, initial, Check.State.initial, Worklist.unpack_pop, Worklist.unpack_push, start,
    none, Waits.unpack, Waits.empty, Chains.map_empty, Array.map_replicate, Option.map_none]
  rfl

theorem filed_initial (size : Nat) : (initial size).Filed where
  path := by
    rintro f h
    cases h
    exact Frame.numbered_start _
  waits := by
    constructor
    · simp [initial, Worklist.push, Worklist.pop]
    · simp [initial, Waits.empty, Chains.empty]
  visits := by
    have none : (Check.State.initial size).heights.reached = 0 := by
      simp [Check.State.initial, Heights.reached, Heights.empty]
    rw [unpack_initial, none]
    rfl

/-- Turning to the latest work is the same in words. -/
theorem unpack_turn (s : State) : s.turn.unpack = s.unpack.turn := by
  simp only [turn, unpack, Check.State.turn, Worklist.unpack_pop]
  rw [Worklist.unpack, Array.back?_map]

theorem Filed.turn (filed : s.Filed) : s.turn.Filed where
  path := fun f hf ↦ filed.waits.work f (Array.mem_of_back? hf)
  waits := filed.waits.pop
  visits := filed.visits

/-- A subroutine is entered where its frame has room and the call gets a number. -/
theorem exists_enter {entry : UInt32} {resume : Frame} (filed : s.Filed)
    (hw : s.unpack.waits.Fits size) (inside : entry.toNat < size)
    (own : resume.Numbered s.calls) (calls : s.calls.size < UInt32.size)
    (links : s.waits.parked.links.size < UInt32.size)
    (height : resume.base.toNat + resume.height.toNat < UInt16.size)
    (depth : resume.depth.toNat + 1 < UInt16.size) :
    ∃ s', s.enter entry resume = .ok s' ∧
      s'.unpack = s.unpack.follow ((Move.call entry resume).unpack s.calls) ∧ s'.Filed := by
  have owns : ∀ f ∈ Waiter.frame? (.resume resume), f.Numbered s.calls := by
    rintro f ⟨⟩
    exact own
  have none : ∀ d ∈ Waiter.entry? (.resume resume), d.toNat < size := by rintro d ⟨⟩
  obtain ⟨waits, work, waited, same, all⟩ :=
    Waits.wait_eq_ok hw inside none links filed.waits owns
  obtain ⟨base, base_eq, base_toNat⟩ := exists_sum16 height
  obtain ⟨deep, deep_eq, deep_toNat⟩ := exists_sum16 (b := 1) depth
  have number : numberOf s.calls.size = .ok (UInt32.ofNat s.calls.size) := if_pos calls
  obtain ⟨waits_push, work_push⟩ := all.unpack_push { entry, resume := resume.pc }
  obtain ⟨numbered, body⟩ := Frame.body_spec calls { entry, resume := resume.pc } base deep
  refine ⟨{ s with
    path? := some (Frame.body s.calls { entry, resume := resume.pc } base deep)
    calls := s.calls.push { entry, resume := resume.pc }, waits, work }, ?_, ?_, ?_⟩
  · simp only [enter, number, wait_of_lt links, waited, base_eq, deep_eq]
    rfl
  · have same : s.unpack.waits.wait entry.toNat (.resume (resume.unpack s.calls)) s.unpack.work =
        (waits.unpack s.calls, work.unpack s.calls) := same
    simp only [Check.State.follow, Move.unpack, same]
    simp only [unpack, waits_push, work_push, Option.map_some, body, Array.size_push, base_toNat,
      deep_toNat]
    rfl
  · refine ⟨?_, all.mono fun f hf ↦ hf.push _, filed.visits⟩
    rintro f ⟨⟩
    exact numbered

/-- A move is gone along with, if a call has room. -/
theorem exists_follow {m : Move} (filed : s.Filed) (hw : s.unpack.waits.Fits size)
    (bounds : (m.unpack s.calls).InBounds size) (own : ∀ g ∈ m.frames, g.Numbered s.calls)
    (calls : s.calls.size < UInt32.size) (links : s.waits.parked.links.size < UInt32.size)
    (room : ∀ entry resume, m = .call entry resume →
      resume.base.toNat + resume.height.toNat < UInt16.size ∧
        resume.depth.toNat + 1 < UInt16.size) :
    ∃ s', s.follow m = .ok s' ∧ s'.unpack = s.unpack.follow (m.unpack s.calls) ∧ s'.Filed := by
  cases m with
  | halt => exact ⟨s.turn, rfl, s.unpack_turn, filed.turn⟩
  | next g | jump g =>
    have path : ∀ f ∈ some g, f.Numbered s.calls := by
      rintro f ⟨⟩
      exact own g List.mem_cons_self
    exact ⟨{ s with path? := some g }, rfl, rfl, path, filed.waits, filed.visits⟩
  | branch taken fallthrough =>
    have path : ∀ f ∈ some taken, f.Numbered s.calls := by
      rintro f ⟨⟩
      exact own taken List.mem_cons_self
    have behind := own fallthrough (List.mem_cons_of_mem _ List.mem_cons_self)
    refine ⟨{ s with path? := some taken, work := s.work.push fallthrough }, rfl, ?_, path,
      filed.waits.push behind, filed.visits⟩
    rw [unpack, Worklist.unpack_push]
    rfl
  | call entry resume =>
    obtain ⟨height, depth⟩ := room entry resume rfl
    exact exists_enter filed hw bounds (own resume List.mem_cons_self) calls links height depth
  | ret c =>
    have bounds : ∀ e ∈ [c.entry], e.toNat < size := by
      rintro e he
      exact List.mem_singleton.mp he ▸ bounds
    obtain ⟨waits, work, released, same, all⟩ := Waits.release_eq_ok hw bounds filed.waits
    have same : s.unpack.waits.release [c.entry.toNat] s.unpack.work =
        (waits.unpack s.calls, work.unpack s.calls) := same
    have filed' : Filed { s with waits, work } := ⟨filed.path, all, filed.visits⟩
    refine ⟨turn { s with waits, work }, ?_, ?_, filed'.turn⟩
    · rw [follow, released]
      rfl
    · rw [unpack_turn]
      simp only [Move.unpack, Call.unpack, Check.State.follow, same]
      rfl

/-- A path is pruned if its offset has an owner on record. -/
theorem exists_prune {own? : Option UInt32} (filed : s.Filed) (hw : s.unpack.waits.Fits size)
    (links : s.waits.parked.links.size < UInt32.size) (slot : f.pc.toNat < s.owners.size)
    (same : Check.Frame.entry? (f.unpack s.calls) = own?.map UInt32.toNat)
    (inside : ∀ e ∈ own?, e.toNat < size)
    (owner_lt : ∀ o ∈ s.unpack.owner? (f.unpack s.calls).pc, o < size) :
    ∃ s', s.prune f own? = .ok s' ∧ s'.unpack = s.unpack.prune (f.unpack s.calls) ∧ s'.Filed := by
  have found := Array.getElem?_eq_getElem slot
  have recorded : s.unpack.owners[(f.unpack s.calls).pc]?.join =
      s.owners[f.pc.toNat].map UInt32.toNat := by
    rw [unpack, Array.getElem?_map, Frame.unpack, found, Option.map_some, Option.join_some]
  have counted : Filed { s with prunes := s.prunes + 1 } := ⟨filed.path, filed.waits, filed.visits⟩
  have alone := unpack_turn { s with prunes := s.prunes + 1 }
  rw [Check.State.owner?, recorded] at owner_lt
  unfold prune Check.State.prune
  simp only [lookup, found, same, recorded, bind, Except.bind]
  cases own? with
  | none => exact ⟨_, rfl, alone, counted.turn⟩
  | some entry =>
    cases owner : s.owners[f.pc.toNat] with
    | none => exact ⟨_, rfl, alone, counted.turn⟩
    | some o =>
      simp only [Option.map_some, UInt32.toNat_inj]
      by_cases h : entry = o
      · simp only [h, if_true]
        exact ⟨_, rfl, alone, counted.turn⟩
      · rw [owner] at owner_lt
        have only : ∀ d ∈ Waiter.entry? (.entry entry), d.toNat < size := by
          rintro d ⟨⟩
          exact inside entry rfl
        have none : ∀ g ∈ Waiter.frame? (.entry entry), g.Numbered s.calls := by rintro g ⟨⟩
        obtain ⟨waits, work, waited, same, all⟩ :=
          Waits.wait_eq_ok hw (owner_lt _ rfl) only links filed.waits none
        have same : s.unpack.waits.wait o.toNat (.entry entry.toNat) s.unpack.work =
            (waits.unpack s.calls, work.unpack s.calls) := same
        have kept : Filed { s with waits, work, prunes := s.prunes + 1 } :=
          ⟨filed.path, all, filed.visits⟩
        simp only [h, if_false, wait_of_lt links, waited, same]
        exact ⟨_, rfl, unpack_turn _, kept.turn⟩

/-- A new offset is taken down if it lies in the tables. -/
theorem exists_visit {own? : Option UInt32} (filed : s.Filed)
    (height : f.pc.toNat < s.heights.size) (owner : f.pc.toNat < s.owners.size)
    (same : Check.Frame.entry? (f.unpack s.calls) = own?.map UInt32.toNat)
    (new : s.unpack.heights.at? (f.unpack s.calls).pc = none) :
    ∃ s', s.visit f own? = .ok s' ∧ s'.unpack = s.unpack.visit (f.unpack s.calls) ∧ s'.Filed ∧
      s'.calls = s.calls ∧ s'.waits = s.waits := by
  have slot : (f.unpack s.calls).pc < s.unpack.heights.slots.size := by
    rw [unpack, Array.size_map]
    exact height
  have visited := Check.State.reached_visit new slot
  have unpacked : unpack { s with
      heights := s.heights.set! f.pc.toNat (some f.height)
      owners := s.owners.set! f.pc.toNat own?
      visits := s.visits + 1 } = s.unpack.visit (f.unpack s.calls) := by
    simp only [Check.State.visit, same]
    simp [unpack, Frame.unpack]
  refine ⟨{ s with
    heights := s.heights.set! f.pc.toNat (some f.height)
    owners := s.owners.set! f.pc.toNat own?
    visits := s.visits + 1 }, ?_, unpacked, ⟨filed.path, filed.waits, ?_⟩, rfl, rfl⟩
  · rw [visit, store, if_pos height, store, if_pos owner]
    rfl
  · rw [unpacked, visited, ← filed.visits]

/-! ## Steps -/

theorem path?_unpack (path : s.path? = some f) : s.unpack.path? = some (f.unpack s.calls) := by
  rw [unpack, path, Option.map_some]

theorem at?_unpack {pc : Nat} {height? : Option UInt16} (h : s.heights[pc]? = some height?) :
    s.unpack.heights.at? pc = height?.map UInt16.toNat := by
  rw [Heights.at?, unpack, Array.getElem?_map, h, Option.map_some, Option.join_some]

/-- What a step in words comes to, the step on numbers comes to, and calls keep their numbers. -/
inductive Matches : Except Stop State → Check.Step → Prop where
  | next {s' : State} {events : List Event} (filed : s'.Filed) :
      Matches (.ok s') (.next s'.unpack events)
  | fail {v : Violation} {events : List Event} : Matches (.error (.violation v)) (.fail v events)

namespace Matches

variable {x : Stop} {step : Check.Step}

theorem of_unpack {t : Check.State} {events : List Event} (filed : s'.Filed) (h : s'.unpack = t) :
    Matches (.ok s') (.next t events) :=
  h ▸ .next filed

theorem exists_next (h : Matches (.ok s') step) :
    s'.Filed ∧ ∃ events, step = .next s'.unpack events := by
  cases h with
  | next filed => exact ⟨filed, _, rfl⟩

theorem exists_fail (h : Matches (.error x) step) :
    ∃ v events, x = .violation v ∧ step = .fail v events := by
  cases h with
  | fail => exact ⟨_, _, rfl, rfl⟩

end Matches

/-- A state in words stands for one that the check of a code comes through, whose length leaves
room for the bytes that its last instruction may lack. -/
structure Stands (code : Code) (limits : Limits) (s : State) : Prop where
  short : code.size ≤ 4294967263
  passes : Check.Passes code limits s.unpack
  filed : s.Filed

namespace Stands

theorem initial (short : code.size ≤ 4294967263) :
    (State.initial code.size).Stands code limits where
  short := short
  passes := by
    rw [unpack_initial]
    exact .initial
  filed := filed_initial code.size

theorem sizes (h : s.Stands code limits) :
    s.heights.size = code.size ∧ s.owners.size = code.size := by
  have heights := h.passes.inv.slots
  have owners := h.passes.inv.owners
  rw [unpack, Array.size_map] at heights owners
  exact ⟨heights, owners⟩

/-- There are numbers left for another call and another link. -/
theorem numbers (h : s.Stands code limits) :
    s.calls.size < UInt32.size ∧ s.waits.parked.links.size < UInt32.size := by
  obtain ⟨calls, prunes⟩ := h.passes.calls_le
  have links := h.passes.links_le
  have same : s.unpack.waits.parked.links.size = s.waits.parked.links.size := Array.size_map
  have short := h.short
  have word : UInt32.size = 4294967296 := rfl
  change 3 * s.calls.size ≤ _ at calls
  change 3 * (s.calls.size + s.unpack.prunes) ≤ _ at prunes
  change _ ≤ s.calls.size + _ at links
  constructor <;> omega

theorem holds (path : s.path? = some f) : s.unpack.Holds (f.unpack s.calls) :=
  .inl (.inl (path?_unpack path))

/-- A call that a frame gets through has room on both stacks. -/
theorem room_of_takes {entry : UInt32} {resume : Frame} (h : s.Stands code limits)
    (path : s.path? = some f) (fetch : Machine.Fetch code f.pc.toNat i op)
    (takes : (f.unpack s.calls).Takes limits (.ofCode code) i op
      ((Move.call entry resume).unpack s.calls)) :
    resume.base.toNat + resume.height.toNat < UInt16.size ∧
      resume.depth.toNat + 1 < UInt16.size := by
  have room := h.passes.room (holds path)
  have sounds := ((h.passes.inv.sound _ (holds path)).of_takes fetch.decode takes).1
  have deep := (sounds _ List.mem_cons_self).depth_le
  obtain ⟨-, -, -, same⟩ := takes.calls fetch
  have base := congrArg Check.Frame.base same
  have height := congrArg Check.Frame.height same
  have stack := limits.stack.toNat_lt
  have calls := limits.calls.toNat_lt
  have word : UInt16.size = 65536 := rfl
  simp only [Frame.unpack] at room base height deep
  constructor <;> omega

/-- A path that comes to a known offset is pruned, or it shows a violation. -/
theorem matches_known {expected : UInt16} {own? : Option UInt32} (h : s.Stands code limits)
    (path : s.path? = some f)
    (same : Check.Frame.entry? (f.unpack s.calls) = own?.map UInt32.toNat)
    (fetch : decode code f.pc.toNat = some i)
    (known : s.heights[f.pc.toNat]? = some (some expected)) :
    Matches (if expected = f.height then s.prune f own?
        else .error (.violation (.heightMismatch f.pc.toNat expected.toNat f.height.toNat)))
      (s.unpack.step code (.ofCode code) limits) := by
  have inv := h.passes.inv
  have sound := inv.sound _ (holds path)
  rw [Check.State.step_of_known (path?_unpack path) fetch (at?_unpack known)]
  change Matches _ (if expected.toNat = f.height.toNat then _ else _)
  simp only [UInt16.toNat_inj]
  split
  · have slot : f.pc.toNat < s.owners.size := h.sizes.2 ▸ lt_size_of_decode fetch
    have entry_lt : ∀ e ∈ own?, e.toNat < code.size := by
      rintro e rfl
      exact sound.entry_lt _ same
    obtain ⟨s', pruned, unpacked, filed⟩ :=
      exists_prune h.filed inv.waits h.numbers.2 slot same entry_lt (inv.owner_lt _)
    rw [pruned]
    exact .of_unpack filed unpacked
  · exact .fail

/-- A path that comes to a new offset goes along with its instruction, or that shows a
violation. -/
theorem matches_new {own? : Option UInt32} (h : s.Stands code limits) (path : s.path? = some f)
    (same : Check.Frame.entry? (f.unpack s.calls) = own?.map UInt32.toNat)
    (fetch : decode code f.pc.toNat = some i) (new : s.heights[f.pc.toNat]? = some none) :
    Matches
      (do
        let s ← s.visit f own?
        let move ← f.advance limits (.ofCode code) s.calls i
        s.follow move)
      (s.unpack.step code (.ofCode code) limits) := by
  have inv := h.passes.inv
  have inside := lt_size_of_decode fetch
  have unknown := at?_unpack new
  rw [Check.State.step_of_new (path?_unpack path) fetch unknown (inv.slots ▸ inside)]
  obtain ⟨heights, owners⟩ := h.sizes
  obtain ⟨s', visited, unpacked, filed, calls, waits⟩ :=
    exists_visit h.filed (heights ▸ inside) (owners ▸ inside) same unknown
  have short := h.short
  have word : UInt32.size = 4294967296 := rfl
  have starts (t : Nat) (start : (Starts.ofCode code).contains t = true) : t < UInt32.size := by
    have := (Starts.contains_natCast.mp start).lt_size
    omega
  have fits : OffsetsFit code := .of_size_le (by omega)
  have agrees := Frame.agrees_advance limits fits (h.filed.path f path) starts fetch
  rw [visited]
  simp only [bind, Except.bind, calls]
  generalize f.advance limits (.ofCode code) s.calls i = x at agrees ⊢
  generalize run : (f.unpack s.calls).advance limits (.ofCode code) i = y at agrees ⊢
  cases agrees with
  | violation v => exact .fail
  | @ok move n related =>
    obtain ⟨rfl, own⟩ := related
    obtain ⟨op, opcode, -, -, -, takes⟩ := Check.Frame.takes_of_advance run
    have bounds := ((inv.sound _ (holds path)).of_takes fetch takes).2
    have room (entry resume) (call : move = .call entry resume) :=
      h.room_of_takes path ⟨fetch, opcode⟩ (call ▸ takes)
    have kept : s'.unpack.waits.Fits code.size := by
      rw [unpacked]
      exact inv.waits
    obtain ⟨numbers, links⟩ := h.numbers
    -- visiting has changed neither the calls nor the links
    rw [← calls] at bounds own numbers
    rw [← waits] at links
    obtain ⟨s'', followed, unpacked', filed'⟩ :=
      exists_follow filed kept bounds own numbers links room
    rw [unpacked, calls] at unpacked'
    simp only [followed]
    exact .of_unpack filed' unpacked'

theorem matches_step (h : s.Stands code limits) (path : s.path? = some f) :
    Matches (s.step code (.ofCode code) limits f) (s.unpack.step code (.ofCode code) limits) := by
  unfold step
  cases fetch : decode code f.pc.toNat with
  | none =>
    rw [Check.State.step_of_past (path?_unpack path) (decode_eq_none_iff.mp fetch)]
    exact .of_unpack h.filed.turn s.unpack_turn
  | some i =>
    obtain ⟨own?, own_eq, same⟩ := (h.filed.path f path).exists_entry
    have inside := lt_size_of_decode fetch
    rw [← h.sizes.1] at inside
    have slot := Array.getElem?_eq_getElem inside
    simp only [own_eq, lookup, slot]
    cases known : s.heights[f.pc.toNat] with
    | some expected => exact h.matches_known path same fetch (known ▸ slot)
    | none => exact h.matches_new path same fetch (known ▸ slot)

theorem step (h : s.Stands code limits) (path : s.path? = some f)
    (step : s.step code (.ofCode code) limits f = .ok s') : s'.Stands code limits := by
  have same := h.matches_step path
  rw [step] at same
  obtain ⟨filed, events, next⟩ := same.exists_next
  exact ⟨h.short, h.passes.step next, filed⟩

end Stands

end State

/-! ## Runs -/

/-- The states that the check of a code in words comes through. -/
inductive Passes (code : Code) (limits : Limits) : State → Prop where
  | initial : Passes code limits (.initial code.size)
  | step {s s' : State} {f : Frame} (before : Passes code limits s) (path : s.path? = some f)
      (step : s.step code (.ofCode code) limits f = .ok s') : Passes code limits s'

variable {s s' : State}

theorem Passes.stands (short : code.size ≤ 4294967263) (h : Passes code limits s) :
    s.Stands code limits := by
  induction h with
  | initial => exact .initial short
  | step _ path step ih => exact ih.step path step

/-- What a run comes to is what it comes to after a step. -/
theorem run_of_step {t : Check.State} : (t.run code starts limits ({} : Sink Unit) ()).1 =
    match t.step code starts limits with
    | .done t => .ok t
    | .fail v _ => .error v
    | .next t' _ => (t'.run code starts limits {} ()).1 := by
  rw [Check.State.run]
  split <;> simp_all

/-- By induction on the run: it comes to what the run of the check comes to. -/
theorem State.Stands.agrees_run (h : s.Stands code limits) :
    Agrees (fun s' t ↦ s'.unpack = t ∧ s'.Filed) (s.run code (.ofCode code) limits)
      (s.unpack.run code (.ofCode code) limits ({} : Sink Unit) ()).1 := by
  rw [run_of_step]
  fun_induction State.run code (.ofCode code) limits s with
  | case1 s idle =>
    have idle : s.unpack.path? = none := by rw [State.unpack, idle, Option.map_none]
    rw [Check.State.step_of_idle idle]
    exact .ok ⟨rfl, h.filed⟩
  | case2 s f path x failed =>
    have same := h.matches_step path
    rw [failed] at same
    obtain ⟨v, events, rfl, fail⟩ := same.exists_fail
    rw [fail]
    exact .violation v
  | case3 s f path s' step ih =>
    have same := h.matches_step path
    rw [step] at same
    obtain ⟨-, events, next⟩ := same.exists_next
    have rest := ih (h.step path step)
    rw [next]
    rwa [← run_of_step] at rest

theorem State.Filed.verified_eq (filed : s.Filed) :
    s.verified code starts = .ofState code starts s.unpack := by
  rw [State.verified, filed.visits]
  rfl

/-- The sweep in words marks the starts, if the offsets behind all instructions fit. -/
theorem mark_eq_ok (fits : OffsetsFit code) (pc : UInt32) (offsets : IndexSet) :
    mark code pc offsets = .ok (Starts.mark code pc.toNat offsets) := by
  fun_induction mark code pc offsets with
  | case1 pc offsets past => rw [Starts.mark, past]
  | case2 pc offsets i fetch x failed =>
    obtain ⟨behind, sum, -⟩ := exists_next fits fetch
    cases failed.symm.trans sum
  | case3 pc offsets i fetch behind sum ih =>
    obtain ⟨behind', sum', exact⟩ := exists_next fits fetch
    obtain rfl := Except.ok.inj (sum.symm.trans sum')
    rw [ih, exact]
    nth_rewrite 2 [Starts.mark]
    rw [fetch]

theorem startsOf_eq_ok (fits : OffsetsFit code) : startsOf code = .ok (.ofCode code) := by
  rw [startsOf, mark_eq_ok fits]
  rfl

/-- The check in words comes to what the check comes to. -/
theorem verify_eq_mapError (short : code.size ≤ 4294967263) :
    verify code limits = (StackFlow.verify code limits).mapError .violation := by
  rcases Nat.lt_or_ge limits.maxCodeLength code.size with long | le
  · rw [Check.verify_of_lt long, verify, if_pos long]
    rfl
  · rw [Check.verify_of_le le, verify, if_neg (Nat.not_lt_of_le le)]
    have fits : OffsetsFit code := .of_size_le (Nat.lt_succ_of_le (Nat.add_le_add_right short 32))
    have begun : (State.initial code.size).Stands code limits := .initial short
    rw [startsOf_eq_ok fits]
    change ((State.initial code.size).run code (.ofCode code) limits).map
      (State.verified code (.ofCode code)) = _
    have agrees := begun.agrees_run
    rw [State.unpack_initial] at agrees
    generalize (State.initial code.size).run code (.ofCode code) limits = x at agrees ⊢
    generalize ((Check.State.initial code.size).run code (.ofCode code) limits
      ({} : Sink Unit) ()).1 = y at agrees ⊢
    cases agrees with
    | violation => rfl
    | ok related =>
      obtain ⟨rfl, filed⟩ := related
      exact congrArg Except.ok filed.verified_eq

/-! ## Bounds -/

/-- The frame is at hand, at work or parked. -/
def State.Holds (s : State) (f : Frame) : Prop :=
  s.path? = some f ∨ f ∈ s.work.frames ∨ ∃ e, .resume f ∈ s.waits.parked.items e

/-- The whole stack of a frame and the number of its calls are within the limits.  It has calls
outstanding unless it is of the top level, where nothing is below its base, and the innermost one
is in the table and has entered an instruction start. -/
structure Frame.Bounded (code : Code) (limits : Limits) (calls : Array Call) (f : Frame) :
    Prop where
  stack : f.base.toNat + f.height.toNat ≤ limits.stack.toNat
  depth : f.depth ≤ limits.calls
  top : f.call? = none ↔ f.depth = 0
  base : f.depth = 0 → f.base = 0
  call : ∀ n ∈ f.call?, ∃ c, calls[n.toNat]? = some c ∧ IsStart code c.entry.toNat

/-- All frames of a state are bounded, its tables have a place for each offset of the code, and
there are numbers left for another call and another link. -/
structure State.Bounded (code : Code) (limits : Limits) (s : State) : Prop where
  frames : ∀ f, s.Holds f → f.Bounded code limits s.calls
  heights : s.heights.size = code.size
  owners : s.owners.size = code.size
  returning : s.waits.returning.bound = code.size
  heads : s.waits.parked.heads.size = code.size
  calls : s.calls.size < UInt32.size
  links : s.waits.parked.links.size < UInt32.size

theorem State.Holds.unpack (h : s.Holds f) : s.unpack.Holds (f.unpack s.calls) := by
  rcases h with path | work | ⟨e, parked⟩
  · exact .inl (.inl (by rw [State.unpack, path, Option.map_some]))
  · exact .inl (.inr (Array.mem_map_of_mem work))
  · refine .inr ⟨e, ?_⟩
    change _ ∈ (s.waits.unpack s.calls).parkedAt e
    rw [Waits.parkedAt_unpack]
    exact List.mem_map_of_mem parked

theorem State.Filed.numbered (filed : s.Filed) (h : s.Holds f) : f.Numbered s.calls := by
  rcases h with path | work | ⟨e, parked⟩
  · exact filed.path f path
  · exact filed.waits.work f work
  · obtain ⟨l, link, item⟩ := Waits.mem_items parked
    exact filed.waits.links l link f (by rw [item]; rfl)

theorem State.Stands.bounded (h : s.Stands code limits) : s.Bounded code limits := by
  have inv := h.passes.inv
  obtain ⟨heights, owners⟩ := h.sizes
  obtain ⟨calls, links⟩ := h.numbers
  refine ⟨fun f holds ↦ ?_, heights, owners, inv.waits.bound, inv.waits.parked, calls, links⟩
  have own := h.filed.numbered holds
  have grounded := h.passes.grounded holds.unpack
  exact
    { stack := h.passes.room holds.unpack
      depth := UInt16.le_iff_toNat_le.mpr (inv.sound _ holds.unpack).depth_le
      top := by
        rw [← own.call?_unpack_eq_none, grounded.top, ← UInt16.toNat_inj]
        rfl
      base := fun top ↦ UInt16.toNat_inj.mp (grounded.base (congrArg UInt16.toNat top))
      call := fun n hn ↦ by
        obtain ⟨c, slot, same⟩ := own.exists_call hn
        exact ⟨c, slot, grounded.entry _ same⟩ }

/-- A check in words of a code whose length leaves room for thirty-three more bytes has no faults,
and its result is that of the check.  Whatever the limits, every state that it comes through is
bounded, and no step from there finds a sum, a height, an index or a number out of range. -/
theorem never_faults (code : Code) (limits : Limits) (short : code.size ≤ 4294967262) :
    (∀ s, Passes code limits s → s.Bounded code limits ∧
      ∀ f, s.path? = some f → ∀ x, s.step code (.ofCode code) limits f ≠ .error (.fault x)) ∧
    verify code limits = (StackFlow.verify code limits).mapError .violation := by
  refine ⟨fun s h ↦ ?_, verify_eq_mapError (short.trans (by decide))⟩
  have stands := h.stands (short.trans (by decide))
  refine ⟨stands.bounded, fun f path x failed ↦ ?_⟩
  have same := stands.matches_step path
  rw [failed] at same
  obtain ⟨v, events, fault, -⟩ := same.exists_fail
  cases fault

/-- The subroutine is entered with the first call in the table, while the stop behind the call
waits. -/
theorem never_faults_callThenStop :
    callThenStop.size ≤ 4294967262 ∧
    (∃ s f, Passes callThenStop {} s ∧ s.path? = some f ∧ f.depth = 1 ∧ f.call? = some 0 ∧
      s.waits.parked.items 4 = [.resume { Frame.start with pc := 3 }] ∧
      s.Bounded callThenStop {}) ∧
    ∃ v, verify callThenStop {} = .ok v ∧ v.heightAt? 4 = some 0 := by
  have short : callThenStop.size ≤ 4294967262 := by decide
  obtain ⟨bounded, same⟩ := never_faults callThenStop {} short
  have accepted : StackFlow.verify callThenStop {} = .ok ⟨callThenStop, .ofCode callThenStop,
      ⟨#[some 0, none, none, some 0, some 0]⟩, ⟨3, 0, 2, 1, 1⟩⟩ := by
    decide +kernel
  have entered : ((State.initial 5).step callThenStop (.ofCode callThenStop) {} .start).map
      (fun s ↦ (s.path?, s.waits.parked.items 4)) =
        .ok (some { pc := 4, height := 0, base := 0, depth := 1, call? := some 0 },
          [.resume { Frame.start with pc := 3 }]) := by
    decide +kernel
  obtain ⟨s, step, at_⟩ := map_eq_ok.mp entered
  obtain ⟨path, parked⟩ := Prod.mk.inj at_
  have passes : Passes callThenStop {} s := Passes.initial.step rfl step
  rw [accepted] at same
  exact ⟨short, ⟨s, _, passes, path, rfl, rfl, parked, (bounded s passes).1⟩, _, same, rfl⟩

end StackFlow.Packed
