import StackFlow.Proofs.Moves
import StackFlow.Proofs.Pending
import StackFlow.Proofs.Sweep

/-!
# The invariant of a check

At every moment of a check each known offset has been expanded by some frame,
and where its instruction leads has either been known since, or is pending, or
is parked behind a call (`State.Expanded`).  A path that was pruned leaves two
traces: the event itself (`Merges`) and, inside a subroutine, a link to the one
that it merged into.  Once nothing is pending, the invariant describes the
known offsets alone (`State.Inv.settled`).
-/

namespace StackFlow.Check

open Machine (Fetch Spot)

variable {code : Code} {limits : Limits} {s s' : State} {f g : Frame}

/-- A path of the check comes with frame `f` to an offset that is known at its height, and was
reached first in the subroutine `owner?`.  There the path ends. -/
def Merges (code : Code) (limits : Limits) (f : Frame) (owner? : Option Nat) : Prop :=
  ∃ s, Passes code limits s ∧ s.path? = some f ∧ s.heights.at? f.pc = some f.height ∧
    s.owner? f.pc = owner?

/-- What holds of every frame of a check. -/
structure Frame.Sound (code : Code) (limits : Limits) (f : Frame) : Prop where
  start : f.pc < code.size → IsStart code f.pc
  entry_lt : ∀ e ∈ f.entry?, e < code.size
  depth_le : f.depth ≤ limits.calls.toNat
  depth_top : f.call? = none → f.depth = 0

namespace Frame

theorem sound_start : Frame.start.Sound code limits where
  start := isStart_zero
  entry_lt := fun _ h ↦ nomatch h
  depth_le := Nat.zero_le _
  depth_top := fun _ ↦ rfl

theorem Sound.of_takes {i : Instr} {op : Opcode} {m : Move} (hf : f.Sound code limits)
    (fetch : decode code f.pc = some i) (h : f.Takes limits (.ofCode code) i op m) :
    (∀ g ∈ m.frames, g.Sound code limits) ∧ m.InBounds code.size := by
  have behind : i.next < code.size → IsStart code i.next :=
    (hf.start (lt_size_of_decode fetch)).next fetch
  cases h with
  | halt => exact ⟨fun _ h ↦ absurd h List.not_mem_nil, trivial⟩
  | next flow =>
    refine ⟨fun g hg ↦ ?_, trivial⟩
    cases List.mem_singleton.mp hg
    exact ⟨behind, hf.entry_lt, hf.depth_le, hf.depth_top⟩
  | jump flow target start =>
    refine ⟨fun g hg ↦ ?_, trivial⟩
    cases List.mem_singleton.mp hg
    exact ⟨fun _ ↦ Starts.contains_natCast.mp start, hf.entry_lt, hf.depth_le, hf.depth_top⟩
  | branch flow target start =>
    refine ⟨fun g hg ↦ ?_, trivial⟩
    rcases List.mem_cons.mp hg with rfl | hg
    · exact ⟨fun _ ↦ Starts.contains_natCast.mp start, hf.entry_lt, hf.depth_le, hf.depth_top⟩
    · cases List.mem_singleton.mp hg
      exact ⟨behind, hf.entry_lt, hf.depth_le, hf.depth_top⟩
  | call flow target start room =>
    refine ⟨fun g hg ↦ ?_, (Starts.contains_natCast.mp start).lt_size⟩
    rcases List.mem_cons.mp hg with rfl | hg
    · refine ⟨fun _ ↦ Starts.contains_natCast.mp start, fun e he ↦ ?_, room, fun h ↦ nomatch h⟩
      cases he
      exact (Starts.contains_natCast.mp start).lt_size
    · cases List.mem_singleton.mp hg
      exact ⟨behind, hf.entry_lt, hf.depth_le, hf.depth_top⟩
  | @ret c flow call =>
    exact ⟨fun _ h ↦ absurd h List.not_mem_nil,
      hf.entry_lt c.entry (congrArg (Option.map Call.entry) call)⟩

end Frame

namespace State

/-- The frame needs no more attention: it is past the end, or stands at an offset known at its
height.  If it came there from outside, it was pruned, and its subroutine returns once the one
that owns the offset does. -/
def Landed (code : Code) (limits : Limits) (s : State) (f : Frame) : Prop :=
  code.size ≤ f.pc ∨ s.heights.at? f.pc = some f.height ∧
    (s.owner? f.pc = f.entry? ∨ Merges code limits f (s.owner? f.pc) ∧
      ∀ e ∈ f.entry?, ∀ o ∈ s.owner? f.pc, e ≠ o →
        .entry e ∈ s.waits.parkedAt o ∨ s.waits.Returning e)

/-- The frame has landed or is pending. -/
def Covered (code : Code) (limits : Limits) (s : State) (f : Frame) : Prop :=
  s.Landed code limits f ∨ s.Pending f

/-- A frame has expanded the offset at which it stands, and the frames that its move leads to have
a property. -/
structure Expands (code : Code) (limits : Limits) (s : State) (Q : Frame → Prop) (f : Frame)
    (i : Instr) (op : Opcode) (m : Move) : Prop where
  sound : f.Sound code limits
  owner : s.owner? f.pc = f.entry?
  fetch : Fetch code f.pc i op
  legal : op.flow ≠ .invalid
  items : op.inputs ≤ f.height
  room : f.base + f.after op ≤ limits.stack.toNat
  takes : f.Takes limits (.ofCode code) i op m
  followed : s.Followed Q m

/-- Some frame has expanded the spot. -/
def Expanded (code : Code) (limits : Limits) (s : State) (Q : Frame → Prop) (a : Spot) : Prop :=
  ∃ f i op m, f.spot = a ∧ s.Expands code limits Q f i op m

theorem Landed.mono (hk : Keeps s s') (h : s.Landed code limits f) :
    s'.Landed code limits f := by
  rcases h with h | ⟨known, h⟩
  · exact .inl h
  refine .inr ⟨hk.known known, ?_⟩
  rw [hk.owner known]
  refine h.imp_right fun ⟨merges, link⟩ ↦ ⟨merges, fun e he o ho hne ↦ ?_⟩
  rcases link e he o ho hne with h | h
  · exact hk.entry h
  · exact .inr (hk.returning h)

theorem Covered.mono (hk : Keeps s s') (land : ∀ f, s.path? = some f → s'.Landed code limits f)
    (h : s.Covered code limits f) : s'.Covered code limits f := by
  rcases h with h | h | h
  · exact .inl (h.mono hk)
  · exact .inl (land f h)
  · exact .inr (hk.work h)

theorem Expanded.mono {Q Q' : Frame → Prop} {a : Spot} (hk : Keeps s s')
    (known : s.heights.at? a.pc = some a.height) (hq : ∀ g, Q g → Q' g)
    (hp : ∀ g, s'.Pending g → Q' g) (h : s.Expanded code limits Q a) :
    s'.Expanded code limits Q' a := by
  obtain ⟨f, i, op, m, rfl, e⟩ := h
  exact ⟨f, i, op, m, rfl, { e with
    owner := (hk.owner known).trans e.owner
    followed := e.followed.mono hk hq hp }⟩

/-- The invariant of a check. -/
structure Inv (code : Code) (limits : Limits) (s : State) : Prop where
  slots : s.heights.slots.size = code.size
  owners : s.owners.size = code.size
  waits : s.waits.Fits code.size
  idle : s.path? = none → s.work.frames = #[]
  sound : ∀ f, s.Holds f → f.Sound code limits
  owner_lt : ∀ pc, ∀ o ∈ s.owner? pc, o < code.size
  begun : s.Covered code limits .start
  expanded : ∀ a : Spot, s.heights.at? a.pc = some a.height →
    s.Expanded code limits (s.Covered code limits) a

theorem inv_initial : (State.initial code.size).Inv code limits where
  slots := Array.size_replicate
  owners := Array.size_replicate
  waits := Waits.fits_empty _
  idle := fun h ↦ nomatch h
  sound := by
    rintro f ((h | h) | ⟨o, h⟩)
    · cases h
      exact Frame.sound_start
    · simp [initial, Worklist.push, Worklist.pop] at h
    · simp [initial] at h
  owner_lt := by
    intro pc o h
    by_cases hpc : pc < code.size <;> simp [initial, owner?, hpc] at h
  begun := .inr (.inl rfl)
  expanded := by simp [initial]

/-- What keeps everything and looks after its path keeps the invariant, if what is new in it
is in order. -/
theorem Inv.of_keeps (inv : s.Inv code limits) (hk : Keeps s s')
    (land : ∀ f, s.path? = some f → s'.Landed code limits f)
    (slots : s'.heights.slots.size = code.size) (owners : s'.owners.size = code.size)
    (waits : s'.waits.Fits code.size) (idle : s'.path? = none → s'.work.frames = #[])
    (sound : ∀ f, s'.Holds f → f.Sound code limits)
    (owner_lt : ∀ pc, ∀ o ∈ s'.owner? pc, o < code.size)
    (new : ∀ a : Spot, s'.heights.at? a.pc = some a.height →
      s.heights.at? a.pc = some a.height ∨ s'.Expanded code limits (s'.Covered code limits) a) :
    s'.Inv code limits where
  slots := slots
  owners := owners
  waits := waits
  idle := idle
  sound := sound
  owner_lt := owner_lt
  begun := inv.begun.mono hk land
  expanded := by
    intro a h
    rcases new a h with known | h
    · exact (inv.expanded a known).mono hk known (fun _ hg ↦ hg.mono hk land) fun _ hg ↦ .inr hg
    · exact h

theorem Inv.turn (inv : s.Inv code limits) (path : s.path? = some f) (past : code.size ≤ f.pc) :
    s.turn.Inv code limits := by
  refine inv.of_keeps (keeps_turn s) (fun g hg ↦ ?_) inv.slots inv.owners inv.waits
    frames_of_path?_turn (fun g hg ↦ inv.sound g (holds_of_turn hg)) inv.owner_lt
    fun _ h ↦ .inl h
  cases path.symm.trans hg
  exact .inl past

theorem Inv.prune (passes : Passes code limits s) (inv : s.Inv code limits)
    (path : s.path? = some f) (known : s.heights.at? f.pc = some f.height) :
    (s.prune f).Inv code limits := by
  have sound := inv.sound f (.inl (.inl path))
  obtain ⟨waits, keeps, link, idle⟩ := prune_spec inv.waits sound.entry_lt (inv.owner_lt f.pc)
  have owner (pc : Nat) : (s.prune f).owner? pc = s.owner? pc := by
    rw [owner?, owners_prune, owner?]
  refine inv.of_keeps keeps (fun g hg ↦ ?_) ?_ ?_ waits idle
    (fun g hg ↦ inv.sound g (holds_of_prune inv.waits sound.entry_lt (inv.owner_lt f.pc) hg))
    (fun pc o ho ↦ inv.owner_lt pc o (owner pc ▸ ho)) fun a h ↦ .inl ?_
  · cases path.symm.trans hg
    refine .inr ⟨keeps.known known, .inr ?_⟩
    rw [owner]
    exact ⟨⟨s, passes, path, known, rfl⟩, link⟩
  · rw [heights_prune, inv.slots]
  · rw [owners_prune, inv.owners]
  · rwa [heights_prune] at h

theorem Inv.visit {i : Instr} {op : Opcode} {m : Move} (inv : s.Inv code limits)
    (path : s.path? = some f) (fetch : Fetch code f.pc i op) (new : s.heights.at? f.pc = none)
    (legal : op.flow ≠ .invalid) (items : op.inputs ≤ f.height)
    (room : f.base + f.after op ≤ limits.stack.toNat)
    (takes : f.Takes limits (.ofCode code) i op m) :
    ((s.visit f).follow m).Inv code limits := by
  have sound := inv.sound f (.inl (.inl path))
  have hslots : f.pc < s.heights.slots.size := inv.slots ▸ lt_size_of_decode fetch.decode
  have howners : f.pc < s.owners.size := inv.owners ▸ lt_size_of_decode fetch.decode
  obtain ⟨sounds, bounds⟩ := sound.of_takes fetch.decode takes
  obtain ⟨waits, keeps, followed, idle⟩ := follow_spec (s := s.visit f) inv.waits bounds
  have owner : ((s.visit f).follow m).owner? f.pc = f.entry? := by
    rw [owner?_follow_visit howners, if_pos rfl]
  refine inv.of_keeps (keeps.of_visit hslots howners new) (fun g hg ↦ ?_) ?_ ?_ waits idle
    (fun g hg ↦ ?_) (fun pc o ho ↦ ?_) fun a h ↦ ?_
  · cases path.symm.trans hg
    exact .inr ⟨by rw [at?_follow_visit hslots, if_pos rfl], .inl owner⟩
  · rw [heights_follow]
    simp [State.visit, inv.slots]
  · rw [owners_follow]
    simp [State.visit, inv.owners]
  · exact (holds_of_follow (s := s.visit f) inv.waits bounds hg).elim (inv.sound g) (sounds g)
  · rw [owner?_follow_visit howners] at ho
    split at ho
    · exact sound.entry_lt o ho
    · exact inv.owner_lt pc o ho
  · rcases known_of_follow_visit hslots h with known | ⟨hpc, hheight⟩
    · exact .inl known
    · refine .inr ⟨f, i, op, m, ?_, sound, owner, fetch, legal, items, room, takes, ?_⟩
      · rw [Frame.spot, hpc, hheight]
      · exact followed.mono (.refl _) (fun _ hg ↦ .inr hg) fun _ hg ↦ .inr hg

/-- A step of a check loses nothing. -/
theorem Goes.keeps {events : List Event} (inv : s.Inv code limits) (path : s.path? = some f)
    (h : s.Goes code (.ofCode code) limits f s' events) : Keeps s s' := by
  have sound := inv.sound f (.inl (.inl path))
  cases h with
  | ends => exact keeps_turn s
  | prunes => exact (prune_spec inv.waits sound.entry_lt (inv.owner_lt f.pc)).2.1
  | visits fetch new _ _ _ takes =>
    have hlt := lt_size_of_decode fetch.decode
    have bounds := (sound.of_takes fetch.decode takes).2
    exact (follow_spec (s := s.visit f) inv.waits bounds).2.1.of_visit (inv.slots ▸ hlt)
      (inv.owners ▸ hlt) new

/-! ## At the end -/

theorem Inv.not_pending (inv : s.Inv code limits) (path : s.path? = none) : ¬ s.Pending f := by
  rintro (h | h)
  · rw [path] at h
    cases h
  · rw [inv.idle path] at h
    simp at h

theorem Inv.landed (inv : s.Inv code limits) (path : s.path? = none)
    (h : s.Covered code limits f) : s.Landed code limits f :=
  h.resolve_right (inv.not_pending path)

/-- Once all paths have been followed, where the instruction of a known offset leads is known. -/
theorem Inv.settled {a : Spot} (inv : s.Inv code limits) (path : s.path? = none)
    (known : s.heights.at? a.pc = some a.height) :
    s.Expanded code limits (s.Landed code limits) a :=
  (inv.expanded a known).mono (.refl s) known (fun _ hg ↦ inv.landed path hg) fun _ hg ↦
    absurd hg (inv.not_pending path)

theorem Followed.flat {Q : Frame → Prop} {m : Move} (h : s.Followed Q m) (hg : g ∈ m.flats) :
    Q g := by
  cases m with
  | next f | jump f => exact List.mem_singleton.mp hg ▸ h
  | branch taken fallthrough =>
    rcases List.mem_cons.mp hg with rfl | hg
    · exact h.1
    · exact List.mem_singleton.mp hg ▸ h.2
  | halt | call | ret => cases hg

theorem Landed.past_or_known (h : s.Landed code limits f) :
    code.size ≤ f.pc ∨ s.heights.at? f.pc = some f.height :=
  h.imp_right And.left

theorem Landed.known (h : s.Landed code limits f) (hlt : f.pc < code.size) :
    s.heights.at? f.pc = some f.height :=
  h.past_or_known.resolve_left (Nat.not_le_of_lt hlt)

end State

/-- The invariant holds at every state that a check comes through. -/
theorem Passes.inv (h : Passes code limits s) : s.Inv code limits := by
  induction h with
  | initial => exact State.inv_initial
  | @step s s' events before step ih =>
    obtain ⟨f, path, goes⟩ := State.goes_of_step ih.slots step
    cases goes with
    | ends past => exact ih.turn path past
    | prunes fetch known => exact ih.prune before path known
    | visits fetch new legal items room takes =>
      exact ih.visit path fetch new legal items room takes

/-- What holds of the first frame and is kept by moves holds of every frame of a check. -/
theorem Passes.holds_induct {Q : Frame → Prop} (start : Q .start)
    (move : ∀ {f i op m}, Fetch code f.pc i op → op.inputs ≤ f.height →
      f.base + f.after op ≤ limits.stack.toNat → f.Takes limits (.ofCode code) i op m → Q f →
      ∀ g ∈ m.frames, Q g)
    (h : Passes code limits s) : ∀ f, s.Holds f → Q f := by
  induction h with
  | initial =>
    rintro f ((h | h) | ⟨o, h⟩)
    · cases h
      exact start
    · simp [State.initial, Worklist.push, Worklist.pop] at h
    · simp [State.initial] at h
  | @step s s' events before step ih =>
    have inv := before.inv
    obtain ⟨f, path, goes⟩ := State.goes_of_step inv.slots step
    have here : s.Holds f := .inl (.inl path)
    have sound := inv.sound f here
    intro g hg
    cases goes with
    | ends => exact ih g (State.holds_of_turn hg)
    | prunes => exact ih g (State.holds_of_prune inv.waits sound.entry_lt (inv.owner_lt f.pc) hg)
    | visits fetch _ _ items room takes =>
      have bounds := (sound.of_takes fetch.decode takes).2
      rcases State.holds_of_follow (s := s.visit f) inv.waits bounds hg with hg | hg
      · exact ih g hg
      · exact move fetch items room takes (ih f here) g hg

end StackFlow.Check
