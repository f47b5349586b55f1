import Mathlib.Logic.Relation
import StackFlow.Proofs.Invariant

/-!
# The heights of accepted code are a closed certificate

The heights that a check leaves can be checked again without following any
path: at each offset that has one the instruction can run, and the offsets that
it leads to have the heights that it leaves (`Certified`).  No height is there
for nothing either: along such edges every offset that has one is connected to
the beginning of the code.
-/

namespace StackFlow

open Machine

variable {code : Code} {limits : Limits}

/-- The instruction at an offset can be run at a height: it is legal, finds its items, and goes,
if it is relative, to an instruction start. -/
structure Machine.Runs (code : Code) (pc height : Nat) (i : Instr) (op : Opcode) : Prop where
  fetch : Fetch code pc i op
  legal : op.flow ≠ .invalid
  items : op.inputs ≤ height
  target : op.isRelative = true → ∃ t : Nat, i.target? = some (t : Int) ∧ IsStart code t

/-- Some instruction at an offset can be run at a height. -/
def Machine.Runnable (code : Code) (pc height : Nat) : Prop := ∃ i op, Runs code pc height i op

/-- The height of an offset fits the instruction there, and the heights of the offsets that the
instruction leads to. -/
structure Verified.Certified (code : Code) (limits : Limits) (v : Verified) (pc height : Nat)
    (i : Instr) (op : Opcode) : Prop where
  start : IsStart code pc
  fetch : Fetch code pc i op
  legal : op.flow ≠ .invalid
  items : op.inputs ≤ height
  room : height - op.inputs + op.outputs ≤ limits.stack.toNat
  next : op.flow = .next →
    code.size ≤ i.next ∨ v.heightAt? i.next = some (height - op.inputs + op.outputs)
  jump : op.flow = .jump → ∃ t : Nat, i.target? = some (t : Int) ∧ IsStart code t ∧
    v.heightAt? t = some height
  branch : op.flow = .jumpIf →
    (∃ t : Nat, i.target? = some (t : Int) ∧ IsStart code t ∧
      v.heightAt? t = some (height - op.inputs + op.outputs)) ∧
    (code.size ≤ i.next ∨ v.heightAt? i.next = some (height - op.inputs + op.outputs))
  call : op.flow = .call → ∃ t : Nat, i.target? = some (t : Int) ∧ IsStart code t ∧
    v.heightAt? t = some 0

/-- Control leads from one spot to another, and both have the heights that are known. -/
def Verified.Edge (code : Code) (v : Verified) (a b : Spot) : Prop :=
  v.heightAt? a.pc = some a.height ∧ v.heightAt? b.pc = some b.height ∧ Leads code a b

theorem Verified.Certified.runs {v : Verified} {pc height : Nat} {i : Instr} {op : Opcode}
    (h : v.Certified code limits pc height i op) : Runs code pc height i op where
  fetch := h.fetch
  legal := h.legal
  items := h.items
  target := by
    intro relative
    cases flow : op.flow with
    | jump =>
      obtain ⟨t, target, start, _⟩ := h.jump flow
      exact ⟨t, target, start⟩
    | jumpIf =>
      obtain ⟨⟨t, target, start, _⟩, _⟩ := h.branch flow
      exact ⟨t, target, start⟩
    | call =>
      obtain ⟨t, target, start, _⟩ := h.call flow
      exact ⟨t, target, start⟩
    | _ =>
      rw [Opcode.isRelative, flow] at relative
      cases relative

namespace Check

variable {s s' : State}

/-! ## The heights fit together -/

namespace State

/-- At the end of a check the known heights fit together. -/
theorem Inv.certified {pc height : Nat} (inv : s.Inv code limits) (path : s.path? = none)
    (known : s.heights.at? pc = some height) :
    ∃ i op, (Verified.ofState code (.ofCode code) s).Certified code limits pc height i op := by
  obtain ⟨f, i, op, m, hf, sound, -, fetch, legal, items, room, takes, followed⟩ :=
    inv.settled (a := ⟨pc, height⟩) path known
  cases hf
  have landed (g : Frame) (h : s.Landed code limits g)
      (start : (Starts.ofCode code).contains g.pc = true) : s.heights.at? g.pc = some g.height :=
    h.known (Starts.contains_natCast.mp start).lt_size
  refine ⟨i, op, ?_⟩
  constructor
  · exact sound.start (lt_size_of_decode fetch.decode)
  · exact fetch
  · exact legal
  · exact items
  · exact Nat.le_trans (Nat.le_add_left _ _) room
  · intro flow
    obtain rfl := takes.eq_next flow
    exact Landed.past_or_known followed
  · intro flow
    obtain ⟨t, target, start, rfl⟩ := takes.exists_jump flow
    exact ⟨t, target, Starts.contains_natCast.mp start, landed _ followed start⟩
  · intro flow
    obtain ⟨t, target, start, rfl⟩ := takes.exists_branch flow
    exact ⟨⟨t, target, Starts.contains_natCast.mp start, landed _ followed.1 start⟩,
      followed.2.past_or_known⟩
  · intro flow
    obtain ⟨t, target, start, rfl⟩ := takes.exists_call flow
    exact ⟨t, target, Starts.contains_natCast.mp start, landed _ followed.1 start⟩

/-! ## No height is there for nothing -/

/-- Control leads to a spot from the beginning along known offsets. -/
def Trail (code : Code) (s : State) : Spot → Prop :=
  Relation.ReflTransGen (fun a b ↦ s.heights.at? a.pc = some a.height ∧ Leads code a b) (.entry 0)

theorem Trail.mono {a : Spot} (hk : Keeps s s') (h : s.Trail code a) : s'.Trail code a :=
  Relation.ReflTransGen.mono (fun _ _ h ↦ ⟨hk.known h.1, h.2⟩) _ _ h

/-- Every frame and every known offset lies on a trail. -/
structure Trails (code : Code) (s : State) : Prop where
  holds : ∀ f, s.Holds f → s.Trail code f.spot
  known : ∀ pc height, s.heights.at? pc = some height → s.Trail code ⟨pc, height⟩

end State

theorem Passes.trails (h : Passes code limits s) : s.Trails code := by
  induction h with
  | initial =>
    constructor
    · rintro f ((h | h) | ⟨o, h⟩)
      · cases h
        exact .refl
      · simp [State.initial, Worklist.push, Worklist.pop] at h
      · simp [State.initial] at h
    · intro pc height h
      simp [State.initial] at h
  | @step s s' events before step ih =>
    have inv := before.inv
    obtain ⟨f, path, goes⟩ := State.goes_of_step inv.slots step
    have sound := inv.sound f (.inl (.inl path))
    have keeps := goes.keeps inv path
    cases goes with
    | ends past => exact ⟨fun g hg ↦ ih.holds g (State.holds_of_turn hg), ih.known⟩
    | prunes fetch known =>
      constructor
      · intro g hg
        refine (ih.holds g ?_).mono keeps
        exact State.holds_of_prune inv.waits sound.entry_lt (inv.owner_lt f.pc) hg
      · intro pc height h
        rw [State.heights_prune] at h
        exact (ih.known pc height h).mono keeps
    | @visits i op m fetch new legal items room takes =>
      have hslots : f.pc < s.heights.slots.size := inv.slots ▸ lt_size_of_decode fetch.decode
      have bounds := (sound.of_takes fetch.decode takes).2
      have here := ih.holds f (.inl (.inl path))
      have known : ((s.visit f).follow m).heights.at? f.pc = some f.height := by
        rw [State.at?_follow_visit hslots, if_pos rfl]
      constructor
      · intro g hg
        rcases State.holds_of_follow (s := s.visit f) inv.waits bounds hg with hg | hg
        · exact (ih.holds g hg).mono keeps
        · -- the frames of the move are one edge further, now that their source is known
          exact (here.mono keeps).tail ⟨known, takes.leads fetch items hg⟩
      · intro pc height h
        rcases State.known_of_follow_visit hslots h with h | ⟨rfl, rfl⟩
        · exact (ih.known pc height h).mono keeps
        · exact here.mono keeps

/-- Of a trail to a known offset both ends of each edge are known. -/
theorem State.Trail.edges {a : Spot} (h : s.Trail code a)
    (known : s.heights.at? a.pc = some a.height) :
    Relation.ReflTransGen ((Verified.ofState code (.ofCode code) s).Edge code) (.entry 0) a := by
  induction h with
  | refl => exact .refl
  | tail _ last ih => exact (ih last.1).tail ⟨last.1, known, last.2⟩

end Check

open Check

/-- The heights of accepted code fit together, beginning with none at the first offset, and each
of them belongs to an offset that control leads to. -/
theorem certified_of_verify {v : Verified} (h : verify code limits = .ok v) :
    (0 < code.size → v.heightAt? 0 = some 0) ∧
    (∀ pc height, v.heightAt? pc = some height →
      ∃ i op, v.Certified code limits pc height i op) ∧
    ∀ pc height, v.heightAt? pc = some height →
      Relation.ReflTransGen (v.Edge code) ⟨0, 0⟩ ⟨pc, height⟩ := by
  obtain ⟨-, s, passes, path, rfl⟩ := passes_of_verify h
  have inv := passes.inv
  refine ⟨fun pos ↦ ?_, fun pc height known ↦ inv.certified path known, fun pc height known ↦ ?_⟩
  · exact (inv.landed path inv.begun).known pos
  · exact (passes.trails.known pc height known).edges known

/-- A call of a subroutine that returns at once, and a stop behind it. -/
def callThenStop : Code := #[0x5E, 0x00, 0x04, 0x00, 0x5D]

/-- The stop is connected to the beginning over the call. -/
theorem certified_callThenStop :
    ∃ v, verify callThenStop {} = .ok v ∧ v.heightAt? 0 = some 0 ∧
      (∃ i op, v.Certified callThenStop {} 4 0 i op) ∧
      Relation.ReflTransGen (v.Edge callThenStop) ⟨0, 0⟩ ⟨3, 0⟩ := by
  have h : verify callThenStop {} = .ok ⟨callThenStop, .ofCode callThenStop,
      ⟨#[some 0, none, none, some 0, some 0]⟩, ⟨3, 0, 2, 1, 1⟩⟩ := by
    decide +kernel
  obtain ⟨first, certified, connected⟩ := certified_of_verify h
  exact ⟨_, h, first (by decide), certified 4 0 rfl, connected 3 0 rfl⟩

end StackFlow
