import StackFlow.Proofs.Steps
import StackFlow.Proofs.Waits

/-!
# What is pending, and what a step does to it

A frame is pending if a path stands at it or if it is at work.  The lemmas here
say of `turn`, `follow` and `prune` which frames and waiters a step takes over
from the state before it, in both directions: what was there is still there or
has been released, and what is there was there before or belongs to the move.
-/

namespace StackFlow.Check

/-- The offsets at which a move parks or releases lie in the code. -/
def Move.InBounds (size : Nat) : Move → Prop
  | .call body _ => body.pc < size
  | .ret c => c.entry < size
  | _ => True

/-- A move leads to frames with a property, behind a call if the subroutine has another one, and
the subroutine that it leaves has that. -/
def Move.Meets (P : Nat → Prop) (Q : Frame → Prop) : Move → Prop
  | .halt => True
  | .next f | .jump f => Q f
  | .branch taken fallthrough => Q taken ∧ Q fallthrough
  | .call body resume => Q body ∧ (P body.pc → Q resume)
  | .ret c => P c.entry

namespace State

variable {size : Nat} {s : State} {f g : Frame}

/-- A path is at the frame, or will be. -/
def Pending (s : State) (f : Frame) : Prop := s.path? = some f ∨ f ∈ s.work.frames

/-- The frame is pending or parked. -/
def Holds (s : State) (f : Frame) : Prop :=
  s.Pending f ∨ ∃ o, .resume f ∈ s.waits.parkedAt o

@[simp] theorem heights_follow (s : State) (m : Move) : (s.follow m).heights = s.heights := by
  cases m <;> rfl

@[simp] theorem owners_follow (s : State) (m : Move) : (s.follow m).owners = s.owners := by
  cases m <;> rfl

@[simp] theorem heights_prune (s : State) (f : Frame) : (s.prune f).heights = s.heights := by
  unfold prune
  split
  · split <;> rfl
  · rfl

@[simp] theorem owners_prune (s : State) (f : Frame) : (s.prune f).owners = s.owners := by
  unfold prune
  split
  · split <;> rfl
  · rfl

theorem at?_visit (h : f.pc < s.heights.slots.size) (x : Nat) :
    (s.visit f).heights.at? x = if x = f.pc then some f.height else s.heights.at? x := by
  simp only [visit, Heights.at?, Array.set!_eq_setIfInBounds, Array.getElem?_setIfInBounds, h]
  by_cases hx : x = f.pc
  · simp [hx]
  · simp [hx, Ne.symm hx]

theorem owner?_visit (h : f.pc < s.owners.size) (x : Nat) :
    (s.visit f).owner? x = if x = f.pc then f.entry? else s.owner? x := by
  simp only [visit, owner?, Array.set!_eq_setIfInBounds, Array.getElem?_setIfInBounds, h]
  by_cases hx : x = f.pc
  · simp [hx]
  · simp [hx, Ne.symm hx]

theorem reached_visit (new : s.heights.at? f.pc = none) (hlt : f.pc < s.heights.slots.size) :
    (s.visit f).heights.reached = s.heights.reached + 1 := by
  have slot := Heights.slot_of_unknown new hlt
  rw [Array.getElem?_eq_getElem hlt, Option.some.injEq] at slot
  simp [Heights.reached, visit, Array.setIfInBounds, hlt, Array.countP_set, slot]

theorem at?_follow_visit {m : Move} (h : f.pc < s.heights.slots.size) (x : Nat) :
    ((s.visit f).follow m).heights.at? x =
      if x = f.pc then some f.height else s.heights.at? x := by
  rw [heights_follow, at?_visit h]

theorem owner?_follow_visit {m : Move} (h : f.pc < s.owners.size) (x : Nat) :
    ((s.visit f).follow m).owner? x = if x = f.pc then f.entry? else s.owner? x := by
  rw [owner?, owners_follow, ← owner?, owner?_visit h]

/-- After a visit one offset more is known. -/
theorem known_of_follow_visit {m : Move} {x height : Nat} (hlt : f.pc < s.heights.slots.size)
    (h : ((s.visit f).follow m).heights.at? x = some height) :
    s.heights.at? x = some height ∨ f.pc = x ∧ f.height = height := by
  rw [at?_follow_visit hlt] at h
  split at h
  · next hx => exact .inr ⟨hx.symm, Option.some.inj h⟩
  · exact .inl h

/-- Turning to the latest work makes it the path. -/
theorem pending_turn : s.turn.Pending g ↔ g ∈ s.work.frames := by
  simp only [Pending, turn, Worklist.pop]
  cases h : s.work.frames.back? with
  | none =>
    rw [Array.back?_eq_none_iff] at h
    simp [h]
  | some f =>
    obtain ⟨fs, h⟩ := Array.back?_eq_some_iff.mp h
    simp [h, or_comm, eq_comm]

theorem frames_of_path?_turn (h : s.turn.path? = none) : s.turn.work.frames = #[] := by
  have hb : s.work.frames = #[] := Array.back?_eq_none_iff.mp h
  simp [turn, Worklist.pop, hb]

/-! ## Nothing is lost -/

/-- Between two states no knowledge and no work is lost, the path of the first state apart. -/
structure Keeps (s s' : State) : Prop where
  known : ∀ {x h}, s.heights.at? x = some h → s'.heights.at? x = some h
  owner : ∀ {x h}, s.heights.at? x = some h → s'.owner? x = s.owner? x
  returning : ∀ {e}, s.waits.Returning e → s'.waits.Returning e
  entry : ∀ {o e}, .entry e ∈ s.waits.parkedAt o →
    .entry e ∈ s'.waits.parkedAt o ∨ s'.waits.Returning e
  resume : ∀ {o f}, .resume f ∈ s.waits.parkedAt o →
    .resume f ∈ s'.waits.parkedAt o ∨ s'.Pending f
  work : ∀ {f}, f ∈ s.work.frames → s'.Pending f

theorem Keeps.of_waits {s s' : State} {work : Worklist} (hh : s'.heights = s.heights)
    (ho : s'.owners = s.owners) (hk : Waits.Keeps s.waits s.work s'.waits work)
    (hp : ∀ f ∈ work.frames, s'.Pending f) : Keeps s s' where
  known := fun h ↦ by rw [hh, h]
  owner := fun _ ↦ by rw [owner?, ho, owner?]
  returning := hk.returning _
  entry := hk.entry _ _
  resume := fun h ↦ (hk.resume _ _ h).imp_right (hp _)
  work := fun h ↦ hp _ (hk.frames _ h)

theorem Keeps.refl (s : State) : Keeps s s := .of_waits rfl rfl (.refl _ _) fun _ h ↦ .inr h

/-- Taking down a new offset loses nothing either. -/
theorem Keeps.of_visit {s' : State} (hs : f.pc < s.heights.slots.size) (ho : f.pc < s.owners.size)
    (new : s.heights.at? f.pc = none) (hk : Keeps (s.visit f) s') : Keeps s s' := by
  have other {x h : Nat} (hx : s.heights.at? x = some h) : x ≠ f.pc := by
    rintro rfl
    rw [new] at hx
    cases hx
  refine ⟨fun h ↦ hk.known ?_, fun {x h} hx ↦ ?_, hk.returning, hk.entry, hk.resume, hk.work⟩
  · rw [at?_visit hs, if_neg (other h), h]
  · have hx' : (s.visit f).heights.at? x = some h := by rw [at?_visit hs, if_neg (other hx), hx]
    rw [hk.owner hx', owner?_visit ho, if_neg (other hx)]

/-- A move has been followed if its frames have the property, the frame behind a call if it is
not parked there, and if the subroutine that it leaves is known to return. -/
def Followed (s : State) (Q : Frame → Prop) : Move → Prop
  | .halt => True
  | .next f | .jump f => Q f
  | .branch taken fallthrough => Q taken ∧ Q fallthrough
  | .call body resume => Q body ∧ (Q resume ∨ .resume resume ∈ s.waits.parkedAt body.pc)
  | .ret c => s.waits.Returning c.entry

theorem Followed.mono {s s' : State} {Q Q' : Frame → Prop} (hk : Keeps s s')
    (hq : ∀ g, Q g → Q' g) (hp : ∀ g, s'.Pending g → Q' g) {m : Move} (h : s.Followed Q m) :
    s'.Followed Q' m := by
  cases m with
  | halt => trivial
  | next f => exact hq f h
  | jump f => exact hq f h
  | branch taken fallthrough => exact ⟨hq _ h.1, hq _ h.2⟩
  | call body resume =>
    refine ⟨hq _ h.1, ?_⟩
    rcases h.2 with hr | hr
    · exact .inl (hq _ hr)
    · exact (hk.resume hr).symm.imp_left (hp _)
  | ret c => exact hk.returning h

theorem keeps_turn (s : State) : Keeps s s.turn :=
  .of_waits rfl rfl (.refl _ _) fun _ h ↦ pending_turn.mpr h

theorem follow_spec {m : Move} (hw : s.waits.Fits size) (hm : m.InBounds size) :
    (s.follow m).waits.Fits size ∧ Keeps s (s.follow m) ∧
      (s.follow m).Followed (s.follow m).Pending m ∧
      ((s.follow m).path? = none → (s.follow m).work.frames = #[]) := by
  cases m with
  | halt => exact ⟨hw, keeps_turn s, trivial, frames_of_path?_turn⟩
  | next f =>
    exact ⟨hw, .of_waits rfl rfl (.refl _ _) fun _ h ↦ .inr h, .inl rfl, fun h ↦ nomatch h⟩
  | jump f =>
    exact ⟨hw, .of_waits rfl rfl (.refl _ _) fun _ h ↦ .inr h, .inl rfl, fun h ↦ nomatch h⟩
  | branch taken fallthrough =>
    refine ⟨hw, .of_waits rfl rfl (.refl _ _) fun _ h ↦ .inr ?_, ⟨.inl rfl, .inr ?_⟩,
      fun h ↦ nomatch h⟩
    · exact Worklist.mem_push.mpr (.inl h)
    · exact Worklist.mem_push.mpr (.inr rfl)
  | call body resume =>
    have hx : (Waiter.resume resume).Meets (· < size) fun _ ↦ True := trivial
    obtain ⟨hk, hr⟩ : Waits.Keeps s.waits s.work _ _ ∧ _ := Waits.keeps_wait hw hm hx
    refine ⟨hw.wait hm hx, .of_waits rfl rfl hk fun _ h ↦ .inr h, ⟨.inl rfl, ?_⟩,
      fun h ↦ nomatch h⟩
    exact hr.symm.imp_left .inr
  | ret c =>
    have hc : ∀ e ∈ [c.entry], e < size := fun e he ↦ List.mem_singleton.mp he ▸ hm
    obtain ⟨hk, hr⟩ : Waits.Keeps s.waits s.work _ _ ∧ _ := Waits.keeps_release hw hc
    exact ⟨hw.release hc, .of_waits rfl rfl hk fun _ h ↦ pending_turn.mpr h,
      hr _ List.mem_cons_self, frames_of_path?_turn⟩

/-- A path that is pruned in another subroutine leaves its own one waiting for it. -/
theorem prune_spec (hw : s.waits.Fits size) (he : ∀ e ∈ f.entry?, e < size)
    (ho : ∀ o ∈ s.owner? f.pc, o < size) :
    (s.prune f).waits.Fits size ∧ Keeps s (s.prune f) ∧
      (∀ e ∈ f.entry?, ∀ o ∈ s.owner? f.pc, e ≠ o →
        .entry e ∈ (s.prune f).waits.parkedAt o ∨ (s.prune f).waits.Returning e) ∧
      ((s.prune f).path? = none → (s.prune f).work.frames = #[]) := by
  have turned (n : Nat) : Keeps s (turn { s with prunes := n }) :=
    .of_waits rfl rfl (.refl _ _) fun _ h ↦ pending_turn.mpr h
  unfold prune
  split
  · next entry owner hentry howner =>
    split
    · next heq =>
      refine ⟨hw, turned _, fun e hf o hg hne ↦ absurd ?_ hne, frames_of_path?_turn⟩
      cases hentry.symm.trans hf
      cases howner.symm.trans hg
      exact heq
    · have hx : (Waiter.entry entry).Meets (· < size) fun _ ↦ True := he entry hentry
      have hlt := ho owner howner
      obtain ⟨hk, hr⟩ : Waits.Keeps s.waits s.work _ _ ∧ _ := Waits.keeps_wait hw hlt hx
      refine ⟨hw.wait hlt hx, .of_waits rfl rfl hk fun _ h ↦ pending_turn.mpr h,
        fun e hf o hg _ ↦ ?_, frames_of_path?_turn⟩
      cases hentry.symm.trans hf
      cases howner.symm.trans hg
      exact hr
  · next hnone =>
    exact ⟨hw, turned _, fun e hf o hg _ ↦ (hnone e o hf hg).elim, frames_of_path?_turn⟩

/-! ## Nothing comes up by itself -/

theorem turn_induct {P : Nat → Prop} {Q : Frame → Prop} (hr : ∀ e, s.waits.Returning e → P e)
    (hq : ∀ g ∈ s.work.frames, Q g) :
    (∀ e, s.turn.waits.Returning e → P e) ∧ (∀ g, s.turn.Pending g → Q g) ∧
      ∀ o, ∀ x ∈ s.turn.waits.parkedAt o, x ∈ s.waits.parkedAt o :=
  ⟨hr, fun g hg ↦ hq g (pending_turn.mp hg), fun _ _ h ↦ h⟩

/-- Properties of the entries that return and of the pending frames hold on after a move, if they
hold of what the move leads to and of what is parked at an entry that has the property. -/
theorem follow_induct {m : Move} {P : Nat → Prop} {Q : Frame → Prop} (hw : s.waits.Fits size)
    (hm : m.InBounds size) (hr : ∀ e, s.waits.Returning e → P e) (hq : ∀ g ∈ s.work.frames, Q g)
    (hp : ∀ o, P o → ∀ x ∈ s.waits.parkedAt o, x.Meets P Q) (hf : m.Meets P Q) :
    (∀ e, (s.follow m).waits.Returning e → P e) ∧ (∀ g, (s.follow m).Pending g → Q g) ∧
      ∀ o, ∀ x ∈ (s.follow m).waits.parkedAt o, x ∈ s.waits.parkedAt o ∨
        ∃ body resume, m = .call body resume ∧ o = body.pc ∧ x = .resume resume := by
  cases m with
  | halt =>
    obtain ⟨h1, h2, h3⟩ := turn_induct hr hq
    exact ⟨h1, h2, fun o x hx ↦ .inl (h3 o x hx)⟩
  | next f =>
    refine ⟨hr, fun g hg ↦ ?_, fun _ _ h ↦ .inl h⟩
    rcases hg with hg | hg
    · cases hg
      exact hf
    · exact hq g hg
  | jump f =>
    refine ⟨hr, fun g hg ↦ ?_, fun _ _ h ↦ .inl h⟩
    rcases hg with hg | hg
    · cases hg
      exact hf
    · exact hq g hg
  | branch taken fallthrough =>
    refine ⟨hr, fun g hg ↦ ?_, fun _ _ h ↦ .inl h⟩
    rcases hg with hg | hg
    · cases hg
      exact hf.1
    · rcases Worklist.mem_push.mp hg with hg | rfl
      · exact hq g hg
      · exact hf.2
  | call body resume =>
    have hx : (Waiter.resume resume).Meets (· < size) fun _ ↦ True := trivial
    obtain ⟨h1, h2, h3⟩ := Waits.wait_induct hw hm hx hf.2 hp hr hq
    refine ⟨h1, fun g hg ↦ ?_, fun o x hx ↦ ?_⟩
    · rcases hg with hg | hg
      · cases hg
        exact hf.1
      · exact h2 g hg
    · exact (h3 o x hx).imp_right fun ⟨ho, hx⟩ ↦ ⟨body, resume, rfl, ho, hx⟩
  | ret c =>
    have hc : ∀ e ∈ [c.entry], e < size ∧ P e := fun e he ↦ List.mem_singleton.mp he ▸ ⟨hm, hf⟩
    obtain ⟨h1, h2, h3⟩ := Waits.release_induct hw hc hp hr hq
    exact ⟨h1, fun g hg ↦ h2 g (pending_turn.mp hg), fun o x hx ↦ .inl (h3 o x hx)⟩

/-- The same for a path that is pruned. -/
theorem prune_induct {P : Nat → Prop} {Q : Frame → Prop} (hw : s.waits.Fits size)
    (he : ∀ e ∈ f.entry?, e < size) (ho : ∀ o ∈ s.owner? f.pc, o < size)
    (hr : ∀ e, s.waits.Returning e → P e) (hq : ∀ g ∈ s.work.frames, Q g)
    (hp : ∀ o, P o → ∀ x ∈ s.waits.parkedAt o, x.Meets P Q)
    (hf : ∀ e ∈ f.entry?, ∀ o ∈ s.owner? f.pc, e ≠ o → P o → P e) :
    (∀ e, (s.prune f).waits.Returning e → P e) ∧ (∀ g, (s.prune f).Pending g → Q g) ∧
      ∀ o, ∀ x ∈ (s.prune f).waits.parkedAt o, x ∈ s.waits.parkedAt o ∨
        ∃ e ∈ f.entry?, s.owner? f.pc = some o ∧ e ≠ o ∧ x = .entry e := by
  have turned (n : Nat) :
      (∀ e, (turn { s with prunes := n }).waits.Returning e → P e) ∧
        (∀ g, (turn { s with prunes := n }).Pending g → Q g) ∧
        ∀ o, ∀ x ∈ (turn { s with prunes := n }).waits.parkedAt o, x ∈ s.waits.parkedAt o :=
    turn_induct (s := { s with prunes := n }) hr hq
  unfold prune
  split
  · next entry owner hentry howner =>
    split
    · obtain ⟨h1, h2, h3⟩ := turned (s.prunes + 1)
      exact ⟨h1, h2, fun o x hx ↦ .inl (h3 o x hx)⟩
    · next hne =>
      have hx : (Waiter.entry entry).Meets (· < size) fun _ ↦ True := he entry hentry
      obtain ⟨h1, h2, h3⟩ := Waits.wait_induct hw (ho owner howner) hx
        (hf entry hentry owner howner hne) hp hr hq
      refine ⟨h1, fun g hg ↦ h2 g (pending_turn.mp hg), fun o x hx ↦ ?_⟩
      refine (h3 o x hx).imp_right ?_
      rintro ⟨rfl, rfl⟩
      exact ⟨entry, hentry, howner, hne, rfl⟩
  · obtain ⟨h1, h2, h3⟩ := turned (s.prunes + 1)
    exact ⟨h1, h2, fun o x hx ↦ .inl (h3 o x hx)⟩

theorem holds_of_turn (h : s.turn.Holds g) : s.Holds g :=
  h.imp_left fun h ↦ .inr (pending_turn.mp h)

/-- Following a move brings up no frames but those of the move. -/
theorem holds_of_follow {m : Move} (hw : s.waits.Fits size) (hm : m.InBounds size)
    (h : (s.follow m).Holds g) : s.Holds g ∨ g ∈ m.frames := by
  obtain ⟨-, h2, h3⟩ := follow_induct (m := m) (P := fun _ ↦ True)
    (Q := fun g ↦ s.Holds g ∨ g ∈ m.frames) hw hm (fun _ _ ↦ trivial)
    (fun g hg ↦ .inl (.inl (.inr hg)))
    (fun o _ x hx ↦ by
      cases x with
      | resume g => exact .inl (.inr ⟨o, hx⟩)
      | entry e => trivial)
    (by cases m <;> simp [Move.frames, Move.Meets])
  rcases h with h | ⟨o, h⟩
  · exact h2 g h
  · rcases h3 o _ h with h | ⟨body, resume, rfl, _, h⟩
    · exact .inl (.inr ⟨o, h⟩)
    · cases h
      exact .inr (List.mem_cons_of_mem _ List.mem_cons_self)

/-- Pruning a path brings up no frames at all. -/
theorem holds_of_prune (hw : s.waits.Fits size) (he : ∀ e ∈ f.entry?, e < size)
    (ho : ∀ o ∈ s.owner? f.pc, o < size) (h : (s.prune f).Holds g) : s.Holds g := by
  obtain ⟨-, h2, h3⟩ := prune_induct (P := fun _ ↦ True) (Q := s.Holds) hw he ho
    (fun _ _ ↦ trivial) (fun g hg ↦ .inl (.inr hg))
    (fun o _ x hx ↦ by
      cases x with
      | resume g => exact .inr ⟨o, hx⟩
      | entry e => trivial)
    fun _ _ _ _ _ h ↦ h
  rcases h with h | ⟨o, h⟩
  · exact h2 g h
  · rcases h3 o _ h with h | ⟨_, _, _, _, h⟩
    · exact .inr ⟨o, h⟩
    · cases h

end State

end StackFlow.Check
