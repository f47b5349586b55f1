import StackFlow.Proofs.Certificate

/-!
# What acceptance says of the runs of the machine

A run goes from known offset to known offset as long as the calls that it comes
back from are known to return.  They are, and nothing returns at top level,
unless a path of top-level code has been pruned at an offset that belongs to a
subroutine: such a path leaves no trace of where it came from, and the offset is
`Stray`.  The main results say that nothing but strays can go wrong.
-/

namespace StackFlow

open Machine

namespace Check

variable {code : Code} {limits : Limits}

/-- A path of top-level code has ended at an offset that was reached first in a subroutine. -/
def Stray (code : Code) (limits : Limits) (pc : Nat) : Prop :=
  ∃ f o, Merges code limits f (some o) ∧ f.entry? = none ∧ f.pc = pc

/-- The run of a call comes back to the caller by way of a stray. -/
def Detours (code : Code) (limits : Limits) (calls : List Outstanding) (a : Spot)
    (target resume : Nat) : Prop :=
  ∃ d, Stray code limits d.pc ∧
    Reaches code ((Spot.entry target).under (⟨resume, a.height⟩ :: calls)) d ∧
    Reaches code d ⟨resume, a.height, calls⟩

namespace State

variable {s : State} {P : Nat → Prop} {a b : Spot} {e? e'? : Option Nat}

/-- The subroutine is known to return; the top level never is. -/
def Returns (s : State) (e? : Option Nat) : Prop := ∃ e ∈ e?, s.waits.Returning e

/-- A spot is past the end, or known at its height. -/
def Admits (code : Code) (s : State) (a : Spot) : Prop :=
  code.size ≤ a.pc ∨ s.heights.at? a.pc = some a.height

/-- A spot is admitted where a subroutine comes to it, and if the offset has the property, the
subroutine returns whenever the one does that owns it. -/
def Lands (code : Code) (s : State) (P : Nat → Prop) (e? : Option Nat) (a : Spot) : Prop :=
  code.size ≤ a.pc ∨ s.heights.at? a.pc = some a.height ∧
    (P a.pc → s.Returns (s.owner? a.pc) → s.Returns e?)

theorem Lands.admits (h : s.Lands code P e? a) : s.Admits code a := h.imp_right And.left

theorem Lands.mono (h : s.Lands code P e? a) (he : s.Returns e? → s.Returns e'?) :
    s.Lands code P e'? a :=
  h.imp_right fun ⟨known, back⟩ ↦ ⟨known, fun here owner ↦ he (back here owner)⟩

theorem Lands.of_lt_size (h : s.Lands code P e? a) (hlt : a.pc < code.size) :
    s.heights.at? a.pc = some a.height ∧ (P a.pc → s.Returns (s.owner? a.pc) → s.Returns e?) :=
  h.resolve_left (Nat.not_le_of_lt hlt)

/-- A frame that needs no more attention lands at its spot, unless it comes from top-level code
and strays. -/
theorem Landed.lands {f : Frame} (h : s.Landed code limits f) (inv : s.Inv code limits)
    (fence : f.entry? = none → P f.pc → ¬ Stray code limits f.pc) :
    s.Lands code P f.entry? f.spot := by
  refine h.imp_right fun ⟨known, h⟩ ↦ ⟨known, fun here owner ↦ ?_⟩
  rcases h with same | ⟨merges, link⟩
  · exact same ▸ owner
  obtain ⟨o, ho, hr⟩ := owner
  cases he : f.entry? with
  | none => exact absurd ⟨f, o, ho ▸ merges, he, rfl⟩ (fence he here)
  | some e =>
    refine ⟨e, rfl, ?_⟩
    by_cases hne : e = o
    · exact hne ▸ hr
    · exact (link e he o ho hne).resolve_left (inv.waits.not_parked hr _)

variable (inv : s.Inv code limits) (path : s.path? = none)
  (known : s.heights.at? a.pc = some a.height)

include inv path known

/-! ## One step -/

theorem Inv.lands_flat (h : Flat code a b)
    (fence : s.owner? a.pc = none → P b.pc → ¬ Stray code limits b.pc) :
    s.Lands code P (s.owner? a.pc) b := by
  obtain ⟨f, i, op, m, rfl, e⟩ := inv.settled path known
  obtain ⟨g, hg, rfl, hge⟩ := e.takes.exists_flat e.fetch h
  have owner : s.owner? f.spot.pc = g.entry? := e.owner.trans hge.symm
  rw [owner] at fence ⊢
  exact Landed.lands (e.followed.flat hg) inv fence

theorem Inv.lands_body {t r : Nat} (site : Calls code a.pc t r) :
    s.Lands code P (some t) (.entry t) := by
  obtain ⟨f, i, op, m, rfl, e⟩ := inv.settled path known
  obtain ⟨body, resume, rfl, hb, hbe, -, -⟩ := e.takes.of_calls e.fetch site
  rw [← hb, ← hbe]
  refine Landed.lands e.followed.1 inv fun h ↦ ?_
  rw [hbe] at h
  cases h

theorem Inv.lands_resume {t r : Nat} (site : Calls code a.pc t r) (ret : s.waits.Returning t)
    (fence : s.owner? a.pc = none → P r → ¬ Stray code limits r) :
    s.Lands code P (s.owner? a.pc) ⟨r, a.height⟩ := by
  obtain ⟨f, i, op, m, rfl, e⟩ := inv.settled path known
  obtain ⟨body, resume, rfl, hb, -, hr, hre⟩ := e.takes.of_calls e.fetch site
  obtain rfl : body.pc = t := congrArg Spot.pc hb
  obtain rfl : resume.pc = r := congrArg Spot.pc hr
  have owner : s.owner? f.spot.pc = resume.entry? := e.owner.trans hre.symm
  have landed := e.followed.2.resolve_right (inv.waits.not_parked ret _)
  rw [owner] at fence ⊢
  exact hr ▸ landed.lands inv fence

theorem Inv.returns_of_leaves (leaves : Leaves code a.pc) : s.Returns (s.owner? a.pc) := by
  obtain ⟨f, i, op, m, rfl, e⟩ := inv.settled path known
  obtain ⟨c, rfl, hc⟩ := e.takes.of_leaves e.fetch leaves
  exact ⟨c.entry, e.owner.trans hc, e.followed⟩

omit known

/-! ## A level -/

/-- On a level whose offsets hold no strays behind top-level code, landing is kept. -/
theorem Inv.lands_level
    (fence : ∀ x y, P x → s.owner? x = none → P y → ¬ Stray code limits y)
    (h : Level code P a b) (ha : s.Lands code P e? a) : s.Lands code P e? b := by
  induction h generalizing e? with
  | refl a => exact ha
  | @flat a b c _ here last ih =>
    obtain ⟨known, back⟩ := (ih ha).of_lt_size last.lt_size
    exact (inv.lands_flat path known last fun top ↦ fence b.pc c.pc here top).mono (back here)
  | @call a b c t r _ here site _ there leaves ih ihb =>
    obtain ⟨known, back⟩ := (ih ha).of_lt_size site.lt_size
    obtain ⟨knownc, backc⟩ :=
      (ihb (inv.lands_body path known site)).of_lt_size leaves.lt_size
    -- the body ends at an instruction that leaves, so its subroutine is known to return
    obtain ⟨t', ht, ret⟩ := backc there (inv.returns_of_leaves path knownc leaves)
    cases ht
    exact (inv.lands_resume path known site ret fun top ↦ fence b.pc r here top).mono (back here)

/-! ## A whole run -/

theorem Inv.lands_start (fence : ∀ pc, P pc → ¬ Stray code limits pc) :
    s.Lands code P none (.entry 0) :=
  (inv.landed path inv.begun).lands inv fun _ ↦ fence 0

/-- If calls that make a detour come back to where they are admitted, then so does every call. -/
theorem Inv.admits_level {calls : List Outstanding}
    (back : ∀ (a : Spot) calls t r, Reachable code (a.under calls) → Calls code a.pc t r →
      Detours code limits calls a t r → s.Admits code ⟨r, a.height⟩)
    (reach : Reachable code (a.under calls)) (h : Level code (fun _ ↦ True) a b)
    (ha : s.Admits code a) : s.Admits code b := by
  induction h with
  | refl => exact ha
  | flat run _ last ih =>
    have known := (ih reach ha).resolve_left (Nat.not_le_of_lt last.lt_size)
    exact (inv.lands_flat (P := fun _ ↦ False) path known last fun _ h ↦ h.elim).admits
  | @call a b c t r run _ site body _ leaves ih ihb =>
    have known := (ih reach ha).resolve_left (Nat.not_le_of_lt site.lt_size)
    have here : Reachable code (b.under calls) := reach.trans (run.reaches calls)
    have home := leaves.step (a := c) ⟨r, b.height⟩ calls
    -- a body without strays is followed by the check as well, any other makes a detour
    rcases body.avoids_or_meets (Stray code limits) with straight | strays
    · by_cases hc : Stray code limits c.pc
      · exact back b calls t r here site
          ⟨_, hc, body.reaches _, .step (.refl _) home⟩
      · obtain ⟨knownc, backc⟩ :=
          (inv.lands_level path (fun _ _ _ _ ↦ id) straight
            (inv.lands_body path known site)).of_lt_size leaves.lt_size
        obtain ⟨t', ht, ret⟩ := backc hc (inv.returns_of_leaves path knownc leaves)
        cases ht
        exact (inv.lands_resume (P := fun _ ↦ False) path known site ret fun _ h ↦ h.elim).admits
    · obtain ⟨d, hd, h1, h2⟩ := strays (⟨r, b.height⟩ :: calls)
      exact back b calls t r here site ⟨d, hd, h1, h2.step home⟩

theorem Inv.admits_nested {calls : List Outstanding}
    (back : ∀ (a : Spot) calls t r, Reachable code (a.under calls) → Calls code a.pc t r →
      Detours code limits calls a t r → s.Admits code ⟨r, a.height⟩)
    (h : Nested code calls a) : s.Admits code a := by
  induction h with
  | top run =>
    exact inv.admits_level path back (Nested.top (.refl _)).reachable run
      (inv.lands_start (P := fun _ ↦ False) path fun _ h ↦ h.elim).admits
  | @sub calls a b t r outer site run ih =>
    have known := ih.resolve_left (Nat.not_le_of_lt site.lt_size)
    exact inv.admits_level path back (outer.reachable.step (site.step calls)) run
      (inv.lands_body (P := fun _ ↦ False) path known site).admits

/-- At top level, only what comes to a stray returns. -/
theorem Inv.strays_of_leaves (h : Level code (fun _ ↦ True) (.entry 0) a)
    (leaves : Leaves code a.pc) :
    ∃ d, Reachable code d ∧ Stray code limits d.pc ∧ Reaches code d (a.under []) := by
  rcases h.avoids_or_meets (Stray code limits) with straight | strays
  · by_cases ha : Stray code limits a.pc
    · exact ⟨_, h.reaches [], ha, .refl _⟩
    · obtain ⟨known, back⟩ := (inv.lands_level path (fun _ _ _ _ ↦ id) straight
        (inv.lands_start path fun _ ↦ id)).of_lt_size leaves.lt_size
      obtain ⟨e, he, _⟩ := back ha (inv.returns_of_leaves path known leaves)
      cases he
  · obtain ⟨d, hd, h1, h2⟩ := strays []
    exact ⟨d, h1, hd, h2⟩

end State

end Check

open Check

variable {code : Code} {limits : Limits} {v : Verified}

/-! ## The heights that a run finds -/

/-- A run of accepted code finds each offset at its height and able to run, up to a call that it
comes back from by way of a stray.  If the offset behind each such call has the height of the
caller, this holds of all runs, and if not, it fails. -/
theorem heights_of_reachable_iff (h : verify code limits = .ok v) :
    (∀ c, Reachable code c → c.pc < code.size →
      v.heightAt? c.pc = some c.height ∧ Runnable code c.pc c.height) ↔
    ∀ (a : Spot) calls t r, Reachable code (a.under calls) → Calls code a.pc t r →
      Detours code limits calls a t r → r < code.size → v.heightAt? r = some a.height := by
  obtain ⟨-, s, passes, path, rfl⟩ := passes_of_verify h
  have inv := passes.inv
  constructor
  · rintro sound a calls t r reach site ⟨d, -, h1, h2⟩ hr
    have here : Reachable code ⟨r, a.height, calls⟩ :=
      ((reach.step (site.step calls)).trans h1).trans h2
    exact (sound _ here hr).1
  · intro back c reach hc
    have admitted : s.Admits code ⟨c.pc, c.height⟩ := by
      refine inv.admits_nested path (fun a calls t r reach site detour ↦ ?_)
        (nested_of_reachable reach)
      rcases Nat.lt_or_ge r code.size with hr | hr
      · exact .inr (back a calls t r reach site detour hr)
      · exact .inl hr
    have known := admitted.resolve_left (Nat.not_le_of_lt hc)
    obtain ⟨i, op, certified⟩ := inv.certified path known
    exact ⟨known, i, op, certified.runs⟩

/-- The subroutine at 12 returns at once.  It is called from the beginning, and jumped into by the
code at 3, which the beginning falls into and which calls itself from 8. -/
def detourCode : Code :=
  #[0x5E, 0x00, 0x0C, 0x60, 0x01, 0x5F, 0x00, 0x07, 0x5E, 0xFF, 0xFB, 0x0C, 0x5D]

theorem verify_detourCode : ∃ v, verify detourCode {} = .ok v ∧ v.heightAt? 11 = none :=
  ⟨⟨detourCode, .ofCode detourCode,
    ⟨#[some 0, none, none, some 0, none, some 1, none, none, some 0, none, none, none, some 0]⟩,
    ⟨5, 2, 3, 1, 2⟩⟩, by decide +kernel, rfl⟩

theorem reachable_detourCode : Reachable detourCode ⟨11, 0, []⟩ := by
  have first : Calls detourCode 0 12 3 := ⟨_, _, ⟨rfl, rfl⟩, rfl, rfl, rfl⟩
  have second : Calls detourCode 8 3 11 := ⟨_, _, ⟨rfl, rfl⟩, rfl, rfl, rfl⟩
  have leaves : Leaves detourCode 12 := ⟨_, _, ⟨rfl, rfl⟩, rfl⟩
  have one : Fetch detourCode 3 ⟨3, 0x60, [0x01]⟩ (.push 0) := ⟨rfl, rfl⟩
  have test : Fetch detourCode 5 ⟨5, 0x5F, [0x00, 0x07]⟩ .rjumpi := ⟨rfl, rfl⟩
  have push : Flat detourCode ⟨3, 0⟩ ⟨5, 1⟩ := .next one rfl (Nat.zero_le _)
  have stay : Flat detourCode ⟨5, 1⟩ ⟨8, 0⟩ := .branchFallthrough test rfl (Nat.le_refl _)
  have jump : Flat detourCode ⟨5, 1⟩ ⟨12, 0⟩ := .branchTaken test rfl (Nat.le_refl _) rfl
  have body : Level detourCode (fun _ ↦ True) (.entry 3) ⟨12, 0⟩ :=
    (Level.flat (.refl _) trivial push).flat trivial jump
  have back : Level detourCode (fun _ ↦ True) (.entry 0) ⟨3, 0⟩ :=
    .call (.refl _) trivial first (.refl _) trivial leaves
  have run : Level detourCode (fun _ ↦ True) (.entry 0) ⟨11, 0⟩ :=
    ((back.flat trivial push).flat trivial stay).call trivial second body trivial leaves
  exact run.reaches []

/-- Its call at 8 makes a detour, and comes back to an offset without a height. -/
theorem detours_detourCode : ∃ v, verify detourCode {} = .ok v ∧
    ∃ (a : Spot) (calls : List Outstanding) (t r : Nat), Reachable detourCode (a.under calls) ∧
      Calls detourCode a.pc t r ∧ Detours detourCode {} calls a t r ∧
      v.heightAt? r ≠ some a.height := by
  obtain ⟨v, h, unknown⟩ := verify_detourCode
  refine ⟨v, h, Classical.byContradiction fun none ↦ ?_⟩
  have sound := (heights_of_reachable_iff h).mpr fun a calls t r reach site detour _ ↦
    Classical.byContradiction fun hr ↦ none ⟨a, calls, t, r, reach, site, detour, hr⟩
  have known := (sound _ reachable_detourCode (by decide)).1
  rw [unknown] at known
  cases known

/-- Not every run of accepted code finds the heights of the check. -/
theorem not_heights_of_reachable :
    ¬ ∀ (code : Code) (limits : Limits) (v : Verified), verify code limits = .ok v →
      ∀ c, Reachable code c → c.pc < code.size →
        v.heightAt? c.pc = some c.height ∧ Runnable code c.pc c.height := by
  intro sound
  obtain ⟨v, h, unknown⟩ := verify_detourCode
  have known := (sound detourCode {} v h _ reachable_detourCode (by decide)).1
  rw [unknown] at known
  cases known

/-! ## Returns at top level -/

/-- A run of accepted code returns without an outstanding call if and only if one does so after it
has come to a stray. -/
theorem underflows_iff_stray (h : verify code limits = .ok v) :
    (∃ c, Reachable code c ∧ Underflows code c) ↔
    ∃ d c, Reachable code d ∧ Stray code limits d.pc ∧ Reaches code d c ∧ Underflows code c := by
  obtain ⟨-, s, passes, path, rfl⟩ := passes_of_verify h
  constructor
  · rintro ⟨⟨pc, height, calls⟩, reach, rfl, leaves⟩
    cases nested_of_reachable reach with
    | top run =>
      obtain ⟨d, h1, hd, h2⟩ := passes.inv.strays_of_leaves path run leaves
      exact ⟨d, _, h1, hd, h2, rfl, leaves⟩
  · rintro ⟨d, c, h1, -, h2, underflows⟩
    exact ⟨c, h1.trans h2, underflows⟩

/-- Top-level code falls into the subroutine that it has called. -/
def strayCode : Code := #[0x5E, 0x00, 0x03, 0x5D]

theorem verify_strayCode : ∃ v, verify strayCode {} = .ok v :=
  ⟨⟨strayCode, .ofCode strayCode, ⟨#[some 0, none, none, some 0]⟩, ⟨2, 1, 2, 1, 1⟩⟩,
    by decide +kernel⟩

theorem underflows_strayCode : ∃ c, Reachable strayCode c ∧ Underflows strayCode c := by
  have site : Calls strayCode 0 3 3 := ⟨_, _, ⟨rfl, rfl⟩, rfl, rfl, rfl⟩
  have leaves : Leaves strayCode 3 := ⟨_, _, ⟨rfl, rfl⟩, rfl⟩
  have run : Level strayCode (fun _ ↦ True) (.entry 0) ⟨3, 0⟩ :=
    .call (.refl _) trivial site (.refl _) trivial leaves
  exact ⟨_, run.reaches [], rfl, leaves⟩

/-- A run of that code comes to a stray. -/
theorem stray_strayCode : ∃ d, Reachable strayCode d ∧ Stray strayCode {} d.pc := by
  obtain ⟨v, h⟩ := verify_strayCode
  obtain ⟨d, c, reach, stray, -⟩ := (underflows_iff_stray h).mp underflows_strayCode
  exact ⟨d, reach, stray⟩

/-- Acceptance does not exclude that a run returns without an outstanding call. -/
theorem not_forall_not_underflows :
    ¬ ∀ (code : Code) (limits : Limits) (v : Verified), verify code limits = .ok v →
      ∀ c, Reachable code c → ¬ Underflows code c := by
  intro sound
  obtain ⟨v, h⟩ := verify_strayCode
  obtain ⟨c, reach, underflows⟩ := underflows_strayCode
  exact sound strayCode {} v h c reach underflows

end StackFlow
