import Mathlib.Data.List.Basic
import Mathlib.Data.List.Induction
import StackFlow.Proofs.Waits

/-!
# Waiters are released once, in any order

A check parks waiters at entries and marks entries as returning, in an order
that depends on the paths it follows.  The order does not matter: the entries
that return in the end are the least set that holds the marked ones and whatever
waits for one of them (`Settled`), and the frames at work are those that waited
for an entry of that set, each as often as it did.  The invariant `Balanced`
keeps the books of an unfinished sequence, where what has not been released is
still parked where it waits, and they are in order after any operations
(`balanced_run`).
-/

namespace StackFlow.Check

/-- What a check does to the waits. -/
inductive WaitOp where
  /-- A waiter is made to wait for an entry. -/
  | wait (e : Nat) (x : Waiter)
  /-- An entry is marked as returning. -/
  | ret (e : Nat)
deriving DecidableEq, Repr

namespace WaitOp

/-- The entries that an operation names lie in the code. -/
def InBounds (size : Nat) : WaitOp → Prop
  | .wait e x => e < size ∧ x.Meets (· < size) fun _ ↦ True
  | .ret e => e < size

def apply : WaitOp → Waits → Worklist → Waits × Worklist
  | .wait e x, w, work => w.wait e x work
  | .ret e, w, work => w.release [e] work

/-- The operations one after the other, beginning with no waiters and no work. -/
def run (size : Nat) (ops : List WaitOp) : Waits × Worklist :=
  ops.foldl (fun p op ↦ op.apply p.1 p.2) (.empty size, {})

/-- The least set of entries that holds the marked ones and those that wait for one of the set. -/
inductive Settled (ops : List WaitOp) : Nat → Prop where
  | marked {e : Nat} (h : .ret e ∈ ops) : Settled ops e
  | follows {e d : Nat} (h : .wait e (.entry d) ∈ ops) (he : Settled ops e) : Settled ops d

/-- The waiter that an operation makes wait for an entry. -/
def waiter? (e : Nat) : WaitOp → Option Waiter
  | .wait o x => if o = e then some x else none
  | .ret _ => none

/-- The frame that an operation makes wait for an entry with a property. -/
def frame? (P : Nat → Prop) [DecidablePred P] : WaitOp → Option Frame
  | .wait e x => if P e then x.frame? else none
  | .ret _ => none

/-- What waits for an entry, once for each time it does. -/
def waitersAt (e : Nat) (ops : List WaitOp) : List Waiter := ops.filterMap (waiter? e)

/-- The frames that wait for entries with a property, each once for each time it does. -/
def frames (P : Nat → Prop) [DecidablePred P] (ops : List WaitOp) : List Frame :=
  ops.filterMap (frame? P)

variable {P Q : Nat → Prop} [DecidablePred P] [DecidablePred Q] {ops ops' : List WaitOp}

theorem Settled.mono (h : ops ⊆ ops') {e : Nat} (he : Settled ops e) : Settled ops' e := by
  induction he with
  | marked hm => exact .marked (h hm)
  | follows hm _ ih => exact .follows (h hm) ih

theorem frames_congr (h : ∀ e, P e ↔ Q e) (ops : List WaitOp) : frames P ops = frames Q ops := by
  refine List.filterMap_congr fun op _ ↦ ?_
  cases op <;> simp only [frame?, h]

theorem waitersAt_concat (e : Nat) (ops : List WaitOp) (op : WaitOp) :
    waitersAt e (ops ++ [op]) = waitersAt e ops ++ (op.waiter? e).toList := by
  cases h : op.waiter? e <;> simp [waitersAt, h]

theorem frames_concat (ops : List WaitOp) (op : WaitOp) :
    frames P (ops ++ [op]) = frames P ops ++ (op.frame? P).toList := by
  cases h : op.frame? P <;> simp [frames, h]

theorem mem_waitersAt {e : Nat} {x : Waiter} : x ∈ waitersAt e ops ↔ .wait e x ∈ ops := by
  simp only [waitersAt, List.mem_filterMap]
  constructor
  · rintro ⟨op, hop, h⟩
    cases op with
    | ret d => cases h
    | wait o y =>
      obtain ⟨rfl, rfl⟩ : o = e ∧ y = x := by simpa [waiter?] using h
      exact hop
  · exact fun h ↦ ⟨_, h, if_pos rfl⟩

/-- One entry more brings the frames that wait for it. -/
theorem frames_insert {e : Nat} (he : ¬ P e) (h : ∀ o, Q o ↔ P o ∨ o = e) (ops : List WaitOp) :
    (frames P ops ++ (waitersAt e ops).filterMap Waiter.frame?).Perm (frames Q ops) := by
  induction ops with
  | nil => rfl
  | cons op ops ih =>
    cases op with
    | ret d => exact ih
    | wait o x =>
      by_cases ho : o = e
      · -- the frame changes sides
        subst ho
        have hq : Q o := (h o).mpr (.inr rfl)
        cases hf : x.frame? with
        | none => simpa [frames, waitersAt, waiter?, frame?, List.filterMap_cons, hf, hq] using ih
        | some f =>
          simpa [frames, waitersAt, waiter?, frame?, List.filterMap_cons, hf, hq, he] using
            List.perm_middle.trans (ih.cons f)
      · have hq : Q o ↔ P o := (h o).trans (or_iff_left ho)
        by_cases hP : P o
        · cases hf : x.frame? <;>
            simpa [frames, waitersAt, waiter?, frame?, List.filterMap_cons, ho, hf, hq, hP] using ih
        · simpa [frames, waitersAt, waiter?, frame?, List.filterMap_cons, ho, hq, hP] using ih

end WaitOp

namespace Waits

open WaitOp

instance (w : Waits) : DecidablePred w.Returning := fun e ↦
  inferInstanceAs (Decidable (w.returning.contains e = true))

/-! ## The books -/

/-- What waits for entries that are not known to return is parked there, and the other frames are
at work. -/
structure Accounts (ops : List WaitOp) (w : Waits) (work : Worklist) : Prop where
  parked : ∀ e, ¬ w.Returning e → (w.parkedAt e).Perm (waitersAt e ops)
  frames : work.frames.toList.Perm (frames w.Returning ops)

variable {size : Nat} {ops : List WaitOp} {w : Waits} {work : Worklist}

theorem accounts_empty (size : Nat) : Accounts [] (.empty size) {} where
  parked := fun e _ ↦ by rw [parkedAt_empty]; rfl
  frames := .refl _

/-- An operation with nothing to park and no frame to push only has to be entered. -/
theorem Accounts.enter {op : WaitOp} (h : Accounts ops w work)
    (waiter : ∀ e, ¬ w.Returning e → op.waiter? e = none) (frame : op.frame? w.Returning = none) :
    Accounts (ops ++ [op]) w work where
  parked := fun e he ↦ by
    rw [waitersAt_concat, waiter e he, Option.toList_none, List.append_nil]
    exact h.parked e he
  frames := by
    rw [frames_concat, frame, Option.toList_none, List.append_nil]
    exact h.frames

theorem Accounts.mark (h : Accounts ops w work) (hw : w.Fits size) {e : Nat} (he : e < size)
    (new : ¬ w.Returning e) :
    Accounts ops (w.mark e) (work.pushAll ((w.parkedAt e).filterMap Waiter.frame?)) where
  parked := fun o ho ↦ by
    rw [hw.returning_mark he, not_or] at ho
    rw [parkedAt_mark, if_neg ho.2]
    exact h.parked o ho.1
  frames := by
    rw [Worklist.toList_pushAll]
    have due := (h.parked e new).filterMap Waiter.frame?
    exact (h.frames.append due).trans (frames_insert new (fun o ↦ hw.returning_mark he) ops)

theorem Accounts.release {entries : List Nat} (h : Accounts ops w work) (hw : w.Fits size)
    (he : ∀ e ∈ entries, e < size) :
    Accounts ops (w.release entries work).1 (w.release entries work).2 := by
  fun_induction Waits.release entries w work with
  | case1 => exact h
  | case2 w work e rest _ ih => exact ih h hw fun d hd ↦ he d (List.mem_cons_of_mem _ hd)
  | case3 w work e rest new ih =>
    have hlt := he e List.mem_cons_self
    exact ih (h.mark hw hlt new) (hw.mark hlt) (hw.lt_of_mem_entries_append he)

theorem Accounts.wait {e : Nat} {x : Waiter} (h : Accounts ops w work) (hw : w.Fits size)
    (he : e < size) (hx : x.Meets (· < size) fun _ ↦ True) :
    Accounts (ops ++ [.wait e x]) (w.wait e x work).1 (w.wait e x work).2 := by
  unfold Waits.wait
  split
  · next known =>
    have known : w.Returning e := known
    have elsewhere (o : Nat) (ho : ¬ w.Returning o) : (WaitOp.wait e x).waiter? o = none := by
      have hne : e ≠ o := fun h ↦ ho (h ▸ known)
      exact if_neg hne
    cases x with
    | entry d =>
      refine (h.enter elsewhere (if_pos known)).release hw fun c hc ↦ ?_
      cases List.mem_singleton.mp hc
      exact hx
    | resume f =>
      refine ⟨fun o ho ↦ ?_, ?_⟩
      · rw [waitersAt_concat, elsewhere o ho, Option.toList_none, List.append_nil]
        exact h.parked o ho
      · have due : (WaitOp.wait e (.resume f)).frame? w.Returning = some f := if_pos known
        rw [frames_concat, due, Worklist.toList_push]
        exact h.frames.append_right [f]
  · next new =>
    have new : ¬ w.Returning e := new
    refine ⟨fun o ho ↦ ?_, ?_⟩
    · rw [parkedAt_park (hw.parked ▸ he), waitersAt_concat]
      by_cases hoe : o = e
      · have here : (WaitOp.wait e x).waiter? o = some x := if_pos hoe.symm
        rw [if_pos hoe, here]
        exact ((h.parked o ho).cons x).trans (List.perm_append_singleton x _).symm
      · have there : (WaitOp.wait e x).waiter? o = none := if_neg (Ne.symm hoe)
        rw [if_neg hoe, there, Option.toList_none, List.append_nil]
        exact h.parked o ho
    · have due : (WaitOp.wait e x).frame? w.Returning = none := if_neg new
      have same : WaitOp.frames (w.park e x).Returning (ops ++ [.wait e x]) =
          WaitOp.frames w.Returning (ops ++ [.wait e x]) :=
        frames_congr (fun _ ↦ Iff.rfl) _
      rw [same, frames_concat, due, Option.toList_none, List.append_nil]
      exact h.frames

/-! ## The entries -/

/-- The books are in order, and the entries known to return are the settled ones. -/
structure Balanced (size : Nat) (ops : List WaitOp) (w : Waits) (work : Worklist) : Prop where
  fits : w.Fits size
  accounts : Accounts ops w work
  returning : ∀ e, w.Returning e ↔ Settled ops e

theorem balanced_empty (size : Nat) : Balanced size [] (.empty size) {} where
  fits := fits_empty size
  accounts := accounts_empty size
  returning := fun e ↦ by
    refine ⟨fun h ↦ absurd h (not_returning_empty size e), fun h ↦ ?_⟩
    induction h with
    | marked h => cases h
    | follows h => cases h

/-- What is parked at a settled entry is settled, as far as it is an entry. -/
theorem Balanced.meets {ops' : List WaitOp} (h : Balanced size ops w work) (sub : ops ⊆ ops')
    {o : Nat} (ho : Settled ops' o) {x : Waiter} (hx : x ∈ w.parkedAt o) :
    x.Meets (Settled ops') fun _ ↦ True := by
  have open_ : ¬ w.Returning o := fun hr ↦ h.fits.not_parked hr x hx
  have waits := mem_waitersAt.mp ((h.accounts.parked o open_).mem_iff.mp hx)
  cases x with
  | resume f => trivial
  | entry d => exact .follows (sub waits) ho

/-- After an operation that loses nothing, marks what it says and links what it says, every
settled entry is known to return. -/
theorem Balanced.returning_of_settled {op : WaitOp} {w' : Waits} {work' : Worklist}
    (h : Balanced size ops w work) (keeps : Keeps w work w' work') (fits : w'.Fits size)
    (marks : ∀ e, op = .ret e → w'.Returning e)
    (links : ∀ e d, op = .wait e (.entry d) → w'.Returning e → w'.Returning d) {e : Nat}
    (he : Settled (ops ++ [op]) e) : w'.Returning e := by
  induction he with
  | @marked e hm =>
    rcases List.mem_append.mp hm with hm | hm
    · exact keeps.returning e ((h.returning e).mpr (.marked hm))
    · exact marks e (List.mem_singleton.mp hm).symm
  | @follows e d hm _ ih =>
    rcases List.mem_append.mp hm with hm | hm
    · by_cases hr : w.Returning e
      · exact keeps.returning d ((h.returning d).mpr (.follows hm ((h.returning e).mp hr)))
      · have parked := (h.accounts.parked e hr).mem_iff.mpr (mem_waitersAt.mpr hm)
        exact (keeps.entry e d parked).resolve_left (fits.not_parked ih _)
    · exact links e d (List.mem_singleton.mp hm).symm ih

/-- The step of the invariant. -/
theorem Balanced.apply (h : Balanced size ops w work) {op : WaitOp} (bounds : op.InBounds size) :
    Balanced size (ops ++ [op]) (op.apply w work).1 (op.apply w work).2 := by
  have sub : ops ⊆ ops ++ [op] := List.subset_append_left ops [op]
  have here : op ∈ ops ++ [op] := List.mem_append_right ops List.mem_cons_self
  have old (e : Nat) (he : w.Returning e) : Settled (ops ++ [op]) e :=
    ((h.returning e).mp he).mono sub
  cases op with
  | ret c =>
    have hc : ∀ e ∈ [c], e < size := fun e he ↦ List.mem_singleton.mp he ▸ bounds
    have fits : (w.release [c] work).1.Fits size := h.fits.release hc
    obtain ⟨keeps, marked⟩ : Keeps w work _ _ ∧ _ := keeps_release h.fits hc
    refine ⟨fits, (h.accounts.enter (fun _ _ ↦ rfl) rfl).release h.fits hc, fun e ↦
      ⟨?_, h.returning_of_settled keeps fits (fun e he ↦ ?_) fun _ _ he ↦ by cases he⟩⟩
    · refine (release_induct (Q := fun _ ↦ True) h.fits (fun d hd ↦ ⟨hc d hd, ?_⟩)
        (fun o ho x hx ↦ h.meets sub ho hx) old fun _ _ ↦ trivial).1 e
      exact .marked (List.mem_singleton.mp hd ▸ here)
    · cases he
      exact marked c List.mem_cons_self
  | wait c x =>
    have fits : (w.wait c x work).1.Fits size := h.fits.wait bounds.1 bounds.2
    obtain ⟨keeps, waits⟩ : Keeps w work _ _ ∧ _ := keeps_wait h.fits bounds.1 bounds.2
    refine ⟨fits, h.accounts.wait h.fits bounds.1 bounds.2, fun e ↦
      ⟨?_, h.returning_of_settled keeps fits (fun _ he ↦ by cases he) fun e d he hr ↦ ?_⟩⟩
    · refine (wait_induct (Q := fun _ ↦ True) h.fits bounds.1 bounds.2 (fun hc ↦ ?_)
        (fun o ho x hx ↦ h.meets sub ho hx) old fun _ _ ↦ trivial).1 e
      cases x with
      | resume f => trivial
      | entry d => exact .follows here hc
    · cases he
      exact waits.resolve_left (fits.not_parked hr _)

/-- The books are in order after any operations. -/
theorem balanced_run (bounds : ∀ op ∈ ops, op.InBounds size) :
    Balanced size ops (run size ops).1 (run size ops).2 := by
  induction ops using List.reverseRecOn with
  | nil => exact balanced_empty size
  | append_singleton ops op ih =>
    have last := bounds op (List.mem_append_right ops List.mem_cons_self)
    rw [run, List.foldl_concat]
    exact (ih fun o ho ↦ bounds o (List.mem_append_left [op] ho)).apply last

end Waits

end StackFlow.Check
