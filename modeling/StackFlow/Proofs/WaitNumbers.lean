import Mathlib.Data.List.Perm.Basic
import StackFlow.Proofs.Unpacking
import StackFlow.Proofs.WaitOrder

/-!
# Waiters are released once, in any order, while there are numbers for them

The waiters of a check are links in lists, and a link goes by a number of
thirty-two bits.  As long as each has its own, it does not matter in which order
waiters are parked and entries are marked as returning
(`settled_and_frames_of_run`): in words as on numbers, every frame that waits for
a settled entry is released, as often as it waits.

A waiter more than there are numbers goes by the number of the one before it, and
is lost (`exists_run_crowd`).
-/

namespace StackFlow.Packed

/-- What a check in words does to the waits. -/
inductive WaitOp where
  /-- A waiter is made to wait for an entry. -/
  | wait (e : UInt32) (x : Waiter)
  /-- An entry is marked as returning. -/
  | ret (e : UInt32)
deriving DecidableEq, Repr

namespace WaitOp

/-- The entries that an operation names lie in the code. -/
def InBounds (size : Nat) : WaitOp → Prop
  | .wait e x => e.toNat < size ∧ ∀ d ∈ x.entry?, d.toNat < size
  | .ret e => e.toNat < size

def apply : WaitOp → Waits → Worklist → Except Stop (Waits × Worklist)
  | .wait e x, w, work => w.wait e x work
  | .ret e, w, work => w.release [e] work

/-- The operations one after the other, beginning with no waiters and no work. -/
def run (size : Nat) (ops : List WaitOp) : Except Stop (Waits × Worklist) :=
  ops.foldlM (fun p op ↦ op.apply p.1 p.2) (.empty size, {})

/-- The least set of entries that holds the marked ones and those that wait for one of the set. -/
inductive Settled (ops : List WaitOp) : UInt32 → Prop where
  | marked {e : UInt32} (h : .ret e ∈ ops) : Settled ops e
  | follows {e d : UInt32} (h : .wait e (.entry d) ∈ ops) (he : Settled ops e) : Settled ops d

/-- The frame that an operation makes wait for an entry with a property. -/
def frame? (P : UInt32 → Prop) [DecidablePred P] : WaitOp → Option Frame
  | .wait e x => if P e then x.frame? else none
  | .ret _ => none

/-- The frames that wait for entries with a property, each once for each time it does. -/
def frames (P : UInt32 → Prop) [DecidablePred P] (ops : List WaitOp) : List Frame :=
  ops.filterMap (frame? P)

theorem frames_congr {P Q : UInt32 → Prop} [DecidablePred P] [DecidablePred Q]
    (h : ∀ e, P e ↔ Q e) (ops : List WaitOp) : frames P ops = frames Q ops := by
  refine List.filterMap_congr fun op _ ↦ ?_
  cases op <;> simp only [frame?, h]

/-- Whether the operation can take up a number. -/
def waits : WaitOp → Bool
  | .wait .. => true
  | .ret _ => false

/-- The operation on numbers that an operation stands for. -/
def unpack (calls : Array Call) : WaitOp → Check.WaitOp
  | .wait e x => .wait e.toNat (x.unpack calls)
  | .ret e => .ret e.toNat

theorem Settled.mono {ops ops' : List WaitOp} (h : ops ⊆ ops') {e : UInt32}
    (he : Settled ops e) : Settled ops' e := by
  induction he with
  | marked hm => exact .marked (h hm)
  | follows hm _ ih => exact .follows (h hm) ih

variable {size : Nat} {calls : Array Call} {op : WaitOp} {ops : List WaitOp} {w : Waits}
  {work : Worklist}

/-! ## On numbers -/

theorem InBounds.unpack (h : op.InBounds size) : (op.unpack calls).InBounds size := by
  cases op with
  | ret e => exact h
  | wait e x =>
    cases x with
    | resume f => exact ⟨h.1, trivial⟩
    | entry d => exact ⟨h.1, h.2 d rfl⟩

theorem wait_entry_mem_unpack {e : Nat} {d : Nat} :
    .wait e (.entry d) ∈ ops.map (unpack calls) ↔
      ∃ e' d' : UInt32, .wait e' (.entry d') ∈ ops ∧ e'.toNat = e ∧ d'.toNat = d := by
  constructor
  · intro h
    obtain ⟨op, mem, same⟩ := List.mem_map.mp h
    cases op with
    | ret => cases same
    | wait e' x =>
      cases x with
      | resume f => cases same
      | entry d' =>
        cases same
        exact ⟨e', d', mem, rfl, rfl⟩
  · rintro ⟨e', d', mem, rfl, rfl⟩
    exact List.mem_map_of_mem (f := unpack calls) mem

theorem ret_mem_unpack {e : Nat} :
    .ret e ∈ ops.map (unpack calls) ↔ ∃ e' : UInt32, .ret e' ∈ ops ∧ e'.toNat = e := by
  constructor
  · intro h
    obtain ⟨op, mem, same⟩ := List.mem_map.mp h
    cases op with
    | wait => cases same
    | ret e' =>
      cases same
      exact ⟨e', mem, rfl⟩
  · rintro ⟨e', mem, rfl⟩
    exact List.mem_map_of_mem (f := unpack calls) mem

/-- The settled entries are words. -/
theorem settled_unpack_iff {e : Nat} :
    Check.WaitOp.Settled (ops.map (unpack calls)) e ↔
      ∃ e' : UInt32, e'.toNat = e ∧ Settled ops e' := by
  constructor
  · intro h
    induction h with
    | marked h =>
      obtain ⟨e', mem, same⟩ := ret_mem_unpack.mp h
      exact ⟨e', same, .marked mem⟩
    | follows h _ ih =>
      obtain ⟨e', d', mem, same, same'⟩ := wait_entry_mem_unpack.mp h
      obtain ⟨e'', same'', settled⟩ := ih
      obtain rfl := UInt32.toNat_inj.mp (same''.trans same.symm)
      exact ⟨d', same', .follows mem settled⟩
  · rintro ⟨e', rfl, h⟩
    induction h with
    | marked h => exact .marked (ret_mem_unpack.mpr ⟨_, h, rfl⟩)
    | follows h _ ih => exact .follows (wait_entry_mem_unpack.mpr ⟨_, _, h, rfl, rfl⟩) ih

theorem frames_unpack {P : Nat → Prop} {Q : UInt32 → Prop} [DecidablePred P] [DecidablePred Q]
    (same : ∀ e : UInt32, P e.toNat ↔ Q e) :
    Check.WaitOp.frames P (ops.map (unpack calls)) =
      (frames Q ops).map (Frame.unpack calls) := by
  rw [Check.WaitOp.frames, frames, List.filterMap_map, List.map_filterMap]
  refine List.filterMap_congr fun op _ ↦ ?_
  cases op with
  | ret => rfl
  | wait e x =>
    simp only [Function.comp, unpack, Check.WaitOp.frame?, frame?, same]
    split
    · cases x <;> rfl
    · rfl

/-! ## Runs -/

/-- An operation has no fault, and takes up a number at most if it makes a waiter wait. -/
theorem apply_eq_ok (work : Worklist) (hw : (w.unpack calls).Fits size)
    (bounds : op.InBounds size) (room : op.waits = true → w.parked.links.size < UInt32.size) :
    ∃ w' work', op.apply w work = .ok (w', work') ∧
      (op.unpack calls).apply (w.unpack calls) (work.unpack calls) =
        (w'.unpack calls, work'.unpack calls) ∧
      w'.parked.links.size ≤ w.parked.links.size + [op].countP waits := by
  have all : w.All (fun _ ↦ True) work := ⟨fun _ _ ↦ trivial, fun _ _ _ _ ↦ trivial⟩
  have size_unpack (w : Waits) : (w.unpack calls).parked.links.size = w.parked.links.size :=
    Array.size_map
  cases op with
  | ret e =>
    have inside : ∀ d ∈ [e], d.toNat < size := fun d hd ↦ List.mem_singleton.mp hd ▸ bounds
    obtain ⟨w', work', released, same, -⟩ := Waits.release_eq_ok hw inside all
    have links := Check.Waits.links_release [e.toNat] (w.unpack calls) (work.unpack calls)
    have same : (w.unpack calls).release [e.toNat] (work.unpack calls) =
        (w'.unpack calls, work'.unpack calls) := same
    refine ⟨w', work', released, same, ?_⟩
    rw [same] at links
    rw [← size_unpack w', ← size_unpack w, links]
    exact Nat.le_refl _
  | wait e x =>
    obtain ⟨w', work', waited, same, -⟩ :=
      Waits.wait_eq_ok hw bounds.1 bounds.2 (room rfl) all fun _ _ ↦ trivial
    have links := (w.unpack calls).size_links_wait_le e.toNat (x.unpack calls) (work.unpack calls)
    refine ⟨w', work', waited, same, ?_⟩
    rwa [same, size_unpack, size_unpack] at links

theorem run_concat (size : Nat) (ops : List WaitOp) (op : WaitOp) :
    run size (ops ++ [op]) = run size ops >>= fun p ↦ op.apply p.1 p.2 := by
  rw [run, List.foldlM_append]
  congr 1
  funext p
  exact bind_pure _

/-- While there are numbers, operations in words come to what they come to on numbers. -/
theorem run_eq_ok (calls : Array Call) (bounds : ∀ op ∈ ops, op.InBounds size)
    (few : ops.countP waits ≤ UInt32.size) :
    ∃ w work, run size ops = .ok (w, work) ∧
      Check.WaitOp.run size (ops.map (unpack calls)) = (w.unpack calls, work.unpack calls) ∧
      w.parked.links.size ≤ ops.countP waits := by
  induction ops using List.reverseRecOn with
  | nil =>
    refine ⟨.empty size, {}, rfl, ?_, Nat.le_refl 0⟩
    simp [Check.WaitOp.run, Waits.unpack, Waits.empty, Check.Waits.empty, Chains.map_empty,
      Worklist.unpack]
  | append_singleton ops op ih =>
    rw [List.countP_append] at few ⊢
    obtain ⟨w, work, before, same, links⟩ :=
      ih (fun o ho ↦ bounds o (List.mem_append_left [op] ho)) (by omega)
    have inside : ∀ o ∈ ops.map (unpack calls), o.InBounds size := by
      intro o ho
      obtain ⟨o, mem, rfl⟩ := List.mem_map.mp ho
      exact (bounds o (List.mem_append_left [op] mem)).unpack
    have fits := (Check.Waits.balanced_run inside).fits
    rw [same] at fits
    have room : op.waits = true → w.parked.links.size < UInt32.size := by
      intro waits
      rw [List.countP_singleton, if_pos waits] at few
      omega
    obtain ⟨w', work', apply, same', links'⟩ :=
      apply_eq_ok work fits (bounds op (List.mem_append_right ops List.mem_cons_self)) room
    refine ⟨w', work', ?_, ?_, by omega⟩
    · rw [run_concat, before]
      exact apply
    · rw [List.map_append, Check.WaitOp.run, List.map_singleton, List.foldl_concat]
      change (op.unpack calls).apply (Check.WaitOp.run size (ops.map (unpack calls))).1
        (Check.WaitOp.run size (ops.map (unpack calls))).2 = _
      rw [same]
      exact same'

/-! ## The frames released -/

/-- With a table of all numbers, frames in words can be told apart on numbers. -/
theorem exists_injective_unpack : ∃ calls, Function.Injective (Frame.unpack calls) := by
  let table : Array Call := .ofFn fun n : Fin UInt32.size ↦ ⟨UInt32.ofNat n, 0⟩
  have entry (n : UInt32) :
      table[n.toNat]?.map Call.unpack = some (Call.unpack ⟨n, 0⟩) := by
    rw [Array.getElem?_ofFn, dif_pos n.toNat_lt_size, Option.map_some, UInt32.ofNat_toNat]
  refine ⟨table, fun f g same ↦ ?_⟩
  obtain ⟨pc, height, base, depth, call?⟩ := f
  obtain ⟨pc', height', base', depth', call?'⟩ := g
  simp only [Frame.unpack, entry, Check.Frame.mk.injEq, UInt16.toNat_inj,
    UInt32.toNat_inj] at same
  obtain ⟨rfl, rfl, rfl, rfl, call⟩ := same
  have number : Function.Injective fun n : UInt32 ↦ Call.unpack ⟨n, 0⟩ := fun m n h ↦
    UInt32.toNat_inj.mp (congrArg Check.Call.entry h)
  have call : call?.map (fun n ↦ Call.unpack ⟨n, 0⟩) = call?'.map fun n ↦ Call.unpack ⟨n, 0⟩ := by
    rw [Option.map_eq_bind, Option.map_eq_bind]
    exact call
  rw [Option.map_injective number call]

open scoped Classical in
/-- While there are numbers for all that wait, operations come to an end without a fault.  The
settled entries are then those known to return, and the frames at work are those that waited for a
settled entry, each as often as it did.  So both are the same if the operations come in another
order. -/
theorem settled_and_frames_of_run (bounds : ∀ op ∈ ops, op.InBounds size)
    (few : ops.countP waits ≤ 4294967296) :
    ∃ w work, run size ops = .ok (w, work) ∧
      (∀ e, w.returning.contains e = true ↔ ∃ e' : UInt32, e'.toNat = e ∧ Settled ops e') ∧
      work.frames.toList.Perm (frames (Settled ops) ops) ∧
      ∀ ops', ops.Perm ops' → ∃ w' work', run size ops' = .ok (w', work') ∧
        (∀ e, w'.returning.contains e = w.returning.contains e) ∧
        work'.frames.toList.Perm work.frames.toList := by
  obtain ⟨calls, injective⟩ := exists_injective_unpack
  have books (ops : List WaitOp) (bounds : ∀ op ∈ ops, op.InBounds size)
      (few : ops.countP waits ≤ 4294967296) :
      ∃ w work, run size ops = .ok (w, work) ∧
        (∀ e, w.returning.contains e = true ↔ ∃ e' : UInt32, e'.toNat = e ∧ Settled ops e') ∧
        work.frames.toList.Perm (frames (Settled ops) ops) := by
    obtain ⟨w, work, ran, same, -⟩ := run_eq_ok calls bounds few
    have inside : ∀ op ∈ ops.map (unpack calls), op.InBounds size :=
      List.forall_mem_map.mpr fun op mem ↦ (bounds op mem).unpack
    have balanced := Check.Waits.balanced_run inside
    rw [same] at balanced
    refine ⟨w, work, ran, fun e ↦ (balanced.returning e).trans settled_unpack_iff, ?_⟩
    have settled (e : UInt32) :
        (w.unpack calls).Returning e.toNat ↔ Settled ops e := by
      rw [balanced.returning, settled_unpack_iff]
      exact ⟨fun ⟨e', h, he⟩ ↦ UInt32.toNat_inj.mp h ▸ he, fun he ↦ ⟨e, rfl, he⟩⟩
    have released := balanced.accounts.frames
    rw [frames_unpack settled] at released
    have at_work : (work.unpack calls).frames.toList =
        work.frames.toList.map (Frame.unpack calls) := Array.toList_map
    rw [at_work] at released
    exact (List.map_perm_map_iff injective).mp released
  obtain ⟨w, work, ran, returning, released⟩ := books ops bounds few
  refine ⟨w, work, ran, returning, released, fun ops' perm ↦ ?_⟩
  obtain ⟨w', work', ran', returning', released'⟩ :=
    books ops' (fun op h ↦ bounds op (perm.mem_iff.mpr h)) (perm.countP_eq waits ▸ few)
  have settled (e : UInt32) : Settled ops' e ↔ Settled ops e :=
    ⟨.mono perm.symm.subset, .mono perm.subset⟩
  refine ⟨w', work', ran', fun e ↦ ?_, ?_⟩
  · rw [Bool.eq_iff_iff, returning, returning']
    exact exists_congr fun e' ↦ and_congr_right fun _ ↦ settled e'
  · calc work'.frames.toList
      _ |>.Perm (frames (Settled ops') ops') := released'
      _ |>.Perm (frames (Settled ops) ops') := by rw [frames_congr settled]
      _ |>.Perm (frames (Settled ops) ops) := (perm.filterMap _).symm
      _ |>.Perm work.frames.toList := released.symm

/-- Entries 0 and 1 wait for each other, and 1 is marked in between.  Nobody marks 2. -/
def cyclicWaits : List WaitOp :=
  [.wait 0 (.resume { Frame.start with pc := 3 }), .wait 0 (.entry 1), .wait 1 (.entry 0), .ret 1,
    .wait 0 (.resume { Frame.start with pc := 4 }), .wait 2 (.resume Frame.start)]

/-- The frames that wait for 0 are released, backwards as well, and the one that waits for 2
is not. -/
theorem settled_and_frames_cyclicWaits :
    (∀ op ∈ cyclicWaits, op.InBounds 3) ∧ cyclicWaits.countP waits ≤ 4294967296 ∧
    ∃ w work, run 3 cyclicWaits = .ok (w, work) ∧ Settled cyclicWaits 0 ∧
      ¬ Settled cyclicWaits 2 ∧ work.frames.toList.map Frame.pc = [3, 4] ∧
      ∃ w' work', run 3 cyclicWaits.reverse = .ok (w', work') ∧
        work'.frames.toList.Perm work.frames.toList := by
  have bounds : ∀ op ∈ cyclicWaits, op.InBounds 3 := by
    simp [cyclicWaits, InBounds, Waiter.entry?]
  have few : cyclicWaits.countP waits ≤ 4294967296 := by decide
  obtain ⟨w, work, ran, settled, -, order⟩ := settled_and_frames_of_run bounds few
  have shown : (run 3 cyclicWaits).map (fun p ↦ ((p.1.returning.contains 0,
      p.1.returning.contains 2), p.2.frames.toList.map Frame.pc)) =
        .ok ((true, false), [3, 4]) := by
    decide +kernel
  rw [ran] at shown
  obtain ⟨known, pcs⟩ := Prod.mk.inj (Except.ok.inj shown)
  obtain ⟨known, unknown⟩ := Prod.mk.inj known
  obtain ⟨w', work', ran', -, same⟩ := order _ cyclicWaits.reverse_perm.symm
  obtain ⟨e, here, zero⟩ := (settled 0).mp known
  obtain rfl : e = 0 := UInt32.toNat_inj.mp here
  refine ⟨bounds, few, w, work, ran, zero, fun two ↦ ?_, pcs, w', work', ran', same⟩
  exact Bool.false_ne_true (unknown.symm.trans ((settled 2).mpr ⟨2, rfl, two⟩))

/-! ## A waiter too many -/

/-- The start waits for one entry, again and again. -/
def crowd (n : Nat) : List WaitOp := List.replicate n (.wait 0 (.resume .start))

theorem frames_crowd {P : UInt32 → Prop} [DecidablePred P] (h : P 0) (n : Nat) :
    frames P (crowd n ++ [.ret 0]) = List.replicate n .start := by
  have waits : frame? P (.wait 0 (.resume .start)) = some .start := if_pos h
  rw [frames, crowd, List.filterMap_append, List.filterMap_replicate_of_some waits]
  exact List.append_nil _

/-- What is left of a crowd. No more frames are parked than there are numbers. -/
structure Crowded (n : Nat) (w : Waits) : Prop where
  returning : w.returning = .empty 1
  size : w.parked.size = 1
  links : w.parked.links.size = n
  items : w.parked.items 0 = List.replicate (min n UInt32.size) (.resume .start)
  head : UInt32.size ≤ n → w.parked.head? 0 = some lastNumber

theorem crowded_empty : Crowded 0 (.empty 1) where
  returning := rfl
  size := Chains.size_empty 1
  links := rfl
  items := Chains.items_empty 1 0
  head := fun h ↦ absurd h (by decide)

theorem Crowded.unknown {n : Nat} (h : Crowded n w) :
    w.returning.contains (0 : UInt32).toNat = false := by
  rw [h.returning]
  exact IndexSet.contains_empty 1 0

/-- One waiter more is parked under the next number, or else lost. -/
theorem Crowded.wait {n : Nat} (h : Crowded n w) (work : Worklist) :
    ∃ w', w.wait 0 (.resume .start) work = .ok (w', work) ∧ Crowded (n + 1) w' := by
  have inside : 0 < w.parked.size := h.size ▸ Nat.one_pos
  have slot := @lookup_of_lt _ w.parked.heads 0 inside
  have waits (w' : Waits) (parked : w.park 0 (.resume .start) = .ok w') :
      w.wait 0 (.resume .start) work = .ok (w', work) := by
    rw [Waits.wait, h.unknown, parked]
    rfl
  rcases Nat.lt_or_ge n UInt32.size with room | full
  · have park := Waits.park_of_lt (h.links ▸ room) 0 (.resume .start)
    rw [slot] at park
    refine ⟨_, waits _ park, h.returning, ?_, ?_, ?_, fun last ↦ ?_⟩
    · rw [Chains.size_add, h.size]
    · exact (Array.size_push _).trans (congrArg (· + 1) h.links)
    · change (w.parked.add 0 _).items 0 = _
      rw [Chains.items_add, if_pos ⟨rfl, inside⟩, h.items, ← List.replicate_succ,
        Nat.min_eq_left room.le, Nat.min_eq_left room]
    · change (w.parked.add 0 _).head? 0 = _
      have number : w.parked.links.size = lastNumber := by
        rw [h.links]
        exact Nat.le_antisymm (Nat.le_of_lt_succ room) (Nat.le_of_succ_le_succ last)
      rw [← number]
      exact w.parked.head?_addAs _ inside _
  · have number : min w.parked.links.size lastNumber = lastNumber := by
      rw [h.links]
      exact Nat.min_eq_right ((Nat.le_succ _).trans full)
    have taken : min w.parked.links.size lastNumber < w.parked.links.size := by
      rw [number, h.links]
      exact full
    have park : w.park 0 (.resume .start) = .ok { w with
        parked := w.parked.addAs 0 (.resume .start) _ (Nat.min_le_left _ lastNumber) } := by
      rw [Waits.park, slot]
      rfl
    refine ⟨_, waits _ park, h.returning, ?_, ?_, ?_, fun _ ↦ ?_⟩
    · rw [Chains.size_addAs, h.size]
    · exact (Array.size_push _).trans (congrArg (· + 1) h.links)
    · change (w.parked.addAs 0 _ _ (Nat.min_le_left _ lastNumber)).items 0 = _
      rw [w.parked.items_addAs_of_lt _ inside taken.le taken, number, ← h.head full]
      change w.parked.items 0 = _
      rw [h.items, Nat.min_eq_right full, Nat.min_eq_right (full.trans (Nat.le_succ n))]
    · exact (w.parked.head?_addAs _ inside taken.le).trans (congrArg some number)

theorem exists_run_crowd (n : Nat) : ∃ w, run 1 (crowd n) = .ok (w, {}) ∧ Crowded n w := by
  induction n with
  | zero => exact ⟨.empty 1, rfl, crowded_empty⟩
  | succ n ih =>
    obtain ⟨w, ran, crowded⟩ := ih
    obtain ⟨w', waited, crowded⟩ := crowded.wait {}
    refine ⟨w', ?_, crowded⟩
    rw [crowd, List.replicate_succ', run_concat]
    change run 1 (crowd n) >>= _ = _
    rw [ran]
    exact waited

/-- When the entry is marked, as many frames are released as there are numbers at most. -/
theorem exists_run_crowd_ret (n : Nat) :
    ∃ w work, run 1 (crowd n ++ [.ret 0]) = .ok (w, work) ∧
      work.frames.size = min n UInt32.size := by
  obtain ⟨w, ran, crowded⟩ := exists_run_crowd n
  have inside : (0 : UInt32).toNat < w.parked.size := crowded.size ▸ Nat.one_pos
  have found : w.waitersAt 0 = .ok (List.replicate (min n UInt32.size) (.resume .start)) :=
    (Waits.waitersAt_eq inside).trans (congrArg Except.ok crowded.items)
  have entries (k : Nat) :
      (List.replicate k (Waiter.resume .start)).filterMap Waiter.entry? = [] :=
    List.filterMap_replicate_of_none rfl
  have frames (k : Nat) :
      (List.replicate k (Waiter.resume .start)).filterMap Waiter.frame? =
        List.replicate k .start :=
    List.filterMap_replicate_of_some (f := Waiter.frame?) rfl
  have released : w.release [0] {} = .ok (w.mark 0,
      Worklist.pushAll {} (List.replicate (min n UInt32.size) .start)) := by
    rw [Waits.release, crowded.unknown]
    simp only [Bool.false_eq_true, if_false]
    split
    · next failed =>
      rw [found] at failed
      cases failed
    · next ws here =>
      obtain rfl := Except.ok.inj (found.symm.trans here)
      rw [entries, frames, List.reverse_nil, List.nil_append, Waits.release]
  refine ⟨w.mark 0, Worklist.pushAll {} (List.replicate (min n UInt32.size) .start), ?_, ?_⟩
  · rw [run_concat, ran]
    exact released
  · rw [Worklist.size_pushAll, List.length_replicate]
    exact Nat.zero_add _

open scoped Classical in
/-- Of one waiter more than there are numbers, one is lost, and stays so when the entry is marked
for which they wait. -/
theorem lost_in_crowd :
    (∀ op ∈ crowd 4294967297 ++ [.ret 0], op.InBounds 1) ∧
    (∃ w work, run 1 (crowd 4294967297 ++ [.ret 0]) = .ok (w, work) ∧
      work.frames.size = 4294967296) ∧
    (frames (Settled (crowd 4294967297 ++ [.ret 0])) (crowd 4294967297 ++ [.ret 0])).length =
      4294967297 ∧
    ¬ ∀ size ops, (∀ op ∈ ops, op.InBounds size) → ∃ w work, run size ops = .ok (w, work) ∧
      work.frames.toList.Perm (frames (Settled ops) ops) := by
  have bounds (n : Nat) : ∀ op ∈ crowd n ++ [.ret 0], op.InBounds 1 := by
    intro op mem
    rcases List.mem_append.mp mem with mem | mem
    · rw [List.eq_of_mem_replicate mem]
      exact ⟨Nat.one_pos, fun _ h ↦ nomatch h⟩
    · rw [List.mem_singleton.mp mem]
      exact Nat.one_pos
  have due (n : Nat) :
      (frames (Settled (crowd n ++ [.ret 0])) (crowd n ++ [.ret 0])).length = n := by
    have settled : Settled (crowd n ++ [.ret 0]) 0 :=
      .marked (List.mem_append_right _ List.mem_cons_self)
    rw [frames_crowd settled, List.length_replicate]
  obtain ⟨w, work, ran, released⟩ := exists_run_crowd_ret 4294967297
  have released : work.frames.size = 4294967296 := released.trans (Nat.min_eq_right (by decide))
  refine ⟨bounds _, ⟨w, work, ran, released⟩, due _, fun all ↦ ?_⟩
  obtain ⟨w', work', ran', perm⟩ := all 1 _ (bounds 4294967297)
  obtain ⟨rfl, rfl⟩ := Prod.mk.inj (Except.ok.inj (ran.symm.trans ran'))
  have length := perm.length_eq
  rw [due, Array.length_toList, released] at length
  exact absurd length (by decide)

end WaitOp

end StackFlow.Packed
