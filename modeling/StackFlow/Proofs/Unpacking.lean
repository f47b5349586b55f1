import StackFlow.Packed.Run
import StackFlow.Proofs.Offsets

/-!
# What the tables in words stand for

A frame in words names its call by a number in a table, and it stands for the
frame that the table makes of it (`Frame.unpack`).  So do waiters, work and waits.
What a function in words comes to stands for what the one on numbers comes to,
and where there is room no fault gets in the way: `Agrees` says so of the
functions that may find a violation, and `Waits.release_eq_ok` and
`Waits.wait_eq_ok` of the two that cannot.
-/

namespace StackFlow

/-! ## Chains of other items -/

namespace Chains

variable {α β : Type} {g h : α → β}

/-- The same chains with another item in each link. -/
def map (g : α → β) (c : Chains α) : Chains β where
  heads := c.heads
  links := c.links.map fun l ↦ ⟨g l.item, l.next?⟩
  heads_lt := by simpa using c.heads_lt
  next_lt := by
    intro i l hl
    rw [Array.getElem?_map, Option.map_eq_some_iff] at hl
    obtain ⟨l, hl, rfl⟩ := hl
    exact c.next_lt i l hl

@[simp] theorem size_map (g : α → β) (c : Chains α) : (c.map g).size = c.size := rfl

theorem map_empty (g : α → β) (n : Nat) : (empty n).map g = empty n := by
  simp [map, empty]

theorem map_add (g : α → β) (c : Chains α) (i : Nat) (x : α) :
    (c.add i x).map g = (c.map g).add i (g x) := by
  simp [map, add, addAs, head?]

theorem map_congr {c : Chains α} (same : ∀ l ∈ c.links, g l.item = h l.item) :
    c.map g = c.map h := by
  have links : c.links.map (fun l ↦ (⟨g l.item, l.next?⟩ : Link β)) =
      c.links.map fun l ↦ ⟨h l.item, l.next?⟩ :=
    Array.map_congr_left fun l hl ↦ by rw [same l hl]
  simp only [map, links]

theorem itemsFrom_map (g : α → β) (c : Chains α) (first? : Option Nat) :
    (c.map g).itemsFrom first? = (c.itemsFrom first?).map g := by
  fun_induction itemsFrom c first? with
  | case1 => exact itemsFrom_none _
  | case2 i none =>
    rw [itemsFrom]
    split
    · rfl
    · next link =>
      rw [map, Array.getElem?_map, none] at link
      cases link
  | case3 i l link ih =>
    have link : (c.map g).links[i]? = some ⟨g l.item, l.next?⟩ := by
      rw [map, Array.getElem?_map, link, Option.map_some]
    rw [itemsFrom_some _ link, ih, List.map_cons]

theorem items_map (g : α → β) (c : Chains α) (i : Nat) :
    (c.map g).items i = (c.items i).map g :=
  c.itemsFrom_map g (c.head? i)

end Chains

namespace Packed

variable {calls : Array Call}

/-! ## What is stored -/

def Call.unpack (c : Call) : Check.Call where
  entry := c.entry.toNat
  resume := c.resume.toNat

namespace Frame

/-- The frame that a frame in words stands for, given the calls that have numbers. -/
def unpack (calls : Array Call) (f : Frame) : Check.Frame where
  pc := f.pc.toNat
  height := f.height.toNat
  base := f.base.toNat
  depth := f.depth.toNat
  call? := f.call?.bind fun c ↦ calls[c.toNat]?.map Call.unpack

/-- The outstanding call of the frame, if it has one, is in the table. -/
def Numbered (calls : Array Call) (f : Frame) : Prop := ∀ c ∈ f.call?, c.toNat < calls.size

variable {f : Frame}

theorem numbered_start (calls : Array Call) : Frame.start.Numbered calls := nofun

theorem Numbered.push (h : f.Numbered calls) (c : Call) : f.Numbered (calls.push c) := by
  intro n hn
  rw [Array.size_push]
  exact Nat.lt_succ_of_lt (h n hn)

/-- Further calls change nothing for a frame whose call has its number. -/
theorem Numbered.unpack_push (h : f.Numbered calls) (c : Call) :
    f.unpack (calls.push c) = f.unpack calls := by
  unfold unpack
  cases call : f.call? with
  | none => rfl
  | some n => simp only [Option.bind_some, Array.getElem?_push_lt (h n call),
      Array.getElem?_eq_getElem (h n call)]

theorem Numbered.exists_call (h : f.Numbered calls) {n : UInt32} (call : f.call? = some n) :
    ∃ c, calls[n.toNat]? = some c ∧ (f.unpack calls).call? = some c.unpack := by
  have slot := Array.getElem?_eq_getElem (h n call)
  refine ⟨_, slot, ?_⟩
  rw [unpack, call, Option.bind_some, slot, Option.map_some]

theorem Numbered.call?_unpack_eq_none (h : f.Numbered calls) :
    (f.unpack calls).call? = none ↔ f.call? = none := by
  cases call : f.call? with
  | none => simp [unpack, call]
  | some n =>
    obtain ⟨c, -, same⟩ := h.exists_call call
    simp [same]

end Frame

namespace Waiter

def unpack (calls : Array Call) : Waiter → Check.Waiter
  | .resume f => .resume (f.unpack calls)
  | .entry e => .entry e.toNat

theorem filterMap_frame?_unpack (calls : Array Call) (ws : List Waiter) :
    (ws.map (unpack calls)).filterMap Check.Waiter.frame? =
      (ws.filterMap Waiter.frame?).map (Frame.unpack calls) := by
  rw [List.filterMap_map, List.map_filterMap]
  congr 1
  funext x
  cases x <;> rfl

theorem filterMap_entry?_unpack (calls : Array Call) (ws : List Waiter) :
    (ws.map (unpack calls)).filterMap Check.Waiter.entry? =
      (ws.filterMap Waiter.entry?).map UInt32.toNat := by
  rw [List.filterMap_map, List.map_filterMap]
  congr 1
  funext x
  cases x <;> rfl

end Waiter

namespace Worklist

def unpack (calls : Array Call) (w : Worklist) : Check.Worklist where
  frames := w.frames.map (Frame.unpack calls)
  pushed := w.pushed
  peak := w.peak

theorem unpack_push (calls : Array Call) (w : Worklist) (f : Frame) :
    (w.push f).unpack calls = (w.unpack calls).push (f.unpack calls) := by
  simp [unpack, push, Check.Worklist.push]

theorem unpack_pushAll (calls : Array Call) (w : Worklist) (fs : List Frame) :
    (w.pushAll fs).unpack calls = (w.unpack calls).pushAll (fs.map (Frame.unpack calls)) := by
  induction fs generalizing w with
  | nil => rfl
  | cons f fs ih =>
    rw [List.map_cons]
    exact (ih (w.push f)).trans (congrArg (Check.Worklist.pushAll · _) (unpack_push calls w f))

theorem unpack_pop (calls : Array Call) (w : Worklist) :
    w.pop.unpack calls = (w.unpack calls).pop := by
  simp [unpack, pop, Check.Worklist.pop]

theorem mem_push {w : Worklist} {f g : Frame} :
    g ∈ (w.push f).frames ↔ g ∈ w.frames ∨ g = f := by
  simp [push]

theorem mem_of_mem_pop {w : Worklist} {f : Frame} (h : f ∈ w.pop.frames) : f ∈ w.frames := by
  rw [pop, ← Array.mem_toList_iff, Array.toList_pop] at h
  exact Array.mem_toList_iff.mp (List.dropLast_subset _ h)

theorem mem_pushAll {w : Worklist} {fs : List Frame} {g : Frame} :
    g ∈ (w.pushAll fs).frames ↔ g ∈ w.frames ∨ g ∈ fs := by
  induction fs generalizing w with
  | nil => simp [pushAll]
  | cons f fs ih =>
    have rest := ih (w := w.push f)
    rw [mem_push, or_assoc] at rest
    rwa [List.mem_cons]

end Worklist

/-! ## Waiting and releasing -/

namespace Waits

def unpack (calls : Array Call) (w : Waits) : Check.Waits where
  returning := w.returning
  parked := w.parked.map (Waiter.unpack calls)

/-- A property of the frames at work and of those in links, whether they still wait or have been
released. -/
structure All (P : Frame → Prop) (w : Waits) (work : Worklist) : Prop where
  work : ∀ f ∈ work.frames, P f
  links : ∀ l ∈ w.parked.links, ∀ f ∈ l.item.frame?, P f

variable {size : Nat} {w : Waits} {work : Worklist} {e : UInt32} {P Q : Frame → Prop}

theorem parkedAt_unpack (calls : Array Call) (w : Waits) (e : Nat) :
    (w.unpack calls).parkedAt e = (w.parked.items e).map (Waiter.unpack calls) :=
  w.parked.items_map (Waiter.unpack calls) e

theorem All.mono (all : w.All P work) (h : ∀ f, P f → Q f) : w.All Q work where
  work := fun f hf ↦ h f (all.work f hf)
  links := fun l hl f hf ↦ h f (all.links l hl f hf)

theorem All.push {f : Frame} (all : w.All P work) (hf : P f) : w.All P (work.push f) where
  work := fun _ hg ↦ (Worklist.mem_push.mp hg).elim (all.work _) fun h ↦ h ▸ hf
  links := all.links

theorem All.pop (all : w.All P work) : w.All P work.pop where
  work := fun f hf ↦ all.work f (Worklist.mem_of_mem_pop hf)
  links := all.links

/-- Further calls change nothing for waits and work whose calls have their numbers. -/
theorem All.unpack_push (all : w.All (Frame.Numbered calls) work) (c : Call) :
    w.unpack (calls.push c) = w.unpack calls ∧ work.unpack (calls.push c) = work.unpack calls := by
  have frames : work.frames.map (Frame.unpack (calls.push c)) =
      work.frames.map (Frame.unpack calls) :=
    Array.map_congr_left fun f hf ↦ (all.work f hf).unpack_push c
  have parked : w.parked.map (Waiter.unpack (calls.push c)) =
      w.parked.map (Waiter.unpack calls) := by
    refine Chains.map_congr fun l hl ↦ ?_
    cases item : l.item with
    | resume f =>
      have own : f.Numbered calls := all.links l hl f (by rw [item]; rfl)
      rw [Waiter.unpack, own.unpack_push, Waiter.unpack]
    | entry d => rfl
  exact ⟨by rw [unpack, parked, unpack], by rw [Worklist.unpack, frames, Worklist.unpack]⟩

theorem mem_items {c : Chains Waiter} {x : Waiter} {i : Nat} (h : x ∈ c.items i) :
    ∃ l ∈ c.links, l.item = x := by
  unfold Chains.items at h
  generalize c.head? i = first? at h
  fun_induction Chains.itemsFrom c first? with
  | case1 | case2 => cases h
  | case3 j l link ih =>
    rcases List.mem_cons.mp h with rfl | h
    · exact ⟨l, Array.mem_of_getElem? link, rfl⟩
    · exact ih h

theorem waitersFrom_eq (c : Chains Waiter) {first? : Option Nat}
    (inside : ∀ i ∈ first?, i < c.links.size) :
    waitersFrom c first? = .ok (c.itemsFrom first?) := by
  fun_induction waitersFrom c first? with
  | case1 => rw [Chains.itemsFrom_none]
  | case2 i none =>
    have outside := Array.getElem?_eq_none_iff.mp none
    exact absurd (inside i rfl) (Nat.not_lt_of_le outside)
  | case3 i l link ih =>
    have behind : ∀ j ∈ l.next?, j < c.links.size := fun j hj ↦
      (c.next_lt i l link j hj).trans (inside i rfl)
    rw [ih behind, c.itemsFrom_some link]
    rfl

/-- No link leads out of the table. -/
theorem waitersAt_eq (inside : e.toNat < w.parked.size) :
    w.waitersAt e = .ok (w.parked.items e.toNat) := by
  unfold Chains.size at inside
  refine bind_eq_ok.mpr ⟨_, lookup_of_lt inside, ?_⟩
  have first : w.parked.head? e.toNat = w.parked.heads[e.toNat] := by
    rw [Chains.head?, Array.getElem?_eq_getElem inside, Option.join_some]
  rw [← first]
  exact waitersFrom_eq w.parked fun i hi ↦ w.parked.head?_lt hi

/-- Entries of the code are released without a fault, as on numbers. -/
theorem release_eq_ok {entries : List UInt32} (hw : (w.unpack calls).Fits size)
    (he : ∀ e ∈ entries, e.toNat < size) (all : w.All P work) :
    ∃ w' work', w.release entries work = .ok (w', work') ∧
      (w.unpack calls).release (entries.map UInt32.toNat) (work.unpack calls) =
        (w'.unpack calls, work'.unpack calls) ∧ w'.All P work' := by
  fun_induction Waits.release entries w work with
  | case1 w work => exact ⟨w, work, rfl, by rw [List.map_nil, Check.Waits.release], all⟩
  | case2 w work e rest known ih =>
    have known : (w.unpack calls).Returning e.toNat := known
    rw [List.map_cons, Check.Waits.release_of_returning known]
    exact ih hw (fun d hd ↦ he d (List.mem_cons_of_mem _ hd)) all
  | case3 w work e rest unknown x failed =>
    rw [waitersAt_eq (hw.parked ▸ he e List.mem_cons_self)] at failed
    cases failed
  | case4 w work e rest unknown ws found ih =>
    obtain rfl := waitersAt_eq_ok found
    have unknown : ¬ (w.unpack calls).Returning e.toNat := unknown
    have inside : e.toNat < size := he e List.mem_cons_self
    have entries := Waiter.filterMap_entry?_unpack calls (w.parked.items e.toNat)
    have frames := Waiter.filterMap_frame?_unpack calls (w.parked.items e.toNat)
    rw [← parkedAt_unpack] at entries frames
    have he : ∀ d ∈ (e :: rest).map UInt32.toNat, d < size := List.forall_mem_map.mpr he
    have bounds := hw.lt_of_mem_entries_append he
    rw [entries, ← List.map_reverse, ← List.map_append, List.forall_mem_map] at bounds
    rw [List.map_cons, Check.Waits.release_of_not_returning unknown, entries, frames,
      ← List.map_reverse, ← List.map_append, ← Worklist.unpack_pushAll]
    refine ih (hw.mark inside) bounds ⟨fun f hf ↦ ?_, all.links⟩
    rcases Worklist.mem_pushAll.mp hf with hf | hf
    · exact all.work f hf
    · obtain ⟨x, parked, is⟩ := List.mem_filterMap.mp hf
      obtain ⟨l, link, rfl⟩ := mem_items parked
      exact all.links l link f is

/-- A waiter waits for an entry of the code without a fault, as on numbers, if there is room for
one more link. -/
theorem wait_eq_ok {x : Waiter} (hw : (w.unpack calls).Fits size) (inside : e.toNat < size)
    (hx : ∀ d ∈ x.entry?, d.toNat < size) (room : w.parked.links.size < UInt32.size)
    (all : w.All P work) (own : ∀ f ∈ x.frame?, P f) :
    ∃ w' work', w.wait e x work = .ok (w', work') ∧
      (w.unpack calls).wait e.toNat (x.unpack calls) (work.unpack calls) =
        (w'.unpack calls, work'.unpack calls) ∧ w'.All P work' := by
  by_cases known : w.returning.contains e.toNat = true
  · have known' : (w.unpack calls).returning.contains e.toNat = true := known
    cases x with
    | resume f =>
      refine ⟨w, work.push f, if_pos known, ?_, all.push (own f rfl)⟩
      rw [Worklist.unpack_push]
      exact if_pos known'
    | entry d =>
      have own : ∀ e ∈ [d], e.toNat < size := fun e he ↦ List.mem_singleton.mp he ▸ hx d rfl
      obtain ⟨w', work', released, same, all⟩ := release_eq_ok hw own all
      exact ⟨w', work', (if_pos known).trans released, (if_pos known').trans same, all⟩
  · have known' : ¬ (w.unpack calls).returning.contains e.toNat = true := known
    have inside : e.toNat < w.parked.heads.size := inside.trans_eq hw.parked.symm
    have parks : w.park e x = .ok { w with parked := w.parked.add e.toNat x } := by
      rw [park_of_lt room, lookup_of_lt inside]
      rfl
    refine ⟨{ w with parked := w.parked.add e.toNat x }, work, ?_, ?_, all.work, fun l hl ↦ ?_⟩
    · exact (if_neg known).trans (congrArg (Except.map (·, work)) parks)
    · refine (if_neg known').trans ?_
      rw [Check.Waits.park, unpack, unpack, Chains.map_add]
    · rcases Array.mem_push.mp hl with hl | rfl
      · exact all.links l hl
      · exact own

end Waits

end Packed

end StackFlow
