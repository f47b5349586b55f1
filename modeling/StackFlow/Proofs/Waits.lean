import StackFlow.Check.Waits

/-!
# What releasing and parking keep

A waiter is parked at an entry until the entry is known to return.  The lemmas
here state, for `Waits.release` and `Waits.wait` alike, that nothing is lost on
the way (`Waits.Keeps`) and that nothing comes up that was not asked for
(`release_induct`, `wait_induct`).  After them nobody unfolds the two.
-/

namespace StackFlow.Check

namespace Worklist

theorem toList_push (w : Worklist) (f : Frame) :
    (w.push f).frames.toList = w.frames.toList ++ [f] :=
  Array.toList_push

theorem toList_pushAll (w : Worklist) (fs : List Frame) :
    (w.pushAll fs).frames.toList = w.frames.toList ++ fs := by
  induction fs generalizing w with
  | nil => exact (List.append_nil _).symm
  | cons f fs ih =>
    have h := ih (w.push f)
    rwa [toList_push, List.append_assoc] at h

@[simp] theorem mem_push {w : Worklist} {f g : Frame} :
    g ∈ (w.push f).frames ↔ g ∈ w.frames ∨ g = f := by
  simp [push]

@[simp] theorem mem_pushAll {w : Worklist} {fs : List Frame} {g : Frame} :
    g ∈ (w.pushAll fs).frames ↔ g ∈ w.frames ∨ g ∈ fs := by
  rw [← Array.mem_toList_iff, toList_pushAll, List.mem_append, Array.mem_toList_iff]

end Worklist

/-- A waiter is a frame with one property or an entry with another. -/
def Waiter.Meets (P : Nat → Prop) (Q : Frame → Prop) : Waiter → Prop
  | .resume f => Q f
  | .entry e => P e

theorem Waiter.mem_filterMap_frame? {ws : List Waiter} {f : Frame} :
    f ∈ ws.filterMap Waiter.frame? ↔ .resume f ∈ ws := by
  simp only [List.mem_filterMap]
  constructor
  · rintro ⟨x, hx, hf⟩
    cases x <;> simp_all [Waiter.frame?]
  · exact fun h ↦ ⟨_, h, rfl⟩

theorem Waiter.mem_filterMap_entry? {ws : List Waiter} {e : Nat} :
    e ∈ ws.filterMap Waiter.entry? ↔ .entry e ∈ ws := by
  simp only [List.mem_filterMap]
  constructor
  · rintro ⟨x, hx, he⟩
    cases x with
    | resume f => cases he
    | entry d =>
      cases he
      exact hx
  · exact fun h ↦ ⟨_, h, rfl⟩

/-- The entries that a release turns to next: those among the waiters, and then the rest. -/
theorem Waiter.mem_entries_append {ws : List Waiter} {rest : List Nat} {e : Nat} :
    e ∈ (ws.filterMap Waiter.entry?).reverse ++ rest ↔ .entry e ∈ ws ∨ e ∈ rest := by
  rw [List.mem_append, List.mem_reverse, mem_filterMap_entry?]

namespace Waits

/-- An entry is known to return. -/
def Returning (w : Waits) (e : Nat) : Prop := w.returning.contains e = true

@[simp] theorem not_returning_empty (size e : Nat) : ¬ (empty size).Returning e := by
  simp [Returning, empty]

@[simp] theorem parkedAt_empty (size o : Nat) : (empty size).parkedAt o = [] :=
  Chains.items_empty size o

@[simp] theorem suspended_empty (size : Nat) : (empty size).suspended = 0 := by
  simp [suspended, Chains.total, empty]

theorem parkedAt_mark (w : Waits) (e o : Nat) :
    (w.mark e).parkedAt o = if o = e then [] else w.parkedAt o :=
  w.parked.items_clear e o

theorem mem_parkedAt_mark {w : Waits} {e o : Nat} {x : Waiter} :
    x ∈ (w.mark e).parkedAt o ↔ o ≠ e ∧ x ∈ w.parkedAt o := by
  rw [parkedAt_mark]
  split <;> simp_all

theorem parkedAt_park {w : Waits} {e : Nat} {x : Waiter} (he : e < w.parked.size) (o : Nat) :
    (w.park e x).parkedAt o = if o = e then x :: w.parkedAt o else w.parkedAt o := by
  have items := w.parked.items_add e x o
  simp only [he, and_true] at items
  exact items

theorem mem_parkedAt_park {w : Waits} {e o : Nat} {x y : Waiter} (he : e < w.parked.size) :
    y ∈ (w.park e x).parkedAt o ↔ y ∈ w.parkedAt o ∨ (o = e ∧ y = x) := by
  rw [parkedAt_park he]
  split <;> simp_all [or_comm]

/-- The lists are as many as there are offsets, the entries in them are offsets, and no list is
left where the entry returns. -/
structure Fits (size : Nat) (w : Waits) : Prop where
  bound : w.returning.bound = size
  parked : w.parked.size = size
  entry_lt : ∀ o e, .entry e ∈ w.parkedAt o → e < size
  settled : ∀ o, w.Returning o → w.parkedAt o = []

theorem fits_empty (size : Nat) : (empty size).Fits size where
  bound := rfl
  parked := Chains.size_empty size
  entry_lt := by simp
  settled := by simp

variable {size : Nat} {w : Waits} {work : Worklist}

theorem Fits.not_parked (hw : w.Fits size) {o : Nat} (ho : w.Returning o) (x : Waiter) :
    x ∉ w.parkedAt o := by
  rw [hw.settled o ho]
  exact List.not_mem_nil

theorem Fits.returning_mark (hw : w.Fits size) {e o : Nat} (he : e < size) :
    (w.mark e).Returning o ↔ w.Returning o ∨ o = e := by
  simp [Returning, mark, IndexSet.contains_insert, hw.bound, he]

theorem Fits.mark (hw : w.Fits size) {e : Nat} (he : e < size) : (w.mark e).Fits size where
  bound := by rw [Waits.mark, IndexSet.bound_insert, hw.bound]
  parked := by simp [Waits.mark, hw.parked]
  entry_lt := fun o d h ↦ hw.entry_lt o d (mem_parkedAt_mark.mp h).2
  settled := by
    intro o ho
    rw [parkedAt_mark]
    split
    · rfl
    · next hne => exact hw.settled o (((hw.returning_mark he).mp ho).resolve_right hne)

theorem Fits.park (hw : w.Fits size) {e : Nat} {x : Waiter} (he : e < size)
    (hx : x.Meets (· < size) fun _ ↦ True) (hn : ¬ w.Returning e) : (w.park e x).Fits size where
  bound := hw.bound
  parked := by simp [Waits.park, hw.parked]
  entry_lt := by
    intro o d hd
    rcases (mem_parkedAt_park (hw.parked ▸ he)).mp hd with hd | ⟨_, rfl⟩
    · exact hw.entry_lt o d hd
    · exact hx
  settled := by
    intro o ho
    have hne : o ≠ e := fun h ↦ hn (h ▸ ho)
    rw [parkedAt_park (hw.parked ▸ he), if_neg hne]
    exact hw.settled o ho

/-- The entries that a release turns to next are entries of the code. -/
theorem Fits.lt_of_mem_entries_append (hw : w.Fits size) {e : Nat} {rest : List Nat}
    (he : ∀ d ∈ e :: rest, d < size) :
    ∀ d ∈ ((w.parkedAt e).filterMap Waiter.entry?).reverse ++ rest, d < size := by
  intro d hd
  rcases Waiter.mem_entries_append.mp hd with hd | hd
  · exact hw.entry_lt e d hd
  · exact he d (List.mem_cons_of_mem e hd)

/-- Between two moments no entry ceases to return, and no frame and no entry is lost: what was
parked still is, or has been released. -/
structure Keeps (w : Waits) (work : Worklist) (w' : Waits) (work' : Worklist) : Prop where
  returning : ∀ e, w.Returning e → w'.Returning e
  entry : ∀ o e, .entry e ∈ w.parkedAt o → .entry e ∈ w'.parkedAt o ∨ w'.Returning e
  resume : ∀ o f, .resume f ∈ w.parkedAt o → .resume f ∈ w'.parkedAt o ∨ f ∈ work'.frames
  frames : ∀ f ∈ work.frames, f ∈ work'.frames

theorem Keeps.refl (w : Waits) (work : Worklist) : Keeps w work w work where
  returning := fun _ h ↦ h
  entry := fun _ _ h ↦ .inl h
  resume := fun _ _ h ↦ .inl h
  frames := fun _ h ↦ h

/-! ## Releasing -/

theorem release_of_returning {e : Nat} (h : w.Returning e) (rest : List Nat) (work : Worklist) :
    w.release (e :: rest) work = w.release rest work := by
  rw [release]
  exact if_pos h

theorem release_of_not_returning {e : Nat} (h : ¬ w.Returning e) (rest : List Nat)
    (work : Worklist) :
    w.release (e :: rest) work =
      (w.mark e).release (((w.parkedAt e).filterMap Waiter.entry?).reverse ++ rest)
        (work.pushAll ((w.parkedAt e).filterMap Waiter.frame?)) := by
  rw [release]
  exact if_neg h

theorem Fits.release {entries : List Nat} (hw : w.Fits size) (he : ∀ e ∈ entries, e < size) :
    (w.release entries work).1.Fits size := by
  fun_induction Waits.release entries w work with
  | case1 => exact hw
  | case2 w work e rest _ ih => exact ih hw fun d hd ↦ he d (List.mem_cons_of_mem _ hd)
  | case3 w work e rest _ ih =>
    exact ih (hw.mark (he e List.mem_cons_self)) (hw.lt_of_mem_entries_append he)

theorem keeps_release {entries : List Nat} (hw : w.Fits size) (he : ∀ e ∈ entries, e < size) :
    Keeps w work (w.release entries work).1 (w.release entries work).2 ∧
      ∀ e ∈ entries, (w.release entries work).1.Returning e := by
  fun_induction Waits.release entries w work with
  | case1 => exact ⟨.refl _ _, by simp⟩
  | case2 w work e rest known ih =>
    obtain ⟨hk, hr⟩ := ih hw fun d hd ↦ he d (List.mem_cons_of_mem _ hd)
    refine ⟨hk, fun d hd ↦ ?_⟩
    rcases List.mem_cons.mp hd with rfl | hd
    · exact hk.returning d known
    · exact hr d hd
  | case3 w work e rest _ ih =>
    have hlt := he e List.mem_cons_self
    obtain ⟨hk, hr⟩ := ih (hw.mark hlt) (hw.lt_of_mem_entries_append he)
    refine ⟨⟨fun d hd ↦ ?_, fun o d hd ↦ ?_, fun o f hf ↦ ?_, fun f hf ↦ ?_⟩, fun d hd ↦ ?_⟩
    · exact hk.returning d ((hw.returning_mark hlt).mpr (.inl hd))
    · by_cases ho : o = e
      · exact .inr (hr d (Waiter.mem_entries_append.mpr (.inl (ho ▸ hd))))
      · exact hk.entry o d (mem_parkedAt_mark.mpr ⟨ho, hd⟩)
    · by_cases ho : o = e
      · refine .inr (hk.frames f (Worklist.mem_pushAll.mpr (.inr ?_)))
        exact Waiter.mem_filterMap_frame?.mpr (ho ▸ hf)
      · exact hk.resume o f (mem_parkedAt_mark.mpr ⟨ho, hf⟩)
    · exact hk.frames f (Worklist.mem_pushAll.mpr (.inl hf))
    · rcases List.mem_cons.mp hd with rfl | hd
      · exact hk.returning d ((hw.returning_mark hlt).mpr (.inr rfl))
      · exact hr d (Waiter.mem_entries_append.mpr (.inr hd))

/-- Properties of the entries that return and of the frames at work hold on after a release, if
what is parked at an entry with the property has it too. -/
theorem release_induct {entries : List Nat} {P : Nat → Prop} {Q : Frame → Prop}
    (hw : w.Fits size) (he : ∀ e ∈ entries, e < size ∧ P e)
    (hp : ∀ o, P o → ∀ x ∈ w.parkedAt o, x.Meets P Q) (hr : ∀ e, w.Returning e → P e)
    (hq : ∀ f ∈ work.frames, Q f) :
    (∀ e, (w.release entries work).1.Returning e → P e) ∧
      (∀ f ∈ (w.release entries work).2.frames, Q f) ∧
      ∀ o, ∀ x ∈ (w.release entries work).1.parkedAt o, x ∈ w.parkedAt o := by
  fun_induction Waits.release entries w work with
  | case1 => exact ⟨hr, hq, fun _ _ h ↦ h⟩
  | case2 w work e rest _ ih =>
    exact ih hw (fun d hd ↦ he d (List.mem_cons_of_mem _ hd)) hp hr hq
  | case3 w work e rest _ ih =>
    obtain ⟨hlt, hPe⟩ := he e List.mem_cons_self
    obtain ⟨h1, h2, h3⟩ := ih (hw.mark hlt)
      (fun d hd ↦ by
        rcases Waiter.mem_entries_append.mp hd with hd | hd
        · exact ⟨hw.entry_lt e d hd, hp e hPe _ hd⟩
        · exact he d (List.mem_cons_of_mem _ hd))
      (fun o ho x hx ↦ hp o ho x (mem_parkedAt_mark.mp hx).2)
      (fun d hd ↦ by
        rcases (hw.returning_mark hlt).mp hd with hd | rfl
        · exact hr d hd
        · exact hPe)
      (fun f hf ↦ by
        rcases Worklist.mem_pushAll.mp hf with hf | hf
        · exact hq f hf
        · exact hp e hPe _ (Waiter.mem_filterMap_frame?.mp hf))
    exact ⟨h1, h2, fun o x hx ↦ (mem_parkedAt_mark.mp (h3 o x hx)).2⟩

/-! ## Waiting -/

theorem Fits.wait {e : Nat} {x : Waiter} (hw : w.Fits size) (he : e < size)
    (hx : x.Meets (· < size) fun _ ↦ True) : (w.wait e x work).1.Fits size := by
  unfold Waits.wait
  split
  · cases x with
    | resume f => exact hw
    | entry d => exact hw.release (by simpa [Waiter.Meets] using hx)
  · next hn => exact hw.park he hx hn

/-- Waiting loses nothing, and the waiter itself is parked or has been released. -/
theorem keeps_wait {e : Nat} {x : Waiter} (hw : w.Fits size) (he : e < size)
    (hx : x.Meets (· < size) fun _ ↦ True) :
    Keeps w work (w.wait e x work).1 (w.wait e x work).2 ∧
      (x ∈ (w.wait e x work).1.parkedAt e ∨
        x.Meets (w.wait e x work).1.Returning (· ∈ (w.wait e x work).2.frames)) := by
  unfold Waits.wait
  split
  · cases x with
    | resume f =>
      refine ⟨⟨fun _ h ↦ h, fun _ _ h ↦ .inl h, fun _ _ h ↦ .inl h, fun g hg ↦ ?_⟩, .inr ?_⟩
      · exact Worklist.mem_push.mpr (.inl hg)
      · exact Worklist.mem_push.mpr (.inr rfl)
    | entry d =>
      have hd : ∀ e ∈ [d], e < size := by simpa [Waiter.Meets] using hx
      obtain ⟨hk, hr⟩ : Keeps w work (w.release [d] work).1 (w.release [d] work).2 ∧ _ :=
        keeps_release hw hd
      exact ⟨hk, .inr (hr d List.mem_cons_self)⟩
  · have hmem {o : Nat} {y : Waiter} := mem_parkedAt_park (w := w) (o := o) (x := x) (y := y)
      (hw.parked ▸ he)
    refine ⟨⟨fun _ h ↦ h, fun o d hd ↦ ?_, fun o f hf ↦ ?_, fun _ h ↦ h⟩, .inl ?_⟩
    · exact .inl (hmem.mpr (.inl hd))
    · exact .inl (hmem.mpr (.inl hf))
    · exact hmem.mpr (.inr ⟨rfl, rfl⟩)

theorem Fits.suspended_park {e : Nat} (hw : w.Fits size) (he : e < size) (x : Waiter) :
    (w.park e x).suspended = w.suspended + ([x].filterMap Waiter.frame?).length := by
  have added := w.parked.total_add (fun ws ↦ (ws.filterMap Waiter.frame?).length) x
    (hw.parked ▸ he)
  rw [← List.singleton_append, List.filterMap_append, List.length_append] at added
  simp only [suspended, Waits.park]
  omega

/-- A waiter that is a frame is one more at work or waiting. -/
theorem size_wait {e : Nat} (hw : w.Fits size) (he : e < size) (x : Waiter) (work : Worklist) :
    (w.wait e x work).2.frames.size + (w.wait e x work).1.suspended =
      work.frames.size + w.suspended + ([x].filterMap Waiter.frame?).length := by
  unfold Waits.wait
  split
  · cases x with
    | resume f =>
      simp only [Worklist.size_push, Waiter.frame?, List.filterMap_cons, List.filterMap_nil,
        List.length_singleton]
      omega
    | entry d => simp only [size_release, Waiter.frame?, List.filterMap_cons, List.filterMap_nil,
        List.length_nil, Nat.add_zero]
  · rw [hw.suspended_park he, Nat.add_assoc]

/-- Where an entry is still not known to return after a release, the same waiters are parked. -/
theorem parkedAt_release {entries : List Nat} (hw : w.Fits size) (he : ∀ e ∈ entries, e < size)
    {o : Nat} (ho : ¬ (w.release entries work).1.Returning o) :
    (w.release entries work).1.parkedAt o = w.parkedAt o := by
  fun_induction Waits.release entries w work with
  | case1 => rfl
  | case2 w work e rest _ ih => exact ih hw (fun d hd ↦ he d (List.mem_cons_of_mem _ hd)) ho
  | case3 w work e rest _ ih =>
    have hlt := he e List.mem_cons_self
    have bounds := hw.lt_of_mem_entries_append he
    have hne : o ≠ e := by
      rintro rfl
      exact ho ((keeps_release (hw.mark hlt) bounds).1.returning o
        ((hw.returning_mark hlt).mpr (.inr rfl)))
    rw [ih (hw.mark hlt) bounds ho, parkedAt_mark, if_neg hne]

/-- The same for a wait, but for the waiter itself. -/
theorem parkedAt_wait {e : Nat} {x : Waiter} (hw : w.Fits size) (he : e < size)
    (hx : x.Meets (· < size) fun _ ↦ True) {o : Nat} (ho : ¬ (w.wait e x work).1.Returning o) :
    (w.wait e x work).1.parkedAt o = if o = e then x :: w.parkedAt o else w.parkedAt o := by
  by_cases known : w.Returning e
  · have hne : o ≠ e := fun h ↦ ho ((keeps_wait hw he hx).1.returning o (h ▸ known))
    have known : w.returning.contains e = true := known
    rw [if_neg hne]
    simp only [Waits.wait, known, if_true] at ho ⊢
    cases x with
    | resume f => rfl
    | entry d => exact parkedAt_release hw (by simpa [Waiter.Meets] using hx) ho
  · have known : ¬ w.returning.contains e = true := known
    simp only [Waits.wait, known]
    exact parkedAt_park (hw.parked ▸ he) o

/-- Properties of the entries that return and of the frames at work hold on after a wait, as in
`release_induct`. -/
theorem wait_induct {e : Nat} {x : Waiter} {P : Nat → Prop} {Q : Frame → Prop}
    (hw : w.Fits size) (he : e < size) (hx : x.Meets (· < size) fun _ ↦ True)
    (hxe : P e → x.Meets P Q) (hp : ∀ o, P o → ∀ y ∈ w.parkedAt o, y.Meets P Q)
    (hr : ∀ d, w.Returning d → P d) (hq : ∀ f ∈ work.frames, Q f) :
    (∀ d, (w.wait e x work).1.Returning d → P d) ∧
      (∀ f ∈ (w.wait e x work).2.frames, Q f) ∧
      ∀ o, ∀ y ∈ (w.wait e x work).1.parkedAt o, y ∈ w.parkedAt o ∨ (o = e ∧ y = x) := by
  unfold Waits.wait
  split
  · next known =>
    have hx' := hxe (hr e known)
    cases x with
    | resume f =>
      refine ⟨hr, fun g hg ↦ ?_, fun _ _ h ↦ .inl h⟩
      rcases Worklist.mem_push.mp hg with hg | rfl
      · exact hq g hg
      · exact hx'
    | entry d =>
      have hd : ∀ e ∈ [d], e < size ∧ P e := by simpa [Waiter.Meets] using ⟨hx, hx'⟩
      obtain ⟨h1, h2, h3⟩ := release_induct hw hd hp hr hq
      exact ⟨h1, h2, fun o y hy ↦ .inl (h3 o y hy)⟩
  · exact ⟨hr, hq, fun o y hy ↦ (mem_parkedAt_park (hw.parked ▸ he)).mp hy⟩

/-! ## Links -/

@[simp] theorem links_release (entries : List Nat) (w : Waits) (work : Worklist) :
    (w.release entries work).1.parked.links = w.parked.links := by
  fun_induction release entries w work with
  | case1 => rfl
  | case2 _ _ _ _ _ ih => exact ih
  | case3 _ _ _ _ _ ih => exact ih

theorem size_links_wait_le (w : Waits) (e : Nat) (x : Waiter) (work : Worklist) :
    (w.wait e x work).1.parked.links.size ≤ w.parked.links.size + 1 := by
  unfold wait
  split
  · cases x with
    | resume f => exact Nat.le_succ _
    | entry d =>
      rw [links_release]
      exact Nat.le_succ _
  · exact Nat.le_of_eq (Array.size_push _)

end Waits

end StackFlow.Check
