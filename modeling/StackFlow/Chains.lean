/-! # Chains: a list for each index, all of them linked through one array -/

namespace StackFlow

/-- An item of a list, and the number of the link behind it. -/
structure Link (α : Type) where
  item : α
  next? : Option Nat
deriving DecidableEq, Repr

/-- A list for each index. The links are numbered as they were added, and `heads` holds the number
of each list's first one. A link leads only to one that was there before it, so no list runs in a
circle. -/
structure Chains (α : Type) where
  heads : Array (Option Nat)
  links : Array (Link α)
  heads_lt : ∀ i, some i ∈ heads → i < links.size
  next_lt : ∀ i (l : Link α), links[i]? = some l → ∀ j ∈ l.next?, j < i
deriving DecidableEq, Repr

namespace Chains

variable {α : Type}

/-- An empty list for each index below a size. -/
def empty (size : Nat) : Chains α where
  heads := Array.replicate size none
  links := #[]
  heads_lt := by simp
  next_lt := by simp

/-- The number of lists. -/
def size (c : Chains α) : Nat := c.heads.size

/-- The items from a link on. -/
def itemsFrom (c : Chains α) (first? : Option Nat) : List α :=
  match first? with
  | none => []
  | some i =>
    match _h : c.links[i]? with
    | none => []
    | some l => l.item :: c.itemsFrom l.next?
termination_by first?.elim 0 (· + 1)
decreasing_by
  cases hn : l.next? with
  | none => exact Nat.succ_pos i
  | some j => exact Nat.succ_lt_succ (c.next_lt i l _h j hn)

/-- The first link of the list at an index. -/
def head? (c : Chains α) (i : Nat) : Option Nat := c.heads[i]?.join

/-- The list at an index. -/
def items (c : Chains α) (i : Nat) : List α := c.itemsFrom (c.head? i)

theorem head?_lt (c : Chains α) {i j : Nat} (h : c.head? i = some j) : j < c.links.size := by
  unfold head? at h
  exact c.heads_lt j (Array.mem_of_getElem? (Option.join_eq_some_iff.mp h))

/-- Empties the list at an index. Its links stay where they are. -/
def clear (c : Chains α) (i : Nat) : Chains α where
  heads := c.heads.set! i none
  links := c.links
  heads_lt := by
    intro j h
    rw [Array.set!_eq_setIfInBounds] at h
    exact c.heads_lt j ((Array.mem_or_eq_of_mem_setIfInBounds h).resolve_right nofun)
  next_lt := c.next_lt

/-- Puts an item in front of the list at an index, as a link that goes by some number from then
on. The link added last has the next number, which is no older link's. -/
def addAs (c : Chains α) (i : Nat) (x : α) (k : Nat) (hk : k ≤ c.links.size) : Chains α where
  heads := c.heads.set! i (some k)
  links := c.links.push ⟨x, c.head? i⟩
  heads_lt := by
    intro j h
    rw [Array.set!_eq_setIfInBounds] at h
    rw [Array.size_push]
    rcases Array.mem_or_eq_of_mem_setIfInBounds h with h | h
    · exact Nat.lt_succ_of_lt (c.heads_lt j h)
    · cases h
      exact Nat.lt_succ_of_le hk
  next_lt := by
    intro k l hl j hj
    rw [Array.getElem?_push] at hl
    split at hl
    · next hk =>
      cases hl
      exact hk ▸ c.head?_lt hj
    · exact c.next_lt k l hl j hj

/-- Puts an item in front of the list at an index, under the next number. -/
def add (c : Chains α) (i : Nat) (x : α) : Chains α :=
  c.addAs i x c.links.size (Nat.le_refl _)

theorem addAs_eq_add (c : Chains α) (i : Nat) (x : α) {k : Nat} (hk : k ≤ c.links.size)
    (next : k = c.links.size) : c.addAs i x k hk = c.add i x := by
  subst next
  rfl

@[simp] theorem size_empty (n : Nat) : (empty n : Chains α).size = n := Array.size_replicate

@[simp] theorem size_clear (c : Chains α) (i : Nat) : (c.clear i).size = c.size := by
  simp [size, clear]

@[simp] theorem size_addAs (c : Chains α) (i : Nat) (x : α) {k : Nat} (hk : k ≤ c.links.size) :
    (c.addAs i x k hk).size = c.size := by
  simp [size, addAs]

@[simp] theorem size_add (c : Chains α) (i : Nat) (x : α) : (c.add i x).size = c.size :=
  c.size_addAs i x _

@[simp] theorem itemsFrom_none (c : Chains α) : c.itemsFrom none = [] := by
  rw [itemsFrom]

theorem itemsFrom_some (c : Chains α) {i : Nat} {l : Link α} (h : c.links[i]? = some l) :
    c.itemsFrom (some i) = l.item :: c.itemsFrom l.next? := by
  rw [itemsFrom]
  split
  · next h' => rw [h] at h'; cases h'
  · next h' => rw [h] at h'; cases h'; rfl

/-- Clearing cuts a list off at its head and leaves the links alone. -/
theorem itemsFrom_clear (c : Chains α) (i : Nat) (first? : Option Nat) :
    (c.clear i).itemsFrom first? = c.itemsFrom first? := by
  fun_induction itemsFrom c first? with
  | case1 => exact itemsFrom_none _
  | case2 j h =>
    rw [itemsFrom]
    split
    · rfl
    · next h' => rw [clear, h] at h'; cases h'
  | case3 j l h ih =>
    have same : (c.clear i).links[j]? = some l := h
    rw [itemsFrom_some _ same, ih]

/-- A new link is in none of the lists that were there. -/
theorem itemsFrom_addAs (c : Chains α) (i : Nat) (x : α) {k : Nat} (hk : k ≤ c.links.size)
    {first? : Option Nat} (hf : ∀ j ∈ first?, j < c.links.size) :
    (c.addAs i x k hk).itemsFrom first? = c.itemsFrom first? := by
  fun_induction itemsFrom c first? with
  | case1 => exact itemsFrom_none _
  | case2 j h => exact absurd (hf j rfl) (Nat.not_lt_of_le (Array.getElem?_eq_none_iff.mp h))
  | case3 j l h ih =>
    have hj := hf j rfl
    have same : (c.addAs i x k hk).links[j]? = some l := by
      rw [addAs, Array.getElem?_push_lt hj, ← Array.getElem?_eq_getElem hj, h]
    rw [itemsFrom_some _ same, ih fun k hk ↦ Nat.lt_trans (c.next_lt j l h k hk) hj]

theorem head?_addAs (c : Chains α) {i k : Nat} (x : α) (hi : i < c.size)
    (hk : k ≤ c.links.size) : (c.addAs i x k hk).head? i = some k := by
  unfold size at hi
  simp [head?, addAs, hi]

/-- Under a number that is taken, a new link brings up the link that has the number instead. -/
theorem items_addAs_of_lt (c : Chains α) {i k : Nat} (x : α) (hi : i < c.size)
    (hk : k ≤ c.links.size) (taken : k < c.links.size) :
    (c.addAs i x k hk).items i = c.itemsFrom (some k) := by
  rw [items, c.head?_addAs x hi hk]
  exact c.itemsFrom_addAs i x hk fun j hj ↦ Option.some.inj hj ▸ taken

@[simp] theorem items_empty (n i : Nat) : (empty n : Chains α).items i = [] := by
  by_cases h : i < n <;> simp [items, head?, empty, h]

theorem items_of_size_le (c : Chains α) {i : Nat} (h : c.size ≤ i) : c.items i = [] := by
  have head : c.head? i = none := by rw [head?, Array.getElem?_eq_none h]; rfl
  rw [items, head, itemsFrom_none]

theorem items_clear (c : Chains α) (i j : Nat) :
    (c.clear i).items j = if j = i then [] else c.items j := by
  rw [items, itemsFrom_clear]
  by_cases h : j = i
  · have head : (c.clear i).head? j = none := by
      by_cases hi : i < c.heads.size <;> simp [head?, clear, h, hi]
    rw [if_pos h, head, itemsFrom_none]
  · have head : (c.clear i).head? j = c.head? j := by simp [head?, clear, Ne.symm h]
    rw [if_neg h, head, items]

theorem items_add (c : Chains α) (i : Nat) (x : α) (j : Nat) :
    (c.add i x).items j = if j = i ∧ i < c.size then x :: c.items j else c.items j := by
  have old (k : Nat) : (c.add i x).itemsFrom (c.head? k) = c.items k :=
    c.itemsFrom_addAs i x _ fun _ h ↦ c.head?_lt h
  by_cases h : j = i ∧ i < c.size
  · have head : (c.add i x).head? j = some c.links.size := by
      obtain ⟨rfl, hj⟩ := h
      exact c.head?_addAs x hj _
    have link : (c.add i x).links[c.links.size]? = some ⟨x, c.head? i⟩ := by simp [add, addAs]
    rw [if_pos h, items, head, itemsFrom_some _ link, old, h.1]
  · have head : (c.add i x).head? j = c.head? j := by
      unfold size at h
      by_cases hj : j = i
      · simp_all [head?, add, addAs]
      · simp [head?, add, addAs, Ne.symm hj]
    rw [if_neg h, items, head, old]

/-! ## Sums over all lists -/

/-- The sum of the values of a function below a bound. -/
def sumBelow (f : Nat → Nat) : Nat → Nat
  | 0 => 0
  | n + 1 => sumBelow f n + f n

/-- A sum over the lists. -/
def total (measure : List α → Nat) (c : Chains α) : Nat :=
  sumBelow (fun i ↦ measure (c.items i)) c.size

@[simp] theorem sumBelow_zero (n : Nat) : sumBelow (fun _ ↦ 0) n = 0 := by
  induction n with
  | zero => rfl
  | succ n ih => exact ih

theorem sumBelow_congr {f g : Nat → Nat} {n : Nat} (h : ∀ i < n, f i = g i) :
    sumBelow f n = sumBelow g n := by
  induction n with
  | zero => rfl
  | succ n ih =>
    rw [sumBelow, sumBelow, ih fun i hi ↦ h i (Nat.lt_succ_of_lt hi), h n (Nat.lt_succ_self n)]

/-- A sum changes by as much as its only term that does. -/
theorem sumBelow_change {f g : Nat → Nat} (n : Nat) {e : Nat} (h : ∀ i, i ≠ e → g i = f i) :
    sumBelow g n + (if e < n then f e else 0) = sumBelow f n + (if e < n then g e else 0) := by
  induction n with
  | zero => rfl
  | succ n ih =>
    simp only [sumBelow]
    rcases Nat.lt_trichotomy e n with hlt | rfl | hgt
    · have := h n (Nat.ne_of_gt hlt)
      simp only [hlt, Nat.lt_succ_of_lt hlt, if_true] at ih ⊢
      omega
    · simp only [Nat.lt_irrefl, Nat.lt_succ_self, if_true, if_false] at ih ⊢
      omega
    · have := h n (Nat.ne_of_lt hgt)
      simp only [Nat.not_lt_of_lt hgt, Nat.not_lt_of_le (Nat.succ_le_of_lt hgt), if_false] at ih ⊢
      omega

/-- Clearing a list takes away what it counts for. -/
theorem total_clear {measure : List α → Nat} (nil : measure [] = 0) (c : Chains α) (i : Nat) :
    (c.clear i).total measure + measure (c.items i) = c.total measure := by
  have change := sumBelow_change c.size (e := i) (f := fun j ↦ measure (c.items j))
    (g := fun j ↦ measure ((c.clear i).items j)) fun j hj ↦ by rw [items_clear, if_neg hj]
  simp only [items_clear, if_true, nil] at change
  simp only [total, size_clear, items_clear]
  by_cases h : i < c.size
  · simpa only [h, if_true, Nat.add_zero] using change
  · rw [c.items_of_size_le (Nat.le_of_not_lt h), nil]
    simpa only [h, if_false, Nat.add_zero] using change

/-- An item adds to the sum what it adds to its list. -/
theorem total_add (measure : List α → Nat) (c : Chains α) {i : Nat} (x : α) (hi : i < c.size) :
    (c.add i x).total measure + measure (c.items i) =
      c.total measure + measure (x :: c.items i) := by
  have change := sumBelow_change c.size (e := i) (f := fun j ↦ measure (c.items j))
    (g := fun j ↦ measure ((c.add i x).items j)) fun j hj ↦ by
      rw [items_add, if_neg fun h ↦ hj h.1]
  simpa only [hi, if_true, items_add, and_self, total, size_add] using change

theorem add_of_size_le (c : Chains α) {i : Nat} (x : α) (h : c.size ≤ i) (j : Nat) :
    (c.add i x).items j = c.items j := by
  rw [items_add, if_neg fun hj ↦ Nat.not_le_of_lt hj.2 h]

/-- An item adds to the sum at most what it adds to a list. -/
theorem total_add_le {measure : List α → Nat} {n : Nat} (c : Chains α) (i : Nat) {x : α}
    (h : ∀ xs, measure (x :: xs) ≤ measure xs + n) :
    (c.add i x).total measure ≤ c.total measure + n := by
  by_cases hi : i < c.size
  · have added := c.total_add measure x hi
    have item := h (c.items i)
    omega
  · have same : (c.add i x).total measure = c.total measure := by
      simp only [total, size_add, c.add_of_size_le x (Nat.le_of_not_lt hi)]
    omega

end Chains

end StackFlow
