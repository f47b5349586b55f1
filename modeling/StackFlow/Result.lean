/-! # Results of computations that can fail -/

namespace StackFlow

/-- Results can be compared. -/
instance instDecidableEqResult {ε α : Type} [DecidableEq ε] [DecidableEq α] :
    DecidableEq (Except ε α)
  | .ok a, .ok b => decidable_of_iff (a = b) ⟨congrArg _, fun h ↦ Except.ok.inj h⟩
  | .error d, .error e => decidable_of_iff (d = e) ⟨congrArg _, fun h ↦ Except.error.inj h⟩
  | .ok _, .error _ => .isFalse fun h ↦ nomatch h
  | .error _, .ok _ => .isFalse fun h ↦ nomatch h

theorem bind_eq_ok {ε α β : Type} {x : Except ε α} {g : α → Except ε β} {b : β} :
    x >>= g = .ok b ↔ ∃ a, x = .ok a ∧ g a = .ok b := by
  cases x with
  | ok a =>
    constructor
    · exact fun h ↦ ⟨a, rfl, h⟩
    · rintro ⟨_, h, hb⟩
      cases h
      exact hb
  | error e =>
    constructor
    · intro h
      change Except.error e = Except.ok b at h
      cases h
    · rintro ⟨_, h, _⟩
      cases h

theorem map_eq_ok {ε α β : Type} {x : Except ε α} {g : α → β} {b : β} :
    x.map g = .ok b ↔ ∃ a, x = .ok a ∧ g a = b := by
  cases x with
  | ok a => simp [Except.map]
  | error e => simp [Except.map]

theorem mapError_eq_ok {ε δ α : Type} {x : Except ε α} {g : ε → δ} {a : α} :
    x.mapError g = .ok a ↔ x = .ok a := by
  cases x with
  | ok b =>
    constructor
    · exact fun h ↦ congrArg Except.ok (Except.ok.inj h)
    · exact fun h ↦ congrArg Except.ok (Except.ok.inj h)
  | error e =>
    constructor
    · intro h
      change Except.error (g e) = Except.ok a at h
      cases h
    · intro h
      cases h

theorem mapError_eq_error {ε δ α : Type} {x : Except ε α} {g : ε → δ} {d : δ} :
    x.mapError g = .error d ↔ ∃ e, x = .error e ∧ g e = d := by
  cases x with
  | ok b =>
    constructor
    · intro h
      change Except.ok b = Except.error d at h
      cases h
    · rintro ⟨_, h, _⟩
      cases h
  | error e =>
    constructor
    · exact fun h ↦ ⟨e, rfl, Except.error.inj h⟩
    · rintro ⟨_, h, hd⟩
      cases h
      exact congrArg Except.error hd

theorem bind_eq_error {ε α β : Type} {x : Except ε α} {g : α → Except ε β} {e : ε} :
    x >>= g = .error e ↔ x = .error e ∨ ∃ a, x = .ok a ∧ g a = .error e := by
  cases x with
  | ok a =>
    constructor
    · exact fun h ↦ .inr ⟨a, rfl, h⟩
    · rintro (h | ⟨_, h, hb⟩)
      · cases h
      · cases h
        exact hb
  | error e' =>
    constructor
    · intro h
      change Except.error e' = Except.error e at h
      cases h
      exact .inl rfl
    · rintro (h | ⟨_, h, _⟩)
      · cases h
        rfl
      · cases h

end StackFlow
