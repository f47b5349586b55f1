/-! # Displacements: signed numbers in two bytes, the high byte first -/

namespace StackFlow.Displacement

/-- The numbers that two bytes can hold. -/
def Fits (d : Int) : Prop := -32768 ≤ d ∧ d ≤ 32767

instance (d : Int) : Decidable (Fits d) := inferInstanceAs (Decidable (_ ∧ _))

/-- The number in two bytes, in two's complement. -/
def ofBytes (hi lo : UInt8) : Int :=
  if hi.toNat < 128 then hi.toNat * 256 + lo.toNat else hi.toNat * 256 + lo.toNat - 65536

/-- The high byte of a number. -/
def high (d : Int) : UInt8 := UInt8.ofNat (d / 256 % 256).toNat

/-- The low byte of a number. -/
def low (d : Int) : UInt8 := UInt8.ofNat (d % 256).toNat

theorem toNat_high (d : Int) : (high d).toNat = (d / 256 % 256).toNat :=
  UInt8.toNat_ofNat_of_lt (by simp only [UInt8.size]; omega)

theorem toNat_low (d : Int) : (low d).toNat = (d % 256).toNat :=
  UInt8.toNat_ofNat_of_lt (by simp only [UInt8.size]; omega)

theorem fits_ofBytes (hi lo : UInt8) : Fits (ofBytes hi lo) := by
  have := hi.toNat_lt
  have := lo.toNat_lt
  unfold Fits ofBytes
  split <;> omega

@[simp] theorem high_ofBytes (hi lo : UInt8) : high (ofBytes hi lo) = hi := by
  have := hi.toNat_lt
  have := lo.toNat_lt
  apply UInt8.toNat_inj.mp
  rw [toNat_high]
  unfold ofBytes
  split <;> omega

@[simp] theorem low_ofBytes (hi lo : UInt8) : low (ofBytes hi lo) = lo := by
  have := hi.toNat_lt
  have := lo.toNat_lt
  apply UInt8.toNat_inj.mp
  rw [toNat_low]
  unfold ofBytes
  split <;> omega

theorem ofBytes_high_low {d : Int} (h : Fits d) : ofBytes (high d) (low d) = d := by
  unfold Fits at h
  unfold ofBytes
  rw [toNat_high, toNat_low]
  split <;> omega

end StackFlow.Displacement
