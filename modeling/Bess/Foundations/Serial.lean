import Mathlib.Tactic.Ring
import Mathlib.Tactic.Linarith
import Mathlib.Data.Nat.Bitwise
import Mathlib.Data.Int.ModEq

/-!
# Serial numbers

A counter of `w` bits shows a time `t : ℤ` as `BitVec.ofInt w t`. The difference of two
readings, read as a signed number, is the difference of the times as long as it stays
under half the range; shifts and masks of a reading are the readings of the rounded
times.
-/

namespace Serial

/-! ### Rounding -/

/-- The last multiple of `2 ^ s` at or before `t`. -/
def roundDown (s : ℕ) (t : ℤ) : ℤ := t / 2 ^ s * 2 ^ s

/-- The first multiple of `2 ^ s` at or after `t`. -/
def roundUp (s : ℕ) (t : ℤ) : ℤ := if t % 2 ^ s = 0 then t else roundDown s t + 2 ^ s

section

variable (s : ℕ)

theorem two_pow_pos : (0 : ℤ) < 2 ^ s := by positivity

variable (t : ℤ)

include t

theorem roundDown_eq_sub :
  roundDown s t = t - t % 2 ^ s
  := by
  rw [roundDown, Int.emod_def]
  ring

theorem roundDown_le :
  roundDown s t ≤ t
  := by
  rw [roundDown_eq_sub]
  omega

theorem lt_roundDown_add :
  t < roundDown s t + 2 ^ s
  := by
  rw [roundDown_eq_sub]
  omega

theorem dvd_roundDown :
  (2 : ℤ) ^ s ∣ roundDown s t
  := ⟨t / 2 ^ s, by rw [roundDown, mul_comm]⟩

theorem dvd_roundUp :
  (2 : ℤ) ^ s ∣ roundUp s t
  := by
  rw [roundUp]
  split
  case isTrue h => apply Int.dvd_of_emod_eq_zero h
  case isFalse => apply Int.dvd_add (dvd_roundDown s t) (Int.dvd_refl _)

theorem le_roundUp :
  t ≤ roundUp s t
  := by
  rw [roundUp]
  split
  case isTrue => apply le_refl
  case isFalse => apply (lt_roundDown_add s t).le

end

variable {s : ℕ} {a t u : ℤ}

/-- A multiple of `2 ^ s` at or after `t` is at or after `t` rounded up. -/
theorem roundUp_le (hu : (2 : ℤ) ^ s ∣ u) (h : t ≤ u) :
  roundUp s t ≤ u
  := by
  rw [roundUp]
  split
  case isTrue => apply h
  case isFalse hne =>
  obtain ⟨k, rfl⟩ := hu
  have hlt : t / 2 ^ s < k := by
    rw [Int.ediv_lt_iff_lt_mul (two_pow_pos s), mul_comm]
    apply lt_of_le_of_ne h
    rintro rfl
    apply hne (Int.mul_emod_right _ _)
  have : (t / 2 ^ s + 1) * 2 ^ s ≤ k * 2 ^ s :=
    mul_le_mul_of_nonneg_right (by omega) (two_pow_pos s).le
  rw [roundDown]
  linarith

theorem roundDown_mono (h : t ≤ u) :
  roundDown s t ≤ roundDown s u
  := mul_le_mul_of_nonneg_right (Int.ediv_le_ediv (two_pow_pos s) h) (two_pow_pos s).le

/-- A multiple of `2 ^ s` at or before `t` is at or before `t` rounded down. -/
theorem le_roundDown (hu : (2 : ℤ) ^ s ∣ u) (h : u ≤ t) :
  u ≤ roundDown s t
  := by
  calc
    u = roundDown s u := (Int.ediv_mul_cancel hu).symm
    _ ≤ _ := roundDown_mono h

/-! ### Readings -/

variable {w : ℕ} {b : ℤ}

theorem ofInt_sub (a b : ℤ) :
  BitVec.ofInt w (a - b) = BitVec.ofInt w a - BitVec.ofInt w b
  := by
  rw [sub_eq_add_neg, BitVec.ofInt_add, BitVec.ofInt_neg, BitVec.sub_eq_add_neg]

/-- The signed difference of two readings is the difference of the times, if that is
under half the range. -/
theorem toInt_sub_ofInt (hw : 0 < w) (hlo : -2 ^ (w - 1) ≤ a - b) (hhi : a - b < 2 ^ (w - 1)) :
  (BitVec.ofInt w a - BitVec.ofInt w b).toInt = a - b
  := by
  rw [← ofInt_sub]
  apply BitVec.toInt_ofInt_eq_self hw hlo hhi

/-- The difference of two readings is the difference of the times, if the second is at
or before the first and by less than the range. -/
theorem toNat_sub_ofInt (hlo : b ≤ a) (hhi : a - b < 2 ^ w) :
  ((BitVec.ofInt w a - BitVec.ofInt w b).toNat : ℤ) = a - b
  := by
  rw [← ofInt_sub, BitVec.toNat_ofInt, Int.toNat_of_nonneg]
  · push_cast
    apply Int.emod_eq_of_lt (by omega) hhi
  apply Int.emod_nonneg
  positivity

theorem emod_mul_ediv (ha : 0 < a) (b t : ℤ) :
  t % (a * b) / a = t / a % b
  := by
  have h : t - a * b * (t / (a * b)) = t + a * -(b * (t / a / b)) := by
    rw [Int.ediv_ediv_of_nonneg ha.le]
    ring
  rw [Int.emod_def, Int.emod_def, h, Int.add_mul_ediv_left _ _ ha.ne']
  ring

theorem toNat_ofInt (t : ℤ) :
  ((BitVec.ofInt w t).toNat : ℤ) = t % 2 ^ w
  := by
  rw [BitVec.toNat_ofInt, Int.toNat_of_nonneg]
  · push_cast
    rfl
  apply Int.emod_nonneg
  positivity

variable (hs : s ≤ w)

include hs

/-- The upper bits of a reading count the blocks of `2 ^ s`, in a counter of the
remaining bits. -/
theorem toNat_ofInt_shiftRight (t : ℤ) :
  ((BitVec.ofInt w t >>> s).toNat : ℤ) = t / 2 ^ s % 2 ^ (w - s)
  := by
  have hpow : (2 : ℤ) ^ w = 2 ^ s * 2 ^ (w - s) := by
    rw [← pow_add, Nat.add_sub_cancel' hs]
  rw [BitVec.toNat_ushiftRight, Nat.shiftRight_eq_div_pow]
  push_cast
  rw [toNat_ofInt, hpow, emod_mul_ediv (two_pow_pos s)]

/-- The low bits of a reading are the reading of the remainder. -/
theorem ofInt_and_mask (t : ℤ) :
  BitVec.ofInt w t &&& BitVec.ofNat w (2 ^ s - 1) = BitVec.ofInt w (t % 2 ^ s)
  := by
  apply BitVec.eq_of_toNat_eq
  have hle : 2 ^ s ≤ 2 ^ w := Nat.pow_le_pow_right (by omega) hs
  have hlt : 2 ^ s - 1 < 2 ^ w := by have := Nat.two_pow_pos s; omega
  rw [BitVec.toNat_and, BitVec.toNat_ofNat, Nat.mod_eq_of_lt hlt, Nat.and_two_pow_sub_one_eq_mod]
  apply Int.ofNat.inj
  change ((_ : ℕ) : ℤ) = ((_ : ℕ) : ℤ)
  push_cast
  rw [toNat_ofInt, toNat_ofInt, Int.emod_emod_of_dvd _ (pow_dvd_pow 2 hs)]
  symm
  apply Int.emod_eq_of_lt (Int.emod_nonneg _ (two_pow_pos s).ne')
  apply lt_of_lt_of_le (Int.emod_lt_of_pos _ (two_pow_pos s))
  exact_mod_cast hle

/-- The reading of a rest is zero when the rest is. -/
theorem ofInt_emod_eq_zero_iff (t : ℤ) :
  BitVec.ofInt w (t % 2 ^ s) = 0 ↔ t % 2 ^ s = 0
  := by
  have hnn : 0 ≤ t % 2 ^ s := Int.emod_nonneg _ (two_pow_pos _).ne'
  have hle : (2 : ℤ) ^ s ≤ 2 ^ w := pow_le_pow_right₀ (by omega) hs
  constructor
  · intro h
    have := toNat_ofInt (w := w) (t % 2 ^ s)
    rw [h, Int.emod_eq_of_lt hnn (by omega)] at this
    simpa using this.symm
  intro h
  rw [h]
  rfl

theorem ofInt_shiftRight (t : ℤ) :
  BitVec.ofInt w t >>> s = BitVec.ofInt w (t / 2 ^ s % 2 ^ (w - s))
  := by
  have hle : (2 : ℤ) ^ (w - s) ≤ 2 ^ w := pow_le_pow_right₀ (by omega) (Nat.sub_le w s)
  apply BitVec.eq_of_toNat_eq
  apply Int.ofNat.inj
  change ((_ : ℕ) : ℤ) = ((_ : ℕ) : ℤ)
  rw [toNat_ofInt_shiftRight hs, toNat_ofInt]
  symm
  apply Int.emod_eq_of_lt (Int.emod_nonneg _ (two_pow_pos _).ne')
  apply lt_of_lt_of_le (Int.emod_lt_of_pos _ (two_pow_pos _)) hle

/-- The number of blocks of `2 ^ s` between two times, read off their upper bits. -/
theorem toNat_sub_shiftRight (hlo : u / 2 ^ s ≤ t / 2 ^ s)
    (hhi : t / 2 ^ s - u / 2 ^ s < 2 ^ (w - s)) :
  ((((BitVec.ofInt w t >>> s) - (BitVec.ofInt w u >>> s)) &&& (BitVec.allOnes w >>> s)).toNat : ℤ)
    = t / 2 ^ s - u / 2 ^ s
  := by
  have hmask : BitVec.allOnes w >>> s = BitVec.ofNat w (2 ^ (w - s) - 1) := by
    apply BitVec.eq_of_toNat_eq
    have hlt : 2 ^ (w - s) - 1 < 2 ^ w := by
      have := Nat.pow_le_pow_right (show 0 < 2 by omega) (Nat.sub_le w s)
      have := Nat.two_pow_pos (w - s)
      omega
    rw [BitVec.toNat_ushiftRight, BitVec.toNat_allOnes, BitVec.toNat_ofNat, Nat.mod_eq_of_lt hlt,
      Nat.shiftRight_eq_div_pow]
    have hpow : 2 ^ w = 2 ^ (w - s) * 2 ^ s := by rw [← pow_add, Nat.sub_add_cancel hs]
    have hsplit : 2 ^ (w - s) * 2 ^ s - 1 = (2 ^ (w - s) - 1) * 2 ^ s + (2 ^ s - 1) := by
      have h₁ := Nat.two_pow_pos s
      have h₂ := Nat.two_pow_pos (w - s)
      rw [Nat.sub_mul]
      have : 2 ^ s ≤ 2 ^ (w - s) * 2 ^ s := Nat.le_mul_of_pos_left _ h₂
      omega
    have h₁ := Nat.two_pow_pos s
    rw [hpow, hsplit, Nat.add_comm, Nat.add_mul_div_right _ _ h₁, Nat.div_eq_of_lt (by omega),
      Nat.zero_add]
  rw [hmask, ofInt_shiftRight hs, ofInt_shiftRight hs, ← ofInt_sub, ofInt_and_mask (Nat.sub_le w s),
    toNat_ofInt, ← Int.sub_emod, Int.emod_eq_of_lt (sub_nonneg.mpr hlo) hhi]
  apply Int.emod_eq_of_lt (sub_nonneg.mpr hlo)
  apply lt_of_lt_of_le hhi
  apply pow_le_pow_right₀ (by omega) (Nat.sub_le w s)

/-- Clearing the low bits of a reading reads the time rounded down. -/
theorem ofInt_and_not_mask (t : ℤ) :
  BitVec.ofInt w t &&& ~~~BitVec.ofNat w (2 ^ s - 1) = BitVec.ofInt w (roundDown s t)
  := by
  have hsplit : (BitVec.ofInt w t &&& ~~~BitVec.ofNat w (2 ^ s - 1))
      = BitVec.ofInt w t - (BitVec.ofInt w t &&& BitVec.ofNat w (2 ^ s - 1)) := by
    apply BitVec.eq_sub_iff_add_eq.mpr
    rw [BitVec.add_eq_or_of_and_eq_zero]
    all_goals
      ext i hi
      cases h : (BitVec.ofNat w (2 ^ s - 1))[i] <;> simp [h]
  rw [hsplit, ofInt_and_mask hs, ← ofInt_sub, roundDown_eq_sub]

/-- Shifting the upper bits of a reading back, moved by `d` blocks, reads the time of the
block boundary. -/
theorem ofInt_block (t : ℤ) (d : ℕ) :
  ((BitVec.ofInt w t >>> s) + BitVec.ofNat w d) <<< s = BitVec.ofInt w ((t / 2 ^ s + d) * 2 ^ s)
  := by
  apply BitVec.eq_of_toNat_eq
  apply Int.ofNat.inj
  change ((_ : ℕ) : ℤ) = ((_ : ℕ) : ℤ)
  rw [toNat_ofInt, BitVec.toNat_shiftLeft, BitVec.toNat_add, Nat.shiftLeft_eq]
  push_cast
  rw [toNat_ofInt_shiftRight hs]
  have hpow : (2 : ℤ) ^ w = 2 ^ (w - s) * 2 ^ s := by
    rw [← pow_add, Nat.sub_add_cancel hs]
  have hsum : (t / 2 ^ s % 2 ^ (w - s) + (d : ℤ) % 2 ^ w) % 2 ^ w * 2 ^ s
      ≡ (t / 2 ^ s % 2 ^ (w - s) + d) * 2 ^ s [ZMOD 2 ^ w] := by
    apply Int.ModEq.mul_right
    apply (Int.mod_modEq _ _).trans
    apply Int.ModEq.add_left
    apply Int.mod_modEq
  apply hsum.trans
  rw [hpow, add_mul, add_mul]
  apply Int.ModEq.add_right
  apply Int.ModEq.mul_right'
  apply Int.mod_modEq

end Serial
