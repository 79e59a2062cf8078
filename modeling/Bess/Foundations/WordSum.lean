import Mathlib.Data.BitVec

/-!
# Sums of 16-bit words

The sum of the little-endian 16-bit words of a run of bytes, where an odd last byte is padded with
zero. A run whose checksum is right has a sum that is a multiple of `2 ^ 16 - 1` but not zero.
-/

namespace WordSum

variable {byte byte' : ℕ → BitVec 8} {i len k s s' : ℕ}

/-- The word at `i`. -/
def word (byte : ℕ → BitVec 8) (i : ℕ) : ℕ :=
  (byte i).toNat + 256 * (byte (i + 1)).toNat

/-- The sum of the words of the `len` bytes at `i`. -/
def sum (byte : ℕ → BitVec 8) : ℕ → ℕ → ℕ
  | _, 0 => 0
  | i, 1 => (byte i).toNat
  | i, len + 2 => word byte i + sum byte (i + 2) len

/-- What a right checksum makes of the sum. -/
def Valid (s : ℕ) : Prop :=
  s % 65535 = 0 ∧ s ≠ 0

/-- Sums that are valid for one reason: they differ by a multiple of `2 ^ 16 - 1`, and only zero
goes with zero. -/
def Agree (s s' : ℕ) : Prop :=
  s % 65535 = s' % 65535 ∧ (s = 0 ↔ s' = 0)

theorem Agree.valid_iff (h : Agree s s') :
  Valid s ↔ Valid s'
  := by
  rw [Valid, Valid, h.1, ne_eq, h.2]

theorem Agree.trans {s'' : ℕ} (h : Agree s s') (h' : Agree s' s'') :
  Agree s s''
  := ⟨h.1.trans h'.1, h.2.trans h'.2⟩

theorem Agree.add {t t' : ℕ} (hs : Agree s s') (ht : Agree t t') :
  Agree (s + t) (s' + t')
  := by
  rw [Agree] at *
  omega

theorem sum_congr {i' : ℕ} (h : ∀ j < len, byte' (i' + j) = byte (i + j)) :
  sum byte' i' len = sum byte i len
  := by
  induction i, len using sum.induct generalizing i' with
  | case1 i => rfl
  | case2 i => exact congrArg BitVec.toNat (h 0 (by omega))
  | case3 i len ih =>
  have hfirst : word byte' i' = word byte i := by
    rw [word, h 1 (by omega)]
    exact congrArg (·.toNat + _) (h 0 (by omega))
  rw [sum, sum, hfirst, ih]
  intro j hj
  rw [Nat.add_assoc, Nat.add_assoc, h (2 + j) (by omega)]

theorem sum_replace (hk : 2 * k + 1 < len)
    (h : ∀ j, j ≠ i + 2 * k → j ≠ i + 2 * k + 1 → byte' j = byte j) :
  sum byte' i len + word byte (i + 2 * k) = sum byte i len + word byte' (i + 2 * k)
  := by
  induction k generalizing i len with
  | zero =>
    obtain ⟨len, rfl⟩ : ∃ rest, len = rest + 2 := ⟨len - 2, by omega⟩
    have hrest : sum byte' (i + 2) len = sum byte (i + 2) len := by
      apply sum_congr
      intro j _
      apply h <;> omega
    rw [sum, sum]
    simp only [Nat.mul_zero, Nat.add_zero]
    omega
  | succ k ih =>
  obtain ⟨len, rfl⟩ : ∃ rest, len = rest + 2 := ⟨len - 2, by omega⟩
  have hfirst : word byte' i = word byte i := by
    rw [word, word, h i (by omega) (by omega), h (i + 1) (by omega) (by omega)]
  have hplace : i + 2 * (k + 1) = i + 2 + 2 * k := by omega
  rw [hplace] at h ⊢
  have hrest : sum byte' (i + 2) len + word byte _ = _ := ih (by omega) h
  rw [sum, sum]
  omega

theorem sum_add (byte : ℕ → BitVec 8) (i k len : ℕ) :
  sum byte i (2 * k + len) = sum byte i (2 * k) + sum byte (i + 2 * k) len
  := by
  induction k generalizing i with
  | zero => rw [sum, Nat.zero_add, Nat.zero_add, Nat.add_zero]
  | succ k ih =>
  have hplace : i + 2 * (k + 1) = i + 2 + 2 * k := by omega
  have hlen : 2 * (k + 1) + len = 2 * k + len + 2 := by omega
  have hlen' : 2 * (k + 1) = 2 * k + 2 := by omega
  rw [hplace, hlen, hlen', sum, sum, ih]
  omega

theorem sum_eq_zero_iff :
  sum byte i len = 0 ↔ ∀ j < len, byte (i + j) = 0
  := by
  induction i, len using sum.induct with
  | case1 i => simp [sum]
  | case2 i => simp [sum, BitVec.toNat_eq]
  | case3 i len ih =>
  rw [sum, word, Nat.add_eq_zero_iff, Nat.add_eq_zero_iff, ih]
  constructor
  · rintro ⟨⟨hlo, hhi⟩, hrest⟩ j hj
    match j with
    | 0 => exact BitVec.eq_of_toNat_eq hlo
    | 1 => exact BitVec.eq_of_toNat_eq (by simpa using hhi)
    | j + 2 =>
    have := hrest j (by omega)
    rwa [Nat.add_assoc, Nat.add_comm 2 j] at this
  intro h
  refine ⟨⟨?_, ?_⟩, ?_⟩
  · rw [← Nat.add_zero i, h 0 (by omega)]
    rfl
  · rw [h 1 (by omega)]
    rfl
  intro j hj
  rw [Nat.add_assoc]
  apply h
  omega

theorem sum_le (byte : ℕ → BitVec 8) (i len : ℕ) :
  sum byte i len ≤ 65535 * len
  := by
  induction i, len using sum.induct with
  | case1 i => rfl
  | case2 i =>
    rw [sum]
    omega
  | case3 i len ih =>
  rw [sum, word]
  omega

end WordSum
