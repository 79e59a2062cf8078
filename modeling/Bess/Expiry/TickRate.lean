import Mathlib

/-!
# Durations and ticks

`TickRate` of `tick_rate.h`. `Ticks` goes through whole nanoseconds in 64 bits and `ShiftFor` through
whole ticks, so they are exact where what is cut off does not reach another tick.
-/

namespace Expiry

/-- `TickRate`. -/
structure TickRate where
  tps : ℕ
  pos : 0 < tps
  lt : tps < 2 ^ 64

/-- A duration of `count` periods of `num / den` nanoseconds, computed with in a signed or an
unsigned type of 64 bits. -/
structure Duration where
  count : ℤ
  num : ℕ
  den : ℕ
  pos : 0 < num ∧ 0 < den
  signed : Bool

namespace TickRate

/-- The constructor of `TickRate`. -/
def ofTicksPerSecond (ticksPerSecond : BitVec 64) : TickRate :=
  if h : ticksPerSecond.toNat = 0 then ⟨1, by decide, by decide⟩
  else ⟨ticksPerSecond.toNat, Nat.pos_of_ne_zero h, ticksPerSecond.isLt⟩

/-- `TickRate::FromNanoseconds`. -/
def fromNanoseconds (rate : TickRate) (ns : ℕ) : ℕ :=
  min (ns * rate.tps % 2 ^ 128 / 10 ^ 9) (2 ^ 64 - 1)

/-- The ticks of a count of nanoseconds, where a negative one has none. -/
def ofCount (rate : TickRate) (ns : ℤ) : ℕ :=
  if ns ≤ 0 then 0 else rate.fromNanoseconds ns.toNat

/-- No value of a `duration_cast` to nanoseconds is too large for its type. -/
def fits (d : Duration) : Bool :=
  let product := d.count * d.num
  (if d.signed then -2 ^ 63 ≤ product && product < 2 ^ 63 else 0 ≤ product && product < 2 ^ 64)
    && product.tdiv d.den < 2 ^ 63

/-- `TickRate::Ticks`, without a result where the cast does not fit. -/
def ticks (rate : TickRate) (d : Duration) : Option ℕ :=
  if fits d then some (rate.ofCount ((d.count * d.num).tdiv d.den)) else none

/-- `TickRate::ShiftFor`. -/
def shiftFor (rate : TickRate) (granule : BitVec 64) : ℕ :=
  let ticks := rate.ofCount granule.toInt
  if ticks ≤ 1 then 0 else (ticks - 1).size

/-! ### What the conversions should give -/

variable (rate : TickRate) (d : Duration)

/-- The ticks a duration lasts, rounded down, not negative, saturated. -/
def exact : ℕ := min ((d.count * d.num).toNat * rate.tps / (d.den * 10 ^ 9)) (2 ^ 64 - 1)

/-- No tick that counts ends in the part of a nanosecond that is cut off: what ends within the duration
ends within its whole nanoseconds. -/
def Cut : Prop :=
  let product := (d.count * d.num).toNat
  ∀ k < 2 ^ 64, k * (d.den * 10 ^ 9) ≤ product * rate.tps → k * 10 ^ 9 ≤ product / d.den * rate.tps

/-- A granule is not a fraction of a tick longer than a power of two ticks, nor too long. -/
def Whole (granule : BitVec 64) : Prop :=
  let scaled := granule.toInt.toNat * rate.tps
  scaled ≤ 2 ^ 64 * 10 ^ 9 ∧ ∀ s, scaled ≤ 2 ^ s * 10 ^ 9 ∨ (2 ^ s + 1) * 10 ^ 9 ≤ scaled

/-- The shifts that make a tick last at least the granule. -/
def coarse (granule : BitVec 64) : Set ℕ := {s | granule.toInt.toNat * rate.tps ≤ 2 ^ s * 10 ^ 9}

theorem ofCount_eq {ns : ℤ} (hns : ns < 2 ^ 63) :
  rate.ofCount ns = min (ns.toNat * rate.tps / 10 ^ 9) (2 ^ 64 - 1)
  := by
  rw [ofCount]
  split
  case isTrue hle =>
    rw [Int.toNat_of_nonpos hle, Nat.zero_mul]
    rfl
  case isFalse =>
  have hlt : ns.toNat * rate.tps < 2 ^ 63 * 2 ^ 64 := Nat.mul_lt_mul'' (by omega) rate.lt
  rw [fromNanoseconds, Nat.mod_eq_of_lt (by omega)]

theorem shiftFor_le (granule : BitVec 64) (s : ℕ) :
  rate.shiftFor granule ≤ s ↔ rate.ofCount granule.toInt ≤ 2 ^ s
  := by
  have hpos := Nat.one_le_two_pow (n := s)
  rw [shiftFor]
  split
  case isTrue => omega
  case isFalse =>
  rw [Nat.size_le]
  omega

theorem shiftFor_isLeast (granule : BitVec 64) :
  IsLeast (rate.coarse granule) (rate.shiftFor granule) ↔ rate.Whole granule
  := by
  rw [Whole, coarse]
  have hticks := rate.ofCount_eq (BitVec.toInt_lt (x := granule))
  have hshift := rate.shiftFor_le granule
  generalize granule.toInt.toNat * rate.tps = n at *
  generalize rate.ofCount granule.toInt = t at *
  generalize rate.shiftFor granule = shift at *
  have hle : t ≤ 2 ^ shift := (hshift shift).mp le_rfl
  constructor
  · rintro ⟨hmem : n ≤ 2 ^ shift * 10 ^ 9, -⟩
    refine ⟨hmem.trans (Nat.mul_le_mul_right _ (Nat.pow_le_pow_right (by decide) ?_)), ?_⟩
    · rw [hshift]
      omega
    intro s
    by_cases hs : shift ≤ s
    · left
      exact hmem.trans (Nat.mul_le_mul_right _ (Nat.pow_le_pow_right (by decide) hs))
    rw [hshift] at hs
    omega
  rintro ⟨hmax, hpower⟩
  refine ⟨?_, ?_⟩
  · change n ≤ 2 ^ shift * 10 ^ 9
    by_contra hnot
    have hfull : 64 ≤ shift := by
      by_contra hlt
      have : 2 ^ shift ≤ 2 ^ 63 := Nat.pow_le_pow_right (by decide) (by omega)
      have := hpower shift
      omega
    have : 2 ^ 64 ≤ 2 ^ shift := Nat.pow_le_pow_right (by decide) hfull
    omega
  intro s (hs : n ≤ 2 ^ s * 10 ^ 9)
  rw [hshift]
  omega

theorem toNat_tdiv (a : ℤ) (b : ℕ) :
  (a.tdiv b).toNat = a.toNat / b
  := by
  obtain ⟨n, rfl | rfl⟩ := a.eq_nat_or_neg
  · rfl
  · rw [Int.neg_tdiv, ← Int.ofNat_tdiv, Int.toNat_neg_natCast, Int.toNat_neg_natCast, Nat.zero_div]

theorem ticks_of_fits (hfits : fits d) :
  rate.ticks d = some (min ((d.count * d.num).toNat / d.den * rate.tps / 10 ^ 9) (2 ^ 64 - 1))
  := by
  rw [ticks, if_pos hfits]
  rw [fits, Bool.and_eq_true, decide_eq_true_eq] at hfits
  rw [rate.ofCount_eq hfits.2, toNat_tdiv]

theorem ticks_eq_exact :
  rate.ticks d = some (rate.exact d) ↔ fits d ∧ Cut rate d
  := by
  by_cases hfits : fits d
  case neg => simp [ticks, hfits]
  rw [rate.ticks_of_fits d hfits, Option.some.injEq, exact, Cut]
  simp only [hfits, true_and]
  have hunit : 0 < d.den * 10 ^ 9 := Nat.mul_pos d.pos.2 (by decide)
  simp only [← Nat.le_div_iff_mul_le hunit, ← Nat.le_div_iff_mul_le (show 0 < 10 ^ 9 by decide)]
  generalize (d.count * d.num).toNat = product at *
  have hle : product / d.den * rate.tps / 10 ^ 9 ≤ product * rate.tps / (d.den * 10 ^ 9) := by
    rw [← Nat.div_div_eq_div_mul]
    rw [Nat.mul_comm, Nat.mul_comm product]
    exact Nat.div_le_div_right (Nat.mul_div_le_mul_div_assoc ..)
  constructor
  · intro heq k hk hend
    omega
  intro hcut
  have := hcut (min (product * rate.tps / (d.den * 10 ^ 9)) (2 ^ 64 - 1)) (by omega) (min_le_left ..)
  omega

theorem ticks_mono {d d' : Duration} (hfits : fits d) (hfits' : fits d')
    (h : d.count * d.num * d'.den ≤ d'.count * d'.num * d.den) :
  ∃ t t', rate.ticks d = some t ∧ rate.ticks d' = some t' ∧ t ≤ t'
  := by
  refine ⟨_, _, rate.ticks_of_fits d hfits, rate.ticks_of_fits d' hfits', ?_⟩
  have hnat : (d.count * d.num).toNat * d'.den ≤ (d'.count * d'.num).toNat * d.den := by
    zify
    rw [Int.ofNat_toNat, Int.ofNat_toNat, max_mul_of_nonneg _ _ (by omega),
      max_mul_of_nonneg _ _ (by omega), zero_mul, zero_mul]
    exact max_le_max_right 0 h
  apply min_le_min_right
  apply Nat.div_le_div_right
  apply Nat.mul_le_mul_right
  rw [Nat.le_div_iff_mul_le d'.pos.2]
  apply Nat.le_of_mul_le_mul_right _ d.pos.2
  generalize (d.count * d.num).toNat = product at *
  calc product / d.den * d'.den * d.den
    _ = product / d.den * d.den * d'.den := Nat.mul_right_comm ..
    _ ≤ product * d'.den := Nat.mul_le_mul_right _ (Nat.div_mul_le_self ..)
    _ ≤ (d'.count * d'.num).toNat * d.den := hnat

/-- The conversions are right exactly where nothing that matters is cut off or too large, and a longer
duration that fits is not fewer ticks. -/
theorem conversions_sound (rate : TickRate) (granule : BitVec 64) (d d' : Duration) :
  (IsLeast (rate.coarse granule) (rate.shiftFor granule) ↔ rate.Whole granule)
    ∧ (rate.ticks d = some (rate.exact d) ↔ fits d ∧ Cut rate d)
    ∧ (fits d → fits d' → d.count * d.num * d'.den ≤ d'.count * d'.num * d.den →
        ∃ t t', rate.ticks d = some t ∧ rate.ticks d' = some t' ∧ t ≤ t')
  := ⟨rate.shiftFor_isLeast granule, rate.ticks_eq_exact d, rate.ticks_mono⟩

/-- At one and a half ticks in a nanosecond one tick is taken for a nanosecond, and 2,562,048 hours
are more nanoseconds than 63 bits hold. -/
theorem conversions_cut_off :
  let rate : TickRate := ⟨1500000000, by decide, by decide⟩
  ¬ IsLeast (rate.coarse 1) (rate.shiftFor 1)
    ∧ rate.ticks ⟨2562048, 3600000000000, 1, by decide, true⟩ = none
  := by
  refine ⟨fun h => absurd h.1 ?_, by decide⟩
  rw [coarse]
  decide

end TickRate

end Expiry
