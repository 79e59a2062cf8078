import Bess.Expiry.Invariant

/-!
# Where the wheel looks for a timer

Read as times, the slots of a level are blocks of `2 ^ levelShift` ticks, taken modulo the
number of slots. `Upcoming w T level slot q` says that the block `q` is the next one the
wheel reaches in that slot, less than a turn ahead of the time `T`. Placing a timer puts it
in a slot whose next block starts after the wheel time and not after the timer's rounded
deadline; `nextEvent` finds the first start of an occupied slot's next block.
-/

namespace Expiry

open Function List Serial

variable {c : Shape} {P : Type}

namespace Wheel

/-- The block `q` of the level is in the slot, after the time `T` and within one turn. -/
structure Upcoming (w : Wheel c P) (T : ℤ) (level slot : ℕ) (q : ℤ) : Prop where
  slot_eq : q % c.kSlots = slot
  after : T / 2 ^ w.levelShift level < q
  within : q < T / 2 ^ w.levelShift level + c.kSlots

/-- The wheel time is `T`, and the armed timer of the node `i` is due at `due i`: its tick
is the reading of that time, its rounded deadline is within half the range of the wheel
time, and a slot that holds it is reached no later than the rounded deadline. -/
structure Timed (w : Wheel c P) (lists : ℕ → List ℕ) (T : ℤ) (due : ℕ → ℤ) : Prop where
  cur_eq : w.cur = BitVec.ofInt c.digits T
  dvd : (2 : ℤ) ^ w.shift ∣ T
  deadline_eq : ∀ i, w.ArmedNode i → (w.nodes i).deadline = BitVec.ofInt c.digits (due i)
  near : ∀ i, w.ArmedNode i → -2 ^ (c.digits - 1) ≤ roundUp w.shift (due i) - T
    ∧ roundUp w.shift (due i) - T < 2 ^ (c.digits - 1)
  upcoming : ∀ level < c.levels, ∀ slot < c.kSlots, ∀ i ∈ lists (level * c.kSlots + slot),
    ∃ q, w.Upcoming T level slot q ∧ q * 2 ^ w.levelShift level ≤ roundUp w.shift (due i)

/-- What a wheel knows of the time whatever its deadlines are: the wheel time is `T`, and no level
holds anything in the slot of that time. -/
structure Clocked (w : Wheel c P) (lists : ℕ → List ℕ) (T : ℤ) : Prop where
  cur_eq : w.cur = BitVec.ofInt c.digits T
  dvd : (2 : ℤ) ^ w.shift ∣ T
  upcoming : ∀ level < c.levels, ∀ slot < c.kSlots, lists (level * c.kSlots + slot) ≠ [] →
    ∃ q, w.Upcoming T level slot q

variable {T : ℤ}

theorem Timed.clocked {w : Wheel c P} {lists : ℕ → List ℕ} {due : ℕ → ℤ} (h : Timed w lists T due) :
  Clocked w lists T
  := by
  refine ⟨h.cur_eq, h.dvd, ?_⟩
  intro level hl slot hslot hne
  obtain ⟨i, hi⟩ := exists_mem_of_ne_nil _ hne
  obtain ⟨q, hq, -⟩ := h.upcoming level hl slot hslot i hi
  exact ⟨q, hq⟩

variable {w : Wheel c P} {T E q : ℤ} {lists : ℕ → List ℕ} {frees : List ℕ} {loose : Set ℕ}
  {due : ℕ → ℤ} {level slot j : ℕ}

/-! ### Blocks -/

section Blocks

variable {level : ℕ}

/-- The slots of every level leave the top bit of a tick alone. -/
theorem levelShift_add_lt (hs : w.shift ≤ c.kMaxGranularityShift) (hl : level < c.levels) :
  w.levelShift level + c.levelBits < c.digits
  := by
  have h₁ : (level + 1) * c.levelBits ≤ c.levels * c.levelBits := Nat.mul_le_mul_right _ hl
  have h₂ := c.span_lt
  rw [Shape.kMaxGranularityShift] at hs
  rw [levelShift]
  rw [Nat.add_mul, Nat.mul_comm c.levels] at h₁
  omega

theorem shift_lt (hs : w.shift ≤ c.kMaxGranularityShift) : w.shift < c.digits := by
  have := levelShift_add_lt hs c.one_le_levels
  rw [levelShift] at this
  omega

/-- An upcoming block stays so while the time does not reach it. -/
theorem Upcoming.advance {T' : ℤ} (h : w.Upcoming T level slot q) (hT : T ≤ T')
    (hq : T' < q * 2 ^ w.levelShift level) :
  w.Upcoming T' level slot q
  := by
  have hmono := Int.ediv_le_ediv (two_pow_pos (w.levelShift level)) hT
  have := h.within
  use h.slot_eq
  · rwa [Int.ediv_lt_iff_lt_mul (two_pow_pos _)]
  · omega

/-- The slot of a level a time falls into is its block modulo the number of slots. -/
theorem slotOf_ofInt (hs : w.shift ≤ c.kMaxGranularityShift) (hl : level < c.levels) (t : ℤ) :
  (w.slotOf level (BitVec.ofInt c.digits t) : ℤ) = t / 2 ^ w.levelShift level % c.kSlots
  := by
  have hlt := levelShift_add_lt hs hl
  have hdvd : (c.kSlots : ℤ) ∣ 2 ^ (c.digits - w.levelShift level) := by
    apply pow_dvd_pow
    omega
  rw [slotOf]
  push_cast
  rw [toNat_ofInt_shiftRight (by omega), Int.emod_emod_of_dvd _ hdvd]

theorem slotOf_lt (w : Wheel c P) (level : ℕ) (t : c.Tick) : w.slotOf level t < c.kSlots :=
  Nat.mod_lt _ c.kSlots_pos

/-- How many blocks a time is ahead of the wheel time. -/
theorem toNat_ahead (hs : w.shift ≤ c.kMaxGranularityShift) (hl : level < c.levels)
    (hcur : w.cur = BitVec.ofInt c.digits T) (hlo : T ≤ E) (hhi : E - T < 2 ^ (c.digits - 1)) :
  ((w.ahead level (BitVec.ofInt c.digits E)).toNat : ℤ)
    = E / 2 ^ w.levelShift level - T / 2 ^ w.levelShift level
  := by
  have hlt := levelShift_add_lt hs hl
  rw [ahead, hcur]
  apply toNat_sub_shiftRight (by omega)
  · apply Int.ediv_le_ediv (two_pow_pos _) hlo
  set sh := w.levelShift level
  -- A distance under half the range is at most half the blocks of the level.
  have hpow : (2 : ℤ) ^ (c.digits - 1) = 2 ^ (c.digits - 1 - sh) * 2 ^ sh := by
    rw [← pow_add]
    congr 1
    omega
  have hle : E / 2 ^ sh < T / 2 ^ sh + 1 + 2 ^ (c.digits - 1 - sh) := by
    rw [Int.ediv_lt_iff_lt_mul (two_pow_pos sh)]
    have := lt_roundDown_add sh T
    rw [roundDown] at this
    linarith
  have htwo : (2 : ℤ) ^ (c.digits - sh) = 2 ^ (c.digits - 1 - sh) * 2 := by
    rw [← pow_succ]
    congr 1
    omega
  have hone : (1 : ℤ) ≤ 2 ^ (c.digits - 1 - sh) := one_le_pow₀ (by omega)
  linarith

end Blocks

/-! ### Placement -/

/-- Rounding a deadline up is rounding the time up. -/
theorem endOf_ofInt (hs : w.shift ≤ c.kMaxGranularityShift) (d : ℤ) :
  w.endOf (BitVec.ofInt c.digits d) = BitVec.ofInt c.digits (roundUp w.shift d)
  := by
  have hlt := shift_lt hs
  have hunit : w.unit = BitVec.ofInt c.digits (2 ^ w.shift) := by
    apply BitVec.eq_of_toNat_eq
    apply Int.ofNat.inj
    change ((_ : ℕ) : ℤ) = ((_ : ℕ) : ℤ)
    rw [unit, BitVec.toNat_shiftLeft, Nat.shiftLeft_eq]
    have hone : (1 : c.Tick).toNat = 1 := by
      change (BitVec.ofNat c.digits 1).toNat = 1
      rw [BitVec.toNat_ofNat, Nat.mod_eq_of_lt]
      apply Nat.one_lt_two_pow
      omega
    rw [hone, Nat.one_mul]
    rfl
  rw [endOf, unitMask, ofInt_and_mask hlt.le, roundUp, roundDown_eq_sub]
  by_cases h : d % 2 ^ w.shift = 0
  · simp [h]
  have h' : BitVec.ofInt c.digits (d % 2 ^ w.shift) ≠ 0 :=
    (ofInt_emod_eq_zero_iff hlt.le d).not.mpr h
  simp only [h, h', ne_eq, not_false_eq_true, if_true, if_false]
  rw [hunit, ← ofInt_sub, ← BitVec.ofInt_add]

/-- A time at or before the wheel time is placed in the due list; a later one in a slot
that is reached after the wheel time and not after it. -/
theorem headFor_spec (hs : w.shift ≤ c.kMaxGranularityShift) (hcur : w.cur = BitVec.ofInt c.digits T)
    (hE : (2 : ℤ) ^ w.shift ∣ E) (hlo : -2 ^ (c.digits - 1) ≤ E - T)
    (hhi : E - T < 2 ^ (c.digits - 1)) :
  (E ≤ T ∧ w.headFor (BitVec.ofInt c.digits E) = c.kReady)
    ∨ T < E ∧ ∃ level < c.levels, ∃ slot < c.kSlots,
        w.headFor (BitVec.ofInt c.digits E) = level * c.kSlots + slot
          ∧ ∃ q, w.Upcoming T level slot q ∧ q * 2 ^ w.levelShift level ≤ E
  := by
  have hdiff : diff (BitVec.ofInt c.digits E) w.cur = E - T := by
    rw [diff, hcur, toInt_sub_ofInt c.digits_pos hlo hhi]
  rw [headFor]
  by_cases hle : E ≤ T
  · left
    use hle
    rw [if_pos (by omega)]
  right
  have hlt : T < E := by omega
  use hlt
  rw [if_neg (by omega)]
  have hK : (0 : ℤ) < c.kSlots := by exact_mod_cast c.kSlots_pos
  have hmask : (c.kSlotMask : ℤ) + 1 = c.kSlots := by exact_mod_cast c.kSlotMask_add_one
  -- At every level below the chosen one the time is a whole turn or more ahead.
  have hnext : ∀ level, c.kSlots ≤ E / 2 ^ w.levelShift level - T / 2 ^ w.levelShift level →
      T / 2 ^ w.levelShift (level + 1) < E / 2 ^ w.levelShift (level + 1) := by
    intro level h
    have hpow : (2 : ℤ) ^ w.levelShift (level + 1) = 2 ^ w.levelShift level * c.kSlots := by
      rw [Shape.kSlots]
      push_cast
      rw [levelShift, levelShift]
      ring
    rw [hpow, ← Int.ediv_ediv_of_nonneg (two_pow_pos _).le,
      ← Int.ediv_ediv_of_nonneg (two_pow_pos _).le]
    have : (T / 2 ^ w.levelShift level + c.kSlots) / c.kSlots
        ≤ E / 2 ^ w.levelShift level / c.kSlots := Int.ediv_le_ediv hK (by omega)
    rw [Int.add_ediv_of_dvd_right (dvd_refl _), Int.ediv_self hK.ne'] at this
    omega
  have hfirst : T / 2 ^ w.levelShift 0 < E / 2 ^ w.levelShift 0 := by
    have h₀ : w.levelShift 0 = w.shift := by simp [levelShift]
    rw [h₀, Int.ediv_lt_iff_lt_mul (two_pow_pos _), Int.ediv_mul_cancel hE]
    apply hlt
  have hbelow : ∀ level, level < c.levels →
      (∀ j < level, ¬ (w.ahead j (BitVec.ofInt c.digits E)).toNat ≤ c.kSlotMask) →
      T / 2 ^ w.levelShift level < E / 2 ^ w.levelShift level := by
    intro level hl hj
    cases level with
    | zero => apply hfirst
    | succ level =>
    apply hnext
    have := hj level (Nat.lt_succ_self _)
    have := toNat_ahead hs (Nat.lt_of_succ_lt hl) hcur hlt.le hhi
    omega
  cases hfind : (List.range c.levels).find?
      (fun level => decide ((w.ahead level (BitVec.ofInt c.digits E)).toNat ≤ c.kSlotMask)) with
  | some level =>
    obtain ⟨hl, hah, hj⟩ : level < c.levels
        ∧ (w.ahead level (BitVec.ofInt c.digits E)).toNat ≤ c.kSlotMask
        ∧ ∀ j < level, ¬ (w.ahead j (BitVec.ofInt c.digits E)).toNat ≤ c.kSlotMask := by
      have h := find?_range_eq_some.mp hfind
      simp only [decide_eq_true_eq, mem_range, Bool.not_eq_eq_eq_not, Bool.not_true,
        decide_eq_false_iff_not] at h
      exact ⟨h.2.1, h.1, h.2.2⟩
    have hahead := toNat_ahead hs hl hcur hlt.le hhi
    refine ⟨level, hl, w.slotOf level (BitVec.ofInt c.digits E), slotOf_lt _ _ _, rfl,
      E / 2 ^ w.levelShift level, ?_, Int.ediv_mul_le _ (two_pow_pos _).ne'⟩
    constructor
    · rw [slotOf_ofInt hs hl]
    · apply hbelow level hl hj
    · omega
  | none =>
  have hall : ∀ j < c.levels,
      ¬ (w.ahead j (BitVec.ofInt c.digits E)).toNat ≤ c.kSlotMask := by
    simpa using hfind
  have hl : c.levels - 1 < c.levels := by
    have := c.one_le_levels
    omega
  have hahead := toNat_ahead hs hl hcur hlt.le hhi
  have hfar := hall _ hl
  refine ⟨c.levels - 1, hl, _, Nat.mod_lt _ c.kSlots_pos, rfl,
    T / 2 ^ w.levelShift (c.levels - 1) + c.kSlotMask, ?_, ?_⟩
  · constructor
    · push_cast
      rw [hcur, slotOf_ofInt hs hl, Int.emod_add_emod]
    · have := c.one_lt_kSlots
      omega
    · omega
  have hle' : T / 2 ^ w.levelShift (c.levels - 1) + c.kSlotMask
      ≤ E / 2 ^ w.levelShift (c.levels - 1) := by omega
  apply le_trans (mul_le_mul_of_nonneg_right hle' (two_pow_pos _).le)
  apply Int.ediv_mul_le _ (two_pow_pos _).ne'

/-! ### The next event -/

theorem getLsbD_slotsMask (c : Shape) (j : ℕ) :
  c.slotsMask.getLsbD j = decide (j < c.kSlots)
  := by
  have hle := c.kSlots_le
  rw [Shape.slotsMask]
  split
  case isTrue h =>
    rw [BitVec.getLsbD_not, h]
    by_cases hj : j < 64 <;> simp [hj]
  case isFalse h =>
  have hmask : (1#64 <<< c.kSlots) - 1#64 = BitVec.ofNat 64 (2 ^ c.kSlots - 1) := by
    apply BitVec.eq_of_toNat_eq
    have hpos := Nat.two_pow_pos c.kSlots
    rw [BitVec.toNat_sub, BitVec.toNat_shiftLeft, BitVec.toNat_ofNat, BitVec.toNat_ofNat]
    omega
  rw [hmask, BitVec.getLsbD_ofNat]
  by_cases hj : j < c.kSlots
  · simp [hj]; omega
  · simp [hj]

/-- Bit `j` of the rotated word is the slot `j + 1` after the current one. -/
theorem getLsbD_rotated (w : Wheel c P)
    (hun : ∀ j, c.kSlots ≤ j → (w.occupied level).getLsbD j = false) (hj : j < c.kSlots) :
  (w.rotated level).getLsbD j
    = (w.occupied level).getLsbD ((w.slotOf level w.cur + 1 + j) % c.kSlots)
  := by
  have hK := c.kSlots_pos
  have hle := c.kSlots_le
  have hslot := Nat.mod_lt (w.slotOf level w.cur + 1) hK
  rw [rotated, ← Nat.mod_add_mod (w.slotOf level w.cur + 1)]
  set start := (w.slotOf level w.cur + 1) % c.kSlots with hstart
  split
  case isTrue h => rw [h, Nat.zero_add, Nat.mod_eq_of_lt hj]
  case isFalse h =>
  rw [BitVec.getLsbD_and, BitVec.getLsbD_or, getLsbD_slotsMask, BitVec.getLsbD_ushiftRight,
    BitVec.getLsbD_shiftLeft]
  by_cases hc : start + j < c.kSlots
  · rw [Nat.mod_eq_of_lt hc]
    have : j < c.kSlots - start := by omega
    simp [hj, this]
  have hmod : (start + j) % c.kSlots = j - (c.kSlots - start) := by
    rw [Nat.mod_eq_sub_mod (by omega), Nat.mod_eq_of_lt (by omega)]
    omega
  rw [hmod, hun (start + j) (by omega)]
  have h1 : ¬ j < c.kSlots - start := by omega
  have h2 : j < 64 := by omega
  simp [hj, h1, h2]

theorem getLsbD_rotated_of_le (w : Wheel c P)
    (hun : ∀ j, c.kSlots ≤ j → (w.occupied level).getLsbD j = false) (hj : c.kSlots ≤ j) :
  (w.rotated level).getLsbD j = false
  := by
  rw [rotated]
  split
  case isTrue h => apply hun j hj
  case isFalse h =>
  rw [BitVec.getLsbD_and, getLsbD_slotsMask]
  simp [hj]

section

variable (w : Wheel c P) (lists : ℕ → List ℕ) (T : ℤ)

/-- The starts of the upcoming blocks of the occupied slots of a level. -/
def levelStarts (level : ℕ) : Set ℤ :=
  { E | ∃ slot < c.kSlots, lists (level * c.kSlots + slot) ≠ []
    ∧ ∃ q, w.Upcoming T level slot q ∧ E = q * 2 ^ w.levelShift level }

/-- The starts of the upcoming blocks of the occupied slots of the levels below `n`. -/
def starts (n : ℕ) : Set ℤ :=
  { E | ∃ level < n, E ∈ w.levelStarts lists T level }

theorem starts_succ (n : ℕ) :
  w.starts lists T (n + 1) = w.starts lists T n ∪ w.levelStarts lists T n
  := by
  ext E
  constructor
  · rintro ⟨level, hl, hE⟩
    rcases Nat.lt_succ_iff_lt_or_eq.mp hl with hl | rfl
    · left
      exact ⟨level, hl, hE⟩
    right
    apply hE
  rintro (⟨level, hl, hE⟩ | hE)
  · exact ⟨level, by omega, hE⟩
  · exact ⟨n, by omega, hE⟩

end

/-- A start is after the wheel time and less than half the range ahead of it. -/
theorem levelStarts_bounds (hs : w.shift ≤ c.kMaxGranularityShift) (hl : level < c.levels)
    (h : E ∈ w.levelStarts lists T level) :
  T < E ∧ E - T < 2 ^ (c.digits - 1) ∧ (2 : ℤ) ^ w.shift ∣ E
  := by
  obtain ⟨slot, hslot, hne, q, hq, rfl⟩ := h
  refine ⟨(Int.ediv_lt_iff_lt_mul (two_pow_pos _)).mp hq.after, ?_, ?_⟩
  · have hpos := two_pow_pos (w.levelShift level)
    have hblock : (q + 1) * 2 ^ w.levelShift level
        ≤ (T / 2 ^ w.levelShift level + c.kSlots) * 2 ^ w.levelShift level :=
      mul_le_mul_of_nonneg_right (by have := hq.within; omega) hpos.le
    have hdown := roundDown_le (w.levelShift level) T
    rw [roundDown] at hdown
    have hturn : (c.kSlots : ℤ) * 2 ^ w.levelShift level ≤ 2 ^ (c.digits - 1) := by
      rw [Shape.kSlots]
      push_cast
      rw [← pow_add]
      apply pow_le_pow_right₀ (by omega)
      have := levelShift_add_lt hs hl
      omega
    rw [add_mul, add_mul] at hblock
    omega
  rw [levelShift, pow_add]
  apply dvd_mul_of_dvd_right (dvd_mul_right _ _)

theorem toNat_dist (h₁ : T < E) (h₂ : E - T < 2 ^ (c.digits - 1)) :
  ((BitVec.ofInt c.digits E - BitVec.ofInt c.digits T).toNat : ℤ) = E - T
  := by
  have hle : (2 : ℤ) ^ (c.digits - 1) ≤ 2 ^ c.digits := pow_le_pow_right₀ (by omega) (by omega)
  apply toNat_sub_ofInt <;> omega

/-- The event of a level is the first start of its occupied slots. -/
theorem levelEvent_spec (wf : WF w lists frees loose) (clocked : Clocked w lists T)
    (hl : level < c.levels) :
  (w.levelEvent level = none ∧ w.levelStarts lists T level = ∅)
    ∨ ∃ E, w.levelEvent level = some (BitVec.ofInt c.digits E - BitVec.ofInt c.digits T)
        ∧ IsLeast (w.levelStarts lists T level) E
  := by
  have hs := wf.shift_le
  have hK := c.kSlots_pos
  have hun := wf.occupied_unused level hl
  set x := T / 2 ^ w.levelShift level with hx
  have hhere : ((w.slotOf level w.cur : ℕ) : ℤ) = x % c.kSlots := by
    rw [clocked.cur_eq, slotOf_ofInt hs hl]
  -- The slot `j + 1` after the current one is that of the block `x + 1 + j`.
  have hoff : ∀ j : ℕ, (((w.slotOf level w.cur + 1 + j) % c.kSlots : ℕ) : ℤ)
      = (x + 1 + j) % c.kSlots := by
    intro j
    push_cast
    rw [hhere, Int.add_assoc, Int.emod_add_emod, Int.add_assoc]
  have hbit : ∀ slot < c.kSlots, lists (level * c.kSlots + slot) ≠ [] → ∀ q,
      w.Upcoming T level slot q → ∃ j : ℕ, q = x + 1 + j ∧ (w.rotated level).getLsbD j = true := by
    intro slot hslot hne q hq
    have h₁ := hq.after
    have h₂ := hq.within
    obtain ⟨j, hj⟩ := Int.eq_ofNat_of_zero_le (show 0 ≤ q - x - 1 by omega)
    obtain rfl : q = x + 1 + j := by omega
    refine ⟨j, rfl, ?_⟩
    have hplace : (w.slotOf level w.cur + 1 + j) % c.kSlots = slot := by
      exact_mod_cast (hoff j).trans hq.slot_eq
    rw [getLsbD_rotated w hun (by omega), hplace, wf.occupied_iff level hl slot hslot]
    apply hne
  by_cases hzero : w.occupied level = 0
  · left
    constructor
    · rw [levelEvent, if_pos hzero]
    apply Set.eq_empty_of_forall_notMem
    rintro E ⟨slot, hslot, hne, -⟩
    have := (wf.occupied_iff level hl slot hslot).mpr hne
    rw [hzero] at this
    simp at this
  right
  have hrot : w.rotated level ≠ 0 := by
    intro hnil
    apply hzero
    apply BitVec.eq_of_getLsbD_eq
    intro b _
    refine (Bool.eq_false_iff.mpr fun hb => ?_).trans BitVec.getLsbD_zero.symm
    have hbK : b < c.kSlots := by
      by_contra hc
      rw [hun b (by omega)] at hb
      cases hb
    have hne := (wf.occupied_iff level hl b hbK).mp hb
    obtain ⟨q, hq⟩ := clocked.upcoming level hl b hbK hne
    obtain ⟨j, -, hset⟩ := hbit b hbK hne q hq
    simp [hnil] at hset
  set j₀ := (w.rotated level).ctz.toNat with hj₀
  have htrue : (w.rotated level).getLsbD j₀ = true := BitVec.getLsbD_true_ctz_of_ne_zero hrot
  have hj₀K : j₀ < c.kSlots := by
    by_contra hc
    rw [getLsbD_rotated_of_le w hun (by omega)] at htrue
    exact absurd htrue (by simp)
  set slot₀ := (w.slotOf level w.cur + 1 + j₀) % c.kSlots with hslot₀
  have hslotK : slot₀ < c.kSlots := Nat.mod_lt _ hK
  have hslotq : (x + 1 + j₀) % c.kSlots = slot₀ := (hoff j₀).symm
  have hocc : lists (level * c.kSlots + slot₀) ≠ [] := by
    rw [getLsbD_rotated w hun hj₀K] at htrue
    apply (wf.occupied_iff level hl slot₀ hslotK).mp htrue
  have hup : w.Upcoming T level slot₀ (x + 1 + j₀) := by
    obtain ⟨q, hq⟩ := clocked.upcoming level hl slot₀ hslotK hocc
    obtain ⟨j, rfl, -⟩ := hbit slot₀ hslotK hocc q hq
    have hwithin := hq.within
    -- Both are in the first turn after the current block, so they are one block.
    have hdvd := Int.ModEq.dvd (hslotq.trans hq.slot_eq.symm)
    have hzero := Int.eq_zero_of_abs_lt_dvd hdvd (by rw [abs_lt]; omega)
    rwa [show x + 1 + (j₀ : ℤ) = x + 1 + j by omega]
  use (x + 1 + j₀) * 2 ^ w.levelShift level
  refine ⟨?_, ⟨slot₀, hslotK, hocc, x + 1 + j₀, hup, rfl⟩, ?_⟩
  · have hlt := levelShift_add_lt hs hl
    rw [levelEvent, if_neg hzero]
    simp only
    rw [clocked.cur_eq, ofInt_block (by omega), ← hj₀, ← hx]
    push_cast
    ring_nf
  rintro E ⟨slot, hslot, hne, q', hq', rfl⟩
  apply mul_le_mul_of_nonneg_right _ (two_pow_pos _).le
  obtain ⟨j', rfl, hset⟩ := hbit slot hslot hne q' hq'
  by_contra hc
  have hfalse := BitVec.getLsbD_false_of_lt_ctz (x := w.rotated level) (i := j') (by omega)
  rw [hset] at hfalse
  cases hfalse

/-- The next event is the first start of an occupied slot of any level. -/
theorem nextEvent_spec (wf : WF w lists frees loose) (clocked : Clocked w lists T) :
  (w.nextEvent = none ∧ w.starts lists T c.levels = ∅)
    ∨ ∃ E, w.nextEvent = some (BitVec.ofInt c.digits E - BitVec.ofInt c.digits T)
        ∧ IsLeast (w.starts lists T c.levels) E
  := by
  -- By induction on the number of levels looked at.
  suffices h : ∀ n ≤ c.levels, ∀ best, (List.range n).foldl _ none = best →
      (best = none ∧ w.starts lists T n = ∅)
        ∨ ∃ E, best = some (BitVec.ofInt c.digits E - BitVec.ofInt c.digits T)
            ∧ IsLeast (w.starts lists T n) E from h c.levels le_rfl _ rfl
  intro n
  induction n with
  | zero =>
    rintro - best rfl
    left
    use rfl
    apply Set.eq_empty_of_forall_notMem
    rintro E ⟨level, hl, -⟩
    omega
  | succ n ih =>
  rintro hn best rfl
  rw [range_succ, foldl_append, foldl_cons, foldl_nil, starts_succ]
  generalize hb : (List.range n).foldl _ none = best
  replace ih := ih (by omega) best hb
  rcases levelEvent_spec wf clocked (show n < c.levels by omega) with ⟨hev, hnil⟩ | ⟨E', hev, hE'⟩
  · rw [hev, hnil, Set.union_empty]
    exact ih
  rw [hev]
  right
  rcases ih with ⟨rfl, hnil⟩ | ⟨E, rfl, hE⟩
  · refine ⟨E', rfl, ?_⟩
    rwa [hnil, Set.empty_union]
  use min E E'
  refine ⟨?_, hE.union hE'⟩
  obtain ⟨level, hl, hmem⟩ := hE.1
  obtain ⟨h₁, h₂, -⟩ := levelStarts_bounds wf.shift_le (by omega) hmem
  obtain ⟨h₃, h₄, -⟩ := levelStarts_bounds wf.shift_le (by omega) hE'.1
  have hd := toNat_dist h₁ h₂
  have hd' := toNat_dist h₃ h₄
  simp only [BitVec.lt_def]
  by_cases hlt : E' < E
  · rw [if_pos (by omega), min_eq_right hlt.le]
  · rw [if_neg (by omega), min_eq_left (by omega)]

/-! ### Placing a node -/

section Placing

variable {w' : Wheel c P} {lists' : ℕ → List ℕ} {i : ℕ}

theorem levelShift_congr (hs : w'.shift = w.shift) (level : ℕ) :
  w'.levelShift level = w.levelShift level
  := by rw [levelShift, levelShift, hs]

theorem Upcoming.congr (hs : w'.shift = w.shift) (h : w.Upcoming T level slot q) :
  w'.Upcoming T level slot q
  := by
  have e := levelShift_congr hs level
  constructor
  · apply h.slot_eq
  · rw [e]; apply h.after
  · rw [e]; apply h.within

/-- Times are kept by a change of the wheel at one wheel time: a node armed before keeps its
deadline or has the new one as its tick, and a node in a slot was in it, for no later a
deadline, or is newly placed. -/
theorem Timed.transfer {due' : ℕ → ℤ} (timed : Timed w lists T due)
    (hcur : w'.cur = w.cur) (hshift : w'.shift = w.shift) (harmed : ∀ j, w'.ArmedNode j →
      (w.ArmedNode j ∧ (w'.nodes j).deadline = (w.nodes j).deadline ∧ due' j = due j)
        ∨ ((w'.nodes j).deadline = BitVec.ofInt c.digits (due' j)
          ∧ -2 ^ (c.digits - 1) ≤ roundUp w.shift (due' j) - T
          ∧ roundUp w.shift (due' j) - T < 2 ^ (c.digits - 1)))
    (hslots : ∀ level < c.levels, ∀ slot < c.kSlots, ∀ j ∈ lists' (level * c.kSlots + slot),
      (j ∈ lists (level * c.kSlots + slot) ∧ roundUp w.shift (due j) ≤ roundUp w.shift (due' j))
        ∨ ∃ q, w.Upcoming T level slot q ∧ q * 2 ^ w.levelShift level ≤ roundUp w.shift (due' j)) :
  Timed w' lists' T due'
  := by
  constructor
  case cur_eq => rw [hcur]; apply timed.cur_eq
  case dvd => rw [hshift]; apply timed.dvd
  case deadline_eq =>
    intro j hj
    rcases harmed j hj with ⟨h, hd, e⟩ | ⟨hd, -⟩
    · rw [hd, e]
      apply timed.deadline_eq j h
    · apply hd
  case near =>
    intro j hj
    rw [hshift]
    rcases harmed j hj with ⟨h, -, e⟩ | ⟨-, h⟩
    · rw [e]
      apply timed.near j h
    · apply h
  case upcoming =>
  intro level hl slot hslot j hj
  rw [hshift, levelShift_congr hshift]
  rcases hslots level hl slot hslot j hj with ⟨h, hle⟩ | ⟨q, hq, hle⟩
  · obtain ⟨q, hq, hle'⟩ := timed.upcoming level hl slot hslot j h
    exact ⟨q, hq.congr hshift, hle'.trans hle⟩
  · exact ⟨q, hq.congr hshift, hle⟩

/-- Changing links and occupancy words only, without new members of slots. -/
theorem Timed.of_kept (timed : Timed w lists T due) (k : Kept w w')
    (hslots : ∀ h < c.kWheelNodes, ∀ j ∈ lists' h, j ∈ lists h) :
  Timed w' lists' T due
  := by
  apply timed.transfer k.cur k.shift
  · intro j hj
    left
    exact ⟨(k.armedNode_iff j).mp hj, k.deadline j, rfl⟩
  intro level hl slot hslot j hj
  left
  exact ⟨hslots _ (c.slotHead_lt hl hslot) j hj, le_rfl⟩

/-- The links of the loose nodes other than `i` are those of `w`. -/
def LooseKept (w w' : Wheel c P) (loose : Set ℕ) (i : ℕ) : Prop :=
  ∀ j ∈ loose, j ≠ i → w'.links.prev j = w.links.prev j ∧ w'.links.next j = w.links.next j

/-- A loose node is linked to the head of the due list or of a slot. -/
theorem WF.linkAt (wf : WF w lists frees loose) {head : ℕ} (hi : i ∈ loose) {Q : ℕ → ℕ → Prop}
    (hhead : head = c.kReady ∨ ∃ level < c.levels, ∃ slot < c.kSlots,
      head = level * c.kSlots + slot ∧ Q level slot) :
  head < c.kFirst ∧ WF (w.link head i) (update lists head (lists head ++ [i])) frees (loose \ {i})
    ∧ LooseKept w (w.link head i) loose i
    ∧ ∀ level < c.levels, ∀ slot < c.kSlots, level * c.kSlots + slot = head → Q level slot
  := by
  have hlt : head < c.kFirst := by
    rcases hhead with rfl | ⟨level, hl, slot, hslot, rfl, -⟩
    · exact c.kReady_lt
    · exact c.lt_kFirst (c.slotHead_lt hl hslot)
  refine ⟨hlt, wf.link hlt hi, ?_, ?_⟩
  · intro j hj hne
    rw [links_link]
    exact ((wf.loops.loop head hlt).link_frame (wf.loose_not_mem hj hlt) hne).symm
  intro level hl slot hslot e
  rcases hhead with e' | ⟨level', -, slot', hslot', e', hQ⟩
  · have := c.slotHead_lt hl hslot
    rw [e, e', Shape.kReady] at this
    omega
  rw [c.slotHead_iff hslot, e', c.slotHead_div hslot', c.slotHead_mod hslot'] at e
  obtain ⟨rfl, rfl⟩ := e
  exact hQ

/-- Placing a loose node puts it in a list where it is looked at in time, and changes no
links of other loose nodes. -/
theorem WF.place (wf : WF w lists frees loose) (timed : Timed w lists T due) (hi : i ∈ loose) :
  ∃ lists', WF (w.place i) lists' frees (loose \ {i}) ∧ Timed (w.place i) lists' T due
    ∧ LooseKept w (w.place i) loose i
  := by
  have harmed := wf.armed_of_loose i hi
  obtain ⟨hlo, hhi⟩ := timed.near i harmed
  have hspec := headFor_spec wf.shift_le timed.cur_eq (dvd_roundUp w.shift (due i)) hlo hhi
  rw [Wheel.place, timed.deadline_eq i harmed, endOf_ofInt wf.shift_le]
  set head := w.headFor (BitVec.ofInt c.digits (roundUp w.shift (due i))) with hhead
  obtain ⟨-, wf', hlk, hslots⟩ := wf.linkAt hi (hspec.imp And.right And.right)
  have k := kept_link w head i
  refine ⟨_, wf', ?_, hlk⟩
  apply timed.transfer k.cur k.shift
  · intro j hj
    left
    exact ⟨(k.armedNode_iff j).mp hj, k.deadline j, rfl⟩
  intro level hl slot hslot j hj
  by_cases e : level * c.kSlots + slot = head
  · rw [e, update_self, mem_append, mem_singleton] at hj
    rcases hj with hj | rfl
    · left
      rw [e]
      exact ⟨hj, le_rfl⟩
    right
    exact hslots level hl slot hslot e
  left
  rw [update_of_ne e] at hj
  exact ⟨hj, le_rfl⟩

end Placing

end Wheel

end Expiry
