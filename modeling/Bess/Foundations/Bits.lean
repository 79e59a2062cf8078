import Mathlib.Data.BitVec
import Mathlib.Data.List.Range

/-!
# Words as sets of positions

Loops over a word whose bits say which positions of a batch are meant. `visit` takes the lowest bit
that is set, does the work of its position and clears it; it visits the positions of the set bits,
each once, from the lowest on. `collect` sets the bit of each position with a hit. `scatter` puts
the results of a batch back where its entries came from.
-/

namespace Bits

open Function

variable {w i : ℕ} {σ : Type*} {m : BitVec w}

/-! ### The lowest set bit -/

theorem exists_lt_iff_ctz_lt (hi : m.getLsbD i = true) :
  (∃ j < i, m.getLsbD j = true) ↔ i ≠ m.ctz.toNat
  := by
  have hm : m ≠ 0#w := by
    rintro rfl
    rw [BitVec.getLsbD_zero] at hi
    cases hi
  constructor
  · rintro ⟨j, hlt, hj⟩ rfl
    rw [BitVec.getLsbD_false_of_lt_ctz hlt] at hj
    cases hj
  intro hne
  refine ⟨m.ctz.toNat, ?_, BitVec.getLsbD_true_ctz_of_ne_zero hm⟩
  by_contra hnot
  have hlt : i < m.ctz.toNat := by omega
  rw [BitVec.getLsbD_false_of_lt_ctz hlt] at hi
  cases hi

/-- Clearing the lowest set bit leaves the others. -/
theorem getLsbD_clear_lowest (m : BitVec w) (i : ℕ) :
  (m &&& (m - 1)).getLsbD i = (m.getLsbD i && decide (i ≠ m.ctz.toNat))
  := by
  have hsub : m - 1 = ~~~(-m) := by
    rw [BitVec.not_neg]
    rfl
  cases hi : m.getLsbD i with
  | false => rw [BitVec.getLsbD_and, hi, Bool.false_and, Bool.false_and]
  | true =>
  have hlt : i < w := BitVec.lt_of_getLsbD hi
  rw [BitVec.getLsbD_and, hsub, BitVec.getLsbD_not, BitVec.getLsbD_neg, hi, decide_eq_true hlt]
  simp only [Bool.true_xor, Bool.not_not]
  exact decide_eq_decide.mpr (exists_lt_iff_ctz_lt hi)

theorem toNat_clear_lowest_lt (hm : m ≠ 0) :
  (m &&& (m - 1)).toNat < m.toNat
  := by
  have hle : (m &&& (m - 1)).toNat ≤ m.toNat := by
    exact Nat.and_le_left
  apply lt_of_le_of_ne hle
  intro heq
  have hbit := getLsbD_clear_lowest m m.ctz.toNat
  rw [BitVec.eq_of_toNat_eq heq, BitVec.getLsbD_true_ctz_of_ne_zero hm] at hbit
  simp at hbit

/-! ### Visiting the set bits -/

/-- `for (m = mask; m != 0; m &= m - 1)`, with the position `ctz(m)` in the body. -/
def visit (f : ℕ → σ → σ) (m : BitVec w) (s : σ) : σ :=
  if _ : m = 0 then s else visit f (m &&& (m - 1)) (f m.ctz.toNat s)
termination_by m.toNat
decreasing_by exact toNat_clear_lowest_lt ‹_›

/-- Induction over the loop: each set bit is visited once. The predicate speaks of the positions
already visited. -/
theorem visit_induction {f : ℕ → σ → σ} {s : σ}
    (P : (ℕ → Prop) → σ → Prop) (hzero : P (fun _ => False) s)
    (hstep : ∀ done s i, P done s → m.getLsbD i = true → ¬ done i →
      P (fun j => done j ∨ j = i) (f i s)) :
  P (fun j => m.getLsbD j = true) (visit f m s)
  := by
  have hgeneral : ∀ (k : BitVec w) (s : σ), (∀ i, k.getLsbD i = true → m.getLsbD i = true) →
      P (fun j => m.getLsbD j = true ∧ k.getLsbD j = false) s →
      P (fun j => m.getLsbD j = true) (visit f k s) := by
    intro k s hsub hdone
    fun_induction visit f k s with
    | case1 s =>
      convert hdone using 2 with j
      simp
    | case2 k s hk ih =>
    have hbit := BitVec.getLsbD_true_ctz_of_ne_zero hk
    apply ih
    · intro i hi
      rw [getLsbD_clear_lowest, Bool.and_eq_true] at hi
      exact hsub i hi.1
    have hnot : ¬ (m.getLsbD k.ctz.toNat = true ∧ k.getLsbD k.ctz.toNat = false) := by
      rw [hbit]
      simp
    convert hstep _ s k.ctz.toNat hdone (hsub _ hbit) hnot using 2 with j
    rw [getLsbD_clear_lowest]
    by_cases hj : j = k.ctz.toNat
    · subst hj
      simp [hsub _ hbit]
    · simp [hj]
  apply hgeneral m s (fun _ hi => hi)
  convert hzero using 2 with j
  simp

/-! ### Collecting hits -/

/-- `hits |= uint64_t{hit} << i`, for each position. -/
def collect (w : ℕ) (hits : List Bool) : BitVec w :=
  hits.zipIdx.foldl (fun m hit => m ||| (BitVec.ofBool hit.1).setWidth w <<< hit.2) 0

theorem getLsbD_setWidth_ofBool_shift (b : Bool) (n i : ℕ) :
  ((BitVec.ofBool b).setWidth w <<< n).getLsbD i = (decide (i < w) && decide (i = n) && b)
  := by
  rcases lt_trichotomy i n with hlt | heq | hgt
  · simp [hlt, hlt.ne]
  · subst heq
    cases b <;> simp
    omega
  have hne : i - n ≠ 0 := by omega
  simp [hgt.ne', hne]

theorem getLsbD_foldl_collect (hits : List Bool) (n : ℕ) (m : BitVec w) (i : ℕ) :
  ((hits.zipIdx n).foldl (fun m hit => m ||| (BitVec.ofBool hit.1).setWidth w <<< hit.2)
      m).getLsbD i
    = (m.getLsbD i || (decide (i < w) && decide (n ≤ i) && hits[i - n]?.getD false))
  := by
  induction hits generalizing n m with
  | nil => simp
  | cons hit hits ih =>
  rw [List.zipIdx_cons, List.foldl_cons, ih, BitVec.getLsbD_or, getLsbD_setWidth_ofBool_shift]
  rcases lt_trichotomy i n with hlt | heq | hgt
  · have hnot : ¬ n + 1 ≤ i := by omega
    simp [hlt.ne, hnot, hlt.not_ge]
  · subst heq
    simp
  have hle : n + 1 ≤ i := hgt
  obtain ⟨k, rfl⟩ := Nat.exists_eq_add_of_lt hgt
  have hindex : n + k + 1 - n = k + 1 := by omega
  have hindex' : n + k + 1 - (n + 1) = k := by omega
  rw [hindex]
  simp [hgt.ne', hgt.le]

theorem getLsbD_collect (hits : List Bool) (hi : i < w) :
  (collect w hits).getLsbD i = hits[i]?.getD false
  := by
  rw [collect, getLsbD_foldl_collect]
  simp [hi]

/-- `n == 64 ? ~uint64_t{0} : (uint64_t{1} << n) - 1`. -/
def first (w n : ℕ) : BitVec w :=
  if n = w then BitVec.allOnes w else 1#w <<< n - 1

theorem getLsbD_first {n : ℕ} (hn : n ≤ w) (i : ℕ) :
  (first w n).getLsbD i = decide (i < n)
  := by
  rw [first]
  split
  case isTrue heq =>
    subst heq
    exact BitVec.getLsbD_allOnes
  case isFalse hne =>
  have hlt : n < w := lt_of_le_of_ne hn hne
  have hpow : 2 ^ n < 2 ^ w := Nat.pow_lt_pow_right Nat.one_lt_two hlt
  have hpos : 0 < 2 ^ n := Nat.two_pow_pos n
  have honed : (1 : ℕ) < 2 ^ w := by omega
  have htoNat : (1#w <<< n - 1).toNat = 2 ^ n - 1 := by
    rw [BitVec.toNat_sub, BitVec.toNat_shiftLeft, BitVec.toNat_ofNat, Nat.mod_eq_of_lt honed,
      Nat.one_shiftLeft, Nat.mod_eq_of_lt hpow]
    change (2 ^ w - (1#w).toNat + 2 ^ n) % 2 ^ w = 2 ^ n - 1
    rw [BitVec.toNat_ofNat, Nat.mod_eq_of_lt honed]
    have hsum : 2 ^ w - 1 + 2 ^ n = 2 ^ w + (2 ^ n - 1) := by omega
    rw [hsum, Nat.add_mod_left, Nat.mod_eq_of_lt (by omega)]
  rw [BitVec.getLsbD, htoNat, Nat.testBit_two_pow_sub_one]

/-! ### Putting results back -/

/-- Entry `k` of the first `n` changes the position it came from. -/
def scatter {α : Type*} (n : ℕ) (positions : ℕ → ℕ) (g : ℕ → α → α) (out : ℕ → α) : ℕ → α :=
  (List.range n).foldl (fun out k =>
    update out (positions k) (g k (out (positions k)))) out

section Scatter

variable {α : Type*} {n : ℕ} {positions : ℕ → ℕ} {g : ℕ → α → α} {out : ℕ → α}

theorem scatter_succ :
  scatter (n + 1) positions g out
    = update (scatter n positions g out) (positions n)
        (g n (scatter n positions g out (positions n)))
  := by
  rw [scatter, List.range_succ, List.foldl_append]
  rfl

theorem scatter_of_ne (hi : ∀ k < n, positions k ≠ i) :
  scatter n positions g out i = out i
  := by
  induction n with
  | zero => rfl
  | succ n ih =>
  rw [scatter_succ, update_of_ne (Ne.symm (hi n (Nat.lt_succ_self n)))]
  apply ih
  intro k hk
  exact hi k (Nat.lt_succ_of_lt hk)

theorem scatter_of_lt (hinj : ∀ k < n, ∀ l < n, positions k = positions l → k = l) {k : ℕ}
    (hk : k < n) :
  scatter n positions g out (positions k) = g k (out (positions k))
  := by
  induction n with
  | zero => exact absurd hk (Nat.not_lt_zero k)
  | succ n ih =>
  rw [scatter_succ]
  rcases Nat.lt_succ_iff_lt_or_eq.mp hk with hlt | rfl
  · have hne : positions k ≠ positions n := fun heq =>
      hlt.ne (hinj k hk n (Nat.lt_succ_self n) heq)
    rw [update_of_ne hne]
    apply ih _ hlt
    intro k' hk' l hl
    exact hinj k' (Nat.lt_succ_of_lt hk') l (Nat.lt_succ_of_lt hl)
  rw [update_self, scatter_of_ne]
  intro l hl heq
  exact hl.ne (hinj l (Nat.lt_succ_of_lt hl) k hk heq)

end Scatter

end Bits
