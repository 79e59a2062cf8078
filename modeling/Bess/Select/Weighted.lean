import Mathlib

/-!
# Weighted choice of a member

`WeightedSelector` of `member_select.h` chooses by an alias table. Each bucket keeps a part of its
height and gives the rest to its alias, and the parts a member has add up to its weight exactly
(`Inv.parts`); what is left is the rounding of the thresholds and of the hashes to buckets
(`build_proportional`).
-/

namespace Select

open Function

/-- `WeightedSelector`. -/
structure WeightedSelector where
  size : ℕ
  threshold : ℕ → ℕ
  alias_ : ℕ → ℕ

/-- `WeightedSelector::operator()`. -/
def WeightedSelector.select (s : WeightedSelector) (hash : ℕ) : ℕ :=
  let product := hash * s.size
  let bucket := product >>> 32
  let keep : BitVec 32 := 0 - if product % 2 ^ 32 < s.threshold bucket then 1 else 0
  (BitVec.ofNat 32 bucket &&& keep ||| BitVec.ofNat 32 (s.alias_ bucket) &&& ~~~keep).toNat

/-- The vectors of `Build`. The stacks have their backs at the heads of the lists. -/
structure Tables where
  scaled : ℕ → ℕ
  threshold : ℕ → ℕ
  alias_ : ℕ → ℕ
  small : List ℕ
  large : List ℕ

/-- One turn of the loop that pairs buckets. Without a pair the loop has ended. -/
def Tables.pair (total : ℕ) (t : Tables) : Tables :=
  match t.small, t.large with
  | l :: small, g :: large =>
      let scaled := update t.scaled g (t.scaled g - (total - t.scaled l))
      { scaled
        threshold := update t.threshold l ((t.scaled l <<< 32 / total) % 2 ^ 32)
        alias_ := update t.alias_ l g
        small := if scaled g < total then g :: small else small
        large := if scaled g < total then large else g :: large }
  | _, _ => t

/-- The buckets that were not paired. -/
def Tables.leftovers (t : Tables) : List ℕ := t.small ++ t.large

section Build

variable (n total : ℕ) (w : ℕ → ℕ)

/-- The tables before buckets are paired. `total` is the full height of a bucket. -/
def start : Tables :=
  let scaled i := w i * n
  let sides := (List.range n).reverse.partition (scaled · < total)
  ⟨scaled, fun _ => 0, id, sides.1, sides.2⟩

/-- The tables after `k` turns of the loop. -/
def turn (k : ℕ) : Tables := (Tables.pair total)^[k] (start n total w)

/-- `WeightedSelector::Build`. A turn of the loop takes a bucket off the stacks for good, so the loop
has ended after `n` turns. -/
def build : Option WeightedSelector :=
  let total := ((List.range n).map w).sum
  if n = 0 ∨ total = 0 ∨ 2 ^ 24 < n then none
  else
    let t := turn n total w n
    some ⟨n, t.threshold, fun i => if i ∈ t.leftovers then i else t.alias_ i⟩

end Build

/-! ### The loop of `Build` -/

/-- What holds after `k` turns. A bucket that was paired keeps `scaled` of its height and gives the
rest to its alias. -/
structure Inv (n total : ℕ) (w : ℕ → ℕ) (k : ℕ) (t : Tables) : Prop where
  small : ∀ i ∈ t.small, t.scaled i < total
  large : ∀ i ∈ t.large, total ≤ t.scaled i
  nodup : t.leftovers.Nodup
  lt : ∀ i ∈ t.leftovers, i < n
  sum : (t.leftovers.map t.scaled).sum = total * t.leftovers.length
  self : ∀ i ∈ t.leftovers, t.alias_ i = i ∧ t.threshold i = 0
  paired : ∀ b < n, b ∉ t.leftovers → t.scaled b < total
    ∧ t.threshold b = t.scaled b <<< 32 / total
    ∧ t.alias_ b < n ∧ t.alias_ b ≠ b ∧ w (t.alias_ b) ≠ 0
  parts : ∀ i, w i * n = t.scaled i
    + ∑ b ∈ Finset.range n, if t.alias_ b = i ∧ b ≠ i then total - t.scaled b else 0
  turns : t.small = [] ∨ t.large = [] ∨ t.leftovers.length + k ≤ n

variable {n total k b i : ℕ} {w : ℕ → ℕ} {t : Tables}

section Loop

open List

theorem Inv.start (htotal : ((range n).map w).sum = total) :
  Inv n total w 0 (start n total w)
  := by
  have hperm : (Select.start n total w).leftovers ~ range n := by
    simp only [Select.start, partition_eq_filter_filter]
    exact (filter_append_perm _ _).trans (reverse_perm _)
  constructor
  case small | large => simp [Select.start]
  case nodup => exact hperm.nodup_iff.mpr nodup_range
  case lt =>
    intro i hi
    exact mem_range.mp (hperm.mem_iff.mp hi)
  case sum =>
    rw [(hperm.map _).sum_eq, hperm.length_eq, length_range, ← htotal]
    apply List.sum_map_mul_right
  case self => exact fun _ _ => ⟨rfl, rfl⟩
  case paired =>
    intro b hb hnot
    exact absurd (hperm.mem_iff.mpr (mem_range.mpr hb)) hnot
  case parts =>
    intro i
    rw [Finset.sum_eq_zero]
    · rfl
    rintro b -
    exact if_neg (not_and_not_right.mpr id)
  case turns => exact .inr (.inr (by rw [hperm.length_eq, length_range, Nat.add_zero]))

theorem threshold_lt {x : ℕ} (hx : x < total) : x <<< 32 / total < 2 ^ 32 := by
  rw [Nat.shiftLeft_eq, Nat.div_lt_iff_lt_mul (Nat.zero_lt_of_lt hx), Nat.mul_comm]
  exact Nat.mul_lt_mul_of_pos_left hx (by decide)

theorem Inv.weight_ne_zero (inv : Inv n total w k t) (hpos : 0 < t.scaled i) :
  w i ≠ 0
  := by
  intro hzero
  have := inv.parts i
  rw [hzero] at this
  omega

theorem Inv.pair (inv : Inv n total w k t) (htotal : 0 < total) :
  Inv n total w (k + 1) (t.pair total)
  := by
  rw [Tables.pair]
  split
  case h_2 hno =>
    refine { inv with turns := ?_ }
    cases hsmall : t.small with
    | nil => exact .inl rfl
    | cons l small =>
    cases hlarge : t.large with
    | nil => exact .inr (.inl rfl)
    | cons g large => exact absurd hlarge (hno l small g large hsmall)
  case h_1 l small g large hsmall hlarge =>
  have hl := inv.small l (hsmall ▸ mem_cons_self)
  have hg := inv.large g (hlarge ▸ mem_cons_self)
  have hold : t.leftovers ~ l :: g :: (small ++ large) := by
    rw [Tables.leftovers, hsmall, hlarge]
    exact perm_middle.cons l
  have hmem : ∀ {i}, i ∈ t.leftovers ↔ i = l ∨ i ∈ g :: (small ++ large) := by
    intro i
    rw [hold.mem_iff, mem_cons]
  obtain ⟨hlQ, hnodup⟩ := nodup_cons.mp (hold.nodup_iff.mp inv.nodup)
  have hlg : l ≠ g := fun e => hlQ (e ▸ mem_cons_self)
  have hlt : l < n := inv.lt l (hmem.mpr (.inl rfl))
  set scaled := update t.scaled g (t.scaled g - (total - t.scaled l))
  have hg' : scaled g = t.scaled g - (total - t.scaled l) := update_self ..
  have hother : ∀ i, i ≠ g → scaled i = t.scaled i := fun i hi => update_of_ne hi _ _
  have hnew : (if scaled g < total then g :: small else small)
      ++ (if scaled g < total then large else g :: large) ~ g :: (small ++ large) := by
    split
    · exact .refl _
    · exact perm_middle
  have hrest : ∀ i ∈ small ++ large, scaled i = t.scaled i :=
    fun i hi => hother i (ne_of_mem_of_not_mem hi (nodup_cons.mp hnodup).1)
  have hlow : ∀ i ∈ small, scaled i < total := by
    intro i hi
    rw [hrest i (mem_append_left _ hi)]
    exact inv.small i (hsmall ▸ mem_cons_of_mem _ hi)
  have hhigh : ∀ i ∈ large, total ≤ scaled i := by
    intro i hi
    rw [hrest i (mem_append_right _ hi)]
    exact inv.large i (hlarge ▸ mem_cons_of_mem _ hi)
  constructor
  all_goals dsimp only [Tables.leftovers]
  case small =>
    split
    case isTrue hlt => exact forall_mem_cons.mpr ⟨hlt, hlow⟩
    case isFalse => exact hlow
  case large =>
    split
    case isTrue => exact hhigh
    case isFalse hge => exact forall_mem_cons.mpr ⟨not_lt.mp hge, hhigh⟩
  case nodup => exact hnew.nodup_iff.mpr hnodup
  case lt =>
    intro i hi
    exact inv.lt i (hmem.mpr (.inr (hnew.mem_iff.mp hi)))
  case sum =>
    have hsum := inv.sum
    rw [(hold.map _).sum_eq, hold.length_eq] at hsum
    rw [(hnew.map _).sum_eq, hnew.length_eq]
    simp only [map_cons, sum_cons, length_cons, map_congr_left hrest, Nat.mul_add] at hsum ⊢
    omega
  case self =>
    intro i hi
    have hi' := hnew.mem_iff.mp hi
    have hil : i ≠ l := ne_of_mem_of_not_mem hi' hlQ
    rw [update_of_ne hil, update_of_ne hil]
    exact inv.self i (hmem.mpr (.inr hi'))
  case paired =>
    intro b hb hnot
    have hnot' : b ∉ g :: (small ++ large) := fun h => hnot (hnew.mem_iff.mpr h)
    have hbg : b ≠ g := fun e => hnot' (e ▸ mem_cons_self)
    rw [hother b hbg]
    by_cases e : b = l
    case pos =>
      subst e
      rw [update_self, update_self, Nat.mod_eq_of_lt (threshold_lt hl)]
      exact ⟨hl, rfl, inv.lt g (hmem.mpr (.inr mem_cons_self)), hlg.symm,
        inv.weight_ne_zero (htotal.trans_le hg)⟩
    case neg =>
    rw [update_of_ne e, update_of_ne e]
    apply inv.paired b hb
    rw [hmem]
    exact not_or.mpr ⟨e, hnot'⟩
  case parts =>
    intro i
    have hgg := (inv.self g (hmem.mpr (.inr mem_cons_self))).1
    have hll := (inv.self l (hmem.mpr (.inl rfl))).1
    have hterm : ∀ b, (if update t.alias_ l g b = i ∧ b ≠ i then total - scaled b else 0)
        = (if t.alias_ b = i ∧ b ≠ i then total - t.scaled b else 0)
          + if b = l then if g = i then total - t.scaled l else 0 else 0 := by
      intro b
      by_cases e : b = l
      case pos =>
        subst e
        rw [update_self, hother b hlg, hll, if_pos rfl, if_neg (not_and_not_right.mpr id),
          Nat.zero_add]
        exact if_congr (and_iff_left_of_imp fun e => e ▸ hlg) rfl rfl
      case neg =>
      rw [update_of_ne e, if_neg e, Nat.add_zero]
      by_cases e' : b = g
      · subst e'
        rw [hgg, if_neg (not_and_not_right.mpr id), if_neg (not_and_not_right.mpr id)]
      · rw [hother b e']
    rw [Finset.sum_congr rfl fun b _ => hterm b, Finset.sum_add_distrib, Finset.sum_ite_eq',
      if_pos (Finset.mem_range.mpr hlt), inv.parts i]
    by_cases e : g = i
    case pos =>
      subst e
      rw [if_pos rfl]
      omega
    case neg => rw [if_neg e, hother i (Ne.symm e), Nat.add_zero]
  case turns =>
  have hlen := hold.length_eq
  rw [hnew.length_eq]
  have := inv.turns
  simp only [hsmall, hlarge, reduceCtorEq, false_or, hlen, length_cons] at this ⊢
  omega

theorem Inv.turn (hsum : ((range n).map w).sum = total) (htotal : 0 < total) (k : ℕ) :
  Inv n total w k (turn n total w k)
  := by
  induction k with
  | zero => exact Inv.start hsum
  | succ k ih =>
  rw [Select.turn, iterate_succ_apply']
  exact ih.pair htotal

/-- When the loop has ended the buckets left are full: their heights average to `total`, and none is
on the other side of it. -/
theorem Inv.full (inv : Inv n total w k t) (hdone : t.small = [] ∨ t.large = []) :
  ∀ i ∈ t.leftovers, t.scaled i = total
  := by
  have hsum : (t.leftovers.map t.scaled).sum = (t.leftovers.map fun _ => total).sum := by
    rw [inv.sum, map_const', sum_replicate, smul_eq_mul, Nat.mul_comm]
  intro i hi
  by_contra hne
  cases hdone with
  | inl hsmall =>
    have hle : ∀ j ∈ t.leftovers, total ≤ t.scaled j := by
      intro j hj
      rw [Tables.leftovers, hsmall] at hj
      exact inv.large j hj
    exact hsum.not_gt (sum_lt_sum _ _ hle ⟨i, hi, (hle i hi).lt_of_ne' hne⟩)
  | inr hlarge =>
  have hle : ∀ j ∈ t.leftovers, t.scaled j ≤ total := by
    intro j hj
    rw [Tables.leftovers, hlarge, append_nil] at hj
    exact (inv.small j hj).le
  exact hsum.not_lt (sum_lt_sum _ _ hle ⟨i, hi, (hle i hi).lt_of_ne hne⟩)

theorem Inv.alias_lt (inv : Inv n total w k t) (b : ℕ) (hb : b < n) : t.alias_ b < n := by
  by_cases hleft : b ∈ t.leftovers
  · rwa [(inv.self b hleft).1]
  · exact (inv.paired b hb hleft).2.2.1

theorem Inv.done (inv : Inv n total w n t) : t.small = [] ∨ t.large = [] := by
  obtain h | h | h := inv.turns
  · exact .inl h
  · exact .inr h
  rw [Tables.leftovers, length_append] at h
  exact .inl (eq_nil_of_length_eq_zero (by omega))

end Loop

/-! ### The hashes a bucket takes -/

section Count

open Finset

/-- The multiples of `n` in an interval are its length over `n`, within one. -/
theorem card_multiples {N lo hi : ℕ} (hn : 0 < n) (hle : lo ≤ hi) (hhi : hi ≤ N * n) :
  |(n : ℤ) * #{h ∈ Finset.range N | lo ≤ h * n ∧ h * n < hi} - (hi - lo)| ≤ n
  := by
  have hset : {h ∈ Finset.range N | lo ≤ h * n ∧ h * n < hi} = Ico (lo ⌈/⌉ n) (hi ⌈/⌉ n) := by
    ext h
    rw [mem_filter, Finset.mem_range, mem_Ico, ceilDiv_le_iff_le_mul hn, ← not_le,
      ← not_le (a := hi ⌈/⌉ n), ceilDiv_le_iff_le_mul hn, mul_comm n h, not_le, not_le]
    exact and_iff_right_of_imp fun h' => Nat.lt_of_mul_lt_mul_right (h'.2.trans_le hhi)
  have hceil : ∀ x : ℕ, x ≤ n * (x ⌈/⌉ n) ∧ n * (x ⌈/⌉ n) < x + n := by
    intro x
    constructor
    · exact (ceilDiv_le_iff_le_mul hn).mp le_rfl
    have := Nat.mul_div_le (x + n - 1) n
    rw [Nat.ceilDiv_eq_add_pred_div]
    omega
  obtain ⟨hlo₁, hlo₂⟩ := hceil lo
  obtain ⟨hhi₁, hhi₂⟩ := hceil hi
  have hmono : lo ⌈/⌉ n ≤ hi ⌈/⌉ n := (ceilDiv_le_iff_le_mul hn).mpr (hle.trans hhi₁)
  rw [hset, Nat.card_Ico, Nat.cast_sub hmono, abs_le]
  constructor <;> linarith

/-- The hashes that choose `i` by bucket `b` are, within one, the part of `b`'s share of the products
that is `i`'s. -/
theorem card_bucket {threshold : ℕ} (other i : ℕ) (hb : b < n) (hthreshold : threshold ≤ 2 ^ 32) :
  |(n : ℤ) * #{h ∈ range (2 ^ 32) | h * n / 2 ^ 32 = b
      ∧ (if h * n % 2 ^ 32 < threshold then b else other) = i}
    - ((if b = i then (threshold : ℤ) else 0) + if other = i then 2 ^ 32 - (threshold : ℤ) else 0)|
  ≤ n
  := by
  have hset : ∀ h, (h * n / 2 ^ 32 = b ∧ (if h * n % 2 ^ 32 < threshold then b else other) = i)
      ↔ b * 2 ^ 32 + (if b = i then 0 else threshold) ≤ h * n
        ∧ h * n < b * 2 ^ 32 + if other = i then 2 ^ 32 else threshold := by
    intro h
    split_ifs <;> omega
  have hle : b * 2 ^ 32 + (if b = i then 0 else threshold)
      ≤ b * 2 ^ 32 + if other = i then 2 ^ 32 else threshold := by
    split_ifs <;> omega
  have hlast : (b * 2 ^ 32 + if other = i then 2 ^ 32 else threshold) ≤ 2 ^ 32 * n := by
    split_ifs <;> omega
  have hcard := card_multiples (Nat.zero_lt_of_lt hb) hle hlast
  simp only [← hset] at hcard
  convert hcard using 3
  split_ifs <;> push_cast <;> ring

theorem scaled_error {total c share part m : ℤ} (htotal : 0 ≤ total) (hc : |c - share| ≤ m)
    (hpart : |total * share - part| ≤ total) :
  |total * c - part| ≤ total * m + total
  := by
  calc |total * c - part|
    _ = |total * (c - share) + (total * share - part)| := by
        congr 1
        ring
    _ ≤ |total * (c - share)| + |total * share - part| := abs_add_le _ _
    _ ≤ total * m + total := by
        rw [abs_mul, abs_of_nonneg htotal]
        gcongr

/-- A bucket gives a member its part of the hashes but for two roundings: of the hashes that meet the
bucket, and of the threshold. -/
theorem Inv.bucket (inv : Inv n total w k t)
    (hdone : t.small = [] ∨ t.large = []) (hb : b < n) (i : ℕ) :
  |(total : ℤ) * (n * #{h ∈ range (2 ^ 32) | h * n / 2 ^ 32 = b
      ∧ (if h * n % 2 ^ 32 < t.threshold b then b else t.alias_ b) = i})
    - 2 ^ 32 * ((if b = i then t.scaled b else 0)
      + if t.alias_ b = i ∧ b ≠ i then total - t.scaled b else 0 : ℕ)|
  ≤ (total : ℤ) * n + total
  := by
  by_cases hleft : b ∈ t.leftovers
  case pos =>
    rw [(inv.self b hleft).1, (inv.self b hleft).2, inv.full hdone b hleft]
    apply scaled_error (Nat.cast_nonneg _) (card_bucket b i hb (Nat.zero_le _))
    split_ifs <;> simp [mul_comm]
  case neg =>
  obtain ⟨hlt, hthreshold, -, hne, -⟩ := inv.paired b hb hleft
  have hfit := threshold_lt hlt
  rw [← hthreshold] at hfit
  rw [Nat.shiftLeft_eq] at hthreshold
  have hlo := Nat.div_mul_le_self (t.scaled b * 2 ^ 32) total
  have hhi := Nat.lt_div_mul_add (a := t.scaled b * 2 ^ 32) (Nat.zero_lt_of_lt hlt)
  rw [← hthreshold] at hlo hhi
  apply scaled_error (Nat.cast_nonneg _) (card_bucket (t.alias_ b) i hb hfit.le)
  by_cases e : b = i
  case pos =>
    subst e
    rw [if_pos rfl, if_neg hne, if_pos rfl, if_neg (fun h => hne h.1), abs_le]
    push_cast
    constructor <;> linarith
  case neg =>
  simp only [and_iff_left e]
  split_ifs
  · push_cast [hlt.le]
    rw [abs_le]
    constructor <;> linarith
  · simp

end Count

/-! ### The choice -/

/-- The hashes that choose member `i`. -/
def WeightedSelector.share (s : WeightedSelector) (i : ℕ) : Finset ℕ :=
  {h ∈ Finset.range (2 ^ 32) | s.select h = i}

theorem Inv.select (inv : Inv n total w k t) (hn : 0 < n) (hsize : n ≤ 2 ^ 24) {h : ℕ}
    (hh : h < 2 ^ 32) :
  ∃ b < n, h * n / 2 ^ 32 = b ∧ WeightedSelector.select ⟨n, t.threshold, t.alias_⟩ h
    = if h * n % 2 ^ 32 < t.threshold b then b else t.alias_ b
  := by
  have hb : h * n / 2 ^ 32 < n := Nat.div_lt_of_lt_mul (Nat.mul_lt_mul_of_pos_right hh hn)
  use h * n / 2 ^ 32, hb, rfl
  have halias := inv.alias_lt _ hb
  rw [WeightedSelector.select, Nat.shiftRight_eq_div_pow]
  dsimp only
  split
  · rw [show (0 : BitVec 32) - 1 = BitVec.allOnes 32 by decide, BitVec.and_allOnes,
      BitVec.not_allOnes, BitVec.and_zero, BitVec.or_zero, BitVec.toNat_ofNat]
    omega
  simp only [BitVec.ofNat_eq_ofNat, BitVec.sub_zero, BitVec.and_zero, BitVec.not_zero,
    BitVec.and_allOnes, BitVec.zero_or, BitVec.toNat_ofNat]
  omega

open Finset in
/-- The parts of a member add up to its weight, so only the buckets' roundings are left. -/
theorem Inv.share (inv : Inv n total w k t) (hdone : t.small = [] ∨ t.large = [])
    (hsize : n ≤ 2 ^ 24) (hi : i < n) :
  |(total : ℤ) * #(WeightedSelector.share ⟨n, t.threshold, t.alias_⟩ i) - 2 ^ 32 * w i|
    ≤ (2 * n * total : ℤ)
  := by
  have hn : 0 < n := Nat.zero_lt_of_lt hi
  have hmaps : ∀ h ∈ WeightedSelector.share ⟨n, t.threshold, t.alias_⟩ i,
      h * n / 2 ^ 32 ∈ range n := by
    intro h hh
    obtain ⟨b, hb, rfl, -⟩ := inv.select hn hsize (mem_range.mp (mem_filter.mp hh).1)
    exact mem_range.mpr hb
  have hfiber : ∀ b, {h ∈ WeightedSelector.share ⟨n, t.threshold, t.alias_⟩ i | h * n / 2 ^ 32 = b}
      = {h ∈ range (2 ^ 32) | h * n / 2 ^ 32 = b
        ∧ (if h * n % 2 ^ 32 < t.threshold b then b else t.alias_ b) = i} := by
    intro b
    rw [WeightedSelector.share, filter_filter]
    apply filter_congr
    intro h hh
    obtain ⟨b', -, hb', hs⟩ := inv.select hn hsize (mem_range.mp hh)
    rw [hs, hb', and_comm]
    apply and_congr_right
    rintro rfl
    rfl
  have herror := (abs_sum_le_sum_abs _ (range n)).trans
    (sum_le_card_nsmul _ _ _ fun b hb => inv.bucket hdone (mem_range.mp hb) i)
  have hfactor : ∀ x c y : ℤ, x * (n * c) - 2 ^ 32 * (y * n) = n * (x * c - 2 ^ 32 * y) := by
    intro x c y
    ring
  simp only [← hfiber] at herror
  rw [sum_sub_distrib, ← mul_sum, ← mul_sum, ← mul_sum, ← Nat.cast_sum, ← Nat.cast_sum,
    sum_add_distrib, sum_ite_eq', if_pos (mem_range.mpr hi), ← inv.parts, card_range,
    Nat.cast_mul, hfactor, abs_mul, Nat.abs_cast, ← card_eq_sum_card_fiberwise hmaps] at herror
  have hle : (total : ℤ) ≤ n * total := by
    exact_mod_cast Nat.le_mul_of_pos_left _ hn
  linarith [le_of_mul_le_mul_left herror (Nat.cast_pos.mpr hn)]

/-- A bucket keeps hashes only when its own member has a weight, and gives hashes only to one that
has. -/
theorem Inv.chosen (inv : Inv n total w k t) (hdone : t.small = [] ∨ t.large = [])
    (htotal : 0 < total) (hb : b < n) (q : ℕ) :
  w (if q < t.threshold b then b else t.alias_ b) ≠ 0
  := by
  by_cases hleft : b ∈ t.leftovers
  case pos =>
    rw [(inv.self b hleft).1, ite_self]
    exact inv.weight_ne_zero (inv.full hdone b hleft ▸ htotal)
  case neg =>
  obtain ⟨-, hthreshold, -, -, halias⟩ := inv.paired b hb hleft
  split
  case isTrue hq =>
    apply inv.weight_ne_zero
    by_contra hzero
    rw [Nat.eq_zero_of_not_pos hzero, Nat.zero_shiftLeft, Nat.zero_div] at hthreshold
    omega
  case isFalse => exact halias

/-- Each member is chosen for its share of the hashes within two for a bucket, and only members with
a weight are. No product or sum wraps at any turn of the loop, and the loop ends. -/
theorem build_proportional (n : ℕ) (weights : ℕ → BitVec 32) :
  match build n fun i => (weights i).toNat with
  | none => n = 0 ∨ (∀ i < n, weights i = 0) ∨ 2 ^ 24 < n
  | some s =>
      let w i := (weights i).toNat
      let total := ((List.range n).map w).sum
      (∀ i < n, |(total : ℤ) * (s.share i).card - 2 ^ 32 * w i| ≤ (2 * n * total : ℤ))
      ∧ (∀ hash < 2 ^ 32, s.select hash < n ∧ w (s.select hash) ≠ 0)
      ∧ ((turn n total w n).small = [] ∨ (turn n total w n).large = [])
      ∧ total < 2 ^ 64 ∧ (∀ x < 2 ^ 32, x * n < 2 ^ 64)
      ∧ ∀ k, ∀ l ∈ (turn n total w k).small.head?, ∀ g ∈ (turn n total w k).large.head?,
        let scaled := (turn n total w k).scaled
        scaled l <<< 32 < 2 ^ 128 ∧ scaled l <<< 32 / total < 2 ^ 32
        ∧ scaled l ≤ total ∧ total - scaled l ≤ scaled g
  := by
  set w : ℕ → ℕ := fun i => (weights i).toNat
  rw [build]
  by_cases hno : n = 0 ∨ ((List.range n).map w).sum = 0 ∨ 2 ^ 24 < n
  case pos =>
    rw [if_pos hno]
    refine hno.imp_right (.imp_left ?_)
    intro hzero i hi
    have hmem : w i ∈ (List.range n).map w := List.mem_map_of_mem (List.mem_range.mpr hi)
    exact BitVec.eq_of_toNat_eq (List.sum_eq_zero_iff.mp hzero _ hmem)
  case neg =>
  rw [if_neg hno]
  dsimp only
  set total := ((List.range n).map w).sum
  obtain ⟨hn, htotal, hsize⟩ : 0 < n ∧ 0 < total ∧ n ≤ 2 ^ 24 := by omega
  have inv : ∀ k, Inv n total w k (turn n total w k) := Inv.turn rfl htotal
  have hdone := (inv n).done
  have halias : (fun i => if i ∈ (turn n total w n).leftovers then i
      else (turn n total w n).alias_ i) = (turn n total w n).alias_ := by
    funext i
    split
    case isTrue hi => exact ((inv n).self i hi).1.symm
    case isFalse => rfl
  rw [halias]
  have hsum : total ≤ n * 2 ^ 32 := by
    have := List.sum_le_card_nsmul ((List.range n).map w) (2 ^ 32) ?_
    · rwa [List.length_map, List.length_range] at this
    intro x hx
    obtain ⟨i, -, rfl⟩ := List.mem_map.mp hx
    exact (weights i).isLt.le
  refine ⟨fun i => (inv n).share hdone hsize, ?_, hdone, by omega, ?_, ?_⟩
  · intro hash hh
    obtain ⟨b, hb, -, hs⟩ := (inv n).select hn hsize hh
    rw [hs]
    refine ⟨?_, (inv n).chosen hdone htotal hb _⟩
    split
    · exact hb
    · exact (inv n).alias_lt b hb
  · intro x hx
    have := Nat.mul_le_mul_right n hx.le
    omega
  intro k l hl g hg
  have hl := (inv k).small l (List.mem_of_mem_head? hl)
  have hg := (inv k).large g (List.mem_of_mem_head? hg)
  refine ⟨?_, threshold_lt hl, hl.le, by omega⟩
  omega

end Select
