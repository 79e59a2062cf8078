import Bess.Foundations.Words
import Mathlib.Data.List.Basic

/-!
# The kernels for keys of a fixed width

`MaskBatchFixed` (`core/classifier/mask_batch.h`) and `CmpFixed`
(`core/classifier/concurrent_exact.h`). Both go over a key in words of eight bytes, and over what is
left in a word of four, one of two and one of a single byte.
-/

namespace Classifier

open List Words

/-- The words in which `MaskBatchFixed` goes over a key: where each begins, and its bytes. -/
def maskWords (width : ℕ) : List (ℕ × ℕ) :=
  let kWords := width / 8
  let kTail := width % 8
  (range kWords).map (fun w => (8 * w, 8))
    ++ (if 4 ≤ kTail then [(8 * kWords, 4)] else [])
    ++ (if 2 ≤ kTail % 4 then [(width - kTail % 2 - 2, 2)] else [])
    ++ if kTail % 2 = 1 then [(width - 1, 1)] else []

/-- The words of a key are masked and written into its row. -/
def maskRow (width : ℕ) (src mask : Bytes) (dst : ℕ) (out : Bytes) : Bytes :=
  (maskWords width).foldl
    (fun out w => store out (dst + w.1) w.2 (load src w.1 w.2 &&& load mask w.1 w.2)) out

/-- `MaskBatchFixed`. -/
def maskBatchFixed (width : ℕ) (keys : Bytes) (keyStride : ℕ) (mask : Bytes) (count : ℕ)
    (out : Bytes) : Bytes :=
  (range count).foldl
    (fun out i => maskRow width (fun k => keys (i * keyStride + k)) mask (i * width) out) out

/-- The words in which `CmpFixed` goes over a key. -/
def cmpWords (width : ℕ) : List (ℕ × ℕ) :=
  let i := 8 * (width / 8)
  let i₄ := if 4 ≤ width % 8 then i + 4 else i
  let i₂ := if 2 ≤ width % 4 then i₄ + 2 else i₄
  (range (width / 8)).map (fun w => (8 * w, 8))
    ++ (if 4 ≤ width % 8 then [(i, 4)] else [])
    ++ (if 2 ≤ width % 4 then [(i₄, 2)] else [])
    ++ if width % 2 = 1 then [(i₂, 1)] else []

/-- `CmpFixed`. -/
def cmpFixed (width : ℕ) (x y : Bytes) : ℕ :=
  let diff : BitVec 64 := (cmpWords width).foldl
    (fun diff w => diff ||| (load x w.1 w.2 ^^^ load y w.1 w.2).setWidth 64) 0
  if diff ≠ 0 then 1 else 0

variable {width k : ℕ}

theorem mem_words_iff :
  (∃ w ∈ (range (width / 8)).map (fun w => (8 * w, 8)), w.1 ≤ k ∧ k < w.1 + w.2)
    ↔ k < 8 * (width / 8)
  := by
  constructor
  · rintro ⟨w, hw, hle, hlt⟩
    obtain ⟨i, hi, rfl⟩ := mem_map.mp hw
    rw [mem_range] at hi
    dsimp only at hlt
    omega
  intro hk
  refine ⟨(8 * (k / 8), 8), mem_map_of_mem (mem_range.mpr (by omega)), ?_, ?_⟩
  · exact Nat.mul_div_le k 8
  dsimp only
  omega

theorem mem_maskWords_iff :
  (∃ w ∈ maskWords width, w.1 ≤ k ∧ k < w.1 + w.2) ↔ k < width
  := by
  simp only [maskWords, mem_append, or_and_right, exists_or, mem_words_iff]
  split_ifs <;> simp <;> omega

theorem mem_cmpWords_iff :
  (∃ w ∈ cmpWords width, w.1 ≤ k ∧ k < w.1 + w.2) ↔ k < width
  := by
  simp only [cmpWords, mem_append, or_and_right, exists_or, mem_words_iff]
  split_ifs <;> simp <;> omega

theorem cmpWords_le :
  ∀ w ∈ cmpWords width, w.2 ≤ 8
  := by
  simp only [cmpWords, forall_mem_append, forall_mem_map]
  refine ⟨⟨⟨fun _ _ => Nat.le_refl 8, ?_⟩, ?_⟩, ?_⟩ <;> split <;> simp

/-- The row of a key is its bytes under the mask, and no other byte is written. -/
theorem maskRow_eq (src mask : Bytes) (dst : ℕ) (out : Bytes) (j : ℕ) :
  maskRow width src mask dst out j
    = if dst ≤ j ∧ j < dst + width then src (j - dst) &&& mask (j - dst) else out j
  := by
  have hfold (words : List (ℕ × ℕ)) (out : Bytes) :
      words.foldl (fun out w =>
          store out (dst + w.1) w.2 (load src w.1 w.2 &&& load mask w.1 w.2)) out j
        = if dst ≤ j ∧ ∃ w ∈ words, w.1 ≤ j - dst ∧ j - dst < w.1 + w.2 then
            src (j - dst) &&& mask (j - dst) else out j := by
    induction words generalizing out with
    | nil => simp
    | cons w words ih =>
    rw [foldl_cons, ih, store]
    by_cases hmem : dst ≤ j ∧ ∃ w ∈ words, w.1 ≤ j - dst ∧ j - dst < w.1 + w.2
    · rw [if_pos hmem, if_pos ⟨hmem.1, exists_mem_cons_of_exists hmem.2⟩]
    rw [if_neg hmem]
    by_cases hw : dst + w.1 ≤ j ∧ j < dst + w.1 + w.2
    · rw [if_pos hw, if_pos ⟨by omega, w, mem_cons_self, by omega, by omega⟩,
        BitVec.extractLsb'_and, extractLsb'_load (by omega), extractLsb'_load (by omega)]
      congr 2 <;> omega
    rw [if_neg hw, if_neg]
    rintro ⟨hle, w', hw', h⟩
    rcases mem_cons.mp hw' with rfl | hw'
    · omega
    · exact hmem ⟨hle, w', hw', h⟩
  simp only [maskRow, hfold, mem_maskWords_iff]
  congr 1
  rw [eq_iff_iff]
  omega

/-- Two words differ where one of their bytes does. -/
theorem setWidth_xor_eq_zero_iff {x y : Bytes} {w : ℕ × ℕ} (hw : w ∈ cmpWords width) :
  (load x w.1 w.2 ^^^ load y w.1 w.2).setWidth 64 = 0#64
    ↔ ∀ k, w.1 ≤ k ∧ k < w.1 + w.2 → x k = y k
  := by
  have hlt : (load x w.1 w.2 ^^^ load y w.1 w.2).toNat < 2 ^ 64 := by
    have hle := cmpWords_le w hw
    exact Nat.lt_of_lt_of_le (BitVec.isLt _) (Nat.pow_le_pow_right (by decide) (by omega))
  rw [← load_eq_load_iff, ← BitVec.toNat_inj, BitVec.toNat_setWidth, Nat.mod_eq_of_lt hlt,
    ← BitVec.xor_eq_zero_iff, ← BitVec.toNat_inj]
  rfl

theorem foldl_or_eq_zero_iff {α : Type*} (words : List α) (f : α → BitVec 64) (diff : BitVec 64) :
  words.foldl (fun diff w => diff ||| f w) diff = 0#64 ↔ diff = 0#64 ∧ ∀ w ∈ words, f w = 0#64
  := by
  induction words generalizing diff with
  | nil => simp
  | cons w words ih => rw [foldl_cons, ih, BitVec.or_eq_zero_iff, forall_mem_cons, and_assoc]

/-- A batch of masked keys has the bytes of each key under the mask in the row of the key, and no
byte beyond the rows is written; two keys compare as equal if all their bytes are equal. -/
theorem key_kernels_exact (width : ℕ) :
  (∀ (keys : Bytes) (stride : ℕ) (mask : Bytes) (count : ℕ) (out : Bytes),
      (∀ i < count, ∀ k < width, maskBatchFixed width keys stride mask count out (i * width + k)
        = keys (i * stride + k) &&& mask k)
      ∧ ∀ j, count * width ≤ j → maskBatchFixed width keys stride mask count out j = out j)
    ∧ ∀ x y : Bytes, cmpFixed width x y = 0 ↔ ∀ k < width, x k = y k
  := by
  constructor
  · intro keys stride mask count out
    induction count with
    | zero => exact ⟨nofun, fun _ _ => rfl⟩
    | succ count ih =>
    obtain ⟨hrows, hrest⟩ := ih
    rw [maskBatchFixed, range_succ, foldl_append, foldl_cons, foldl_nil, ← maskBatchFixed]
    constructor
    · intro i hi k hk
      rw [maskRow_eq]
      rcases Nat.lt_succ_iff_lt_or_eq.mp hi with hi | rfl
      · have hle := Nat.mul_le_mul_right width (Nat.succ_le_of_lt hi)
        rw [Nat.succ_mul] at hle
        rw [if_neg (by omega), hrows i hi k hk]
      · rw [if_pos ⟨Nat.le_add_right .., by omega⟩, Nat.add_sub_cancel_left]
    intro j hj
    rw [Nat.succ_mul] at hj
    rw [maskRow_eq, if_neg (by omega), hrest j (by omega)]
  intro x y
  have hzero : cmpFixed width x y = 0 ↔ ∀ w ∈ cmpWords width,
      (load x w.1 w.2 ^^^ load y w.1 w.2).setWidth 64 = 0#64 := by
    refine Iff.trans ?_ ((foldl_or_eq_zero_iff (cmpWords width) _ 0).trans (and_iff_right rfl))
    simp [cmpFixed]
  rw [hzero]
  constructor
  · intro h k hk
    obtain ⟨w, hw, hin⟩ := mem_cmpWords_iff.mpr hk
    exact (setWidth_xor_eq_zero_iff hw).mp (h w hw) k hin
  intro h w hw
  rw [setWidth_xor_eq_zero_iff hw]
  intro k hin
  exact h k (mem_cmpWords_iff.mp ⟨w, hw, hin⟩)

end Classifier
