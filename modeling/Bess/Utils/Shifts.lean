import Bess.Foundations.Words
import Mathlib.Data.Int.Basic

/-!
# Shifts of a buffer

`ShiftBytesLeft` and `ShiftBytesRight` (`core/utils/bits.h`), with their `Small` variants. A buffer
is its bytes from its start, and an access that leaves it ends the function with `none`, as does a
loop that the fuel is too small for.

The loops go over the buffer in words of eight bytes that overlap by the shift. With a shift of
eight they do not move on.
-/

namespace Utils

open Words

/-- `memmove` within a buffer of `len` bytes. -/
def memmove (len : ℕ) (b : Bytes) (dst src n : ℕ) : Option Bytes :=
  if dst + n ≤ len ∧ src + n ≤ len then
    some fun i => if dst ≤ i ∧ i < dst + n then b (src + (i - dst)) else b i
  else none

/-- `memset` to zero. -/
def memzero (len : ℕ) (b : Bytes) (dst n : ℕ) : Option Bytes :=
  if dst + n ≤ len then some fun i => if dst ≤ i ∧ i < dst + n then 0 else b i else none

/-- A word of the buffer is loaded, changed and stored again. -/
def modifyBlock (len : ℕ) (b : Bytes) (i : ℕ) (f : BitVec 64 → BitVec 64) :
    Option Bytes :=
  if i + 8 ≤ len then some (store b i 8 (f (load b i 8))) else none

def shiftBytesLeftSmall (len : ℕ) (b : Bytes) (shift : ℕ) : Option Bytes := do
  let shift := min shift len
  let b ← memmove len b 0 shift (len - shift)
  memzero len b (len - shift) shift

/-- The loop of `ShiftBytesLeft` from `tmp` on, which never passes the end of the buffer. -/
def leftLoop (len shift : ℕ) : ℕ → Bytes → ℕ → Option (Bytes × ℕ)
  | 0, _, _ => none
  | fuel + 1, b, tmp =>
      if 8 ≤ len - tmp then do
        let b ← modifyBlock len b tmp (· >>> (shift * 8))
        leftLoop len shift fuel b (tmp + (8 - shift))
      else some (b, tmp)

def shiftBytesLeft (fuel len : ℕ) (b : Bytes) (shift : ℕ) : Option Bytes :=
  if len < 8 ∨ 8 < shift then shiftBytesLeftSmall len b shift
  else do
    let (b, tmp) ← leftLoop len shift fuel b 0
    if shift < len - tmp then
      let b ← memmove len b tmp (tmp + shift) (len - tmp - shift)
      memzero len b (len - shift) shift
    else some b

def shiftBytesRightSmall (len : ℕ) (b : Bytes) (shift : ℕ) : Option Bytes := do
  let shift := min shift len
  let b ← memmove len b shift 0 (len - shift)
  memzero len b 0 shift

/-- The loop of `ShiftBytesRight`, whose pointer ends before the buffer. -/
def rightLoop (len shift : ℕ) :
    ℕ → Bytes → ℤ → ℕ → Option (Bytes × ℕ)
  | 0, _, _, _ => none
  | fuel + 1, b, tmp, leftover =>
      if 0 ≤ tmp then do
        let b ← modifyBlock len b tmp.toNat (· <<< (shift * 8))
        rightLoop len shift fuel b (tmp - (8 - shift)) (leftover - (8 - shift))
      else some (b, leftover)

def shiftBytesRight (fuel len : ℕ) (b : Bytes) (shift : ℕ) : Option Bytes :=
  if len < 8 ∨ 8 < shift then shiftBytesRightSmall len b shift
  else do
    let (b, leftover) ← rightLoop len shift fuel b (len - 8) len
    shiftBytesRightSmall leftover b shift

/-- The buffer moved to the left, with zeros at its end. -/
def movedLeft (len : ℕ) (b : Bytes) (shift i : ℕ) : BitVec 8 :=
  if i + shift < len then b (i + shift) else if i < len then 0 else b i

/-- The buffer moved to the right, with zeros at its start. -/
def movedRight (len : ℕ) (b : Bytes) (shift i : ℕ) : BitVec 8 :=
  if len ≤ i then b i else if shift ≤ i then b (i - shift) else 0

variable {len shift fuel tmp : ℕ} {b : Bytes}

theorem shiftBytesLeftSmall_eq (len : ℕ) (b : Bytes) (shift : ℕ) :
  shiftBytesLeftSmall len b shift = some (movedLeft len b shift)
  := by
  simp only [shiftBytesLeftSmall, memmove, memzero]
  rw [if_pos (by omega), Option.bind_eq_bind, Option.bind_some, if_pos (by omega), Option.some_inj]
  funext i
  simp only [movedLeft]
  split_ifs
  all_goals first | omega | rfl | (congr 1; omega)

theorem shiftBytesRightSmall_eq (len : ℕ) (b : Bytes) (shift : ℕ) :
  shiftBytesRightSmall len b shift = some (movedRight len b shift)
  := by
  simp only [shiftBytesRightSmall, memmove, memzero]
  rw [if_pos (by omega), Option.bind_eq_bind, Option.bind_some, if_pos (by omega), Option.some_inj]
  funext i
  simp only [movedRight]
  split_ifs
  all_goals first | omega | rfl | (congr 1; omega)

theorem store_ushiftRight (b : Bytes) (i shift j : ℕ) :
  store b i 8 (load b i 8 >>> (shift * 8)) j
    = if i ≤ j ∧ j < i + 8 then if j + shift < i + 8 then b (j + shift) else 0 else b j
  := by
  rw [store]
  split
  case isFalse => rfl
  case isTrue hj =>
  apply BitVec.eq_of_getLsbD_eq
  intro k hk
  rw [BitVec.getLsbD_extractLsb', decide_eq_true hk, Bool.true_and, BitVec.getLsbD_ushiftRight]
  split
  case isTrue =>
    rw [getLsbD_load (by omega)]
    congr 2 <;> omega
  case isFalse =>
  rw [BitVec.getLsbD_of_ge _ _ (by omega)]
  exact BitVec.getLsbD_zero.symm

theorem store_shiftLeft (b : Bytes) (i shift j : ℕ) :
  store b i 8 (load b i 8 <<< (shift * 8)) j
    = if i ≤ j ∧ j < i + 8 then if i + shift ≤ j then b (j - shift) else 0 else b j
  := by
  rw [store]
  split
  case isFalse => rfl
  case isTrue hj =>
  apply BitVec.eq_of_getLsbD_eq
  intro k hk
  rw [BitVec.getLsbD_extractLsb', decide_eq_true hk, Bool.true_and, BitVec.getLsbD_shiftLeft,
    decide_eq_true (by omega), Bool.true_and]
  split
  case isTrue =>
    rw [decide_eq_false (by omega), getLsbD_load (by omega), Bool.not_false, Bool.true_and]
    congr 2 <;> omega
  case isFalse =>
  rw [decide_eq_true (by omega), Bool.not_true, Bool.false_and]
  exact BitVec.getLsbD_zero.symm

/-- The buffer when the loop to the left has come to `tmp`. -/
def leftPart (b : Bytes) (shift tmp j : ℕ) : BitVec 8 :=
  if j < tmp then b (j + shift) else if j < tmp + shift ∧ 0 < tmp then 0 else b j

theorem leftLoop_eq (hshift : shift < 8) (hfuel : len < fuel + tmp) (htmp : tmp + shift ≤ len) :
  ∃ tmp', leftLoop len shift fuel (leftPart b shift tmp) tmp
      = some (leftPart b shift tmp', tmp')
    ∧ tmp' + shift ≤ len ∧ len < tmp' + 8
  := by
  induction fuel generalizing tmp with
  | zero => omega
  | succ fuel ih =>
  rw [leftLoop]
  split
  case isFalse hend => exact ⟨tmp, rfl, htmp, by omega⟩
  case isTrue hmore =>
  have hstep : modifyBlock len (leftPart b shift tmp) tmp (· >>> (shift * 8))
      = some (leftPart b shift (tmp + (8 - shift))) := by
    rw [modifyBlock, if_pos (by omega), Option.some_inj]
    funext j
    rw [store_ushiftRight]
    simp only [leftPart]
    split_ifs
    all_goals first | omega | rfl
  have hnext : len < fuel + (tmp + (8 - shift)) := by omega
  rw [hstep]
  exact ih hnext (by omega)

/-- The buffer when the loop to the right has left the first bytes over. -/
def rightPart (len : ℕ) (b : Bytes) (shift leftover j : ℕ) : BitVec 8 :=
  if leftover ≤ j then movedRight len b shift j
  else if leftover ≤ j + shift ∧ leftover < len then 0 else b j

theorem rightLoop_eq (hshift : shift < 8) {leftover : ℕ} (hfuel : leftover < fuel)
    (hle : shift ≤ leftover ∧ leftover ≤ len) :
  ∃ leftover', rightLoop len shift fuel (rightPart len b shift leftover) (leftover - 8) leftover
      = some (rightPart len b shift leftover', leftover')
    ∧ shift ≤ leftover' ∧ leftover' ≤ len
  := by
  induction fuel generalizing leftover with
  | zero => omega
  | succ fuel ih =>
  rw [rightLoop]
  split
  case isFalse hend => exact ⟨leftover, rfl, hle⟩
  case isTrue hmore =>
  have hstep : modifyBlock len (rightPart len b shift leftover) (leftover - 8 : ℤ).toNat
      (· <<< (shift * 8)) = some (rightPart len b shift (leftover - (8 - shift))) := by
    rw [modifyBlock, if_pos (by omega), Option.some_inj]
    funext j
    rw [store_shiftLeft]
    simp only [rightPart, movedRight]
    split_ifs
    all_goals first | omega | rfl
  have htmp : (leftover - 8 - (8 - shift) : ℤ) = (leftover - (8 - shift) : ℕ) - 8 := by omega
  rw [hstep, htmp]
  exact ih (by omega) (by omega)

/-- With a shift of eight the loops come back to where they are. -/
theorem leftLoop_eight (htmp : tmp + 8 ≤ len) (fuel : ℕ) (b : Bytes) :
  leftLoop len 8 fuel b tmp = none
  := by
  induction fuel generalizing b with
  | zero => rfl
  | succ fuel ih =>
  rw [leftLoop, if_pos (by omega), modifyBlock, if_pos htmp]
  exact ih _

theorem rightLoop_eight {tmp : ℤ} (htmp : 0 ≤ tmp ∧ tmp + 8 ≤ len) (fuel leftover : ℕ)
    (b : Bytes) :
  rightLoop len 8 fuel b tmp leftover = none
  := by
  induction fuel generalizing b with
  | zero => rfl
  | succ fuel ih =>
  rw [rightLoop, if_pos htmp.1, modifyBlock, if_pos (by omega)]
  have hstay : tmp - (8 - (8 : ℕ)) = tmp := by omega
  rw [hstay]
  exact ih _

/-- Unless the shift is eight and the buffer has a word, both shifts end with the bytes moved and
zeros filled in, as their small variants do; otherwise they do not end. -/
theorem byte_shifts_exact (len : ℕ) (b : Bytes) (shift : ℕ) :
  (shiftBytesLeftSmall len b shift = some (movedLeft len b shift)
      ∧ shiftBytesRightSmall len b shift = some (movedRight len b shift))
    ∧ (¬(shift = 8 ∧ 8 ≤ len) → ∀ fuel, len < fuel →
      shiftBytesLeft fuel len b shift = some (movedLeft len b shift)
        ∧ shiftBytesRight fuel len b shift = some (movedRight len b shift))
    ∧ (shift = 8 ∧ 8 ≤ len → ∀ fuel,
      shiftBytesLeft fuel len b shift = none ∧ shiftBytesRight fuel len b shift = none)
  := by
  refine ⟨⟨shiftBytesLeftSmall_eq .., shiftBytesRightSmall_eq ..⟩, ?_, ?_⟩
  · intro hnot fuel hfuel
    rw [shiftBytesLeft, shiftBytesRight, shiftBytesLeftSmall_eq, shiftBytesRightSmall_eq]
    by_cases hsmall : len < 8 ∨ 8 < shift
    case pos => exact ⟨if_pos hsmall, if_pos hsmall⟩
    case neg =>
    rw [if_neg hsmall, if_neg hsmall]
    have hshift : shift < 8 := by omega
    constructor
    · have hstart : leftPart b shift 0 = b := by
        funext j
        simp [leftPart]
      obtain ⟨tmp, hloop, hle, hend⟩ := leftLoop_eq (b := b) hshift hfuel (by omega : 0 + shift ≤ len)
      rw [hstart] at hloop
      simp only [hloop, memmove, memzero, Option.bind_eq_bind, Option.bind_some]
      split
      case isTrue =>
        rw [if_pos (by omega), Option.bind_some, if_pos (by omega), Option.some_inj]
        funext j
        simp only [leftPart, movedLeft]
        split_ifs
        all_goals first | omega | rfl | (congr 1; omega)
      case isFalse =>
      rw [Option.some_inj]
      funext j
      simp only [leftPart, movedLeft]
      split_ifs
      all_goals first | omega | rfl
    have hstart : rightPart len b shift len = b := by
      funext j
      simp only [rightPart, movedRight]
      split_ifs <;> first | rfl | omega
    obtain ⟨leftover, hloop, hle⟩ := rightLoop_eq (b := b) hshift hfuel ⟨by omega, le_refl len⟩
    rw [hstart] at hloop
    simp only [hloop, Option.bind_eq_bind, Option.bind_some, shiftBytesRightSmall_eq,
      Option.some_inj]
    funext j
    simp only [rightPart, movedRight]
    split_ifs
    all_goals first | omega | rfl
  rintro ⟨rfl, hlen⟩ fuel
  rw [shiftBytesLeft, shiftBytesRight, if_neg (by omega), if_neg (by omega),
    leftLoop_eight (by omega), rightLoop_eight (by omega)]
  exact ⟨rfl, rfl⟩

/-- Eight bytes are never shifted by eight. -/
theorem shift_by_eight_stuck :
  (fun fuel => shiftBytesLeft fuel 8 (fun _ => 1) 8) = fun _ => none
  := by
  funext fuel
  rw [shiftBytesLeft, if_neg (by decide), leftLoop_eight (by decide)]
  rfl

end Utils
