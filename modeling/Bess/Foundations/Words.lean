import Mathlib.Data.Nat.Notation

/-!
# Words in memory

A word of `n` bytes is loaded from a memory and stored into it with its low byte first.
-/

namespace Words

/-- The bytes at the addresses. -/
abbrev Bytes := ℕ → BitVec 8

/-- The word of `n` bytes at an address. -/
def load (p : Bytes) (i : ℕ) : (n : ℕ) → BitVec (8 * n)
  | 0 => 0
  | n + 1 => load p (i + 1) n ++ p i

/-- The memory with a word of `n` bytes at an address. -/
def store (p : Bytes) (i n : ℕ) (w : BitVec (8 * n)) (j : ℕ) : BitVec 8 :=
  if i ≤ j ∧ j < i + n then w.extractLsb' (8 * (j - i)) 8 else p j

variable {p : Bytes} {i j k n : ℕ}

theorem getLsbD_load (hk : k < 8 * n) :
  (load p i n).getLsbD k = (p (i + k / 8)).getLsbD (k % 8)
  := by
  induction n generalizing i k with
  | zero => omega
  | succ n ih =>
  rw [load, BitVec.getLsbD_append]
  split
  case isTrue hlow =>
    rw [Nat.div_eq_of_lt hlow, Nat.mod_eq_of_lt hlow, Nat.add_zero]
  case isFalse hhigh =>
  rw [ih (by omega), show i + 1 + (k - 8) / 8 = i + k / 8 by omega,
    show (k - 8) % 8 = k % 8 by omega]

theorem extractLsb'_load (hk : k < n) :
  (load p i n).extractLsb' (8 * k) 8 = p (i + k)
  := by
  apply BitVec.eq_of_getLsbD_eq
  intro b hb
  rw [BitVec.getLsbD_extractLsb', decide_eq_true hb, Bool.true_and, getLsbD_load (by omega),
    show (8 * k + b) / 8 = k by omega, show (8 * k + b) % 8 = b by omega]

theorem load_eq_load_iff {q : Bytes} :
  load p i n = load q i n ↔ ∀ k, i ≤ k ∧ k < i + n → p k = q k
  := by
  constructor
  · rintro h k ⟨hle, hlt⟩
    have hbyte := congrArg (BitVec.extractLsb' (8 * (k - i)) 8) h
    rwa [extractLsb'_load (by omega), extractLsb'_load (by omega), Nat.add_sub_of_le hle] at hbyte
  intro h
  apply BitVec.eq_of_getLsbD_eq
  intro k hk
  rw [getLsbD_load hk, getLsbD_load hk, h _ (by omega)]

end Words
