import Mathlib.Data.BitVec

/-!
# Longest-prefix match

A `Prefix w` is the first bits of a `w`-bit address. A rule set gives some prefixes a value, and
`lookup rules a` is the value of the longest prefix with a rule that `a` starts with. The search
goes down the lengths: of each length there is one prefix of `a`, `Prefix.trunc a ℓ`.

A new prefix may be given the value its addresses have already, which is the value of the
longest rule strictly above it, `covering`. This changes no lookup.
-/

namespace LongestMatch

open Function

/-- The first `length` bits of a `w`-bit address, the bits behind them zero. -/
structure Prefix (w : ℕ) where
  addr : BitVec w
  length : ℕ
  length_le : length ≤ w
  host : ∀ i, length ≤ i → addr.getMsbD i = false
deriving DecidableEq

variable {w : ℕ} {α : Type}

/-- The bits before `length`. -/
def mask (w length : ℕ) : BitVec w :=
  BitVec.allOnes w <<< (w - length)

variable {a : BitVec w} {length : ℕ}

theorem getMsbD_mask (h : length ≤ w) (i : ℕ) :
  (mask w length).getMsbD i = decide (i < length)
  := by
  rw [mask, BitVec.getMsbD_shiftLeft, BitVec.getMsbD_allOnes, decide_eq_decide]
  omega

namespace Prefix

/-- The first `length` bits of an address, or all of them. -/
def trunc (a : BitVec w) (length : ℕ) : Prefix w where
  addr := a &&& mask w (min length w)
  length := min length w
  length_le := min_le_right length w
  host := by
    intro i hi
    rw [BitVec.getMsbD_and, getMsbD_mask (min_le_right length w), decide_eq_false (by omega),
      Bool.and_false]

/-- The address starts with the prefix. -/
def Covers (p : Prefix w) (a : BitVec w) : Prop :=
  ∀ i < p.length, p.addr.getMsbD i = a.getMsbD i

instance (p : Prefix w) (a : BitVec w) : Decidable (p.Covers a) :=
  inferInstanceAs (Decidable (∀ i < p.length, p.addr.getMsbD i = a.getMsbD i))

variable {a : BitVec w} {p : Prefix w}

@[ext]
theorem ext {q : Prefix w} (hlen : p.length = q.length)
    (bits : ∀ i < p.length, p.addr.getMsbD i = q.addr.getMsbD i) :
  p = q
  := by
  have haddr : p.addr = q.addr := by
    apply BitVec.eq_of_getMsbD_eq
    intro i _
    rcases lt_or_ge i p.length with hi | hi
    · exact bits i hi
    · rw [p.host i hi, q.host i (hlen ▸ hi)]
  obtain ⟨addr, length, _, _⟩ := p
  obtain ⟨addr', length', _, _⟩ := q
  obtain rfl : addr = addr' := haddr
  obtain rfl : length = length' := hlen
  rfl

theorem getMsbD_trunc (a : BitVec w) (length i : ℕ) :
  (trunc a length).addr.getMsbD i = (a.getMsbD i && decide (i < min length w))
  := by
  rw [trunc, BitVec.getMsbD_and, getMsbD_mask (min_le_right length w)]

theorem length_trunc (h : length ≤ w) :
  (trunc a length).length = length
  := min_eq_left h

theorem covers_trunc (a : BitVec w) (length : ℕ) :
  (trunc a length).Covers a
  := by
  intro i hi
  have hmin : i < min length w := hi
  rw [getMsbD_trunc, decide_eq_true hmin, Bool.and_true]

/-- Of each length there is one prefix of an address. -/
theorem Covers.trunc_eq (h : p.Covers a) :
  trunc a p.length = p
  := by
  apply ext (length_trunc p.length_le)
  intro i hi
  rw [length_trunc p.length_le] at hi
  rw [h i hi]
  apply covers_trunc a p.length i
  rwa [length_trunc p.length_le]

/-- The addresses of a prefix have its shorter prefixes. -/
theorem Covers.trunc_addr (h : p.Covers a) (hle : length ≤ p.length) :
  trunc a length = trunc p.addr length
  := by
  refine ext rfl ?_
  intro i hi
  have hi' : i < p.length := by
    rw [length_trunc (hle.trans p.length_le)] at hi
    omega
  rw [getMsbD_trunc, getMsbD_trunc, h i hi']

end Prefix

open Prefix

/-! ### The search -/

/-- The value of the longest rule for an address, of the prefixes up to a length. -/
def upTo (rules : Prefix w → Option α) (a : BitVec w) : ℕ → Option α
  | 0 => rules (trunc a 0)
  | length + 1 => (rules (trunc a (length + 1))).or (upTo rules a length)

/-- The value of the longest rule for an address. -/
def lookup (rules : Prefix w → Option α) (a : BitVec w) : Option α :=
  upTo rules a w

variable {rules rules' : Prefix w → Option α} {p : Prefix w} {v : α}

theorem upTo_eq_none_iff (length : ℕ) :
  upTo rules a length = none ↔ ∀ ℓ ≤ length, rules (trunc a ℓ) = none
  := by
  induction length with
  | zero => simp [upTo]
  | succ length ih =>
  rw [upTo, Option.or_eq_none_iff, ih]
  constructor
  · rintro ⟨htop, hbelow⟩ ℓ hℓ
    rcases Nat.le_succ_iff.mp hℓ with hle | rfl
    · exact hbelow ℓ hle
    · exact htop
  intro h
  exact ⟨h _ le_rfl, fun ℓ hℓ => h ℓ (hℓ.trans (Nat.le_succ length))⟩

theorem upTo_eq_some_iff (length : ℕ) :
  upTo rules a length = some v
    ↔ ∃ ℓ ≤ length, rules (trunc a ℓ) = some v
        ∧ ∀ k ≤ length, ℓ < k → rules (trunc a k) = none
  := by
  induction length with
  | zero =>
    constructor
    · intro h
      use 0, le_rfl, h
      omega
    rintro ⟨ℓ, hℓ, hv, _⟩
    obtain rfl : ℓ = 0 := by omega
    exact hv
  | succ length ih =>
  rw [upTo, Option.or_eq_some_iff, ih]
  constructor
  · rintro (htop | ⟨htop, ℓ, hℓ, hv, habove⟩)
    · use length + 1, le_rfl, htop
      omega
    use ℓ, hℓ.trans (Nat.le_succ length), hv
    intro k hk hlt
    rcases Nat.le_succ_iff.mp hk with hle | rfl
    · exact habove k hle hlt
    · exact htop
  rintro ⟨ℓ, hℓ, hv, habove⟩
  rcases Nat.le_succ_iff.mp hℓ with hle | rfl
  · right
    use habove _ le_rfl (by omega), ℓ, hle, hv
    intro k hk
    apply habove k (hk.trans (Nat.le_succ length))
  left
  exact hv

/-- No rule is found if and only if no prefix of the address has one. -/
theorem lookup_eq_none_iff :
  lookup rules a = none ↔ ∀ p : Prefix w, p.Covers a → rules p = none
  := by
  rw [lookup, upTo_eq_none_iff]
  constructor
  · intro h p hp
    rw [← hp.trunc_eq]
    apply h p.length p.length_le
  intro h ℓ _
  apply h _ (covers_trunc a ℓ)

/-- The value found is that of a prefix of the address, and no longer one has a rule. -/
theorem lookup_eq_some_iff :
  lookup rules a = some v
    ↔ ∃ p : Prefix w, p.Covers a ∧ rules p = some v
        ∧ ∀ q : Prefix w, q.Covers a → p.length < q.length → rules q = none
  := by
  rw [lookup, upTo_eq_some_iff]
  constructor
  · rintro ⟨ℓ, hℓ, hv, habove⟩
    use trunc a ℓ, covers_trunc a ℓ, hv
    intro q hq hlt
    rw [length_trunc hℓ] at hlt
    rw [← hq.trunc_eq]
    apply habove _ q.length_le hlt
  rintro ⟨p, hp, hv, habove⟩
  use p.length, p.length_le
  rw [hp.trunc_eq]
  use hv
  intro k hk hlt
  apply habove _ (covers_trunc a k)
  rwa [length_trunc hk]

theorem upTo_congr (h : ∀ ℓ ≤ length, rules' (trunc a ℓ) = rules (trunc a ℓ)) :
  upTo rules' a length = upTo rules a length
  := by
  induction length with
  | zero => exact h 0 le_rfl
  | succ length ih =>
    rw [upTo, upTo, h _ le_rfl, ih fun ℓ hℓ => h ℓ (hℓ.trans (Nat.le_succ length))]

theorem upTo_trunc (h : p.Covers a) (hle : length ≤ p.length) :
  upTo rules a length = upTo rules p.addr length
  := by
  induction length with
  | zero => rw [upTo, upTo, h.trunc_addr hle]
  | succ length ih => rw [upTo, upTo, h.trunc_addr hle, ih (by omega)]

/-- A rule for the empty prefix is what is left when no other rule is found. -/
theorem lookup_or_default (a : BitVec w) (hlong : ∀ p : Prefix w, p.length ≠ 0 → rules' p = rules p)
    (hzero : ∀ p : Prefix w, p.length = 0 → rules p = none) :
  lookup rules' a = (lookup rules a).or (rules' (trunc a 0))
  := by
  have hupTo : ∀ length ≤ w, upTo rules' a length = (upTo rules a length).or (rules' (trunc a 0)) := by
    intro length
    induction length with
    | zero =>
      intro _
      rw [upTo, upTo, hzero _ (length_trunc (Nat.zero_le w)), Option.none_or]
    | succ length ih =>
    intro hle
    have hne : (trunc a (length + 1)).length ≠ 0 := by
      rw [length_trunc hle]
      omega
    rw [upTo, upTo, hlong _ hne, ih (by omega), Option.or_assoc]
  exact hupTo w le_rfl

/-! ### A prefix with the value of what covers it -/

/-- The value of the longest rule strictly above a prefix. -/
def covering (rules : Prefix w → Option α) (p : Prefix w) : Option α :=
  match p.length with
  | 0 => none
  | length + 1 => upTo rules p.addr length

variable [DecidableEq α]

/-- What a lookup finds, where one value stands for a miss. -/
def reading (miss : α) (found : Option α) : Option α :=
  found.filter (· ≠ miss)

theorem reading_or (miss : α) {x y y' : Option α} (h : reading miss y = reading miss y') :
  reading miss (x.or y) = reading miss (x.or y')
  := by
  cases x with
  | none => exact h
  | some _ => rfl

theorem reading_getD (miss : α) (found : Option α) :
  reading miss (some (found.getD miss)) = reading miss found
  := by
  cases found with
  | none => simp [reading]
  | some _ => rfl

/-- A new prefix with the value of what covers it, or the miss where nothing does, changes no
lookup. -/
theorem reading_lookup_update (miss : α) (hlen : p.length ≠ 0) (hnew : rules p = none) (a : BitVec w) :
  reading miss (lookup (update rules p (some ((covering rules p).getD miss))) a)
    = reading miss (lookup rules a)
  := by
  have hother : ∀ {ℓ : ℕ}, trunc a ℓ ≠ p →
      update rules p (some ((covering rules p).getD miss)) (trunc a ℓ)
        = rules (trunc a ℓ) := fun h => update_of_ne h _ _
  by_cases hp : p.Covers a
  case neg =>
    apply congrArg (reading miss)
    apply upTo_congr
    intro ℓ _
    apply hother
    rintro rfl
    exact hp (covers_trunc a ℓ)
  -- above the prefix the two searches agree, at the prefix one finds what the other goes on to
  have hlonger : ∀ ℓ, p.length ≤ ℓ → ℓ ≤ w →
      reading miss (upTo (update rules p (some ((covering rules p).getD miss))) a ℓ)
        = reading miss (upTo rules a ℓ) := by
    intro ℓ hle
    induction ℓ, hle using Nat.le_induction with
    | base =>
      intro _
      obtain ⟨length, hk⟩ := Nat.exists_eq_succ_of_ne_zero hlen
      have htop : trunc a (length + 1) = p := by rw [← hp.trunc_eq, hk]
      rw [hk, upTo, upTo, htop, update_self, hnew, Option.none_or, Option.some_or, reading_getD]
      rw [covering, hk, upTo_trunc hp (by omega)]
    | succ ℓ hle ih =>
    intro hw
    have hne : trunc a (ℓ + 1) ≠ p := by
      rintro rfl
      rw [length_trunc hw] at hle
      omega
    rw [upTo, hother hne]
    apply reading_or
    apply ih (by omega)
  exact hlonger w p.length_le le_rfl

end LongestMatch
