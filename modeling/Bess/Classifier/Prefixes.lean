import Bess.Classifier.Firewall
import Mathlib.Tactic.IntervalCases

/-!
# What a rule of the firewall holds

`Holds` says in bits which keys a rule holds: its family and protocol, the first bits of the two
addresses, and the ranges of the ports. The masks, packed keys and word comparisons of the table
and the scan all come down to it.
-/

namespace Classifier

/-! ### Bits and bytes -/

/-- Bit `b` of an address, the most significant first. -/
def addrBit (addr : FirewallAddr) (b : ℕ) : Bool :=
  (addr (b / 8)).getMsbD (b % 8)

/-- The first `len` bits of an address are those of a network. -/
def InPrefix (net : FirewallAddr) (len : ℕ) (addr : FirewallAddr) : Prop :=
  ∀ b < len, addrBit addr b = addrBit net b

instance (net : FirewallAddr) (len : ℕ) (addr : FirewallAddr) : Decidable (InPrefix net len addr) :=
  inferInstanceAs (Decidable (∀ b < len, addrBit addr b = addrBit net b))

/-- A rule of the policy holds a key. -/
def FirewallRule.Holds (rule : FirewallRule) (key : FirewallKey) : Prop :=
  (rule.family = .any ∨ rule.family = key.family)
    ∧ (rule.proto = kAnyProto ∨ rule.proto = key.proto)
    ∧ InPrefix rule.srcNet rule.srcLen key.src ∧ InPrefix rule.dstNet rule.dstLen key.dst
    ∧ (rule.srcPortLow ≤ key.srcPort ∧ key.srcPort ≤ rule.srcPortHigh)
    ∧ rule.dstPortLow ≤ key.dstPort ∧ key.dstPort ≤ rule.dstPortHigh

instance (rule : FirewallRule) (key : FirewallKey) : Decidable (rule.Holds key) :=
  inferInstanceAs (Decidable (_ ∧ _))

variable {family : FirewallFamily} {rule : FirewallRule} {i j len : ℕ}
  {p q : ℕ → BitVec 8} {packed : PackedKey} {key : FirewallKey}

theorem getMsbD_maskBytes (hi : i < familyBytes family) (hj : j < 8) :
  (maskBytes len family i).getMsbD j = decide (8 * i + j < len)
  := by
  rw [maskBytes, if_neg (not_le.mpr hi)]
  split
  case isTrue hwhole =>
    have hones : (0xff : BitVec 8) = BitVec.allOnes 8 := rfl
    have hlt : 8 * i + j < len := by omega
    rw [hones, BitVec.getMsbD_allOnes, decide_eq_true hj, decide_eq_true hlt]
  case isFalse hpart =>
  split
  case isTrue hsome =>
    have hones : 0xff#8 = BitVec.allOnes 8 := rfl
    rw [hones, BitVec.getMsbD_shiftLeft, BitVec.getMsbD_allOnes]
    apply decide_eq_decide.mpr
    omega
  case isFalse hnone =>
  have hnot : ¬ 8 * i + j < len := by omega
  rw [decide_eq_false hnot]
  exact BitVec.getMsbD_zero

/-- Two bytes agree under a mask exactly when they agree at the bits of the prefix. -/
theorem masked_byte_eq_iff {a b : BitVec 8} (hi : i < familyBytes family) :
  a &&& maskBytes len family i = b &&& maskBytes len family i
    ↔ ∀ j < 8, 8 * i + j < len → a.getMsbD j = b.getMsbD j
  := by
  constructor
  · intro heq j hj hlt
    have hbit := congrArg (fun x => x.getMsbD j) heq
    simp only [BitVec.getMsbD_and, getMsbD_maskBytes hi hj, decide_eq_true hlt,
      Bool.and_true] at hbit
    exact hbit
  intro hbits
  apply BitVec.eq_of_getMsbD_eq
  intro j hj
  rw [BitVec.getMsbD_and, BitVec.getMsbD_and, getMsbD_maskBytes hi hj]
  by_cases hlt : 8 * i + j < len
  · rw [hbits j hj hlt]
  · rw [decide_eq_false hlt, Bool.and_false, Bool.and_false]

/-- Two addresses agree under a mask exactly when one is in the prefix of the other. -/
theorem masked_eq_iff (hlen : len ≤ familyBits family) (addr net : FirewallAddr) :
  (∀ i < familyBytes family,
      addr i &&& maskBytes len family i = net i &&& maskBytes len family i)
    ↔ InPrefix net len addr
  := by
  rw [familyBits] at hlen
  constructor
  · intro hbytes b hb
    have hi : b / 8 < familyBytes family := by omega
    apply (masked_byte_eq_iff hi).mp (hbytes _ hi) _ (Nat.mod_lt b (by decide))
    omega
  intro hprefix i hi
  apply (masked_byte_eq_iff hi).mpr
  intro j hj hlt
  have hbit := hprefix (8 * i + j) hlt
  rw [addrBit, addrBit] at hbit
  have hdiv : (8 * i + j) / 8 = i := by omega
  have hmod : (8 * i + j) % 8 = j := by omega
  rwa [hdiv, hmod] at hbit

/-! ### Loads -/

theorem append_eq_append_iff {n m : ℕ} {x x' : BitVec n} {y y' : BitVec m} :
  x ++ y = x' ++ y' ↔ x = x' ∧ y = y'
  := by
  constructor
  · intro heq
    constructor
    · have hhigh := congrArg (fun z => z.extractLsb' m n) heq
      simpa [BitVec.extractLsb'_append_eq_left] using hhigh
    have hlow := congrArg (fun z => z.extractLsb' 0 m) heq
    simpa [BitVec.extractLsb'_append_eq_right] using hlow
  rintro ⟨rfl, rfl⟩
  rfl

theorem load32_eq_iff :
  load32 p i = load32 q j ↔ ∀ k < 4, p (i + k) = q (j + k)
  := by
  rw [load32, load32, append_eq_append_iff, append_eq_append_iff, append_eq_append_iff]
  constructor
  · rintro ⟨⟨⟨h3, h2⟩, h1⟩, h0⟩ k hk
    interval_cases k
    · exact h0
    · exact h1
    · exact h2
    · exact h3
  intro h
  exact ⟨⟨⟨h 3 (by decide), h 2 (by decide)⟩, h 1 (by decide)⟩, h 0 (by decide)⟩

theorem forall_bytes_add (n m : ℕ) :
  (∀ k < n + m, p (i + k) = q (j + k))
    ↔ (∀ k < n, p (i + k) = q (j + k)) ∧ ∀ k < m, p (i + n + k) = q (j + n + k)
  := by
  constructor
  · intro h
    refine ⟨fun k hk => h k (by omega), fun k hk => ?_⟩
    rw [Nat.add_assoc, Nat.add_assoc]
    exact h (n + k) (by omega)
  rintro ⟨hlow, hhigh⟩ k hk
  by_cases hlt : k < n
  · exact hlow k hlt
  obtain ⟨k, rfl⟩ := Nat.exists_eq_add_of_le (not_lt.mp hlt)
  rw [← Nat.add_assoc, ← Nat.add_assoc]
  exact hhigh k (by omega)

theorem load64_eq_iff :
  load64 p i = load64 q j ↔ ∀ k < 8, p (i + k) = q (j + k)
  := by
  rw [load64, load64, append_eq_append_iff, load32_eq_iff, load32_eq_iff, and_comm]
  exact (forall_bytes_add 4 4).symm

theorem bytes16Equal_iff {a b : ℕ → BitVec 8} :
  bytes16Equal a b i j = true ↔ ∀ k < 16, a (i + k) = b (j + k)
  := by
  rw [bytes16Equal, Bool.and_eq_true, beq_iff_eq, beq_iff_eq, load64_eq_iff, load64_eq_iff]
  exact (forall_bytes_add 8 8).symm

/-! ### Keys and words -/

/-- A packed key as a number in the order of its entries: one word, or four. -/
def keyRank (bytes : ℕ) (p : PackedKey) : ℕ :=
  if bytes = 8 then (load64 p 0).toNat
  else (((load64 p 0).toNat * 2 ^ 64 + (load64 p 8).toNat) * 2 ^ 64 + (load64 p 16).toNat) * 2 ^ 64
    + (load64 p 24).toNat

theorem less_eq_decide (a b : Key64) :
  a.less b = decide
    (((a.w0.toNat * 2 ^ 64 + a.w1.toNat) * 2 ^ 64 + a.w2.toNat) * 2 ^ 64 + a.w3.toNat
      < ((b.w0.toNat * 2 ^ 64 + b.w1.toNat) * 2 ^ 64 + b.w2.toNat) * 2 ^ 64 + b.w3.toNat)
  := by
  simp only [Key64.less, BitVec.lt_def, ne_eq, ← BitVec.toNat_inj]
  split
  case isTrue => apply decide_eq_decide.mpr; omega
  case isFalse =>
  split
  case isTrue => apply decide_eq_decide.mpr; omega
  case isFalse =>
  split
  case isTrue | isFalse => apply decide_eq_decide.mpr; omega

theorem keyLess_eq (bytes : ℕ) (a b : PackedKey) :
  FirewallTable.keyLess bytes a b = decide (keyRank bytes a < keyRank bytes b)
  := by
  rw [FirewallTable.keyLess, keyRank, keyRank]
  split
  case isTrue => exact decide_eq_decide.mpr BitVec.lt_def
  case isFalse => exact less_eq_decide _ _

theorem keyEqual_eq (bytes : ℕ) (a b : PackedKey) :
  FirewallTable.keyEqual bytes a b = decide (keyRank bytes a = keyRank bytes b)
  := by
  rw [FirewallTable.keyEqual, keyRank, keyRank]
  split
  case isTrue =>
    exact decide_eq_decide.mpr BitVec.toNat_inj.symm
  case isFalse =>
  apply decide_eq_decide.mpr
  rw [Key64.load, Key64.load, Key64.mk.injEq, ← BitVec.toNat_inj, ← BitVec.toNat_inj,
    ← BitVec.toNat_inj, ← BitVec.toNat_inj]
  omega

/-! ### Packed keys -/

section Pack

variable {src dst : FirewallAddr} {srcLen dstLen i : ℕ}

theorem pack_src (hi : i < familyBytes family) :
  pack src srcLen dst dstLen family i = src i &&& maskBytes srcLen family i
  := by
  cases family with
  | any => exact absurd hi (Nat.not_lt_zero i)
  | _ => exact if_pos hi

theorem pack_dst (hi : i < familyBytes family) :
  pack src srcLen dst dstLen family (familyBytes family + i)
    = dst i &&& maskBytes dstLen family i
  := by
  cases family with
  | any => exact absurd hi (Nat.not_lt_zero i)
  | ipv4 =>
    have hi' : i < 4 := hi
    refine (if_neg ?_).trans ((if_pos ?_).trans ?_)
    · change ¬ 4 + i < 4
      omega
    · change 4 + i < 2 * 4
      omega
    · rw [Nat.add_sub_cancel_left]
  | ipv6 =>
  have hi' : i < 16 := hi
  refine (if_neg ?_).trans ((if_pos ?_).trans ?_)
  · change ¬ 16 + i < 16
    omega
  · change 16 + i < 32
    omega
  change dst (16 + i - 16) &&& maskBytes dstLen .ipv6 (16 + i - 16) = _
  rw [Nat.add_sub_cancel_left]

theorem pack_beyond (hi : 2 * familyBytes family ≤ i) :
  pack src srcLen dst dstLen family i = 0
  := by
  cases family with
  | any => rfl
  | ipv4 =>
    change 8 ≤ i at hi
    change (if i < 4 then _ else if i < 2 * 4 then _ else _) = _
    rw [if_neg (by omega), if_neg (by omega)]
  | ipv6 =>
  change 32 ≤ i at hi
  change (if i < 16 then _ else if i < 32 then _ else _) = _
  rw [if_neg (by omega), if_neg (by omega)]

variable {p : PackedKey} {addr : FirewallAddr}

theorem eq_pack (hsrc : ∀ i < familyBytes family, p i = src i &&& maskBytes srcLen family i)
    (hdst : ∀ i < familyBytes family,
      p (familyBytes family + i) = dst i &&& maskBytes dstLen family i)
    (hbeyond : ∀ i, 2 * familyBytes family ≤ i → p i = 0) :
  p = pack src srcLen dst dstLen family
  := by
  funext i
  by_cases hlow : i < familyBytes family
  · rw [hsrc i hlow, pack_src hlow]
  by_cases hhigh : i < 2 * familyBytes family
  · obtain ⟨k, rfl⟩ := Nat.exists_eq_add_of_le (not_lt.mp hlow)
    have hk : k < familyBytes family := by omega
    rw [hdst k hk, pack_dst hk]
  · rw [hbeyond i (not_lt.mp hhigh), pack_beyond (not_lt.mp hhigh)]

theorem maskedAddr_of_lt (hi : i < familyBytes family) :
  maskedAddr addr len family i = addr i &&& maskBytes len family i
  := by
  rw [maskedAddr, if_pos hi]

/-- A rule packs to the same key before its networks are masked and after. -/
theorem pack_maskedAddr :
  pack (maskedAddr src srcLen family) srcLen (maskedAddr dst dstLen family) dstLen family
    = pack src srcLen dst dstLen family
  := by
  apply eq_pack
  · intro i hi
    rw [pack_src hi, maskedAddr_of_lt hi, BitVec.and_assoc, BitVec.and_self]
  · intro i hi
    rw [pack_dst hi, maskedAddr_of_lt hi, BitVec.and_assoc, BitVec.and_self]
  intro i hi
  exact pack_beyond hi

/-- The comparison of a group reads all bytes of its keys. -/
theorem keyEqual_iff {q : PackedKey} (hp : ∀ i, 2 * familyBytes family ≤ i → p i = 0)
    (hq : ∀ i, 2 * familyBytes family ≤ i → q i = 0) :
  FirewallTable.keyEqual (2 * familyBytes family) p q = true ↔ p = q
  := by
  constructor
  case mpr =>
    rintro rfl
    rw [keyEqual_eq]
    exact decide_eq_true rfl
  case mp =>
  intro hequal
  have hsame : ∀ i < 2 * familyBytes family, p i = q i := by
    cases family with
    | any => intro i hi; exact absurd hi (Nat.not_lt_zero i)
    | ipv4 =>
      change (load64 p 0 == load64 q 0) = true at hequal
      rw [beq_iff_eq, load64_eq_iff] at hequal
      intro i hi
      have hbyte := hequal i hi
      rwa [Nat.zero_add] at hbyte
    | ipv6 =>
    change decide (Key64.load p = Key64.load q) = true at hequal
    rw [decide_eq_true_eq, Key64.load, Key64.load, Key64.mk.injEq, load64_eq_iff, load64_eq_iff,
      load64_eq_iff, load64_eq_iff] at hequal
    obtain ⟨h0, h1, h2, h3⟩ := hequal
    intro i hi
    change i < 32 at hi
    obtain ⟨w, k, hk, rfl⟩ : ∃ w k, k < 8 ∧ i = 8 * w + k :=
      ⟨i / 8, i % 8, Nat.mod_lt i (by decide), by omega⟩
    have hw : w < 4 := by omega
    interval_cases w
    · exact h0 k hk
    · exact h1 k hk
    · exact h2 k hk
    · exact h3 k hk
  funext i
  by_cases hi : i < 2 * familyBytes family
  · exact hsame i hi
  · rw [hp i (not_lt.mp hi), hq i (not_lt.mp hi)]

/-- Two keys packed with the same lengths are equal exactly when the addresses of one are in the
prefixes of the other. -/
theorem pack_eq_iff {net net' : FirewallAddr} (hsrc : srcLen ≤ familyBits family)
    (hdst : dstLen ≤ familyBits family) :
  pack src srcLen dst dstLen family = pack net srcLen net' dstLen family
    ↔ InPrefix net srcLen src ∧ InPrefix net' dstLen dst
  := by
  rw [← masked_eq_iff hsrc, ← masked_eq_iff hdst]
  constructor
  · intro heq
    constructor
    · intro i hi
      have hbyte := congrFun heq i
      rwa [pack_src hi, pack_src hi] at hbyte
    intro i hi
    have hbyte := congrFun heq (familyBytes family + i)
    rwa [pack_dst hi, pack_dst hi] at hbyte
  rintro ⟨hsame, hsame'⟩
  apply eq_pack
  · intro i hi
    rw [pack_src hi, hsame i hi]
  · intro i hi
    rw [pack_dst hi, hsame' i hi]
  intro i hi
  exact pack_beyond hi

/-- A masked network is found at its half of the packed key exactly when the address is in the
prefix. -/
theorem maskedAddr_eq_iff (net : FirewallAddr) {offset : ℕ} (hlen : len ≤ familyBits family)
    (hp : ∀ i < familyBytes family, p (offset + i) = addr i &&& maskBytes len family i) :
  (∀ i < familyBytes family, maskedAddr net len family (0 + i) = p (offset + i))
    ↔ InPrefix net len addr
  := by
  rw [← masked_eq_iff hlen]
  apply forall₂_congr
  intro i hi
  rw [hp i hi, Nat.zero_add, maskedAddr_of_lt hi]
  exact eq_comm

end Pack

/-! ### The predicate of the table and the scan -/

theorem inPrefix_zero (net addr : FirewallAddr) :
  InPrefix net 0 addr
  := fun b hb => absurd hb (Nat.not_lt_zero b)

theorem refusal_eq_none (h : rule.refusal = none) :
  (rule.family = .any → rule.srcLen = 0 ∧ rule.dstLen = 0)
    ∧ rule.srcLen ≤ familyBits rule.family ∧ rule.dstLen ≤ familyBits rule.family
  := by
  simp only [FirewallRule.refusal] at h
  split at h
  case isTrue => cases h
  case isFalse hany =>
  split at h
  case isTrue => cases h
  case isFalse hsrc =>
  obtain ⟨-, ⟨⟩⟩ | ⟨hdst, h⟩ := ite_eq_iff.mp h
  refine ⟨fun hfam => ?_, not_lt.mp hsrc, not_lt.mp hdst⟩
  have hlens : ¬ (rule.srcLen ≠ 0 ∨ rule.dstLen ≠ 0) := fun hlens => hany ⟨hfam, hlens⟩
  omega

/-- A rule whose port ranges are full does not check them. -/
theorem ports_iff (rule : FirewallRule) (key : FirewallKey) :
  (!(normalizeRule rule).checksPorts
      || (decide (rule.srcPortLow ≤ key.srcPort) && decide (key.srcPort ≤ rule.srcPortHigh)
        && decide (rule.dstPortLow ≤ key.dstPort) && decide (key.dstPort ≤ rule.dstPortHigh))) = true
    ↔ (rule.srcPortLow ≤ key.srcPort ∧ key.srcPort ≤ rule.srcPortHigh)
      ∧ rule.dstPortLow ≤ key.dstPort ∧ key.dstPort ≤ rule.dstPortHigh
  := by
  have hlow : ∀ port : BitVec 16, 0 ≤ port := fun port => BitVec.le_def.mpr (Nat.zero_le _)
  have hhigh : ∀ port : BitVec 16, port ≤ 0xffff := fun port =>
    BitVec.le_def.mpr (Nat.le_of_lt_succ port.isLt)
  rw [normalizeRule]
  simp only [Bool.or_eq_true, Bool.not_eq_true', Bool.or_eq_false_iff, decide_eq_false_iff_not, not_not,
    Bool.and_eq_true, decide_eq_true_eq]
  constructor
  · rintro (⟨⟨⟨hsl, hsh⟩, hdl⟩, hdh⟩ | ⟨⟨⟨hsl, hsh⟩, hdl⟩, hdh⟩)
    · rw [hsl, hsh, hdl, hdh]
      exact ⟨⟨hlow _, hhigh _⟩, hlow _, hhigh _⟩
    · exact ⟨⟨hsl, hsh⟩, hdl, hdh⟩
  rintro ⟨⟨hsl, hsh⟩, hdl, hdh⟩
  exact Or.inr ⟨⟨⟨hsl, hsh⟩, hdl⟩, hdh⟩

/-- The addresses of a rule and a key packed to the lengths of the rule. -/
theorem addresses_iff (hrefusal : rule.refusal = none)
    (hpacked : rule.family ≠ .any →
      packed = pack key.src rule.srcLen key.dst rule.dstLen rule.family) :
  (if rule.family = .ipv6 then
      (rule.srcLen == 0 || bytes16Equal (normalizeRule rule).srcNet packed 0 0)
        && (rule.dstLen == 0 || bytes16Equal (normalizeRule rule).dstNet packed 0 16)
    else
      (rule.srcLen == 0 || load32 (normalizeRule rule).srcNet 0 == load32 packed 0)
        && (rule.dstLen == 0 || load32 (normalizeRule rule).dstNet 0 == load32 packed 4)) = true
    ↔ InPrefix rule.srcNet rule.srcLen key.src ∧ InPrefix rule.dstNet rule.dstLen key.dst
  := by
  obtain ⟨hany, hsrc, hdst⟩ := refusal_eq_none hrefusal
  by_cases hfam : rule.family = .any
  case pos =>
    obtain ⟨hsrc0, hdst0⟩ := hany hfam
    rw [if_neg (by rw [hfam]; nofun), hsrc0, hdst0]
    exact ⟨fun _ => ⟨inPrefix_zero _ _, inPrefix_zero _ _⟩, fun _ => rfl⟩
  case neg =>
  have hpack := hpacked hfam
  have hlow : ∀ i < familyBytes rule.family,
      packed (0 + i) = key.src i &&& maskBytes rule.srcLen rule.family i := by
    intro i hi
    rw [hpack, Nat.zero_add, pack_src hi]
  have hhigh : ∀ i < familyBytes rule.family, packed (familyBytes rule.family + i)
      = key.dst i &&& maskBytes rule.dstLen rule.family i := by
    intro i hi
    rw [hpack, pack_dst hi]
  have hsrcIff := maskedAddr_eq_iff rule.srcNet hsrc hlow
  have hdstIff := maskedAddr_eq_iff rule.dstNet hdst hhigh
  -- a half is compared only when its prefix is not empty
  have hskip : ∀ {len : ℕ} {net addr : FirewallAddr} {equal : Bool},
      (equal = true ↔ InPrefix net len addr) →
        ((len == 0 || equal) = true ↔ InPrefix net len addr) := by
    intro len net addr equal hequal
    rw [Bool.or_eq_true, beq_iff_eq, hequal]
    constructor
    · rintro (rfl | hprefix)
      · exact inPrefix_zero _ _
      · exact hprefix
    · exact Or.inr
  cases hcase : rule.family with
  | any => exact absurd hcase hfam
  | ipv4 =>
    rw [if_neg nofun, Bool.and_eq_true]
    apply and_congr
    · apply hskip
      rw [beq_iff_eq, load32_eq_iff, ← hsrcIff, normalizeRule, hcase]
      rfl
    apply hskip
    rw [beq_iff_eq, load32_eq_iff, ← hdstIff, normalizeRule, hcase]
    rfl
  | ipv6 =>
  rw [if_pos rfl, Bool.and_eq_true]
  apply and_congr
  · apply hskip
    rw [bytes16Equal_iff, ← hsrcIff, normalizeRule, hcase]
    rfl
  apply hskip
  rw [bytes16Equal_iff, ← hdstIff, normalizeRule, hcase]
  rfl

/-- `Matches` on a rule as the table and the scan keep it. -/
theorem matches_normalizeRule
    (hrefusal : rule.refusal = none) (hfam : rule.family = .any ∨ rule.family = key.family)
    (hpacked : rule.family ≠ .any →
      packed = pack key.src rule.srcLen key.dst rule.dstLen rule.family) :
  (normalizeRule rule).matches key packed = decide (rule.Holds key)
  := by
  rw [Bool.eq_iff_iff, decide_eq_true_eq, FirewallRule.matches, Bool.and_eq_true, Bool.and_eq_true]
  have haddrs := addresses_iff hrefusal hpacked
  have hports := ports_iff rule key
  have hproto : (rule.proto == kAnyProto || rule.proto == key.proto) = true
      ↔ rule.proto = kAnyProto ∨ rule.proto = key.proto := by
    rw [Bool.or_eq_true, beq_iff_eq, beq_iff_eq]
  constructor
  · rintro ⟨⟨hp, ha⟩, ht⟩
    obtain ⟨hs, hd⟩ := haddrs.mp ha
    exact ⟨hfam, hproto.mp hp, hs, hd, hports.mp ht⟩
  rintro ⟨-, hp, hs, hd, ht⟩
  exact ⟨⟨hproto.mpr hp, haddrs.mpr ⟨hs, hd⟩⟩, hports.mpr ht⟩

end Classifier
