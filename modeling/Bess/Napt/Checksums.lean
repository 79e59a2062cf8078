import Bess.Foundations.WordSum
import Bess.Napt.Reparse

/-!
# Checksums of rewritten packets

The Internet checksum of `core/utils/checksum.h`, on its portable path. Whatever the split into
words, a checksum verifies exactly if the sum of the 16-bit words is a multiple of `2 ^ 16 - 1` and
not zero. A rewrite updates a checksum so that the sum stays the same modulo `2 ^ 16 - 1`, and so
the checksum verifies as it did before. The one packet for which this is not so is an ICMP message
of zeros: its sum is zero, and a rewrite gives it a checksum that verifies.
-/

open BitVec

namespace Napt

open WordSum

/-! ### Verification -/

namespace Frame

/-- Four bytes as the host loads them. -/
def load32 (f : Frame) (i : ℕ) : BitVec 32 :=
  f.load16 (i + 2) ++ f.load16 i

/-- The length of the IPv4 header at `ip`. -/
def headerLength (f : Frame) (ip : ℕ) : ℕ :=
  (f.byte ip &&& 0xf).toNat <<< 2

/-- The pseudo-header of the IPv4 packet at `ip`, and after it the `len` bytes at `l4`. -/
def withPseudoHeader (f : Frame) (ip l4 : ℕ) (len : BitVec 16) (protocol : BitVec 8) : Frame :=
  ⟨12 + len.toNat, fun k =>
    if k < 8 then f.byte (ip + 12 + k)
    else if k < 12 then [0, protocol, len.extractLsb' 8 8, len.extractLsb' 0 8].getD (k - 8) 0
    else f.byte (l4 + (k - 12))⟩

end Frame

def fold64 (sum : ℕ) : BitVec 32 :=
  let sum := sum / 2 ^ 32 + sum % 2 ^ 32
  BitVec.ofNat 32 (sum + sum / 2 ^ 32)

/-- The 32-bit words of `len` bytes, for a multiple of 16. -/
def sumWords32 (f : Frame) (i len : ℕ) : ℕ :=
  let sum := ((List.range (len / 4)).map fun k => (f.load32 (i + 4 * k)).toNat).sum
  sum / 2 ^ 32 + sum % 2 ^ 32

/-- Whole blocks of 16 bytes are summed as 32-bit words, the rest as 16-bit words. -/
def calculateSum (f : Frame) (i len : ℕ) : BitVec 32 :=
  let whole := len / 16 * 16
  fold64 (sumWords32 f i whole + WordSum.sum f.byte (i + whole) (len % 16))

def verifyGenericChecksum (f : Frame) (i len : ℕ) : Bool :=
  foldChecksum (calculateSum f i len) = 0

/-- The checksum of a TCP segment or a UDP datagram, over the pseudo-header and its bytes. -/
def verifyTransport (f : Frame) (ip l4 : ℕ) (len : BitVec 16) (protocol : BitVec 8) : Bool :=
  verifyGenericChecksum (f.withPseudoHeader ip l4 len protocol) 0 (12 + len.toNat)

/-! ### The sums behind the checksums -/

/-- Folding keeps a sum modulo `2 ^ 16 - 1` and tells zero from its multiples. -/
theorem foldChecksum_spec (s : BitVec 32) :
  ((foldChecksum s).toNat + s.toNat) % 65535 = 0
    ∧ ((foldChecksum s).toNat = 65535 ↔ s.toNat = 0)
  := by
  have hmask : (s &&& 0xffff).toNat = s.toNat % 65536 := by
    exact Nat.and_two_pow_sub_one_eq_mod s.toNat 16
  simp only [foldChecksum, toNat_setWidth, toNat_not, toNat_add,
    toNat_ushiftRight, Nat.shiftRight_eq_div_pow, hmask]
  have hsplit := Nat.div_add_mod s.toNat 65536
  have hlow : s.toNat % 65536 < 65536 := Nat.mod_lt _ (by decide)
  generalize s.toNat / 65536 = high, s.toNat % 65536 = low at *
  rcases Nat.lt_or_ge (high + low) 65536 with hcarry | hcarry
  · have hvalue : (4294967296 - 1 - (high + low + 0) % 4294967296) % 65536
        = 65535 - (high + low) := by omega
    rw [Nat.mod_eq_of_lt (a := high + low) (by omega), Nat.div_eq_of_lt hcarry]
    omega
  have hone : (high + low) / 65536 = 1 := by omega
  have hvalue : (4294967296 - 1 - (high + low + 1) % 4294967296) % 65536
      = 131070 - (high + low) := by omega
  rw [Nat.mod_eq_of_lt (a := high + low) (by omega)]
  omega

theorem foldChecksum_eq_zero_iff (s : BitVec 32) :
  foldChecksum s = 0 ↔ Valid s.toNat
  := by
  obtain ⟨hmod, hzero⟩ := foldChecksum_spec s
  rw [Valid, toNat_eq]
  change _ = 0 ↔ _
  omega

theorem agree_fold64 {s : ℕ} (hs : s < 2 ^ 64) :
  Agree (fold64 s).toNat s
  := by
  simp only [Agree, fold64, toNat_ofNat, Nat.reducePow]
  have hsplit := Nat.div_add_mod s 4294967296
  have hlow : s % 4294967296 < 4294967296 := Nat.mod_lt _ (by decide)
  generalize s / 4294967296 = high, s % 4294967296 = low at *
  rcases Nat.lt_or_ge (high + low) 4294967296 with hcarry | hcarry
  · rw [Nat.div_eq_of_lt hcarry, Nat.add_zero, Nat.mod_eq_of_lt hcarry]
    omega
  have hone : (high + low) / 4294967296 = 1 := by omega
  have hwrap : (high + low + 1) % 4294967296 = high + low + 1 - 4294967296 := by omega
  rw [hone]
  omega

theorem toNat_append {m n : ℕ} (x : BitVec m) (y : BitVec n) :
  (x ++ y).toNat = x.toNat * 2 ^ n + y.toNat
  := by
  rw [BitVec.toNat_append, ← Nat.shiftLeft_add_eq_or_of_lt y.isLt, Nat.shiftLeft_eq]

theorem toNat_load16 (f : Frame) (i : ℕ) :
  (f.load16 i).toNat = word f.byte i
  := by
  rw [Frame.load16, toNat_append, word]
  omega

theorem agree_load32 (f : Frame) (i : ℕ) :
  Agree (f.load32 i).toNat (sum f.byte i 4)
  := by
  rw [Frame.load32, toNat_append, toNat_load16, toNat_load16]
  simp only [Agree, sum]
  omega

variable {f : Frame} {i ip l4 len a : ℕ}

theorem agree_sumWords32 (f : Frame) (i k : ℕ) :
  Agree ((List.range k).map fun j => (f.load32 (i + 4 * j)).toNat).sum (sum f.byte i (4 * k))
  := by
  induction k with
  | zero => exact ⟨rfl, Iff.rfl⟩
  | succ k ih =>
  have hsplit : 4 * (k + 1) = 2 * (2 * k) + 4 := by omega
  have hfour : 2 * (2 * k) = 4 * k := by omega
  rw [List.range_succ, hsplit, sum_add, hfour]
  simpa using ih.add (agree_load32 f (i + 4 * k))

theorem sum_toNat_le (words : List (BitVec 32)) :
  (words.map BitVec.toNat).sum ≤ words.length * 2 ^ 32
  := by
  induction words with
  | nil => rfl
  | cons word words ih =>
  rw [List.map_cons, List.sum_cons, List.length_cons]
  omega

theorem agree_calculateSum (hlen : len < 2 ^ 34) :
  Agree (calculateSum f i len).toNat (sum f.byte i len)
  := by
  rw [calculateSum, sumWords32]
  have hwords := agree_sumWords32 f i (len / 16 * 16 / 4)
  have hbound := sum_toNat_le ((List.range (len / 16 * 16 / 4)).map fun j => f.load32 (i + 4 * j))
  rw [List.length_map, List.length_range, List.map_map, Function.comp_def] at hbound
  have hrest := sum_le f.byte (i + len / 16 * 16) (len % 16)
  have hwhole : 4 * (len / 16 * 16 / 4) = 2 * (len / 16 * 8) := by omega
  have hlen' : len = 2 * (len / 16 * 8) + len % 16 := by omega
  have hplace : len / 16 * 16 = 2 * (len / 16 * 8) := by omega
  generalize ((List.range (len / 16 * 16 / 4)).map fun j => (f.load32 (i + 4 * j)).toNat).sum = s
    at hwords hbound ⊢
  apply (agree_fold64 (by omega)).trans
  rw [hwhole] at hwords
  have hsum : sum f.byte i len
      = sum f.byte i (2 * (len / 16 * 8)) + sum f.byte (i + 2 * (len / 16 * 8)) (len % 16) := by
    rw [← sum_add, ← hlen']
  rw [hsum, hplace]
  apply Agree.add (Agree.trans _ hwords) ⟨rfl, Iff.rfl⟩
  rw [Agree]
  omega

theorem verifyGenericChecksum_iff (hlen : len < 2 ^ 34) :
  verifyGenericChecksum f i len = true ↔ Valid (sum f.byte i len)
  := by
  rw [verifyGenericChecksum, decide_eq_true_iff, foldChecksum_eq_zero_iff]
  exact (agree_calculateSum hlen).valid_iff

theorem sum_withPseudoHeader (f : Frame) (ip l4 : ℕ) (len : BitVec 16) (protocol : BitVec 8) :
  sum (f.withPseudoHeader ip l4 len protocol).byte 0 (12 + len.toNat)
    = sum f.byte (ip + 12) 8 + sum f.byte l4 len.toNat
      + (256 * protocol.toNat + (raw16 len).toNat)
  := by
  have hseg : sum (f.withPseudoHeader ip l4 len protocol).byte 12 len.toNat
      = sum f.byte l4 len.toNat := by
    apply sum_congr
    intro j _
    simp only [Frame.withPseudoHeader]
    rw [if_neg (by omega), if_neg (by omega), Nat.add_sub_cancel_left]
  have haddrs : sum (f.withPseudoHeader ip l4 len protocol).byte 0 8
      = sum f.byte (ip + 12) 8 := by
    apply sum_congr
    intro j hj
    rw [Nat.zero_add]
    exact if_pos hj
  have hrest : sum (f.withPseudoHeader ip l4 len protocol).byte 8 4
      = 256 * protocol.toNat + (raw16 len).toNat := by
    rw [raw16, toNat_append]
    change 0 + 256 * protocol.toNat
      + ((len.extractLsb' 8 8).toNat + 256 * (len.extractLsb' 0 8).toNat + 0) = _
    omega
  rw [sum_add _ 0 6, sum_add _ 0 4 4, haddrs, hrest, hseg]
  omega

/-! ### Increments and updates -/

theorem toNat_checksumIncrement16 (before after : BitVec 16) :
  (checksumIncrement16 before after).toNat + before.toNat = 65535 + after.toNat
  := by
  simp only [checksumIncrement16, toNat_add, toNat_setWidth, toNat_not]
  omega

/-- The increment of a 32-bit word is the sum of the increments of its halves. -/
theorem toNat_checksumIncrement32 (before after : BitVec 32) :
  (checksumIncrement32 before after).toNat
    = (checksumIncrement16 (before.extractLsb' 0 16) (after.extractLsb' 0 16)).toNat
      + (checksumIncrement16 (before.extractLsb' 16 16) (after.extractLsb' 16 16)).toNat
  := by
  have hhigh (v : BitVec 32) : v >>> 16 = (v.extractLsb' 16 16).setWidth 32 := by
    have := v.isLt
    apply eq_of_toNat_eq
    rw [toNat_ushiftRight, toNat_setWidth, extractLsb'_toNat, Nat.shiftRight_eq_div_pow]
    omega
  have hlow (v : BitVec 32) : v &&& 0xffff = (v.extractLsb' 0 16).setWidth 32 := by
    apply eq_of_toNat_eq
    rw [toNat_setWidth]
    exact (Nat.and_two_pow_sub_one_eq_mod v.toNat 16).trans (Nat.mod_eq_of_lt (by omega)).symm
  have hnot : (~~~before).extractLsb' 16 16 = ~~~before.extractLsb' 16 16 := by
    ext i hi
    simp
    omega
  have hcast : ((65535 : ℕ) : BitVec 32) = 0xffff := rfl
  have hsum : checksumIncrement32 before after
      = checksumIncrement16 (before.extractLsb' 0 16) (after.extractLsb' 0 16)
        + checksumIncrement16 (before.extractLsb' 16 16) (after.extractLsb' 16 16) := by
    rw [checksumIncrement32, hcast, hhigh, hhigh, hlow, hlow, hnot,
      extractLsb'_not_of_lt (by decide), checksumIncrement16, checksumIncrement16]
    ac_rfl
  have hfirst := toNat_checksumIncrement16 (before.extractLsb' 0 16) (after.extractLsb' 0 16)
  have hsecond := toNat_checksumIncrement16 (before.extractLsb' 16 16) (after.extractLsb' 16 16)
  rw [hsum, toNat_add]
  omega

/-- An update takes the increment off the checksum. -/
theorem updateChecksum_mod (checksum : BitVec 16) (inc : BitVec 32) (hinc : inc.toNat < 2 ^ 20) :
  ((updateChecksumWithIncrement checksum inc).toNat + inc.toNat) % 65535 = checksum.toNat % 65535
  := by
  obtain ⟨hmod, -⟩ := foldChecksum_spec ((~~~checksum).setWidth 32 + inc)
  have hlt := checksum.isLt
  rw [updateChecksumWithIncrement]
  simp only [toNat_add, toNat_setWidth, toNat_not] at hmod
  omega

theorem nonzeroChecksum_mod (checksum : BitVec 16) (inc : BitVec 32) (hinc : inc.toNat < 2 ^ 20) :
  ((nonzeroChecksum (updateChecksumWithIncrement checksum inc)).toNat + inc.toNat) % 65535
      = checksum.toNat % 65535
    ∧ nonzeroChecksum (updateChecksumWithIncrement checksum inc) ≠ 0
  := by
  have hupd := updateChecksum_mod checksum inc hinc
  rw [nonzeroChecksum]
  split
  case isTrue h => exact ⟨hupd, h⟩
  case isFalse h =>
  rw [not_not.mp h] at hupd
  refine ⟨?_, by decide⟩
  change (65535 + inc.toNat) % 65535 = _
  rw [Nat.add_mod_left, ← hupd]
  exact congrArg (· % 65535) (Nat.zero_add _).symm

/-! ### Stores -/

open Napt.Frame

theorem word_store16 (f : Frame) (i : ℕ) (v : BitVec 16) :
  word (f.store16 i v).byte i = v.toNat
  := by
  rw [word, byte_store16, byte_store16, if_neg (by omega), if_pos rfl, if_pos rfl]
  simp only [extractLsb'_toNat]
  omega

theorem load16_store16 (f : Frame) (i : ℕ) (v : BitVec 16) :
  (f.store16 i v).load16 i = v
  := by
  apply eq_of_toNat_eq
  rw [toNat_load16, word_store16]

/-- A store adds the increment of its word to the sum. -/
theorem sum_store16 (hfrom : i ≤ a) (hto : a + 2 ≤ i + len) (heven : (a - i) % 2 = 0) (v : BitVec 16) :
  sum (f.store16 a v).byte i len + 65535
    = sum f.byte i len + (checksumIncrement16 (f.load16 a) v).toNat
  := by
  obtain ⟨k, rfl⟩ : ∃ k, a = i + 2 * k := ⟨(a - i) / 2, by omega⟩
  have hincrement := toNat_checksumIncrement16 (f.load16 (i + 2 * k)) v
  have hother {j : ℕ} (h : j ≠ i + 2 * k) (h' : j ≠ i + 2 * k + 1) :
      (f.store16 (i + 2 * k) v).byte j = f.byte j := byte_store16_of_ne (by omega) v
  have hword := sum_replace (show 2 * k + 1 < len by omega) fun _ => hother
  rw [word_store16, ← toNat_load16] at hword
  omega

theorem sum_store32 (hfrom : i ≤ a) (hto : a + 4 ≤ i + len) (heven : (a - i) % 2 = 0) (v : BitVec 32) :
  sum (f.store32 a v).byte i len + 131070
    = sum f.byte i len + (checksumIncrement32 (f.load32 a) v).toNat
  := by
  have hlow : sum (f.store16 a (v.extractLsb' 0 16)).byte i len + _ = _ :=
    sum_store16 hfrom (by omega) heven _
  have hhigh : sum (f.store32 a v).byte i len + _ = _ :=
    sum_store16 (by omega) (by omega) (by omega) _
  rw [load16_congr fun j _ _ => byte_store16_of_ne (by omega) _] at hhigh
  rw [toNat_checksumIncrement32, Frame.load32, extractLsb'_append_eq_left,
    extractLsb'_append_eq_right]
  omega

/-- The store of a checksum that was updated takes the increment off the sum. -/
theorem sum_update {inc : ℕ} (hfrom : i ≤ a) (hto : a + 2 ≤ i + len) (heven : (a - i) % 2 = 0)
    {v : BitVec 16} (h : (v.toNat + inc) % 65535 = (f.load16 a).toNat % 65535) :
  (sum (f.store16 a v).byte i len + inc) % 65535 = sum f.byte i len % 65535
  := by
  have hstore : sum (f.store16 a v).byte i len + _ = _ := sum_store16 hfrom hto heven v
  have hincrement := toNat_checksumIncrement16 (f.load16 a) v
  omega

/-! ### A rewritten packet -/

theorem raw16_be16 (f : Frame) (i : ℕ) :
  raw16 (f.be16 i) = f.load16 i
  := by
  rw [raw16, Frame.be16, extractLsb'_append_eq_right, extractLsb'_append_eq_left, Frame.load16]

theorem raw32_be32 (f : Frame) (i : ℕ) :
  raw32 (f.be32 i) = f.load32 i
  := by
  rw [raw32, Frame.be32, extractLsb'_append_eq_right, extractLsb'_append_eq_left,
    raw16_be16, raw16_be16, Frame.load32]

variable {f' : Frame} {ip l4 : ℕ} {dir : Direction}

section Stored

variable {after : Endpoint} {l3Sum l4Sum : BitVec 16} (hip : ip + 20 ≤ l4)
  (hf' : f' = stored f ip l4 dir after l3Sum l4Sum)

include hf'

/-- The stores in the L4 header come after the IPv4 header. -/
theorem byte_stored_of_lt {j : ℕ} (hj : j < l4) :
  f'.byte j = ((f.store32 (addrAt ip dir) (raw32 after.addr)).store16 (ip + 10) l3Sum).byte j
  := by
  obtain ⟨hport, hsum, -⟩ := portAt_bounds l4 (f.byte (ip + 9)) dir
  rw [hf', stored, byte_store16_of_ne (by omega), byte_store16_of_ne (by omega)]

include hip

theorem sum_stored_header (h : (l3Sum.toNat
    + (checksumIncrement32 (f.load32 (addrAt ip dir)) (raw32 after.addr)).toNat) % 65535
      = (f.load16 (ip + 10)).toNat % 65535) :
  sum f'.byte ip (l4 - ip) % 65535 = sum f.byte ip (l4 - ip) % 65535
  := by
  have haddr := addrAt_bounds ip dir
  have heven : (addrAt ip dir - ip) % 2 = 0 := by
    rw [addrAt]
    split <;> omega
  have hstore : sum (f.store32 (addrAt ip dir) (raw32 after.addr)).byte ip (l4 - ip) + _ = _ :=
    sum_store32 (by omega) (by omega) heven _
  have hload : (f.store32 (addrAt ip dir) (raw32 after.addr)).load16 (ip + 10)
      = f.load16 (ip + 10) := load16_congr fun j _ _ => byte_store32_of_ne (by omega) _
  rw [← hload] at h
  have hupd : (sum ((f.store32 (addrAt ip dir) (raw32 after.addr)).store16 (ip + 10) l3Sum).byte
      ip (l4 - ip) + _) % _ = _ := sum_update (by omega) (by omega) (by omega) h
  rw [sum_congr fun j _ => byte_stored_of_lt hf' (by omega)]
  omega

theorem sum_stored_addresses :
  sum f'.byte (ip + 12) 8 + 131070 = sum f.byte (ip + 12) 8
    + (checksumIncrement32 (f.load32 (addrAt ip dir)) (raw32 after.addr)).toNat
  := by
  have haddr := addrAt_bounds ip dir
  have heven : (addrAt ip dir - (ip + 12)) % 2 = 0 := by
    rw [addrAt]
    split <;> omega
  rw [sum_congr fun j _ => (byte_stored_of_lt hf' (by omega)).trans
    (byte_store16_of_ne (by omega) l3Sum)]
  exact sum_store32 (by omega) (by omega) heven _

theorem sum_stored_segment (len inc : ℕ) (hlen : 8 ≤ len)
    (hfits : sumAt l4 (f.byte (ip + 9)) + 2 ≤ l4 + len)
    (h : ((f'.load16 (sumAt l4 (f.byte (ip + 9)))).toNat + inc) % 65535
      = (f.load16 (sumAt l4 (f.byte (ip + 9)))).toNat % 65535) :
  (sum f'.byte l4 len + inc) % 65535
    = (sum f.byte l4 len + (checksumIncrement16
      (f.load16 (portAt l4 (f.byte (ip + 9)) dir)) (raw16 after.port)).toNat) % 65535
  := by
  have haddr := addrAt_bounds ip dir
  obtain ⟨hport, hsum, happart⟩ := portAt_bounds l4 (f.byte (ip + 9)) dir
  have heven : (portAt l4 (f.byte (ip + 9)) dir - l4) % 2 = 0
      ∧ portAt l4 (f.byte (ip + 9)) dir + 2 ≤ l4 + 8 := by
    rw [portAt]
    split_ifs <;> omega
  have hevenSum : (sumAt l4 (f.byte (ip + 9)) - l4) % 2 = 0 := by
    rw [sumAt]
    split_ifs <;> omega
  rw [hf', stored] at h ⊢
  rw [load16_store16] at h
  generalize portAt l4 (f.byte (ip + 9)) dir = port at *
  generalize sumAt l4 (f.byte (ip + 9)) = checksum at *
  have hseg {j : ℕ} (hj : l4 ≤ j) : ((f.store32 (addrAt ip dir) (raw32 after.addr)).store16
      (ip + 10) l3Sum).byte j = f.byte j := by
    rw [byte_store16_of_ne (by omega), byte_store32_of_ne (by omega)]
  generalize (f.store32 (addrAt ip dir) (raw32 after.addr)).store16 (ip + 10) l3Sum = f₂ at *
  have hstore : sum (f₂.store16 port (raw16 after.port)).byte l4 len + _ = _ :=
    sum_store16 hport (by omega) heven.1 _
  have hload : (f₂.store16 port (raw16 after.port)).load16 checksum = f.load16 checksum := by
    apply load16_congr
    intro j _ _
    rw [byte_store16_of_ne (by omega), hseg (by omega)]
  have hupd := sum_update hsum hfits hevenSum (hload ▸ h)
  rw [sum_congr fun j _ => hseg (by omega), load16_congr fun j _ _ => hseg (by omega)]
    at hstore
  omega

end Stored

/-! ### What a rewrite leaves of the checksums -/

theorem checksumIncrement16_lt (before after : BitVec 16) :
  (checksumIncrement16 before after).toNat < 2 ^ 17
  := by
  have hincrement := toNat_checksumIncrement16 before after
  omega

theorem checksumIncrement32_lt (before after : BitVec 32) :
  (checksumIncrement32 before after).toNat < 2 ^ 18
  := by
  rw [toNat_checksumIncrement32]
  exact Nat.add_lt_add (checksumIncrement16_lt _ _) (checksumIncrement16_lt _ _)

theorem verifyGenericChecksum_eq (hlen : len < 2 ^ 34)
    (h : Agree (sum f'.byte i len) (sum f.byte i len)) :
  verifyGenericChecksum f' i len = verifyGenericChecksum f i len
  := by
  rw [Bool.eq_iff_iff, verifyGenericChecksum_iff hlen, verifyGenericChecksum_iff hlen]
  exact h.valid_iff

/-- The sum over the pseudo-header is not zero, for the protocol is in it. -/
theorem verifyTransport_eq {len : BitVec 16} {protocol : BitVec 8} (hproto : protocol ≠ 0)
    (h : (sum f'.byte (ip + 12) 8 + sum f'.byte l4 len.toNat) % 65535
      = (sum f.byte (ip + 12) 8 + sum f.byte l4 len.toNat) % 65535) :
  verifyTransport f' ip l4 len protocol = verifyTransport f ip l4 len protocol
  := by
  have hpositive : protocol.toNat ≠ 0 := fun h => hproto (eq_of_toNat_eq h)
  apply verifyGenericChecksum_eq (by omega)
  rw [sum_withPseudoHeader, sum_withPseudoHeader, Agree]
  omega

theorem verifyHeader_eq (hlength : 20 ≤ f.headerLength ip) (hbyte : f'.byte ip = f.byte ip)
    (h : sum f'.byte ip (f.headerLength ip) % 65535 = sum f.byte ip (f.headerLength ip) % 65535) :
  verifyGenericChecksum f' ip (f'.headerLength ip) = verifyGenericChecksum f ip (f.headerLength ip)
  := by
  have hlen : f.headerLength ip < 2 ^ 34 := by
    rw [headerLength]
    omega
  have hfirst : f.byte ip ≠ 0 := by
    intro h
    rw [headerLength, h] at hlength
    exact absurd hlength (by decide)
  have hnonzero {g : Frame} (hg : g.byte ip = f.byte ip) : sum g.byte ip (f.headerLength ip) ≠ 0 :=
    fun h => hfirst (hg ▸ sum_eq_zero_iff.mp h 0 (by omega))
  have hsame : f'.headerLength ip = f.headerLength ip := by rw [headerLength, hbyte, headerLength]
  rw [hsame]
  exact verifyGenericChecksum_eq hlen ⟨h, iff_of_false (hnonzero hbyte) (hnonzero rfl)⟩

/-- A rewrite of the endpoint that a packet carries leaves the checksums of IPv4, TCP and UDP as
right or wrong as they were, and a UDP checksum that is absent stays absent. It does the same to
the checksum of ICMP, but makes that of a message of zeros right. -/
theorem rewrite_checksums (f : Frame) (ip l4 : ℕ) (dir : Direction) (before after : Endpoint)
    (hlength : 20 ≤ f.headerLength ip) (hl4 : l4 = ip + f.headerLength ip)
    (haddr : f.be32 (addrAt ip dir) = before.addr)
    (hport : f.be16 (portAt l4 (f.byte (ip + 9)) dir) = before.port)
    (hf' : f' = rewrite f ip l4 dir before after) :
  verifyGenericChecksum f' ip (f'.headerLength ip)
      = verifyGenericChecksum f ip (f.headerLength ip)
  ∧ (f.byte (ip + 9) = 6 → ∀ len : BitVec 16, 20 ≤ len.toNat →
    verifyTransport f' ip l4 len 6 = verifyTransport f ip l4 len 6)
  ∧ (f.byte (ip + 9) = 17 → (f'.load16 (l4 + 6) = 0 ↔ f.load16 (l4 + 6) = 0)
    ∧ ∀ len : BitVec 16, 8 ≤ len.toNat → f.load16 (l4 + 6) ≠ 0 →
      verifyTransport f' ip l4 len 17 = verifyTransport f ip l4 len 17)
  ∧ (f.byte (ip + 9) = 1 → ∀ len : BitVec 16, 8 ≤ len.toNat →
    (verifyGenericChecksum f' l4 len.toNat = true
      ↔ verifyGenericChecksum f l4 len.toNat = true ∨ ∀ j < len.toNat, f.byte (l4 + j) = 0))
  := by
  have hip : ip + 20 ≤ l4 := by omega
  rw [rewrite_eq_stored hip, ← haddr, ← hport, raw32_be32, raw16_be16] at hf'
  have haddrLt := checksumIncrement32_lt (f.load32 (addrAt ip dir)) (raw32 after.addr)
  have hportLt := checksumIncrement16_lt (f.load16 (portAt l4 (f.byte (ip + 9)) dir))
    (raw16 after.port)
  have hl4Sum := congrArg (fun g => g.load16 (sumAt l4 (f.byte (ip + 9)))) hf'
  simp only [stored, load16_store16] at hl4Sum
  have haddrs := sum_stored_addresses hip hf'
  have hseg (len inc : ℕ) := sum_stored_segment hip hf' len inc
  refine ⟨?ipv4, ?_⟩
  case ipv4 =>
    have hbyte : f'.byte ip = f.byte ip := by
      have haddr := addrAt_bounds ip dir
      rw [byte_stored_of_lt hf' (by omega), byte_store16_of_ne (by omega),
        byte_store32_of_ne (by omega)]
    have hlen : f.headerLength ip = l4 - ip := by omega
    apply verifyHeader_eq hlength hbyte
    rw [hlen]
    exact sum_stored_header hip hf' (updateChecksum_mod _ _ (by omega))
  generalize checksumIncrement32 _ (raw32 after.addr) = addr at haddrLt hl4Sum haddrs
  generalize checksumIncrement16 _ (raw16 after.port) = port at hportLt hl4Sum hseg
  have hboth : (addr + port).toNat = addr.toNat + port.toNat := toNat_add_of_lt (by omega)
  refine ⟨?tcp, ?udp, ?icmp⟩
  case tcp =>
    intro htcp len hlen
    rw [htcp] at hl4Sum hseg
    change f'.load16 (l4 + 16) = updateChecksumWithIncrement (f.load16 (l4 + 16)) _ at hl4Sum
    have hupd := updateChecksum_mod (f.load16 (l4 + 16)) (addr + port) (by omega)
    rw [← hl4Sum] at hupd
    have hsum := hseg len.toNat _ (by omega) (show l4 + 16 + 2 ≤ _ by omega) hupd
    apply verifyTransport_eq (by decide)
    omega
  case udp =>
    intro hudp
    rw [hudp] at hl4Sum hseg
    by_cases habsent : f.load16 (l4 + 6) = 0
    · have hl4Sum : f'.load16 (l4 + 6) = 0 := hl4Sum.trans (if_pos habsent)
      exact ⟨iff_of_true hl4Sum habsent, fun _ _ h => absurd habsent h⟩
    have hl4Sum : f'.load16 (l4 + 6) = _ := hl4Sum.trans (if_neg habsent)
    obtain ⟨hmod, hnonzero⟩ := nonzeroChecksum_mod (f.load16 (sumAt l4 17)) (addr + port) (by omega)
    rw [← hl4Sum] at hmod hnonzero
    refine ⟨iff_of_false hnonzero habsent, ?_⟩
    intro len hlen _
    have hsum := hseg len.toNat _ hlen (show l4 + 6 + 2 ≤ _ by omega) hmod
    apply verifyTransport_eq (by decide)
    omega
  case icmp =>
  intro hicmp len hlen
  rw [hicmp] at hl4Sum hseg
  change f'.load16 (l4 + 2) = nonzeroChecksum _ at hl4Sum
  obtain ⟨hmod, hnonzero⟩ := nonzeroChecksum_mod (f.load16 (sumAt l4 1)) port (by omega)
  rw [← hl4Sum] at hmod hnonzero
  have hsum := hseg len.toNat _ hlen (show l4 + 2 + 2 ≤ _ by omega) hmod
  have hpositive : sum f'.byte l4 len.toNat ≠ 0 := by
    intro h
    rw [sum_eq_zero_iff] at h
    apply hnonzero
    rw [Frame.load16, h 2 (by omega), h 3 (by omega)]
    rfl
  rw [verifyGenericChecksum_iff (by omega), verifyGenericChecksum_iff (by omega),
    ← sum_eq_zero_iff, Valid, Valid]
  omega

/-- An echo reply of zeros, with nothing else in its IPv4 header than it needs. -/
def zeroReply : Frame :=
  ⟨28, fun i => if i = 0 then 0x45 else if i = 3 then 28 else if i = 9 then 1 else 0⟩

theorem rewrite_checksums_zeroReply :
  20 ≤ zeroReply.headerLength 0 ∧ zeroReply.be32 (addrAt 0 .forward) = 0
    ∧ zeroReply.be16 (portAt 20 1 .forward) = 0
    ∧ verifyGenericChecksum (rewrite zeroReply 0 20 .forward ⟨0, 0, 1⟩ ⟨1, 7, 1⟩) 20 8 = true
  := by
  have hchecksums := rewrite_checksums zeroReply 0 20 .forward ⟨0, 0, 1⟩ ⟨1, 7, 1⟩ (by decide)
    rfl (by decide) (by decide) rfl
  refine ⟨by decide, by decide, by decide, ?_⟩
  exact (hchecksums.2.2.2 rfl 8 (by decide)).mpr (.inr (by decide))

/-- Its checksum is wrong, and the rewrite makes it right. -/
theorem rewrite_rights_zeroReply :
  zeroReply.be32 (addrAt 0 .forward) = 0 ∧ zeroReply.be16 (portAt 20 1 .forward) = 0
    ∧ verifyGenericChecksum zeroReply 20 8 = false
    ∧ verifyGenericChecksum (rewrite zeroReply 0 20 .forward ⟨0, 0, 1⟩ ⟨1, 7, 1⟩) 20 8 = true
  := by
  decide +kernel

end Napt
