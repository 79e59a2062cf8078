import Mathlib.Tactic.Common
import Bess.Parse.FastPath

/-!
# Parsing a rewritten frame

A rewrite changes the address and the port of one side of a packet and the two checksums. The
parse checks none of these: a frame that differs from a good one only there parses the same way,
with the addresses and ports that it now has.
-/

namespace Napt

namespace Frame

variable {f f' : Frame} {ip l4 : ℕ} {protocol : BitVec 8} {p : ParsedFrame}

/-- The bytes that a rewrite may change: the IPv4 header from its checksum on, the ports or the
identifier, and the checksum of the transport. -/
def Rewritable (ip l4 : ℕ) (protocol : BitVec 8) (i : ℕ) : Prop :=
  ip + 10 ≤ i ∧ i < ip + 20
    ∨ if protocol = 6 then l4 ≤ i ∧ i < l4 + 4 ∨ l4 + 16 ≤ i ∧ i < l4 + 18
      else if protocol = 17 then l4 ≤ i ∧ i < l4 + 4 ∨ l4 + 6 ≤ i ∧ i < l4 + 8
      else l4 + 2 ≤ i ∧ i < l4 + 6

/-- Two frames that differ only where a rewrite may change them. -/
structure Alike (ip l4 : ℕ) (protocol : BitVec 8) (f f' : Frame) : Prop where
  size : f'.size = f.size
  byte : ∀ i, ¬ Rewritable ip l4 protocol i → f'.byte i = f.byte i

variable {dir : Direction} {available i totalLen j : ℕ}

theorem Alike.header (h : Alike ip l4 protocol f f') (hl4 : ip + 20 ≤ l4) (hi : i < ip + 10) :
  f'.byte i = f.byte i
  := by
  apply h.byte
  rw [Rewritable]
  split <;> [skip; split] <;> omega

theorem Alike.be16 (h : Alike ip l4 protocol f f') (hl4 : ip + 20 ≤ l4) (hi : i + 1 < ip + 10) :
  f'.be16 i = f.be16 i
  := by
  rw [Frame.be16, Frame.be16, h.header hl4 hi, h.header hl4 (by omega)]

/-- The ports of a transport header. -/
def ports (f : Frame) (l4 : ℕ) : L4Kind → BitVec 16 × BitVec 16
  | .icmp => (f.be16 (l4 + 4), f.be16 (l4 + 4))
  | _ => (f.be16 l4, f.be16 (l4 + 2))

/-- The record of a parse with the addresses and ports of another frame. -/
def reread (f : Frame) (p : ParsedFrame) : ParsedFrame :=
  { p with
    src := f.slice (p.l3Offset + 12) 4
    dst := f.slice (p.l3Offset + 16) 4
    srcPort := (f.ports p.l4Offset p.l4).1
    dstPort := (f.ports p.l4Offset p.l4).2 }

/-- The transports that have ports. -/
def Ported (p : ParsedFrame) : Prop :=
  p.l4 = .tcp ∧ p.protocol = 6 ∨ p.l4 = .udp ∧ p.protocol = 17 ∨ p.l4 = .icmp ∧ p.protocol = 1

/-- The checks of the L4 header of a frame that differs only where a rewrite may change it. -/
theorem checkL4_reread {room : ℕ} {out out' : ParsedFrame}
    (h : f.checkL4 l4 available room out = (.ok, p))
    (hl4 : p.l4 = .tcp ∨ p.l4 = .udp ∨ p.l4 = .icmp) (alike : Alike ip l4 out.protocol f f')
    (hip : ip + 20 ≤ l4) (hoff : out.l4Offset = l4) (hout : out' = { out with
      src := f'.slice (out.l3Offset + 12) 4
      dst := f'.slice (out.l3Offset + 16) 4 }) :
  f'.checkL4 l4 available room out' = (.ok, f'.reread p) ∧ Ported p
  := by
  have hkeep (i : ℕ) (hnot : ¬ Rewritable ip l4 out.protocol i) : f'.byte i = f.byte i :=
    alike.byte i hnot
  rw [checkL4] at h
  split at h
  case isTrue htcp =>
    obtain ⟨-, ⟨⟩⟩ | ⟨hok, h⟩ := ite_eq_iff.mp h
    cases h
    have hwords : f'.byte (l4 + 12) = f.byte (l4 + 12) := by
      apply hkeep
      rw [Rewritable, if_pos htcp]
      omega
    have hflags : f'.byte (l4 + 13) = f.byte (l4 + 13) := by
      apply hkeep
      rw [Rewritable, if_pos htcp]
      omega
    refine ⟨?_, .inl ⟨rfl, htcp⟩⟩
    rw [hout, checkL4, if_pos htcp]
    simp only [hwords, if_neg hok, hflags, reread, ports, hoff]
  case isFalse htcp =>
  split at h
  case isTrue hudp =>
    obtain ⟨-, ⟨⟩⟩ | ⟨hok, h⟩ := ite_eq_iff.mp h
    cases h
    have hlen : f'.be16 (l4 + 4) = f.be16 (l4 + 4) := by
      rw [Frame.be16]
      congr 1 <;>
      · apply hkeep
        rw [Rewritable, if_neg htcp, if_pos hudp]
        omega
    refine ⟨?_, .inr (.inl ⟨rfl, hudp⟩)⟩
    rw [hout, checkL4, if_neg htcp, if_pos hudp]
    simp only [hlen, if_neg hok, reread, ports, hoff]
  case isFalse hudp =>
  split at h
  case isFalse =>
    cases h
    simp at hl4
  case isTrue hicmp =>
  obtain ⟨-, ⟨⟩⟩ | ⟨hok, h⟩ := ite_eq_iff.mp h
  cases h
  have hone : out.protocol = 1 := by
    by_contra hne
    simp only [if_neg hne, reduceCtorEq, or_self] at hl4
  have hbyte (i : ℕ) (hi : l4 ≤ i ∧ i < l4 + 2) : f'.byte i = f.byte i := by
    apply hkeep
    rw [Rewritable, if_neg htcp, if_neg hudp]
    omega
  refine ⟨?_, .inr (.inr ⟨if_pos hone, hone⟩)⟩
  rw [hout, checkL4, if_neg htcp, if_neg hudp, if_pos hicmp]
  simp only [if_neg hok, if_pos hone, hbyte l4 (by omega), hbyte (l4 + 1) (by omega), reread,
    ports, hoff]

/-- What is known of an IPv4 packet that parses, and the parse of a frame that differs from it only
where a rewrite may change it. -/
structure Reparses (f : Frame) (p : ParsedFrame)
    (parse : Frame → ParseStatus × ParsedFrame) : Prop where
  offset : p.l3Offset + 20 ≤ p.l4Offset
  ported : Ported p
  protocol : p.protocol = f.byte (p.l3Offset + 9)
  reread : ∀ {f'}, Alike p.l3Offset p.l4Offset p.protocol f f' → parse f' = (.ok, f'.reread p)

theorem parseIp_reparses {present limit : ℕ} (hip : ip < 2 ^ 15)
    (h : f.parseIp ip present limit {} = (.ok, p)) (hl3 : p.l3 = .ipv4)
    (hl4 : p.l4 = .tcp ∨ p.l4 = .udp ∨ p.l4 = .icmp) :
  Reparses f p (fun f' => f'.parseIp ip present limit {}) ∧ p.l3Offset = ip
  := by
  rw [parseIp] at h
  simp only at h
  obtain ⟨-, ⟨⟩⟩ | ⟨hpresent, h⟩ := ite_eq_iff.mp h
  split at h
  case isTrue hver =>
    obtain ⟨-, ⟨⟩⟩ | ⟨hihl, h⟩ := ite_eq_iff.mp h
    obtain ⟨-, ⟨⟩⟩ | ⟨htotal, h⟩ := ite_eq_iff.mp h
    obtain ⟨-, ⟨⟩⟩ | ⟨hfrag, h⟩ := ite_eq_iff.mp h
    rw [parseL4] at h
    obtain ⟨_, hproto, -, hl3Offset, hl4Offset, -⟩ := checkL4_ip h
    simp only at hproto hl3Offset hl4Offset
    rw [Nat.mod_eq_of_lt (by omega)] at hl3Offset hl4Offset
    obtain ⟨l4, hl4eq⟩ : ∃ l4, l4 = ip + (f.byte ip).toNat % 16 * 4 := ⟨_, rfl⟩
    rw [← hl4eq] at hl4Offset h
    have hoff : ip + 20 ≤ l4 := by omega
    have hmod : l4 % 2 ^ 16 = l4 := Nat.mod_eq_of_lt (by omega)
    have hreread {f' : Frame} (alike : Alike ip l4 p.protocol f f') :
        f'.parseIp ip present limit {} = (.ok, f'.reread p) ∧ Ported p := by
      have hhdr {i : ℕ} (hi : i < ip + 10) := alike.header hoff hi
      have hwords {i : ℕ} (hi : i + 1 < ip + 10) := alike.be16 hoff hi
      rw [hproto] at alike
      obtain ⟨hcheck, hported⟩ := checkL4_reread h hl4 alike hoff hmod rfl
      refine ⟨?_, hported⟩
      rw [parseIp]
      simp only [hhdr (i := ip) (by omega), hwords (i := ip + 2) (by omega),
        hwords (i := ip + 6) (by omega), hhdr (i := ip + 9) (by omega), if_neg hpresent,
        if_pos hver, if_neg hihl, if_neg htotal, if_neg hfrag, parseL4, ← hl4eq]
      simp only [Nat.mod_eq_of_lt (show ip < 2 ^ 16 by omega)] at hcheck ⊢
      exact hcheck
    have alike : Alike ip l4 p.protocol f f := ⟨rfl, fun _ _ => rfl⟩
    refine ⟨⟨?_, (hreread alike).2, ?_, ?_⟩, hl3Offset⟩
    · rw [hl3Offset, hl4Offset]
      exact hoff
    · rw [hproto, hl3Offset]
    rw [hl3Offset, hl4Offset]
    exact fun alike => (hreread alike).1
  case isFalse hver =>
  -- An IPv6 packet is not an IPv4 one.
  exfalso
  split at h
  case isFalse => cases h
  case isTrue =>
  obtain ⟨-, ⟨⟩⟩ | ⟨_, h⟩ := ite_eq_iff.mp h
  obtain ⟨-, ⟨⟩⟩ | ⟨_, h⟩ := ite_eq_iff.mp h
  split at h
  case h_1 off out hwalk =>
    have hkind := (checkL4_ip h).1.trans (walkIpv6Chain_kept hwalk).1
    rw [hl3] at hkind
    cases hkind
  case h_2 hne _ =>
  cases h
  exact hne rfl

/-- The EtherType is where it was, and it is what it was. -/
theorem skipTags_alike {tags off off' : ℕ} (hsize : f'.size = f.size)
    (hbyte : ∀ i < off + 4 * tags + 2, f'.byte i = f.byte i) (h : f.skipTags tags off = some off') :
  f'.skipTags tags off = some off' ∧ off ≤ off' ∧ off' ≤ off + 4 * tags
  := by
  induction tags generalizing off with
  | zero =>
    cases h
    exact ⟨rfl, Nat.le_refl _, Nat.le_refl _⟩
  | succ tags ih =>
  have htype : f'.be16 off = f.be16 off := by
    rw [Frame.be16, Frame.be16, hbyte off (by omega), hbyte (off + 1) (by omega)]
  rw [skipTags] at h ⊢
  rw [htype]
  split at h
  case isTrue htag =>
    obtain ⟨-, ⟨⟩⟩ | ⟨hfits, h⟩ := ite_eq_iff.mp h
    obtain ⟨hskip, hlo, hhi⟩ := ih (fun i hi => hbyte i (by omega)) h
    rw [if_pos htag, hsize, if_neg hfits]
    exact ⟨hskip, by omega, by omega⟩
  case isFalse htag =>
  cases h
  rw [if_neg htag]
  exact ⟨rfl, Nat.le_refl _, by omega⟩

theorem parseFrameGeneral_reparses (h : f.parseFrameGeneral totalLen = (.ok, p))
    (hl3 : p.l3 = .ipv4) (hl4 : p.l4 = .tcp ∨ p.l4 = .udp ∨ p.l4 = .icmp) :
  Reparses f p (fun f' => f'.parseFrameGeneral totalLen)
  := by
  obtain ⟨-, ⟨⟩⟩ | ⟨hsize, h⟩ := ite_eq_iff.mp h
  split at h
  case h_1 => cases h
  case h_2 off hskip =>
  simp only at h
  obtain ⟨-, ⟨⟩⟩ | ⟨htype, h⟩ := ite_eq_iff.mp h
  obtain ⟨-, ⟨⟩⟩ | ⟨hagree, h⟩ := ite_eq_iff.mp h
  obtain ⟨_, hlo, hhi⟩ := skipTags_alike rfl (fun _ _ => rfl) hskip
  have hparse : f.parseIp (off + 2) (f.size - (off + 2)) (totalLen - (off + 2)) {} = (.ok, p) := h
  obtain ⟨⟨hoff, hported, hproto, hreread⟩, hip⟩ := parseIp_reparses (by omega) hparse hl3 hl4
  refine ⟨hoff, hported, hproto, ?_⟩
  intro f' alike
  have hhdr {i : ℕ} (hi : i < off + 12) : f'.byte i = f.byte i := alike.header hoff (by omega)
  have htype' : f'.be16 off = f.be16 off := alike.be16 hoff (by omega)
  obtain ⟨hskip', _⟩ := skipTags_alike alike.size (fun i hi => hhdr (by omega)) hskip
  have hparse' := hreread alike
  rw [parseFrameGeneral, alike.size, if_neg hsize, hskip']
  simp only [htype', if_neg htype, hparse']
  rw [if_neg]
  rw [hparse] at hagree
  exact fun h => hagree ⟨rfl, h.2⟩

/-- A frame that differs from a good IPv4 one only where a rewrite may change it parses as that
one, with its own addresses and ports. -/
theorem parseFrame_reparses (h : f.parseFrame totalLen = (.ok, p)) (hl3 : p.l3 = .ipv4)
    (hl4 : p.l4 = .tcp ∨ p.l4 = .udp ∨ p.l4 = .icmp) :
  Reparses f p (fun f' => f'.parseFrame totalLen)
  := by
  rw [parseFrame_eq_general] at h
  obtain ⟨hoff, hported, hproto, hreread⟩ := parseFrameGeneral_reparses h hl3 hl4
  refine ⟨hoff, hported, hproto, ?_⟩
  intro f' alike
  rw [parseFrame_eq_general, alike.size]
  exact hreread alike

/-! ### The rewrite -/

theorem byte_setByte (f : Frame) (i j : ℕ) (b : BitVec 8) :
  (f.setByte i b).byte j = if j = i then b else f.byte j
  := Function.update_apply ..

theorem byte_store16 (f : Frame) (i j : ℕ) (v : BitVec 16) :
  (f.store16 i v).byte j = if j = i + 1 then v.extractLsb' 8 8
    else if j = i then v.extractLsb' 0 8 else f.byte j
  := by
  rw [store16, byte_setByte, byte_setByte]

theorem byte_store16_of_ne (h : j < i ∨ i + 2 ≤ j) (v : BitVec 16) :
  (f.store16 i v).byte j = f.byte j
  := by
  rw [byte_store16, if_neg (by omega), if_neg (by omega)]

theorem byte_store32_of_ne (h : j < i ∨ i + 4 ≤ j) (v : BitVec 32) :
  (f.store32 i v).byte j = f.byte j
  := by
  rw [store32, byte_store16_of_ne (by omega), byte_store16_of_ne (by omega)]

theorem be16_congr (h : ∀ j, i ≤ j → j < i + 2 → f'.byte j = f.byte j) :
  f'.be16 i = f.be16 i
  := by
  rw [Frame.be16, Frame.be16, h i (by omega) (by omega), h (i + 1) (by omega) (by omega)]

theorem be32_congr (h : ∀ j, i ≤ j → j < i + 4 → f'.byte j = f.byte j) :
  f'.be32 i = f.be32 i
  := by
  rw [be32, be32, be16_congr fun j _ _ => h j (by omega) (by omega),
    be16_congr fun j _ _ => h j (by omega) (by omega)]

/-- A number stored in network order is read back. -/
theorem be16_store16 (f : Frame) (i : ℕ) (v : BitVec 16) :
  (f.store16 i (raw16 v)).be16 i = v
  := by
  rw [Frame.be16, byte_store16, byte_store16, if_neg (by omega), if_pos rfl, if_pos rfl, raw16,
    BitVec.extractLsb'_append_eq_right, BitVec.extractLsb'_append_eq_left]
  exact BitVec.extractLsb'_append_extractLsb'

theorem be32_store32 (f : Frame) (i : ℕ) (v : BitVec 32) :
  (f.store32 i (raw32 v)).be32 i = v
  := by
  rw [be32, store32, raw32, BitVec.extractLsb'_append_eq_right, BitVec.extractLsb'_append_eq_left,
    be16_store16, be16_congr (f := f.store16 i (raw16 (v.extractLsb' 16 16))), be16_store16]
  · exact BitVec.extractLsb'_append_extractLsb'
  intro j _ hj
  exact byte_store16_of_ne (by omega) _

/-- Where a rewrite stores the address, the port or identifier, and the checksum of L4. -/
def addrAt (ip : ℕ) (dir : Direction) : ℕ :=
  ip + if dir = .forward then 12 else 16

def portAt (l4 : ℕ) (protocol : BitVec 8) (dir : Direction) : ℕ :=
  if protocol = 6 ∨ protocol = 17 then l4 + if dir = .forward then 0 else 2 else l4 + 4

def sumAt (l4 : ℕ) (protocol : BitVec 8) : ℕ :=
  if protocol = 6 then l4 + 16 else if protocol = 17 then l4 + 6 else l4 + 2

/-- The bytes of the fields that a rewrite in one direction changes. -/
def Rewritten (ip l4 : ℕ) (protocol : BitVec 8) (dir : Direction) (i : ℕ) : Prop :=
  ip + 10 ≤ i ∧ i < ip + 12
    ∨ addrAt ip dir ≤ i ∧ i < addrAt ip dir + 4
    ∨ portAt l4 protocol dir ≤ i ∧ i < portAt l4 protocol dir + 2
    ∨ sumAt l4 protocol ≤ i ∧ i < sumAt l4 protocol + 2

instance {ip l4 : ℕ} {protocol : BitVec 8} {dir : Direction} {i : ℕ} :
    Decidable (Rewritten ip l4 protocol dir i) := by
  rw [Rewritten]
  infer_instance

theorem addrAt_bounds (ip : ℕ) (dir : Direction) :
  ip + 12 ≤ addrAt ip dir ∧ addrAt ip dir + 4 ≤ ip + 20
  := by
  rw [addrAt]
  split <;> omega

/-- The port and the checksum of L4 are in the L4 header and apart from each other. -/
theorem portAt_bounds (l4 : ℕ) (protocol : BitVec 8) (dir : Direction) :
  l4 ≤ portAt l4 protocol dir ∧ l4 ≤ sumAt l4 protocol
    ∧ (portAt l4 protocol dir + 2 ≤ sumAt l4 protocol
      ∨ sumAt l4 protocol + 2 ≤ portAt l4 protocol dir)
  := by
  rw [portAt, sumAt]
  by_cases htcp : protocol = 6
  · rw [if_pos (.inl htcp)]
    split <;> omega
  rw [if_neg htcp]
  by_cases hudp : protocol = 17
  · rw [if_pos (.inr hudp)]
    split <;> omega
  rw [if_neg (not_or.mpr ⟨htcp, hudp⟩), if_neg hudp]
  omega

theorem rewritable_of_rewritten (h : Rewritten ip l4 protocol dir i) :
  Rewritable ip l4 protocol i
  := by
  have haddr := addrAt_bounds ip dir
  rw [Rewritten, portAt, sumAt] at h
  rw [Rewritable]
  by_cases htcp : protocol = 6
  · rw [if_pos (.inl htcp)] at h
    rw [if_pos htcp]
    split at h <;> omega
  by_cases hudp : protocol = 17
  · rw [if_pos (.inr hudp)] at h
    rw [if_neg htcp, if_pos hudp]
    split at h <;> omega
  rw [if_neg htcp, if_neg hudp, if_neg (not_or.mpr ⟨htcp, hudp⟩)] at h
  rw [if_neg htcp, if_neg hudp]
  omega

/-- What a rewrite does to a frame. -/
structure Rewrite (f f' : Frame) (ip l4 : ℕ) (dir : Direction) (after : Endpoint) : Prop where
  size : f'.size = f.size
  kept : ∀ i, ¬ Rewritten ip l4 (f.byte (ip + 9)) dir i → f'.byte i = f.byte i
  addr : f'.be32 (addrAt ip dir) = after.addr
  port : f'.be16 (portAt l4 (f.byte (ip + 9)) dir) = after.port

/-- The checksum of L4 that a rewrite stores, from the one before and the increments of the address
and the port. -/
def rewrittenSum (protocol : BitVec 8) (checksum : BitVec 16) (addr port : BitVec 32) : BitVec 16 :=
  if protocol = 6 then updateChecksumWithIncrement checksum (addr + port)
  else if protocol = 17 then
    if checksum = 0 then 0
    else nonzeroChecksum (updateChecksumWithIncrement checksum (addr + port))
  else nonzeroChecksum (updateChecksumWithIncrement checksum port)

/-- The stores of a rewrite, with the checksums of L3 and L4. -/
def stored (f : Frame) (ip l4 : ℕ) (dir : Direction) (after : Endpoint) (l3Sum l4Sum : BitVec 16) :
    Frame :=
  (((f.store32 (addrAt ip dir) (raw32 after.addr)).store16 (ip + 10) l3Sum).store16
    (portAt l4 (f.byte (ip + 9)) dir) (raw16 after.port)).store16 (sumAt l4 (f.byte (ip + 9))) l4Sum

theorem store16_load16 (f : Frame) (i : ℕ) :
  f.store16 i (f.load16 i) = f
  := by
  have hbyte : (f.store16 i (f.load16 i)).byte = f.byte := by
    funext j
    rw [byte_store16, Frame.load16, BitVec.extractLsb'_append_eq_left,
      BitVec.extractLsb'_append_eq_right]
    split_ifs with hnext hfirst
    · rw [hnext]
    · rw [hfirst]
    · rfl
  exact congrArg (Frame.mk f.size) hbyte

theorem load16_congr (h : ∀ j, i ≤ j → j < i + 2 → f'.byte j = f.byte j) :
  f'.load16 i = f.load16 i
  := by
  rw [Frame.load16, Frame.load16, h i (by omega) (by omega), h (i + 1) (by omega) (by omega)]

theorem rewrite_eq_stored (hip : ip + 20 ≤ l4) (before after : Endpoint) :
  rewrite f ip l4 dir before after = stored f ip l4 dir after
    (updateChecksumWithIncrement (f.load16 (ip + 10))
      (checksumIncrement32 (raw32 before.addr) (raw32 after.addr)))
    (rewrittenSum (f.byte (ip + 9)) (f.load16 (sumAt l4 (f.byte (ip + 9))))
      (checksumIncrement32 (raw32 before.addr) (raw32 after.addr))
      (checksumIncrement16 (raw16 before.port) (raw16 after.port)))
  := by
  have haddr := addrAt_bounds ip dir
  obtain ⟨hport, hsum, happart⟩ := portAt_bounds l4 (f.byte (ip + 9)) dir
  have hl3 : (f.store32 (addrAt ip dir) (raw32 after.addr)).load16 (ip + 10)
      = f.load16 (ip + 10) := by
    apply load16_congr
    intro j _ _
    exact byte_store32_of_ne (by omega) _
  have hproto (c : BitVec 16) : ((f.store32 (addrAt ip dir) (raw32 after.addr)).store16
      (ip + 10) c).byte (ip + 9) = f.byte (ip + 9) := by
    rw [byte_store16_of_ne (by omega), byte_store32_of_ne (by omega)]
  have hl4 (c : BitVec 16) : (((f.store32 (addrAt ip dir) (raw32 after.addr)).store16 (ip + 10)
      c).store16 (portAt l4 (f.byte (ip + 9)) dir) (raw16 after.port)).load16
        (sumAt l4 (f.byte (ip + 9))) = f.load16 (sumAt l4 (f.byte (ip + 9))) := by
    apply load16_congr
    intro j _ _
    rw [byte_store16_of_ne (by omega), byte_store16_of_ne (by omega), byte_store32_of_ne (by omega)]
  have hat : (ip + if dir = .forward then 12 else 16) = addrAt ip dir := rfl
  rw [rewrite, stored]
  simp only [hat, hl3, hproto]
  generalize updateChecksumWithIncrement (f.load16 (ip + 10)) _ = c
  have hload := hl4 c
  rw [portAt, sumAt] at hload ⊢
  rw [rewrittenSum]
  by_cases htcp : f.byte (ip + 9) = 6
  · simp only [htcp, true_or, if_true] at hload ⊢
    rw [hload]
  by_cases hudp : f.byte (ip + 9) = 17
  · simp only [hudp, or_true, if_true, if_neg (show ¬ (17 : BitVec 8) = 6 by decide)] at hload ⊢
    rw [hload]
    by_cases habsent : f.load16 (l4 + 6) = 0
    · rw [if_neg (not_not.mpr habsent), if_pos habsent, ← habsent, ← hload, store16_load16]
    · rw [if_pos habsent, if_neg habsent]
  simp only [htcp, hudp, or_self, if_false, updateChecksum16] at hload ⊢
  rw [hload]

theorem rewrite_spec (f : Frame) (hip : ip + 20 ≤ l4) (dir : Direction) (before after : Endpoint) :
  Rewrite f (rewrite f ip l4 dir before after) ip l4 dir after
  := by
  have haddr := addrAt_bounds ip dir
  obtain ⟨hport, hsum, happart⟩ := portAt_bounds l4 (f.byte (ip + 9)) dir
  rw [rewrite_eq_stored hip, stored]
  constructor
  case size => rfl
  case kept =>
    intro i hi
    rw [Rewritten] at hi
    rw [byte_store16_of_ne (by omega), byte_store16_of_ne (by omega),
      byte_store16_of_ne (by omega), byte_store32_of_ne (by omega)]
  case addr =>
    rw [be32_congr (f := f.store32 (addrAt ip dir) (raw32 after.addr)), be32_store32]
    intro j _ _
    rw [byte_store16_of_ne (by omega), byte_store16_of_ne (by omega), byte_store16_of_ne (by omega)]
  case port =>
    rw [be16_congr fun j _ _ => byte_store16_of_ne (by omega) _, be16_store16]

/-- The address and port of one side of a packet. -/
def side (p : ParsedFrame) : Direction → (ℕ → BitVec 8) × BitVec 16
  | .forward => (p.src, p.srcPort)
  | .reverse => (p.dst, p.dstPort)

/-- The packets that are translated. -/
def Translatable (p : ParsedFrame) : Prop :=
  p.l3 = .ipv4 ∧ ((p.l4 = .tcp ∨ p.l4 = .udp) ∨ p.l4 = .icmp ∧ isIcmpQuery p.icmpType = true)

theorem endpointOf_eq_ok {e : Endpoint} :
  endpointOf p dir = .ok e ↔ Translatable p
    ∧ e = ⟨(side p dir).1 0 ++ (side p dir).1 1 ++ (side p dir).1 2 ++ (side p dir).1 3,
      (side p dir).2, p.protocol.setWidth 16⟩
  := by
  unfold endpointOf
  rw [Translatable]
  split
  case isTrue hl3 => simp [hl3]
  case isFalse hl3 =>
  rw [not_not] at hl3
  split
  case isTrue hl4 =>
    simp [hl4]
  case isFalse hl4 =>
  rw [← not_or, not_not] at hl4
  rw [and_iff_right ⟨hl3, hl4⟩, Except.ok.injEq]
  cases dir with
  | forward | reverse => exact eq_comm

theorem endpointOf_error {why : Verdict} (h : endpointOf p dir = .error why) :
  why ≠ .translated
  := by
  unfold endpointOf at h
  split at h
  · cases h
    decide
  split at h
  · cases h
    decide
  · cases h

theorem slice_append (f : Frame) (i : ℕ) :
  f.slice i 4 0 ++ f.slice i 4 1 ++ f.slice i 4 2 ++ f.slice i 4 3 = f.be32 i
  := by
  have hbyte (k : ℕ) (hk : k < 4) : f.slice i 4 k = f.byte (i + k) := if_pos hk
  rw [BitVec.append_assoc]
  rfl

theorem side_reread (hported : Ported p) (dir : Direction) :
  side (f.reread p) dir
    = (f.slice (addrAt p.l3Offset dir) 4, f.be16 (portAt p.l4Offset p.protocol dir))
  := by
  rw [portAt]
  rcases hported with ⟨hl4, hproto⟩ | ⟨hl4, hproto⟩ | ⟨hl4, hproto⟩
  all_goals
    rw [hproto]
    cases dir <;> simp only [reread, hl4] <;> rfl

/-- The endpoint of a rewritten frame is the new one, and every field that the rewrite is not meant
to change is as before. -/
theorem parseFrame_rewrite {before after : Endpoint} (h : f.parseFrame totalLen = (.ok, p))
    (hendpoint : endpointOf p dir = .ok before) (hproto : after.protocol = before.protocol) :
  ∃ p', (rewrite f p.l3Offset p.l4Offset dir before after).parseFrame totalLen = (.ok, p')
    ∧ endpointOf p' dir = .ok after ∧ p.protocol = f.byte (p.l3Offset + 9)
    ∧ Rewrite f (rewrite f p.l3Offset p.l4Offset dir before after) p.l3Offset p.l4Offset dir after
  := by
  obtain ⟨translatable, hbefore⟩ := endpointOf_eq_ok.mp hendpoint
  obtain ⟨hoff, hported, hbyte, hreread⟩ := parseFrame_reparses h translatable.1 (by
    rcases translatable.2 with (hl4 | hl4) | ⟨hl4, _⟩
    · exact .inl hl4
    · exact .inr (.inl hl4)
    · exact .inr (.inr hl4))
  have hspec := rewrite_spec f hoff dir before after
  have alike : Alike p.l3Offset p.l4Offset p.protocol f
      (rewrite f p.l3Offset p.l4Offset dir before after) := by
    refine ⟨hspec.size, fun i hi => hspec.kept i fun hi' => hi ?_⟩
    rw [hbyte]
    exact rewritable_of_rewritten hi'
  refine ⟨_, hreread alike, endpointOf_eq_ok.mpr ⟨translatable, ?_⟩, hbyte, hspec⟩
  rw [side_reread hported, slice_append, hspec.addr, hbyte, hspec.port]
  have hsame : after.protocol = p.protocol.setWidth 16 := by
    rw [hproto, hbefore]
  rw [show (reread _ p).protocol = p.protocol from rfl, ← hsame]

end Frame

end Napt
