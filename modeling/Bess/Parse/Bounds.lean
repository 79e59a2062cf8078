import Bess.Parse.Checked

/-!
# The bounds a parse reports

The offsets and lengths that `ParseFrame` and `ParseIpPacket` record for a packet they accept. They
fit the 16-bit fields they are stored in, the headers they point at are readable, and the
transport's bytes end within the packet.
-/

namespace Napt

/-- The bytes of a transport's fixed header. -/
def L4Kind.headerBytes : L4Kind → ℕ
  | .tcp => 20
  | .udp | .icmp | .icmpv6 => 8
  | .none | .other => 0

namespace Frame

/-- The length of the IP header at `ip`, without an IPv6 packet's extension headers. -/
def ipHeaderBytes (f : Frame) (ip : ℕ) : L3Kind → ℕ
  | .ipv4 => (f.byte ip).toNat % 16 * 4
  | .ipv6 => 40
  | .none => 0

/-- The length that the IP header at `ip` states for its packet. -/
def statedLength (f : Frame) (ip : ℕ) : L3Kind → ℕ
  | .ipv4 => (f.be16 (ip + 2)).toNat
  | .ipv6 => 40 + (f.be16 (ip + 4)).toNat
  | .none => 0

/-- The transport of the packet at `ip` is `off` bytes behind it. -/
def TransportAt (f : Frame) (ip off : ℕ) : L3Kind → Prop
  | .ipv4 => off = f.ipHeaderBytes ip .ipv4
  | .ipv6 => ∃ out out', f.walkIpv6Chain ip (min (f.size - ip) (f.statedLength ip .ipv6))
      (kMaxExtensionHeaders + 1) (f.byte (ip + 6)) 40 out = (.ok, off, out')
  | .none => False

/-- What the record of an accepted packet at `ip` says about the frame, when the packet ends at
`limit` or before. The offsets and the length are the numbers the parse computed, before they are
narrowed to 16 bits. -/
structure Honest (f : Frame) (ip limit : ℕ) (p : ParsedFrame) : Prop where
  l3Offset : p.l3Offset = ip
  ipHeader : ip + f.ipHeaderBytes ip p.l3 ≤ f.size
  transport : ∃ off ≤ f.statedLength ip p.l3, f.TransportAt ip off p.l3
    ∧ p.l4Offset = ip + off ∧ p.l4Length = f.statedLength ip p.l3 - off
  fields : p.l3Offset < 2 ^ 16 ∧ p.l4Offset < 2 ^ 16 ∧ p.l4Length < 2 ^ 16
  kind : p.l4 ≠ .none
  l4Header : p.l4Offset + p.l4.headerBytes ≤ f.size
  length : p.l4Offset + p.l4Length ≤ limit
  udp : p.l4 = .udp → p.firstFragment = false → (f.be16 (p.l4Offset + 4)).toNat ≤ p.l4Length
  tcp : p.l4 = .tcp → p.firstFragment = false →
    (f.byte (p.l4Offset + 12)).toNat / 16 * 4 ≤ p.l4Length

theorem ahLength_le (f : Frame) (ip available off : ℕ) :
  f.ahLength ip available off ≤ 1028
  := by
  simp only [ahLength]
  split_ifs <;> omega

variable {f : Frame} {out : ParsedFrame} {available ip totalLen limit room l4 : ℕ}

theorem walkIpv6Chain_ok :
    ∀ {n : ℕ} {next : BitVec 8} {off : ℕ} {out : ParsedFrame} {off' : ℕ} {out' : ParsedFrame},
      off ≤ available → f.walkIpv6Chain ip available n next off out = (.ok, off', out') →
      off ≤ off' ∧ off' ≤ available ∧ off' ≤ off + 2048 * n
  | 0, next, off, out, off', out', hoff, h => by
    rw [walkIpv6Chain] at h
    cases h
  | n + 1, next, off, out, off', out', hoff, h => by
    rw [walkIpv6Chain] at h
    split at h
    case isTrue =>
      obtain ⟨-, ⟨⟩⟩ | ⟨_, h⟩ := ite_eq_iff.mp h
      have hlen := (f.byte (ip + off + 1)).isLt
      simp only at h
      obtain ⟨-, ⟨⟩⟩ | ⟨hfits, h⟩ := ite_eq_iff.mp h
      obtain ⟨hle, hend, hmax⟩ := walkIpv6Chain_ok (by omega) h
      exact ⟨by omega, hend, by omega⟩
    case isFalse =>
    split at h
    case isTrue =>
      obtain ⟨-, ⟨⟩⟩ | ⟨_, h⟩ := ite_eq_iff.mp h
      simp only at h
      obtain ⟨-, ⟨⟩⟩ | ⟨_, h⟩ := ite_eq_iff.mp h
      obtain ⟨hle, hend, hmax⟩ := walkIpv6Chain_ok (by omega) h
      exact ⟨by omega, hend, by omega⟩
    case isFalse =>
    split at h
    case isFalse =>
      cases h
      exact ⟨Nat.le_refl _, hoff, Nat.le_add_right ..⟩
    case isTrue =>
    simp only at h
    obtain ⟨-, ⟨⟩⟩ | ⟨hlen, h⟩ := ite_eq_iff.mp h
    have hfits := ahLength_fits hlen
    have hlong := f.ahLength_le ip available off
    obtain ⟨hle, hend, hmax⟩ := walkIpv6Chain_ok hfits h
    exact ⟨by omega, hend, by omega⟩

/-- What an accepting check of the transport's header has found. -/
theorem checkL4_ok (h : (f.checkL4 l4 available room out).1 = .ok) :
  (f.checkL4 l4 available room out).2.l4 ≠ .none
    ∧ (f.checkL4 l4 available room out).2.l4.headerBytes ≤ available
    ∧ ((f.checkL4 l4 available room out).2.l4 = .udp → out.firstFragment = false →
      (f.be16 (l4 + 4)).toNat ≤ room)
    ∧ ((f.checkL4 l4 available room out).2.l4 = .tcp → out.firstFragment = false →
      (f.byte (l4 + 12)).toNat / 16 * 4 ≤ room)
  := by
  revert h
  simp only [checkL4]
  split
  case isTrue =>
    split
    case isTrue => rintro ⟨⟩
    case isFalse hfits =>
    simp only [not_or, not_and] at hfits
    refine fun _ => ⟨?_, by simp only [L4Kind.headerBytes]; omega, ?_,
      fun _ hfirst => Nat.le_of_not_lt (hfits.2.2 hfirst)⟩ <;> rintro ⟨⟩
  case isFalse =>
  split
  case isTrue =>
    split
    case isTrue => rintro ⟨⟩
    case isFalse hfits =>
    simp only [not_or, not_and] at hfits
    refine fun _ => ⟨?_, by simp only [L4Kind.headerBytes]; omega,
      fun _ hfirst => Nat.le_of_not_lt (hfits.2.2 hfirst), ?_⟩ <;> rintro ⟨⟩
  case isFalse =>
  split
  case isFalse => refine fun _ => ⟨?_, Nat.zero_le _, ?_, ?_⟩ <;> rintro ⟨⟩
  case isTrue =>
  split
  case isTrue => rintro ⟨⟩
  case isFalse hfits =>
  intro _
  split
  case isTrue | isFalse =>
    refine ⟨?_, Nat.le_of_not_lt hfits, ?_, ?_⟩ <;> rintro ⟨⟩

/-- The record of the transport `off` bytes behind the IP header at `ip`. -/
theorem parseL4_honest {total off : ℕ} (hbase : out.l3Offset = ip) (hip : ip < 2 ^ 15)
    (hhdr : ip + f.ipHeaderBytes ip out.l3 ≤ f.size) (htransport : f.TransportAt ip off out.l3)
    (htotal : f.statedLength ip out.l3 = total) (hpresent : ip + off ≤ f.size) (hoff : off ≤ total)
    (hnear : off < 2 ^ 15) (hlen : total - off < 2 ^ 16) (hlimit : ip + total ≤ limit)
    (h : (f.parseL4 ip (min (f.size - ip) total) total off out).1 = .ok) :
  Honest f ip limit (f.parseL4 ip (min (f.size - ip) total) total off out).2
  := by
  have hplace : (ip + off) % 2 ^ 16 = ip + off := Nat.mod_eq_of_lt (by omega)
  rw [parseL4, hplace, Nat.mod_eq_of_lt hlen] at h ⊢
  obtain ⟨hl3, _, hfirst, hl3Offset, hl4Offset, hl4Length⟩ := checkL4_ip
    (show f.checkL4 (ip + off) (min (f.size - ip) total - off) (total - off)
      { out with l4Offset := ip + off, l4Length := total - off } = _ from (Prod.eta _).symm)
  obtain ⟨hkind, hl4, hudp, htcp⟩ := checkL4_ok h
  constructor
  case l3Offset => rw [hl3Offset, hbase]
  case ipHeader =>
    rw [hl3]
    exact hhdr
  case transport =>
    rw [hl3, hl4Offset, hl4Length]
    subst htotal
    exact ⟨off, hoff, htransport, rfl, rfl⟩
  case fields =>
    rw [hl3Offset, hl4Offset, hl4Length, hbase]
    exact ⟨by omega, show ip + off < 2 ^ 16 by omega, hlen⟩
  case kind => exact hkind
  case l4Header =>
    rw [hl4Offset]
    simp only
    omega
  case length =>
    rw [hl4Offset, hl4Length]
    simp only
    omega
  case udp =>
    rw [hfirst, hl4Offset, hl4Length]
    exact hudp
  case tcp =>
  rw [hfirst, hl4Offset, hl4Length]
  exact htcp

theorem parseIp_honest (hip : ip < 2 ^ 15) (hlimit : ip ≤ limit)
    (h : (f.parseIp ip (f.size - ip) (limit - ip) {}).1 = .ok) :
  Honest f ip limit (f.parseIp ip (f.size - ip) (limit - ip) {}).2
  := by
  have hbase : ip % 2 ^ 16 = ip := Nat.mod_eq_of_lt (by omega)
  rw [parseIp] at h ⊢
  split at h
  case isTrue => cases h
  case isFalse hpresent =>
  rw [if_neg hpresent]
  simp only [hbase] at h ⊢
  split at h
  case isTrue hver =>
    rw [if_pos hver]
    split at h
    case isTrue => cases h
    case isFalse hhdr =>
    rw [if_neg hhdr]
    split at h
    case isTrue => cases h
    case isFalse htotal =>
    rw [if_neg htotal]
    split at h
    case isTrue => cases h
    case isFalse hfrag =>
    rw [if_neg hfrag]
    apply parseL4_honest
    case hbase => rfl
    case hip => exact hip
    case hhdr =>
      simp only [ipHeaderBytes]
      omega
    case htransport | htotal => rfl
    case h => exact h
    all_goals omega
  case isFalse hver =>
  rw [if_neg hver]
  split at h
  case isFalse => cases h
  case isTrue hsix =>
  rw [if_pos hsix]
  split at h
  case isTrue => cases h
  case isFalse hhdr =>
  rw [if_neg hhdr]
  split at h
  case isTrue => cases h
  case isFalse htotal =>
  rw [if_neg htotal]
  split at h
  case h_2 status _ _ hstatus hwalk => exact absurd h hstatus
  case h_1 off out hwalk =>
  obtain ⟨hle, hend, hmax⟩ := walkIpv6Chain_ok (by omega) hwalk
  obtain ⟨hl3, -, hl3Offset⟩ := walkIpv6Chain_kept hwalk
  simp only [kMaxExtensionHeaders] at hmax
  apply parseL4_honest
  case hbase => exact hl3Offset
  case hip => exact hip
  case hhdr =>
    rw [hl3]
    simp only [ipHeaderBytes]
    omega
  case htransport =>
    rw [hl3]
    exact ⟨_, _, hwalk⟩
  case htotal =>
    rw [hl3]
    rfl
  case h => exact h
  all_goals omega

/-- The IP packet of an Ethernet frame, behind at most two tags. -/
theorem parseFrameGeneral_honest (hlimit : f.size ≤ totalLen)
    (h : (f.parseFrameGeneral totalLen).1 = .ok) :
  ∃ type, f.skipTags 2 12 = some type
    ∧ Honest f (type + 2) totalLen (f.parseFrameGeneral totalLen).2
  := by
  rw [parseFrameGeneral] at h ⊢
  split at h
  case isTrue => cases h
  case isFalse hsize =>
  rw [if_neg hsize]
  split at h
  case h_1 => cases h
  case h_2 off hskip =>
  obtain ⟨_, hoff, hfits⟩ := skipTags_fits 2 (by omega) hskip
  refine ⟨off, hskip, ?_⟩
  simp only at h ⊢
  split at h
  case isTrue => cases h
  case isFalse htype =>
  rw [if_neg htype]
  split at h
  case isTrue => cases h
  case isFalse hver =>
  rw [if_neg hver]
  exact parseIp_honest (by omega) (by omega) h

theorem parseFrame_honest (h : (f.parseFrame totalLen).1 = .ok) :
  ∃ type, f.skipTags 2 12 = some type
    ∧ Honest f (type + 2) (max totalLen f.size) (f.parseFrame totalLen).2
  := by
  rw [parseFrame_eq_general] at h ⊢
  exact parseFrameGeneral_honest (Nat.le_max_right ..) h

/-! ### The kind of the transport -/

/-- A transport is recorded as TCP if the protocol is TCP's. -/
def TellsTcp (p : ParsedFrame) : Prop :=
  p.l4 = .none ∨ (p.l4 = .tcp ↔ p.protocol = 6)

theorem checkL4_tellsTcp (hnone : out.l4 = .none) :
  TellsTcp (f.checkL4 l4 available room out).2
  := by
  rw [checkL4]
  simp only
  split
  case isTrue htcp =>
    split
    case isTrue => exact .inl hnone
    case isFalse => exact .inr (iff_of_true rfl htcp)
  case isFalse htcp =>
  split
  case isTrue =>
    split
    case isTrue => exact .inl hnone
    case isFalse => exact .inr (iff_of_false (by rintro ⟨⟩) htcp)
  case isFalse =>
  split
  case isFalse => exact .inr (iff_of_false (by rintro ⟨⟩) htcp)
  case isTrue =>
  split
  case isTrue => exact .inl hnone
  case isFalse =>
  apply Or.inr
  apply iff_of_false _ htcp
  split <;> rintro ⟨⟩

theorem parseIp_tellsTcp (ip present limit : ℕ) (hnone : out.l4 = .none) :
  TellsTcp (f.parseIp ip present limit out).2
  := by
  rw [parseIp]
  simp only
  split_ifs
  case neg => exact checkL4_tellsTcp hnone
  case neg =>
    split
    case h_1 hwalk => exact checkL4_tellsTcp ((walkIpv6Chain_kept hwalk).2.1.trans hnone)
    case h_2 hwalk => exact .inl ((walkIpv6Chain_kept hwalk).2.1.trans hnone)
  all_goals exact .inl hnone

theorem parseFrame_tellsTcp (f : Frame) (totalLen : ℕ) :
  TellsTcp (f.parseFrame totalLen).2
  := by
  rw [parseFrame_eq_general, parseFrameGeneral]
  split
  case isTrue => exact .inl rfl
  case isFalse =>
  split
  case h_1 => exact .inl rfl
  case h_2 off _ =>
  simp only
  split
  case isTrue => exact .inl rfl
  case isFalse =>
  have hnone : ({} : ParsedFrame).l4 = .none := rfl
  have htells := parseIp_tellsTcp (f := f) (off + 2) (f.size - (off + 2))
    (max totalLen f.size - (off + 2)) hnone
  split <;> exact htells

end Frame

end Napt
