import Bess.Napt.Frame
import Mathlib.Tactic.SplitIfs

/-!
# The fast path of the parse

`FastFrame` decides the common frame, untagged Ethernet with IPv4 without options, at fixed offsets,
and accepts an unfragmented TCP or UDP datagram by a few tests of whole fields. It decides as the
general path does and fills the same record. `CheckFastIpv4` runs the same checks without the
record.
-/

namespace Napt

/-- What `CheckFastIpv4` says about a frame. -/
structure FastIpv4 : Type where
  taken : Bool := false
  headerOk : Bool := false
  firstFragment : Bool := false
  protocol : BitVec 8 := 0
  total : BitVec 16 := 0
  status : ParseStatus := .malformed
  deriving DecidableEq

namespace Frame

variable (f : Frame)

/-- `CheckFastIpv4`: `FastFrame` without the fields. -/
def checkFastIpv4 (totalLen : ℕ) : FastIpv4 :=
  if f.isCommonFrame = false then {}
  else
    let totalLen := max totalLen f.size
    let ip := 14
    let total := f.be16 (ip + 2)
    let protocol := f.byte (ip + 9)
    if f.fastAccepts totalLen then
      { taken := true, headerOk := true, total := total, protocol := protocol, status := .ok }
    else if total.toNat < 20 ∨ totalLen - 14 < total.toNat then { taken := true }
    else
      let frag := f.be16 (ip + 6)
      if frag &&& 0x1fff ≠ 0 then
        { taken := true
          headerOk := true
          total := total
          protocol := protocol
          status := .fragment }
      else
        let firstFragment := frag &&& 0x2000 ≠ 0
        { taken := true
          headerOk := true
          firstFragment := firstFragment
          total := total
          protocol := protocol
          status := (f.checkL4 (ip + 20) (min (f.size - 14) total.toNat - 20) (total.toNat - 20)
            { protocol := protocol, firstFragment := firstFragment }).1 }

variable {f : Frame} {totalLen available i : ℕ} {out : ParsedFrame}

/-! ### The common frame -/

theorem bytes_of_load16 {v : BitVec 16} (h : f.load16 i = v) :
  f.byte i = v.extractLsb' 0 8 ∧ f.byte (i + 1) = v.extractLsb' 8 8
  := by
  rw [← h]
  exact ⟨BitVec.extractLsb'_append_eq_right.symm, BitVec.extractLsb'_append_eq_left.symm⟩

theorem isCommonFrame_iff :
  f.isCommonFrame = true ↔ 34 ≤ f.size ∧ f.load16 12 = 0x0008 ∧ f.byte 14 = 0x45
  := by
  rw [isCommonFrame, Bool.and_eq_true, Bool.and_eq_true, decide_eq_true_iff, decide_eq_true_iff,
    decide_eq_true_iff, and_assoc]

theorem be16_type (h : f.isCommonFrame = true) :
  f.be16 12 = 0x0800
  := by
  obtain ⟨_, htype, _⟩ := isCommonFrame_iff.mp h
  obtain ⟨h₀, h₁⟩ := bytes_of_load16 htype
  rw [be16, h₀, h₁]
  decide

/-- One masked word in the host's order says that the offset and the flag of fragments are clear. -/
theorem fragment_clear (h : f.load16 i &&& 0xff3f = 0) :
  f.be16 i &&& 0x1fff = 0 ∧ f.be16 i &&& 0x2000 = 0
  := by
  rw [load16, show (0xff3f : BitVec 16) = 0xff#8 ++ 0x3f#8 from rfl, BitVec.and_append] at h
  have hlo : f.byte i &&& 0x3f#8 = 0 := by
    have := congrArg (BitVec.extractLsb' 0 8) h
    rwa [BitVec.extractLsb'_append_eq_right] at this
  have hhi : f.byte (i + 1) = 0 := by
    have := congrArg (BitVec.extractLsb' 8 8) h
    rw [BitVec.extractLsb'_append_eq_left] at this
    rw [← BitVec.and_allOnes (x := f.byte (i + 1))]
    apply this
  have hoff : f.byte i &&& 0x1f#8 = 0 := by
    rw [show 0x1f#8 = 0x3f#8 &&& 0x1f#8 from rfl, ← BitVec.and_assoc, hlo]
    rfl
  have hflag : f.byte i &&& 0x20#8 = 0 := by
    rw [show 0x20#8 = 0x3f#8 &&& 0x20#8 from rfl, ← BitVec.and_assoc, hlo]
    rfl
  rw [be16, show (0x1fff : BitVec 16) = 0x1f#8 ++ 0xff#8 from rfl,
    show (0x2000 : BitVec 16) = 0x20#8 ++ 0#8 from rfl, BitVec.and_append, BitVec.and_append, hhi,
    hoff, hflag]
  exact ⟨rfl, rfl⟩

/-- The checks of the L4 header leave what the IP header gave. -/
theorem checkL4_ip {l4 room : ℕ} {p : ParsedFrame} {status : ParseStatus}
    (h : f.checkL4 l4 available room out = (status, p)) :
  p.l3 = out.l3 ∧ p.protocol = out.protocol ∧ p.firstFragment = out.firstFragment
    ∧ p.l3Offset = out.l3Offset ∧ p.l4Offset = out.l4Offset ∧ p.l4Length = out.l4Length
  := by
  rw [← show _ = p from congrArg Prod.snd h, checkL4]
  simp only
  split_ifs <;> exact ⟨rfl, rfl, rfl, rfl, rfl, rfl⟩

/-- The walk over the extension headers leaves what it does not record. -/
theorem walkIpv6Chain_kept {ip : ℕ} :
    ∀ {n : ℕ} {next : BitVec 8} {off off' : ℕ} {out p : ParsedFrame} {status : ParseStatus},
      f.walkIpv6Chain ip available n next off out = (status, off', p) →
      p.l3 = out.l3 ∧ p.l4 = out.l4 ∧ p.l3Offset = out.l3Offset
  | 0, _, _, _, _, _, _, h => by
    cases h
    exact ⟨rfl, rfl, rfl⟩
  | n + 1, _, _, _, _, _, _, h => by
    rw [walkIpv6Chain] at h
    simp only at h
    split_ifs at h
    all_goals
      first
      | cases h
        exact ⟨rfl, rfl, rfl⟩
      | have hkept := walkIpv6Chain_kept h
        exact hkept

/-- The status of the checks depends on the protocol and the fragment flag only. -/
theorem checkL4_status (l4 available room : ℕ) {out' : ParsedFrame}
    (hproto : out'.protocol = out.protocol) (hfirst : out'.firstFragment = out.firstFragment) :
  (f.checkL4 l4 available room out').1 = (f.checkL4 l4 available room out).1
  := by
  simp only [checkL4, hproto, hfirst]
  split_ifs <;> rfl

/-! ### One check at a time -/

/-- The record of a common frame after its IP header. -/
def commonHeader (f : Frame) : ParsedFrame :=
  { l3Offset := 14
    l3 := .ipv4
    protocol := f.byte 23
    src := f.slice 26 4
    dst := f.slice 30 4 }

/-- The checks of a common frame, one at a time. -/
def commonChecks (f : Frame) (totalLen : ℕ) : ParseStatus × ParsedFrame :=
  let total := (f.be16 16).toNat
  if total < 20 ∨ totalLen - 14 < total then (.malformed, { l3Offset := 14 })
  else if f.be16 20 &&& 0x1fff ≠ 0 then (.fragment, f.commonHeader)
  else
    f.checkL4 34 (min (f.size - 14) total - 20) (total - 20)
      { f.commonHeader with
        firstFragment := f.be16 20 &&& 0x2000 ≠ 0
        l4Offset := 34
        l4Length := total - 20 }

theorem parseIp_common (h : f.isCommonFrame = true) (totalLen : ℕ) :
  f.parseIp 14 (f.size - 14) (totalLen - 14) {} = f.commonChecks totalLen
  := by
  obtain ⟨hsize, _, hver⟩ := isCommonFrame_iff.mp h
  have hver' : (f.byte 14).toNat = 69 := by
    rw [hver]
    rfl
  have hlen : ((f.be16 16).toNat - 20) % 2 ^ 16 = (f.be16 16).toNat - 20 := by
    omega
  have hpresent : ¬ f.size - 14 < 1 := by omega
  have hhdr : ¬ (f.size - 14 < 20 ∨ (20 : ℕ) < 20 ∨ f.size - 14 < 20) := by omega
  simp only [parseIp, if_neg hpresent, hver', if_neg hhdr, parseL4, hlen]
  rfl

/-- A common frame that is accepted carries IPv4. -/
theorem commonChecks_l3 (h : (f.commonChecks totalLen).1 = .ok) :
  (f.commonChecks totalLen).2.l3 = .ipv4
  := by
  rw [commonChecks] at h ⊢
  split
  case isTrue hlen =>
    rw [if_pos hlen] at h
    cases h
  case isFalse hlen =>
  split
  case isTrue => rfl
  case isFalse => exact (checkL4_ip rfl).1

/-- On a common frame the general path makes these checks. -/
theorem parseFrameGeneral_common (h : f.isCommonFrame = true) (totalLen : ℕ) :
  f.parseFrameGeneral totalLen = f.commonChecks totalLen
  := by
  obtain ⟨hsize, _, _⟩ := isCommonFrame_iff.mp h
  have htype := be16_type h
  have hskip : f.skipTags 2 12 = some 12 := by
    rw [skipTags, htype]
    rfl
  have hshort : ¬ f.size < 14 := by omega
  have hip : ¬ ((0x0800 : BitVec 16) ≠ 0x0800 ∧ (0x0800 : BitVec 16) ≠ 0x86dd) := by decide
  have hagree : ¬ ((f.commonChecks totalLen).1 = .ok
      ∧ ¬ (True ↔ (f.commonChecks totalLen).2.l3 = .ipv4)) := by
    rintro ⟨hok, hdiffer⟩
    apply hdiffer
    rw [commonChecks_l3 hok]
    exact ⟨fun _ => rfl, fun _ => trivial⟩
  rw [parseFrameGeneral, if_neg hshort, hskip]
  simp only [htype, if_neg hip, parseIp_common h, if_neg hagree]

/-! ### Acceptance at once -/

theorem fastAccepts_iff :
  f.fastAccepts totalLen = true ↔ 54 ≤ f.size ∧ f.load16 20 &&& 0xff3f = 0
    ∧ (f.byte 23 = 17 ∧ 8 ≤ (f.be16 38).toNat ∧ (f.be16 38).toNat + 20 ≤ (f.be16 16).toNat
      ∨ f.byte 23 = 6 ∧ 80 ≤ (f.byte 46).toNat
        ∧ (f.byte 46).toNat / 16 * 4 + 20 ≤ (f.be16 16).toNat)
    ∧ (f.be16 16).toNat + 14 ≤ totalLen
  := by
  have hsize : decide (kFastAcceptBytes ≤ f.size) = true ↔ 54 ≤ f.size := decide_eq_true_iff
  rw [fastAccepts]
  simp only [Bool.and_eq_true, hsize, and_assoc]
  by_cases hudp : f.byte 23 = 17
  · simp only [hudp]
    simp
  · simp only [hudp, if_false, Bool.and_eq_true, decide_eq_true_iff, false_and, false_or, and_assoc]

/-- The record of an accepted datagram. -/
def acceptedFrame (f : Frame) : ParsedFrame :=
  { l3 := .ipv4
    l4 := if f.byte 23 = 6 then .tcp else .udp
    protocol := f.byte 23
    tcpFlags := if f.byte 23 = 6 then f.byte 47 else 0
    l3Offset := 14
    l4Offset := 34
    l4Length := (f.be16 16).toNat - 20
    src := f.slice 26 4
    dst := f.slice 30 4
    srcPort := f.be16 34
    dstPort := f.be16 36 }

/-- A datagram that is accepted at once passes the checks one at a time, with the same record. -/
theorem commonChecks_accepted (h : f.fastAccepts totalLen = true) :
  f.commonChecks totalLen = (.ok, f.acceptedFrame)
  := by
  obtain ⟨hsize, hfrag, hl4, htotal⟩ := fastAccepts_iff.mp h
  obtain ⟨hoff, hflag⟩ := fragment_clear hfrag
  have hlen : ¬ ((f.be16 16).toNat < 20 ∨ totalLen - 14 < (f.be16 16).toNat) := by omega
  rw [commonChecks]
  simp only [if_neg hlen, hoff, hflag, ne_eq, not_true_eq_false, if_false, decide_false,
    commonHeader, acceptedFrame, checkL4]
  rcases hl4 with ⟨hudp, hmin, hroom⟩ | ⟨htcp, hmin, hroom⟩
  · have hfits : ¬ (min (f.size - 14) (f.be16 16).toNat - 20 < 8 ∨ (f.be16 38).toNat < 8
        ∨ True ∧ (f.be16 16).toNat - 20 < (f.be16 38).toNat) := by omega
    have hother : ¬ (17 : BitVec 8) = 6 := by decide
    simp only [hudp, if_neg hother, if_true, if_neg hfits]
  have hfits : ¬ (min (f.size - 14) (f.be16 16).toNat - 20 < 20 ∨ (f.byte 46).toNat / 16 < 5
      ∨ True ∧ (f.be16 16).toNat - 20 < (f.byte 46).toNat / 16 * 4) := by omega
  simp only [htcp, if_true, if_neg hfits]

theorem fastFrame_eq (totalLen : ℕ) :
  f.fastFrame totalLen = f.commonChecks (max totalLen f.size)
  := by
  by_cases hacc : f.fastAccepts (max totalLen f.size) = true
  · rw [fastFrame, commonChecks_accepted hacc]
    simp only [if_pos hacc]
    rfl
  rw [fastFrame]
  simp only [if_neg hacc]
  rfl

/-! ### The two paths -/

/-- What `CheckFastIpv4` says agrees with a status and a record. -/
structure FastAgrees (f : Frame) (fast : FastIpv4) (parse : ParseStatus × ParsedFrame) : Prop where
  taken : fast.taken = true
  status : fast.status = parse.1
  headerOk : fast.headerOk = true ↔ parse.2.l3 = .ipv4
  protocol : fast.protocol = parse.2.protocol
  firstFragment : fast.firstFragment = parse.2.firstFragment
  total : fast.headerOk = true → fast.total = f.be16 (parse.2.l3Offset + 2)
  length : fast.headerOk = true → parse.1 ≠ .fragment → parse.2.l4Length + 20 = fast.total.toNat

theorem checkFastIpv4_agrees (h : f.isCommonFrame = true) (totalLen : ℕ) :
  FastAgrees f (f.checkFastIpv4 totalLen) (f.commonChecks (max totalLen f.size))
  := by
  have htaken : ¬ f.isCommonFrame = false := by
    rw [h]
    decide
  rw [checkFastIpv4]
  simp only [if_neg htaken, Nat.reduceAdd]
  by_cases hacc : f.fastAccepts (max totalLen f.size) = true
  · rw [if_pos hacc, commonChecks_accepted hacc]
    obtain ⟨_, _, hl4, _⟩ := fastAccepts_iff.mp hacc
    refine ⟨rfl, rfl, ⟨fun _ => rfl, fun _ => rfl⟩, rfl, rfl, fun _ => rfl, fun _ _ => ?_⟩
    show (f.be16 16).toNat - 20 + 20 = (f.be16 16).toNat
    omega
  rw [if_neg hacc, commonChecks]
  split
  case isTrue => exact ⟨rfl, rfl, ⟨nofun, nofun⟩, rfl, rfl, nofun, nofun⟩
  case isFalse hlen =>
  split
  case isTrue =>
    exact ⟨rfl, rfl, ⟨fun _ => rfl, fun _ => rfl⟩, rfl, rfl, fun _ => rfl,
      fun _ hfrag => absurd rfl hfrag⟩
  case isFalse =>
  obtain ⟨hl3, hproto, hfirst, hl3Offset, _, hl4Length⟩ := checkL4_ip
    (show f.checkL4 _ _ _ { f.commonHeader with
      firstFragment := _, l4Offset := _, l4Length := (f.be16 16).toNat - 20 } = _ from (Prod.eta _).symm)
  refine ⟨rfl, checkL4_status _ _ _ rfl rfl, ⟨fun _ => hl3, fun _ => rfl⟩, hproto.symm, hfirst.symm,
    fun _ => ?_, fun _ _ => ?_⟩
  · rw [hl3Offset]
    rfl
  rw [hl4Length]
  simp only
  omega

theorem parseFrame_eq_general (f : Frame) (totalLen : ℕ) :
  f.parseFrame totalLen = f.parseFrameGeneral (max totalLen f.size)
  := by
  rw [parseFrame]
  split
  case isTrue hcommon => rw [fastFrame_eq, parseFrameGeneral_common hcommon]
  case isFalse => rfl

/-- On every common frame the fast path returns the status of the general path and fills the same
record, and `CheckFastIpv4` agrees with both. -/
theorem fast_parse_eq_general (h : f.isCommonFrame = true) (totalLen : ℕ) :
  f.fastFrame totalLen = f.parseFrameGeneral (max totalLen f.size)
    ∧ f.parseFrame totalLen = f.parseFrameGeneral (max totalLen f.size)
    ∧ FastAgrees f (f.checkFastIpv4 totalLen) (f.parseFrameGeneral (max totalLen f.size))
  := by
  have hfast : f.fastFrame totalLen = f.parseFrameGeneral (max totalLen f.size) := by
    rw [fastFrame_eq, parseFrameGeneral_common h]
  refine ⟨hfast, f.parseFrame_eq_general totalLen, ?_⟩
  rw [parseFrameGeneral_common h]
  apply checkFastIpv4_agrees h

/-- A UDP datagram without payload, in a frame with two bytes of padding. -/
def paddedDatagram : Frame :=
  let bytes : List (BitVec 8) :=
    [0, 0, 0, 0, 0, 0, 0, 0, 0, 0, 0, 0, 8, 0,
      0x45, 0, 0, 28, 0, 0, 0x40, 0, 64, 17, 0, 0, 10, 0, 0, 1, 10, 0, 0, 2,
      4, 0, 0, 53, 0, 8, 0, 0, 0, 0]
  ⟨44, fun i => bytes.getD i 0⟩

theorem fast_parse_paddedDatagram :
  paddedDatagram.isCommonFrame = true
    ∧ paddedDatagram.fastFrame 0 = paddedDatagram.parseFrameGeneral (max 0 paddedDatagram.size)
    ∧ (paddedDatagram.fastFrame 0).1 = .ok
  := ⟨by decide, (fast_parse_eq_general (by decide) 0).1, by decide⟩

end Frame

end Napt
