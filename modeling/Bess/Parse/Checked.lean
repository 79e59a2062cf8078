import Bess.Parse.FastPath

/-!
# The parse with checked reads

The parse of `core/packet_parse.h` once more, in the order in which the source evaluates it, with
reads that fail at or past the end of the readable bytes. The walk over the IPv6 extension headers
counts the headers as the source does and fails when its fuel runs out. The checked parse never
fails and returns what the parse returns, so every read of the source is within the readable bytes
and the walk ends. The quoted packet of an ICMP error (`core/conntrack/conntrack.h`) is parsed in
the same way, from a part of the frame.
-/

namespace Napt

open Option

/-- The readable bytes of a frame. -/
structure Span : Type where
  bytes : List (BitVec 8)

namespace Span

open Napt.Frame

variable (s : Span)

/-! ### Reads -/

def size : ℕ :=
  s.bytes.length

def byte? (i : ℕ) : Option (BitVec 8) :=
  s.bytes[i]?

def be16? (i : ℕ) : Option (BitVec 16) := do
  let hi ← s.byte? i
  let lo ← s.byte? (i + 1)
  return hi ++ lo

def load16? (i : ℕ) : Option (BitVec 16) := do
  let lo ← s.byte? i
  let hi ← s.byte? (i + 1)
  return hi ++ lo

/-- A copy of `n` bytes. -/
def slice? (i n : ℕ) : Option (ℕ → BitVec 8) :=
  if i + n ≤ s.size then some fun k => if k < n then (s.byte? (i + k)).getD 0 else 0 else none

/-! ### The general path -/

def ahLength? (ip available off : ℕ) : Option ℕ :=
  if available < off + 8 then return 0
  else do
    let len := ((← s.byte? (ip + off + 1)).toNat + 2) * 4
    return if available < off + len then 0 else len

/-- The walk with the count `n` of headers, cut off after `fuel` rounds. -/
def walkIpv6Chain? (ip available : ℕ) :
    ℕ → ℕ → BitVec 8 → ℕ → ParsedFrame → Option (ParseStatus × ℕ × ParsedFrame)
  | 0, _, _, _, _ => none
  | fuel + 1, n, next, off, out =>
      if kMaxExtensionHeaders < n then return (.malformed, off, out)
      else if isOptionHeader next then
        if available < off + 8 then return (.malformed, off, out)
        else do
          let len := ((← s.byte? (ip + off + 1)).toNat + 1) * 8
          if available < off + len then return (.malformed, off, out)
          else walkIpv6Chain? ip available fuel (n + 1) (← s.byte? (ip + off)) (off + len) out
      else if next = 44 then
        if available < off + 8 then return (.malformed, off, out)
        else do
          let frag ← s.be16? (ip + off + 2)
          let next ← s.byte? (ip + off)
          if frag &&& 0xfff8 ≠ 0 then return (.fragment, off + 8, { out with protocol := next })
          else
            walkIpv6Chain? ip available fuel (n + 1) next (off + 8)
              { out with firstFragment := frag &&& 1 ≠ 0 }
      else if next = 51 then do
        let len ← s.ahLength? ip available off
        if len = 0 then return (.malformed, off, out)
        else walkIpv6Chain? ip available fuel (n + 1) (← s.byte? (ip + off)) (off + len) out
      else return (.ok, off, { out with protocol := next })

def checkL4? (l4 available room : ℕ) (out : ParsedFrame) : Option (ParseStatus × ParsedFrame) :=
  if out.protocol = 6 then
    if available < 20 then return (.malformed, out)
    else do
      let words := (← s.byte? (l4 + 12)).toNat / 16
      if words < 5 ∨ out.firstFragment = false ∧ room < words * 4 then return (.malformed, out)
      else
        return (.ok, { out with
          l4 := .tcp
          srcPort := ← s.be16? l4
          dstPort := ← s.be16? (l4 + 2)
          tcpFlags := ← s.byte? (l4 + 13) })
  else if out.protocol = 17 then
    if available < 8 then return (.malformed, out)
    else do
      let length := (← s.be16? (l4 + 4)).toNat
      if length < 8 ∨ out.firstFragment = false ∧ room < length then return (.malformed, out)
      else
        return (.ok, { out with
          l4 := .udp
          srcPort := ← s.be16? l4
          dstPort := ← s.be16? (l4 + 2) })
  else if out.protocol = 1 ∨ out.protocol = 58 then
    if available < 8 then return (.malformed, out)
    else do
      let id ← s.be16? (l4 + 4)
      return (.ok, { out with
        l4 := if out.protocol = 1 then .icmp else .icmpv6
        icmpType := ← s.byte? l4
        icmpCode := ← s.byte? (l4 + 1)
        srcPort := id
        dstPort := id })
  else return (.ok, { out with l4 := .other })

def parseL4? (ip present total off : ℕ) (out : ParsedFrame) :
    Option (ParseStatus × ParsedFrame) :=
  s.checkL4? (ip + off) (present - off) (total - off)
    { out with l4Offset := (ip + off) % 2 ^ 16, l4Length := (total - off) % 2 ^ 16 }

def parseIp? (ip present limit : ℕ) (out : ParsedFrame) : Option (ParseStatus × ParsedFrame) :=
  if present < 1 then return (.malformed, out)
  else do
    let out := { out with l3Offset := ip % 2 ^ 16 }
    let first := (← s.byte? ip).toNat
    if first / 16 = 4 then
      let ihl := first % 16 * 4
      if present < 20 ∨ ihl < 20 ∨ present < ihl then return (.malformed, out)
      else
        let total := (← s.be16? (ip + 2)).toNat
        if total < ihl ∨ limit < total then return (.malformed, out)
        else
          let out := { out with
            l3 := .ipv4
            protocol := ← s.byte? (ip + 9)
            src := ← s.slice? (ip + 12) 4
            dst := ← s.slice? (ip + 16) 4 }
          let frag ← s.be16? (ip + 6)
          if frag &&& 0x1fff ≠ 0 then return (.fragment, out)
          else
            s.parseL4? ip (min present total) total ihl
              { out with firstFragment := frag &&& 0x2000 ≠ 0 }
    else if first / 16 = 6 then
      if present < 40 then return (.malformed, out)
      else
        let total := 40 + (← s.be16? (ip + 4)).toNat
        if limit < total then return (.malformed, out)
        else
          let available := min present total
          let out := { out with
            l3 := .ipv6
            src := ← s.slice? (ip + 8) 16
            dst := ← s.slice? (ip + 24) 16 }
          match ← s.walkIpv6Chain? ip available 10 0 (← s.byte? (ip + 6)) 40 out with
          | (.ok, off, out) => s.parseL4? ip available total off out
          | (status, _, out) => return (status, out)
    else return (.malformed, out)

/-- The end of the VLAN tags, or nothing if they are cut short. The source compares `type` and reads
the next one only if it is there. -/
def skipTags? : ℕ → ℕ → Option (Option ℕ)
  | 0, off => return some off
  | tags + 1, off => do
      if isTag (← s.be16? off) then
        if s.size < off + 4 + 2 then return none else skipTags? tags (off + 4)
      else return some off

def parseFrameGeneral? (totalLen : ℕ) : Option (ParseStatus × ParsedFrame) :=
  if s.size < 14 then return (.malformed, {})
  else do
    match ← s.skipTags? 2 12 with
    | none => return (.malformed, {})
    | some off =>
        let type ← s.be16? off
        let ip := off + 2
        if type ≠ 0x0800 ∧ type ≠ 0x86dd then return (.notIp, {})
        else
          let (status, out) ← s.parseIp? ip (s.size - ip) (totalLen - ip) {}
          if status = .ok ∧ ¬ (type = 0x0800 ↔ out.l3 = .ipv4) then return (.malformed, out)
          else return (status, out)

/-! ### The fast path -/

def isCommonFrame? : Option Bool :=
  if s.size < 34 then return false
  else do
    if (← s.load16? 12) ≠ 0x0008 then return false
    else return (← s.byte? 14) = 0x45

def fastAccepts? (totalLen : ℕ) : Option Bool := do
  let total := (← s.be16? 16).toNat
  if s.size < kFastAcceptBytes then return false
  else if (← s.load16? 20) &&& 0xff3f ≠ 0 then return false
  else
    let protocol ← s.byte? 23
    if protocol = 17 then
      let length := (← s.be16? 38).toNat
      return 8 ≤ length && length + 20 ≤ total && total + 14 ≤ totalLen
    else if protocol = 6 then
      let words := (← s.byte? 46).toNat
      return 0x50 ≤ words && words / 16 * 4 + 20 ≤ total && total + 14 ≤ totalLen
    else return false

def fastFrame? (totalLen : ℕ) : Option (ParseStatus × ParsedFrame) := do
  let totalLen := max totalLen s.size
  let total := (← s.be16? 16).toNat
  if ← s.fastAccepts? totalLen then
    let protocol ← s.byte? 23
    let flags ← if protocol = 6 then s.byte? 47 else pure 0
    return (.ok,
      { l3 := .ipv4
        l4 := if protocol = 6 then .tcp else .udp
        protocol := protocol
        tcpFlags := flags
        l3Offset := 14
        l4Offset := 34
        l4Length := total - 20
        src := ← s.slice? 26 4
        dst := ← s.slice? 30 4
        srcPort := ← s.be16? 34
        dstPort := ← s.be16? 36 })
  else if total < 20 ∨ totalLen - 14 < total then return (.malformed, { l3Offset := 14 })
  else
    let out : ParsedFrame :=
      { l3Offset := 14
        l3 := .ipv4
        protocol := ← s.byte? 23
        src := ← s.slice? 26 4
        dst := ← s.slice? 30 4 }
    let frag ← s.be16? 20
    if frag &&& 0x1fff ≠ 0 then return (.fragment, out)
    else
      s.checkL4? 34 (min (s.size - 14) total - 20) (total - 20)
        { out with firstFragment := frag &&& 0x2000 ≠ 0, l4Offset := 34, l4Length := total - 20 }

def parseFrame? (totalLen : ℕ) : Option (ParseStatus × ParsedFrame) := do
  if ← s.isCommonFrame? then s.fastFrame? totalLen
  else s.parseFrameGeneral? (max totalLen s.size)

def parseIpPacket? : Option (ParseStatus × ParsedFrame) :=
  s.parseIp? 0 s.size s.size {}

end Span

namespace Frame

/-- `ParseIpPacket`: a packet that starts at its IP header. -/
def parseIpPacket (f : Frame) : ParseStatus × ParsedFrame :=
  f.parseIp 0 f.size f.size {}

def span (f : Frame) : Span :=
  ⟨List.ofFn fun i : Fin f.size => f.byte i⟩

/-! ### The reads are within bounds -/

variable {f : Frame} {i : ℕ}

@[simp] theorem span_size (f : Frame) :
  f.span.size = f.size
  := List.length_ofFn

theorem byte?_eq (h : i < f.size) :
  f.span.byte? i = some (f.byte i)
  := by
  rw [Span.byte?, span, List.getElem?_ofFn, dif_pos h]

theorem be16?_eq (h : i + 1 < f.size) :
  f.span.be16? i = some (f.be16 i)
  := by
  rw [Span.be16?, byte?_eq (by omega), byte?_eq h]
  rfl

theorem load16?_eq (h : i + 1 < f.size) :
  f.span.load16? i = some (f.load16 i)
  := by
  rw [Span.load16?, byte?_eq (by omega), byte?_eq h]
  rfl

theorem slice?_eq {n : ℕ} (h : i + n ≤ f.size) :
  f.span.slice? i n = some (f.slice i n)
  := by
  rw [Span.slice?, span_size, if_pos h, Option.some.injEq]
  funext k
  rw [slice]
  split
  case isTrue hk =>
    rw [byte?_eq (by omega)]
    rfl
  case isFalse => rfl

theorem ahLength?_eq {ip available : ℕ} (h : ip + available ≤ f.size) (off : ℕ) :
  f.span.ahLength? ip available off = some (f.ahLength ip available off)
  := by
  rw [Span.ahLength?, ahLength]
  split
  case isTrue => rfl
  case isFalse hfits =>
  rw [byte?_eq (by omega)]
  rfl

/-- An authentication header that is stepped over fits. -/
theorem ahLength_fits {ip available off : ℕ} (h : f.ahLength ip available off ≠ 0) :
  off + f.ahLength ip available off ≤ available
  := by
  rw [ahLength] at h ⊢
  simp only at h ⊢
  split at h
  case isTrue => exact absurd rfl h
  case isFalse hshort =>
  rw [if_neg hshort]
  split at h
  case isTrue => exact absurd rfl h
  case isFalse hfits =>
  rw [if_neg hfits]
  omega

/-- The walk ends, and its reads are within the readable bytes. -/
theorem walkIpv6Chain?_eq {ip available : ℕ} (h : ip + available ≤ f.size) :
    ∀ {fuel n : ℕ} (next : BitVec 8) (off : ℕ) (out : ParsedFrame),
      n ≤ kMaxExtensionHeaders + 1 → kMaxExtensionHeaders + 1 < n + fuel →
      f.span.walkIpv6Chain? ip available fuel n next off out
        = some (f.walkIpv6Chain ip available (kMaxExtensionHeaders + 1 - n) next off out)
  | 0, n, next, off, out, hn, hfuel => by omega
  | fuel + 1, n, next, off, out, hn, hfuel => by
    rw [Span.walkIpv6Chain?]
    by_cases hmany : kMaxExtensionHeaders < n
    · have hdone : kMaxExtensionHeaders + 1 - n = 0 := by omega
      rw [if_pos hmany, hdone]
      rfl
    have ih := @walkIpv6Chain?_eq ip available h fuel (n + 1)
    have hmore : kMaxExtensionHeaders + 1 - n = kMaxExtensionHeaders + 1 - (n + 1) + 1 := by
      omega
    rw [if_neg hmany, hmore, walkIpv6Chain]
    split
    case isTrue =>
      split
      case isTrue => rfl
      case isFalse hfits =>
      simp only [byte?_eq (show ip + off + 1 < f.size by omega),
        byte?_eq (show ip + off < f.size by omega), bind_eq_bind, bind_some]
      split
      case isTrue => rfl
      case isFalse => exact ih _ _ _ (by omega) (by omega)
    case isFalse =>
    split
    case isTrue =>
      split
      case isTrue => rfl
      case isFalse hfits =>
      simp only [be16?_eq (show ip + off + 2 + 1 < f.size by omega),
        byte?_eq (show ip + off < f.size by omega), bind_eq_bind, bind_some]
      split
      case isTrue => rfl
      case isFalse => exact ih _ _ _ (by omega) (by omega)
    case isFalse =>
    split
    case isFalse => rfl
    case isTrue =>
    simp only [ahLength?_eq h, bind_eq_bind, bind_some]
    split
    case isTrue => rfl
    case isFalse hlen =>
    have hfits := ahLength_fits hlen
    rw [byte?_eq (by omega)]
    exact ih _ _ _ (by omega) (by omega)

theorem checkL4?_eq {l4 available : ℕ} (h : ∀ k < available, l4 + k < f.size) (room : ℕ)
    (out : ParsedFrame) :
  f.span.checkL4? l4 available room out = some (f.checkL4 l4 available room out)
  := by
  rw [Span.checkL4?, checkL4]
  split
  case isTrue =>
    by_cases hshort : available < 20
    · rw [if_pos hshort, if_pos (.inl hshort)]
      rfl
    have hlast := h 19 (by omega)
    rw [if_neg hshort, byte?_eq (by omega), be16?_eq (by omega), be16?_eq (by omega),
      byte?_eq (by omega)]
    simp only [bind_eq_bind, bind_some, hshort, false_or]
    split <;> rfl
  case isFalse =>
  split
  case isTrue =>
    by_cases hshort : available < 8
    · rw [if_pos hshort, if_pos (.inl hshort)]
      rfl
    have hlast := h 7 (by omega)
    rw [if_neg hshort, be16?_eq (by omega), be16?_eq (by omega), be16?_eq (by omega)]
    simp only [bind_eq_bind, bind_some, hshort, false_or]
    split <;> rfl
  case isFalse =>
  split
  case isFalse => rfl
  case isTrue =>
  split
  case isTrue => rfl
  case isFalse hshort =>
  have hlast := h 7 (by omega)
  rw [be16?_eq (by omega), byte?_eq (by omega), byte?_eq (by omega)]
  rfl

theorem parseL4?_eq {ip present : ℕ} (h : ip + present ≤ f.size) (total off : ℕ)
    (out : ParsedFrame) :
  f.span.parseL4? ip present total off out = some (f.parseL4 ip present total off out)
  := by
  apply checkL4?_eq
  omega

theorem parseIp?_eq {ip present : ℕ} (h : ip + present ≤ f.size) (limit : ℕ) (out : ParsedFrame) :
  f.span.parseIp? ip present limit out = some (f.parseIp ip present limit out)
  := by
  rw [Span.parseIp?, parseIp]
  split
  case isTrue => rfl
  case isFalse hpresent =>
  rw [byte?_eq (by omega)]
  simp only [bind_eq_bind, bind_some]
  by_cases hfour : (f.byte ip).toNat / 16 = 4
  · rw [if_pos hfour]
    split
    case isTrue => rfl
    case isFalse hhdr =>
    rw [be16?_eq (by omega), byte?_eq (by omega), slice?_eq (by omega), slice?_eq (by omega),
      be16?_eq (by omega)]
    simp only [bind_some]
    split
    case isTrue => rfl
    case isFalse =>
    split
    case isTrue => rfl
    case isFalse => exact parseL4?_eq (by omega) ..
  rw [if_neg hfour, if_neg hfour]
  by_cases hsix : (f.byte ip).toNat / 16 = 6
  · rw [if_pos hsix]
    split
    case isTrue => rfl
    case isFalse hhdr =>
    rw [be16?_eq (by omega), byte?_eq (by omega), slice?_eq (by omega), slice?_eq (by omega)]
    simp only [bind_some]
    split
    case isTrue => rfl
    case isFalse =>
    rw [walkIpv6Chain?_eq (by omega) _ _ _ (Nat.zero_le _) (by decide)]
    generalize f.walkIpv6Chain _ _ _ _ _ _ = walked
    obtain ⟨status, off, walkedOut⟩ := walked
    cases status
    case ok => exact parseL4?_eq (by omega) ..
    all_goals rfl
  rw [if_neg hsix, if_neg hsix]
  rfl

theorem skipTags?_eq : ∀ (tags : ℕ) {off : ℕ}, off + 1 < f.size →
    f.span.skipTags? tags off = some (f.skipTags tags off)
  | 0, off, _ => rfl
  | tags + 1, off, h => by
    rw [Span.skipTags?, skipTags, be16?_eq h, span_size]
    simp only [bind_eq_bind, bind_some]
    split
    case isTrue =>
      split
      case isTrue => rfl
      case isFalse => exact skipTags?_eq tags (by omega)
    case isFalse => rfl

/-- The EtherType the skipping stops at is readable. -/
theorem skipTags_fits : ∀ (tags : ℕ) {off ended : ℕ}, off + 1 < f.size →
    f.skipTags tags off = some ended → off ≤ ended ∧ ended ≤ off + 4 * tags ∧ ended + 1 < f.size
  | 0, off, ended, h, hended => by
    obtain rfl := Option.some.inj hended
    omega
  | tags + 1, off, ended, h, hended => by
    rw [skipTags] at hended
    split at hended
    case isTrue =>
      split at hended
      case isTrue => cases hended
      case isFalse =>
        have ih := skipTags_fits tags (by omega) hended
        omega
    case isFalse =>
      obtain rfl := Option.some.inj hended
      omega

theorem parseFrameGeneral?_eq (totalLen : ℕ) :
  f.span.parseFrameGeneral? totalLen = some (f.parseFrameGeneral totalLen)
  := by
  rw [Span.parseFrameGeneral?, parseFrameGeneral, span_size]
  split
  case isTrue => rfl
  case isFalse hsize =>
  rw [skipTags?_eq 2 (by omega)]
  simp only [bind_eq_bind]
  cases hskip : f.skipTags 2 12
  case none => rfl
  case some off =>
  obtain ⟨_, _, hoff⟩ := skipTags_fits 2 (by omega) hskip
  simp only [be16?_eq hoff, bind_some]
  split
  case isTrue => rfl
  case isFalse =>
  rw [parseIp?_eq (by omega)]
  simp only [bind_some]
  split <;> rfl

theorem isCommonFrame?_eq :
  f.span.isCommonFrame? = some f.isCommonFrame
  := by
  rw [Span.isCommonFrame?, isCommonFrame, span_size]
  split
  case isTrue hsize =>
    have hshort : decide (34 ≤ f.size) = false := decide_eq_false (by omega)
    rw [hshort]
    rfl
  case isFalse hsize =>
  have hlong : decide (34 ≤ f.size) = true := decide_eq_true (by omega)
  rw [hlong, load16?_eq (by omega), byte?_eq (by omega)]
  by_cases htype : f.load16 12 = 0x0008#16
  · simp [htype]
  · simp [htype]

theorem fastAccepts?_eq (h : 34 ≤ f.size) (totalLen : ℕ) :
  f.span.fastAccepts? totalLen = some (f.fastAccepts totalLen)
  := by
  rw [Span.fastAccepts?, fastAccepts, span_size, be16?_eq (by omega)]
  simp only [bind_eq_bind, bind_some]
  by_cases hsize : f.size < kFastAcceptBytes
  · have hshort : decide (kFastAcceptBytes ≤ f.size) = false := decide_eq_false (by omega)
    rw [if_pos hsize, hshort]
    rfl
  have hlong : decide (kFastAcceptBytes ≤ f.size) = true := decide_eq_true (by omega)
  have hfifty : 54 ≤ f.size := Nat.le_of_not_lt hsize
  rw [if_neg hsize, hlong, load16?_eq (by omega), byte?_eq (by omega), be16?_eq (by omega),
    byte?_eq (by omega)]
  by_cases hfrag : f.load16 20 &&& 0xff3f#16 = 0#16
  · by_cases hudp : f.byte 23 = 17#8
    · simp [hfrag, hudp]
    by_cases htcp : f.byte 23 = 6#8
    · simp [hfrag, htcp, Bool.and_assoc]
    · simp [hudp, htcp]
  · simp [hfrag]

theorem fastFrame?_eq (h : 34 ≤ f.size) (totalLen : ℕ) :
  f.span.fastFrame? totalLen = some (f.fastFrame totalLen)
  := by
  rw [Span.fastFrame?, fastFrame, span_size, be16?_eq (by omega), fastAccepts?_eq h]
  simp only [bind_eq_bind, bind_some]
  split
  case isTrue hacc =>
    have hsize := (fastAccepts_iff.1 hacc).1
    rw [byte?_eq (by omega), byte?_eq (by omega), slice?_eq (by omega), slice?_eq (by omega),
      be16?_eq (by omega), be16?_eq (by omega)]
    simp only [bind_some]
    split <;> rfl
  case isFalse =>
  split
  case isTrue => rfl
  case isFalse =>
  rw [byte?_eq (by omega), slice?_eq (by omega), slice?_eq (by omega), be16?_eq (by omega)]
  simp only [bind_some]
  split
  case isTrue => rfl
  case isFalse =>
  apply checkL4?_eq
  omega

/-- The frame's parse reads the readable bytes only, and its walk ends. -/
theorem parseFrame?_eq (f : Frame) (totalLen : ℕ) :
  f.span.parseFrame? totalLen = some (f.parseFrame totalLen)
  := by
  rw [Span.parseFrame?, parseFrame, span_size, isCommonFrame?_eq]
  simp only [bind_eq_bind, bind_some]
  split
  case isTrue hcommon => exact fastFrame?_eq (isCommonFrame_iff.mp hcommon).1 totalLen
  case isFalse => exact parseFrameGeneral?_eq _

theorem parseIpPacket?_eq (f : Frame) :
  f.span.parseIpPacket? = some f.parseIpPacket
  := by
  rw [Span.parseIpPacket?, span_size]
  apply parseIp?_eq
  omega

end Frame

end Napt
