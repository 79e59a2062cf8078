import Mathlib.Algebra.Group.Nat.Defs
import Mathlib.Logic.Function.Basic

/-!
# Frames

The checked parse of `core/packet_parse.h` and the rewrite of `core/nat/nat.h`. A frame is its
length and its bytes; a byte at or past the length is not part of it. The host is little-endian,
as the source asserts.
-/

namespace Napt

structure Frame : Type where
  size : ℕ
  byte : ℕ → BitVec 8

namespace Frame

variable (f : Frame)

/-- Two bytes in network order. -/
def be16 (i : ℕ) : BitVec 16 :=
  f.byte i ++ f.byte (i + 1)

/-- Four bytes in network order. -/
def be32 (i : ℕ) : BitVec 32 :=
  f.be16 i ++ f.be16 (i + 2)

/-- Two bytes as the host loads them. -/
def load16 (i : ℕ) : BitVec 16 :=
  f.byte (i + 1) ++ f.byte i

def setByte (i : ℕ) (b : BitVec 8) : Frame :=
  { f with byte := Function.update f.byte i b }

/-- Two bytes as the host stores them. -/
def store16 (i : ℕ) (v : BitVec 16) : Frame :=
  (f.setByte i (v.extractLsb' 0 8)).setByte (i + 1) (v.extractLsb' 8 8)

def store32 (i : ℕ) (v : BitVec 32) : Frame :=
  (f.store16 i (v.extractLsb' 0 16)).store16 (i + 2) (v.extractLsb' 16 16)

end Frame

inductive L3Kind : Type where
  | none
  | ipv4
  | ipv6
  deriving DecidableEq

inductive L4Kind : Type where
  | none
  | tcp
  | udp
  | icmp
  | icmpv6
  | other
  deriving DecidableEq

inductive ParseStatus : Type where
  | ok
  | notIp
  | malformed
  | fragment
  deriving DecidableEq

/-- What the parse found. Addresses are in network order and an IPv4 address is the first four of
its bytes; ports are numbers, and for ICMP both are the identifier. -/
structure ParsedFrame : Type where
  l3 : L3Kind := .none
  l4 : L4Kind := .none
  protocol : BitVec 8 := 0
  tcpFlags : BitVec 8 := 0
  l3Offset : ℕ := 0
  l4Offset : ℕ := 0
  l4Length : ℕ := 0
  src : ℕ → BitVec 8 := fun _ => 0
  dst : ℕ → BitVec 8 := fun _ => 0
  srcPort : BitVec 16 := 0
  dstPort : BitVec 16 := 0
  icmpType : BitVec 8 := 0
  icmpCode : BitVec 8 := 0
  firstFragment : Bool := false

/-! ### The parse -/

namespace Frame

/-- The first `n` bytes at `i`, and zeros. -/
def slice (f : Frame) (i n : ℕ) : ℕ → BitVec 8 :=
  fun k => if k < n then f.byte (i + k) else 0

def kMaxExtensionHeaders : ℕ := 8

/-- The headers of options among the IPv6 extension headers. -/
def isOptionHeader (next : BitVec 8) : Bool :=
  next = 0 || next = 43 || next = 60

/-- The length of an authentication header at `off` of the packet at `ip`, or 0. -/
def ahLength (f : Frame) (ip available off : ℕ) : ℕ :=
  if available < off + 8 then 0
  else
    let len := ((f.byte (ip + off + 1)).toNat + 2) * 4
    if available < off + len then 0 else len

/-- The walk over the extension headers, from header `n` on at `off`: its status, where the
transport is, and the record with its protocol. -/
def walkIpv6Chain (f : Frame) (ip available : ℕ) :
    ℕ → BitVec 8 → ℕ → ParsedFrame → ParseStatus × ℕ × ParsedFrame
  | 0, _, off, out => (.malformed, off, out)
  | n + 1, next, off, out =>
      if isOptionHeader next then
        if available < off + 8 then (.malformed, off, out)
        else
          let len := ((f.byte (ip + off + 1)).toNat + 1) * 8
          if available < off + len then (.malformed, off, out)
          else walkIpv6Chain f ip available n (f.byte (ip + off)) (off + len) out
      else if next = 44 then
        if available < off + 8 then (.malformed, off, out)
        else
          let frag := f.be16 (ip + off + 2)
          let next := f.byte (ip + off)
          if frag &&& 0xfff8 ≠ 0 then (.fragment, off + 8, { out with protocol := next })
          else
            walkIpv6Chain f ip available n next (off + 8)
              { out with firstFragment := frag &&& 1 ≠ 0 }
      else if next = 51 then
        let len := f.ahLength ip available off
        if len = 0 then (.malformed, off, out)
        else walkIpv6Chain f ip available n (f.byte (ip + off)) (off + len) out
      else (.ok, off, { out with protocol := next })

/-- The checks of the L4 header at `l4`, of which `available` bytes are readable, and its fields.
`room` is the L4 length that the IP header states. -/
def checkL4 (f : Frame) (l4 available room : ℕ) (out : ParsedFrame) : ParseStatus × ParsedFrame :=
  if out.protocol = 6 then
    let words := (f.byte (l4 + 12)).toNat / 16
    if available < 20 ∨ words < 5 ∨ out.firstFragment = false ∧ room < words * 4 then
      (.malformed, out)
    else
      (.ok, { out with
        l4 := .tcp
        srcPort := f.be16 l4
        dstPort := f.be16 (l4 + 2)
        tcpFlags := f.byte (l4 + 13) })
  else if out.protocol = 17 then
    let length := (f.be16 (l4 + 4)).toNat
    if available < 8 ∨ length < 8 ∨ out.firstFragment = false ∧ room < length then (.malformed, out)
    else
      (.ok, { out with l4 := .udp, srcPort := f.be16 l4, dstPort := f.be16 (l4 + 2) })
  else if out.protocol = 1 ∨ out.protocol = 58 then
    if available < 8 then (.malformed, out)
    else
      (.ok, { out with
        l4 := if out.protocol = 1 then .icmp else .icmpv6
        icmpType := f.byte l4
        icmpCode := f.byte (l4 + 1)
        srcPort := f.be16 (l4 + 4)
        dstPort := f.be16 (l4 + 4) })
  else (.ok, { out with l4 := .other })

/-- L4 at `off` of the IP packet at `ip`, of which `present` bytes are readable and whose stated
length is `total`. -/
def parseL4 (f : Frame) (ip present total off : ℕ) (out : ParsedFrame) :
    ParseStatus × ParsedFrame :=
  f.checkL4 (ip + off) (present - off) (total - off)
    { out with l4Offset := (ip + off) % 2 ^ 16, l4Length := (total - off) % 2 ^ 16 }

/-- The IP packet at offset `ip` of the frame: `present` of its bytes are readable, and it has
`limit` of them. -/
def parseIp (f : Frame) (ip present limit : ℕ) (out : ParsedFrame) : ParseStatus × ParsedFrame :=
  if present < 1 then (.malformed, out)
  else
    let out := { out with l3Offset := ip % 2 ^ 16 }
    let version := (f.byte ip).toNat / 16
    if version = 4 then
      let ihl := (f.byte ip).toNat % 16 * 4
      if present < 20 ∨ ihl < 20 ∨ present < ihl then (.malformed, out)
      else
        let total := (f.be16 (ip + 2)).toNat
        if total < ihl ∨ limit < total then (.malformed, out)
        else
          let out := { out with
            l3 := .ipv4
            protocol := f.byte (ip + 9)
            src := f.slice (ip + 12) 4
            dst := f.slice (ip + 16) 4 }
          if f.be16 (ip + 6) &&& 0x1fff ≠ 0 then (.fragment, out)
          else
            f.parseL4 ip (min present total) total ihl
              { out with firstFragment := f.be16 (ip + 6) &&& 0x2000 ≠ 0 }
    else if version = 6 then
      if present < 40 then (.malformed, out)
      else
        let total := 40 + (f.be16 (ip + 4)).toNat
        if limit < total then (.malformed, out)
        else
          let available := min present total
          let out := { out with l3 := .ipv6, src := f.slice (ip + 8) 16, dst := f.slice (ip + 24) 16 }
          match f.walkIpv6Chain ip available (kMaxExtensionHeaders + 1) (f.byte (ip + 6)) 40 out with
          | (.ok, off, out) => f.parseL4 ip available total off out
          | (status, _, out) => (status, out)
    else (.malformed, out)

/-- Whether an EtherType is that of a VLAN tag. -/
def isTag (type : BitVec 16) : Bool :=
  type = 0x8100 || type = 0x88a8

/-- The EtherType past at most `tags` VLAN tags, and where it is. -/
def skipTags (f : Frame) : ℕ → ℕ → Option ℕ
  | 0, off => some off
  | tags + 1, off =>
      if isTag (f.be16 off) then
        if f.size < off + 4 + 2 then none else skipTags f tags (off + 4)
      else some off

/-- The general path: up to two VLAN tags, IPv4 with options, IPv6 with extension headers. -/
def parseFrameGeneral (f : Frame) (totalLen : ℕ) : ParseStatus × ParsedFrame :=
  if f.size < 14 then (.malformed, {})
  else
    match f.skipTags 2 12 with
    | none => (.malformed, {})
    | some off =>
        let type := f.be16 off
        let ip := off + 2
        if type ≠ 0x0800 ∧ type ≠ 0x86dd then (.notIp, {})
        else
          let (status, out) := f.parseIp ip (f.size - ip) (totalLen - ip) {}
          -- The EtherType and the IP version may disagree.
          if status = .ok ∧ ¬ (type = 0x0800 ↔ out.l3 = .ipv4) then (.malformed, out)
          else (status, out)

/-- Untagged Ethernet that carries IPv4 without options. -/
def isCommonFrame (f : Frame) : Bool :=
  34 ≤ f.size && f.load16 12 = 0x0008 && f.byte 14 = 0x45

def kFastAcceptBytes : ℕ := 54

/-- The tests that accept an unfragmented TCP or UDP datagram in a common frame. -/
def fastAccepts (f : Frame) (totalLen : ℕ) : Bool :=
  let ip := 14
  let l4 := 34
  let total := (f.be16 (ip + 2)).toNat
  let protocol := f.byte (ip + 9)
  kFastAcceptBytes ≤ f.size && f.load16 (ip + 6) &&& 0xff3f = 0 &&
    (if protocol = 17 then
      8 ≤ (f.be16 (l4 + 4)).toNat && (f.be16 (l4 + 4)).toNat + 20 ≤ total
    else
      protocol = 6 && 0x50 ≤ (f.byte (l4 + 12)).toNat &&
        (f.byte (l4 + 12)).toNat / 16 * 4 + 20 ≤ total) &&
    total + 14 ≤ totalLen

/-- The common frame's checks and fields. A frame that is not accepted at once is checked one
field at a time. -/
def fastFrame (f : Frame) (totalLen : ℕ) : ParseStatus × ParsedFrame :=
  let totalLen := max totalLen f.size
  let ip := 14
  let l4 := 34
  let total := (f.be16 (ip + 2)).toNat
  let protocol := f.byte (ip + 9)
  if f.fastAccepts totalLen then
    (.ok,
      { l3 := .ipv4
        l4 := if protocol = 6 then .tcp else .udp
        protocol := protocol
        tcpFlags := if protocol = 6 then f.byte (l4 + 13) else 0
        l3Offset := 14
        l4Offset := 34
        l4Length := total - 20
        src := f.slice (ip + 12) 4
        dst := f.slice (ip + 16) 4
        srcPort := f.be16 l4
        dstPort := f.be16 (l4 + 2) })
  else if total < 20 ∨ totalLen - 14 < total then (.malformed, { l3Offset := 14 })
  else
    let out : ParsedFrame :=
      { l3Offset := 14
        l3 := .ipv4
        protocol := protocol
        src := f.slice (ip + 12) 4
        dst := f.slice (ip + 16) 4 }
    let frag := f.be16 (ip + 6)
    if frag &&& 0x1fff ≠ 0 then (.fragment, out)
    else
      f.checkL4 l4 (min (f.size - 14) total - 20) (total - 20)
        { out with firstFragment := frag &&& 0x2000 ≠ 0, l4Offset := 34, l4Length := total - 20 }

/-- `ParseFrame`: the common frame first. `totalLen` is the length of the packet, of which the
frame may be the first segment. -/
def parseFrame (f : Frame) (totalLen : ℕ) : ParseStatus × ParsedFrame :=
  if f.isCommonFrame then f.fastFrame totalLen
  else f.parseFrameGeneral (max totalLen f.size)

end Frame

/-! ### Endpoints -/

/-- An address, a port or ICMP identifier, and a protocol. -/
structure Endpoint : Type where
  addr : BitVec 32
  port : BitVec 16
  protocol : BitVec 16
  deriving DecidableEq

inductive Direction : Type where
  | forward
  | reverse
  deriving DecidableEq

inductive Verdict : Type where
  | translated
  | notIpv4
  | unsupported
  | noBinding
  | portZero
  | exhausted
  | full
  | conflict
  deriving DecidableEq

/-- The ICMP queries: echo, timestamp and information, and their replies. -/
def isIcmpQuery (type : BitVec 8) : Bool :=
  type = 0 || type = 8 || type = 13 || type = 14 || type = 15 || type = 16

/-- The endpoint a packet carries: the source going out, the destination coming in. -/
def endpointOf (p : ParsedFrame) (dir : Direction) : Except Verdict Endpoint :=
  if p.l3 ≠ .ipv4 then .error .notIpv4
  else if ¬ (p.l4 = .tcp ∨ p.l4 = .udp) ∧ ¬ (p.l4 = .icmp ∧ isIcmpQuery p.icmpType) then
    .error .unsupported
  else
    let (addr, port) := match dir with
      | .forward => (p.src, p.srcPort)
      | .reverse => (p.dst, p.dstPort)
    .ok ⟨addr 0 ++ addr 1 ++ addr 2 ++ addr 3, port, p.protocol.setWidth 16⟩

/-! ### The rewrite -/

/-- A 16-bit number as it lies in memory in network order. -/
def raw16 (v : BitVec 16) : BitVec 16 :=
  v.extractLsb' 0 8 ++ v.extractLsb' 8 8

def raw32 (v : BitVec 32) : BitVec 32 :=
  raw16 (v.extractLsb' 0 16) ++ raw16 (v.extractLsb' 16 16)

def foldChecksum (sum : BitVec 32) : BitVec 16 :=
  let sum := (sum >>> 16) + (sum &&& 0xffff)
  let sum := sum + (sum >>> 16)
  (~~~sum).setWidth 16

def checksumIncrement32 (before after : BitVec 32) : BitVec 32 :=
  ((~~~before) >>> 16) + (~~~before &&& 0xffff) + ((after >>> 16) + (after &&& 0xffff))

def checksumIncrement16 (before after : BitVec 16) : BitVec 32 :=
  (~~~before).setWidth 32 + after.setWidth 32

def updateChecksumWithIncrement (checksum : BitVec 16) (increment : BitVec 32) : BitVec 16 :=
  foldChecksum ((~~~checksum).setWidth 32 + increment)

def updateChecksum16 (checksum before after : BitVec 16) : BitVec 16 :=
  updateChecksumWithIncrement checksum (checksumIncrement16 before after)

/-- A checksum that is written as 0xffff instead of 0. -/
def nonzeroChecksum (checksum : BitVec 16) : BitVec 16 :=
  if checksum ≠ 0 then checksum else 0xffff

/-- Rewrites the source or destination endpoint of the IPv4 packet at `ip`, whose L4 header is at
`l4`, from `before` to `after`, and updates the checksums incrementally. -/
def rewrite (f : Frame) (ip l4 : ℕ) (dir : Direction) (before after : Endpoint) : Frame :=
  let f := f.store32 (ip + if dir = .forward then 12 else 16) (raw32 after.addr)
  let l3 := checksumIncrement32 (raw32 before.addr) (raw32 after.addr)
  let f := f.store16 (ip + 10) (updateChecksumWithIncrement (f.load16 (ip + 10)) l3)
  let inc := l3 + checksumIncrement16 (raw16 before.port) (raw16 after.port)
  let protocol := f.byte (ip + 9)
  if protocol = 6 ∨ protocol = 17 then
    let f := f.store16 (l4 + if dir = .forward then 0 else 2) (raw16 after.port)
    if protocol = 6 then
      f.store16 (l4 + 16) (updateChecksumWithIncrement (f.load16 (l4 + 16)) inc)
    else if f.load16 (l4 + 6) ≠ 0 then
      f.store16 (l4 + 6) (nonzeroChecksum (updateChecksumWithIncrement (f.load16 (l4 + 6)) inc))
    else f
  else
    let f := f.store16 (l4 + 4) (raw16 after.port)
    f.store16 (l4 + 2) (nonzeroChecksum
      (updateChecksum16 (f.load16 (l4 + 2)) (raw16 before.port) (raw16 after.port)))

end Napt
