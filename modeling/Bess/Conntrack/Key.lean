import Bess.Parse.Bounds

/-!
# Connection keys

The key of the connection a packet belongs to (`core/conntrack/conntrack.h`), with both endpoints
in one order, and the key of the packet that an ICMP error quotes. The quote's parse is given twice,
as the parse of a frame is: on frames, and on readable bytes with reads that can fail.
-/

namespace Conntrack

open Napt Option Frame

/-- Sixteen bytes as two words in network order. -/
structure Address : Type where
  hi : BitVec 64
  lo : BitVec 64
  deriving DecidableEq

/-- Eight bytes from `i` on as a word in network order. -/
def wordAt (bytes : ℕ → BitVec 8) (i : ℕ) : BitVec 64 :=
  bytes i ++ bytes (i + 1) ++ bytes (i + 2) ++ bytes (i + 3) ++ bytes (i + 4) ++ bytes (i + 5)
    ++ bytes (i + 6) ++ bytes (i + 7)

def addressOf (bytes : ℕ → BitVec 8) : Address where
  hi := wordAt bytes 0
  lo := wordAt bytes 8

structure CtKey : Type where
  addrA : Address
  addrB : Address
  portA : BitVec 16
  portB : BitVec 16
  protocol : BitVec 8
  family : BitVec 8
  zone : BitVec 16
  deriving DecidableEq

structure CanonicalKey : Type where
  key : CtKey
  srcIsA : Bool
  deriving DecidableEq

/-- The lesser of the endpoints is the key's first. -/
def makeKey (p : ParsedFrame) (zone : BitVec 16) : CanonicalKey :=
  let s := addressOf p.src
  let d := addressOf p.dst
  let srcIsA : Bool := s.hi < d.hi
    ∨ s.hi = d.hi ∧ (s.lo < d.lo ∨ s.lo = d.lo ∧ p.srcPort ≤ p.dstPort)
  { key :=
      { addrA := if srcIsA then s else d
        addrB := if srcIsA then d else s
        portA := if srcIsA then p.srcPort else p.dstPort
        portB := if srcIsA then p.dstPort else p.srcPort
        protocol := p.protocol
        family := if p.l3 = .ipv4 then 4 else 6
        zone := zone }
    srcIsA := srcIsA }

/-- The endpoints of a packet. -/
def ends (p : ParsedFrame) : (Address × BitVec 16) × (Address × BitVec 16) :=
  ((addressOf p.src, p.srcPort), (addressOf p.dst, p.dstPort))

/-- Of the two directions one has the source first, and both only if the endpoints are equal. -/
theorem srcIsA_swap {p q : ParsedFrame} (h : ends p = (ends q).swap) (z w : BitVec 16) :
  (makeKey p z).srcIsA = (makeKey q w).srcIsA ↔ (ends q).1 = (ends q).2
  := by
  simp only [ends, Prod.swap_prod_mk, Prod.mk.injEq] at h
  obtain ⟨⟨hsrc, hsport⟩, hdst, hdport⟩ := h
  simp only [makeKey, ends, hsrc, hsport, hdst, hdport]
  generalize addressOf q.src = s
  generalize addressOf q.dst = d
  cases s
  cases d
  simp only [Prod.mk.injEq, Address.mk.injEq, BitVec.lt_def, BitVec.le_def, ← BitVec.toNat_inj,
    decide_eq_decide]
  omega

/-- Two packets have one key exactly if their zones, families and protocols agree and their
endpoints do, in either order. -/
theorem makeKey_exact (p q : ParsedFrame) (z w : BitVec 16) :
  ((makeKey p z).key = (makeKey q w).key ↔ z = w ∧ (p.l3 = .ipv4 ↔ q.l3 = .ipv4)
      ∧ p.protocol = q.protocol ∧ (ends p = ends q ∨ ends p = (ends q).swap))
    ∧ (ends p = (ends q).swap →
      ((makeKey p z).srcIsA = (makeKey q w).srcIsA ↔ (ends q).1 = (ends q).2))
  := by
  refine ⟨?_, fun h => srcIsA_swap h z w⟩
  have hsame : ends p = ends q → (makeKey p z).srcIsA = (makeKey q w).srcIsA := by
    simp_all [ends, makeKey]
  have hswap := fun h => srcIsA_swap (p := p) (q := q) h z w
  have hkey (p : ParsedFrame) (z : BitVec 16) (b : Bool) (h : (makeKey p z).srcIsA = b) :
      (makeKey p z).key = ⟨if b then addressOf p.src else addressOf p.dst,
        if b then addressOf p.dst else addressOf p.src, if b then p.srcPort else p.dstPort,
        if b then p.dstPort else p.srcPort, p.protocol, if p.l3 = .ipv4 then 4 else 6, z⟩ := by
    rw [← h]
    rfl
  rw [hkey p z _ rfl, hkey q w _ rfl, CtKey.mk.injEq]
  generalize (makeKey p z).srcIsA = b at *
  generalize (makeKey q w).srcIsA = b' at *
  cases b <;> cases b' <;> grind [ends]

/-! ### The packet that an ICMP error quotes -/

/-- The part of a frame from `start` on. -/
def subspan (f : Frame) (start len : ℕ) : Frame :=
  ⟨len, fun i => f.byte (start + i)⟩

/-- The ports of a quoted packet, whose transport is at `off`. Nothing, if they are cut off or the
transport has none. -/
def quotedPorts (q : Frame) (off : ℕ) (out : ParsedFrame) : Option ParsedFrame :=
  if out.protocol = 6 ∨ out.protocol = 17 then
    if q.size < off + 4 then none
    else some { out with srcPort := q.be16 off, dstPort := q.be16 (off + 2) }
  else if out.protocol = 1 ∨ out.protocol = 58 then
    if q.size < off + 8 then none
    else
      let type := q.byte off
      if if out.protocol = 1 then type ≠ 0 ∧ type ≠ 8 else type ≠ 128 ∧ type ≠ 129 then none
      else some { out with srcPort := q.be16 (off + 4), dstPort := q.be16 (off + 4) }
  else some out

def parseQuoted (q : Frame) (v6 : Bool) : Option ParsedFrame :=
  if v6 = false then
    if q.size < 20 ∨ (q.byte 0).toNat / 16 ≠ 4 then none
    else
      let off := (q.byte 0).toNat % 16 * 4
      if off < 20 ∨ q.size < off then none
      else if q.be16 6 &&& 0x1fff ≠ 0 then none
      else
        quotedPorts q off
          { l3 := .ipv4, protocol := q.byte 9, src := q.slice 12 4, dst := q.slice 16 4 }
  else if q.size < 40 ∨ (q.byte 0).toNat / 16 ≠ 6 then none
  else
    match q.walkIpv6Chain 0 q.size (kMaxExtensionHeaders + 1) (q.byte 6) 40
        { l3 := .ipv6 } with
    | (.ok, off, out) => quotedPorts q off { out with src := q.slice 8 16, dst := q.slice 24 16 }
    | _ => none

/-- The key of the packet quoted by the ICMP error `p` in a frame. -/
def quotedKey (f : Frame) (p : ParsedFrame) (zone : BitVec 16) : Option CanonicalKey :=
  let quote := p.l4Offset + 8
  if f.size < quote then none
  else
    let ipEnd := min f.size (p.l4Offset + p.l4Length)
    if ipEnd < quote then none
    else
      match parseQuoted (subspan f quote (ipEnd - quote)) (p.l3 = .ipv6) with
      | none => none
      | some inner => if inner.l3 ≠ p.l3 then none else some (makeKey inner zone)

/-! ### The quote with checked reads -/

/-- A part of the readable bytes, which must be within them. -/
def subspan? (s : Span) (start len : ℕ) : Option Span :=
  if start + len ≤ s.size then some ⟨(s.bytes.drop start).take len⟩ else none

def quotedPorts? (q : Span) (off : ℕ) (out : ParsedFrame) : Option (Option ParsedFrame) :=
  if out.protocol = 6 ∨ out.protocol = 17 then
    if q.size < off + 4 then return none
    else do
      return some { out with srcPort := ← q.be16? off, dstPort := ← q.be16? (off + 2) }
  else if out.protocol = 1 ∨ out.protocol = 58 then
    if q.size < off + 8 then return none
    else do
      let type ← q.byte? off
      if if out.protocol = 1 then type ≠ 0 ∧ type ≠ 8 else type ≠ 128 ∧ type ≠ 129 then return none
      else
        let id ← q.be16? (off + 4)
        return some { out with srcPort := id, dstPort := id }
  else return some out

def parseQuoted? (q : Span) (v6 : Bool) : Option (Option ParsedFrame) :=
  if v6 = false then
    if q.size < 20 then return none
    else do
      let first := (← q.byte? 0).toNat
      if first / 16 ≠ 4 then return none
      else
        let off := first % 16 * 4
        if off < 20 ∨ q.size < off then return none
        else
          let out : ParsedFrame :=
            { l3 := .ipv4
              protocol := ← q.byte? 9
              src := ← q.slice? 12 4
              dst := ← q.slice? 16 4 }
          if (← q.be16? 6) &&& 0x1fff ≠ 0 then return none
          else quotedPorts? q off out
  else if q.size < 40 then return none
  else do
    if (← q.byte? 0).toNat / 16 ≠ 6 then return none
    else
      match ← q.walkIpv6Chain? 0 q.size 10 0 (← q.byte? 6) 40 { l3 := .ipv6 } with
      | (.ok, off, out) =>
          quotedPorts? q off { out with src := ← q.slice? 8 16, dst := ← q.slice? 24 16 }
      | _ => return none

def quotedKey? (s : Span) (p : ParsedFrame) (zone : BitVec 16) : Option (Option CanonicalKey) :=
  let quote := p.l4Offset + 8
  if s.size < quote then return none
  else
    let ipEnd := min s.size (p.l4Offset + p.l4Length)
    if ipEnd < quote then return none
    else do
      match ← parseQuoted? (← subspan? s quote (ipEnd - quote)) (p.l3 = .ipv6) with
      | none => return none
      | some inner => if inner.l3 ≠ p.l3 then return none else return some (makeKey inner zone)

theorem subspan?_eq {f : Frame} {start len : ℕ} (h : start + len ≤ f.size) :
  subspan? f.span start len = some (subspan f start len).span
  := by
  rw [subspan?, span_size, if_pos h, Option.some.injEq, span, span, Span.mk.injEq]
  apply List.ext_getElem?
  intro i
  by_cases hi : i < len
  · rw [List.getElem?_take_of_lt hi, List.getElem?_drop, List.getElem?_ofFn,
      dif_pos (show start + i < f.size by omega), List.getElem?_ofFn,
      dif_pos (show i < (subspan f start len).size from hi)]
    rfl
  rw [List.getElem?_eq_none, List.getElem?_eq_none]
  · rw [List.length_ofFn]
    exact Nat.le_of_not_lt hi
  apply Nat.le_trans (List.length_take_le ..)
  exact Nat.le_of_not_lt hi

theorem quotedPorts?_eq (q : Frame) (off : ℕ) (out : ParsedFrame) :
  quotedPorts? q.span off out = some (quotedPorts q off out)
  := by
  rw [quotedPorts?, quotedPorts, span_size]
  split
  case isTrue =>
    split
    case isTrue => rfl
    case isFalse hfits =>
    rw [be16?_eq (by omega), be16?_eq (by omega)]
    rfl
  case isFalse =>
  split
  case isFalse => rfl
  case isTrue =>
  split
  case isTrue => rfl
  case isFalse hfits =>
  rw [byte?_eq (by omega), be16?_eq (by omega)]
  simp only [bind_eq_bind, bind_some]
  split <;> split <;> rfl

theorem parseQuoted?_eq (q : Frame) (v6 : Bool) :
  parseQuoted? q.span v6 = some (parseQuoted q v6)
  := by
  rw [parseQuoted?, parseQuoted, span_size]
  split
  case isTrue =>
    by_cases hshort : q.size < 20
    · rw [if_pos hshort, if_pos (.inl hshort)]
      rfl
    rw [if_neg hshort, byte?_eq (by omega)]
    simp only [bind_eq_bind, bind_some, hshort, false_or]
    split
    case isTrue => rfl
    case isFalse =>
    split
    case isTrue => rfl
    case isFalse =>
    rw [byte?_eq (by omega), slice?_eq (by omega), slice?_eq (by omega), be16?_eq (by omega)]
    simp only [bind_some]
    split
    case isTrue => rfl
    case isFalse => apply quotedPorts?_eq
  case isFalse =>
  by_cases hshort : q.size < 40
  · rw [if_pos hshort, if_pos (.inl hshort)]
    rfl
  rw [if_neg hshort, byte?_eq (by omega), byte?_eq (by omega)]
  simp only [bind_eq_bind, bind_some, hshort, false_or]
  split
  case isTrue => rfl
  case isFalse =>
  rw [walkIpv6Chain?_eq (by omega) _ _ _ (Nat.zero_le _) (by decide),
    slice?_eq (by omega), slice?_eq (by omega)]
  generalize q.walkIpv6Chain _ _ _ _ _ _ = walked
  obtain ⟨status, off, out⟩ := walked
  cases status
  case ok => apply quotedPorts?_eq
  all_goals rfl

/-- The quote's parse reads the readable bytes only, whatever packet it is taken for. -/
theorem quotedKey?_eq (f : Frame) (p : ParsedFrame) (zone : BitVec 16) :
  quotedKey? f.span p zone = some (quotedKey f p zone)
  := by
  rw [quotedKey?, quotedKey, span_size]
  simp only
  split
  case isTrue => rfl
  case isFalse =>
  split
  case isTrue => rfl
  case isFalse =>
  rw [subspan?_eq (by omega)]
  simp only [bind_eq_bind, bind_some, parseQuoted?_eq]
  cases parseQuoted (subspan f _ _) _
  case none => rfl
  case some inner =>
  simp only
  split <;> rfl

/-! ### What a parse reads and reports -/

theorem span_congr {f g : Frame} (hsize : g.size = f.size)
    (hbyte : ∀ i < f.size, g.byte i = f.byte i) :
  g.span = f.span
  := by
  rw [span, span, Span.mk.injEq]
  apply List.ext_getElem?
  intro i
  rw [List.getElem?_ofFn, List.getElem?_ofFn, hsize]
  split
  case isTrue hi => rw [hbyte i hi]
  case isFalse => rfl

/-- The parse of a frame, of an IP packet and of the packet an ICMP error quotes read the readable
bytes only, so their results depend on nothing else. The walk over extension headers ends. The
bounds reported for an accepted packet are honest. -/
theorem parse_reads_and_bounds (f : Frame) (totalLen : ℕ) :
  f.span.parseFrame? totalLen = some (f.parseFrame totalLen)
    ∧ f.span.parseIpPacket? = some f.parseIpPacket
    ∧ (∀ p zone, quotedKey? f.span p zone = some (quotedKey f p zone))
    ∧ (∀ g : Frame, g.size = f.size → (∀ i < f.size, g.byte i = f.byte i) →
      g.parseFrame totalLen = f.parseFrame totalLen ∧ g.parseIpPacket = f.parseIpPacket
        ∧ ∀ p zone, quotedKey g p zone = quotedKey f p zone)
    ∧ (∀ ip available, ip + available ≤ f.size → ∀ fuel ≥ 10, ∀ next off out,
      f.span.walkIpv6Chain? ip available fuel 0 next off out
        = some (f.walkIpv6Chain ip available (kMaxExtensionHeaders + 1) next off out))
    ∧ ((f.parseFrame totalLen).1 = .ok → ∃ type, f.skipTags 2 12 = some type
      ∧ f.Honest (type + 2) (max totalLen f.size) (f.parseFrame totalLen).2)
    ∧ (f.parseIpPacket.1 = .ok → f.Honest 0 f.size f.parseIpPacket.2)
  := by
  constructor
  · exact f.parseFrame?_eq totalLen
  constructor
  · exact f.parseIpPacket?_eq
  constructor
  · exact quotedKey?_eq f
  constructor
  · intro g hsize hbyte
    have hspan := span_congr hsize hbyte
    constructor
    · apply Option.some.inj
      rw [← g.parseFrame?_eq, ← f.parseFrame?_eq, hspan]
    constructor
    · apply Option.some.inj
      rw [← g.parseIpPacket?_eq, ← f.parseIpPacket?_eq, hspan]
    intro p zone
    apply Option.some.inj
    rw [← quotedKey?_eq, ← quotedKey?_eq, hspan]
  constructor
  · intro ip available hfits fuel hfuel next off out
    apply walkIpv6Chain?_eq hfits next off out (Nat.zero_le _)
    simp only [kMaxExtensionHeaders]
    omega
  exact ⟨parseFrame_honest, parseIp_honest (by omega) (Nat.zero_le _)⟩

theorem parse_reads_and_bounds_paddedDatagram :
  (paddedDatagram.parseFrame 0).1 = .ok
    ∧ ∃ type, paddedDatagram.skipTags 2 12 = some type
      ∧ paddedDatagram.Honest (type + 2) 44 (paddedDatagram.parseFrame 0).2
  := ⟨by decide, (parse_reads_and_bounds paddedDatagram 0).2.2.2.2.2.1 (by decide)⟩

end Conntrack
