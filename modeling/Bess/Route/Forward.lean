import Bess.Napt.Frame
import Bess.Route.Resolve

/-!
# Forwarding frames

`ResolveFrame` parses one frame, checks its family and scope, resolves its destination and settles
what becomes of it. `ResolveFrames` does this for a batch in one domain: frames that reach a lookup
are put aside by family, each family is resolved as one batch, and the results are settled at the
positions the frames came from. Every frame gets the route it gets alone.
-/

open List

namespace Route

open Function

open Napt (Frame ParsedFrame ParseStatus)

inductive ForwardVerdict
  | forward
  | localDelivery
  | notIp
  | malformed
  | nonInitialFragment
  | familyDisabled
  | linkScope
  | noRoute
  | unresolved
  | ttlExpired
  | noEgress
deriving DecidableEq, Repr

inductive L3Family
  | ipv4
  | ipv6
deriving DecidableEq, Repr

inductive FlowHashFields
  | l3l4
  | l3
deriving DecidableEq, Repr

/-- What the frame routes to. -/
structure FrameRoute where
  verdict : ForwardVerdict := .notIp
  family : L3Family := .ipv4
  hop : Option HopRef := none
  egress : BitVec 16 := kInvalidInterfaceId
  l3Offset : ℕ := 0
deriving DecidableEq, Repr

/-- `ParseVerdict`: the route so far, and whether there is a destination to resolve. -/
def parseVerdict (parsed : ParseStatus) (p : ParsedFrame) : FrameRoute × Bool :=
  let out : FrameRoute := if p.l3 = .ipv6 then { family := .ipv6 } else {}
  match parsed with
  | .ok => (out, decide (p.l3 = .ipv4 ∨ p.l3 = .ipv6))
  | .notIp => (out, false)
  | .fragment => ({ out with verdict := .nonInitialFragment }, false)
  | .malformed => ({ out with verdict := .malformed }, false)

/-- `Ipv6Address::IsLinkLocal`. -/
def isLinkLocal (bytes : ℕ → BitVec 8) : Bool :=
  bytes 0 == 0xfe && bytes 1 &&& 0xc0 == 0x80

/-- `Ipv6Address::IsMulticast`. -/
def isMulticast (bytes : ℕ → BitVec 8) : Bool :=
  bytes 0 == 0xff

variable (r : Router) (frames : List (Frame × ℕ))

/-- `Routable`. -/
def routable (p : ParsedFrame) (out : FrameRoute) : FrameRoute × Bool :=
  let enabled := match out.family with
    | .ipv4 => r.hasIpv4
    | .ipv6 => r.hasIpv6
  if !enabled then ({ out with verdict := .familyDisabled }, false)
  else if out.family = .ipv6 ∧ (isLinkLocal p.dst || isMulticast p.dst || isLinkLocal p.src) then
    ({ out with verdict := .linkScope }, false)
  else (out, true)

/-- `FlowHash`. -/
def flowHash (src dst : BitVec 32) (srcPort dstPort : BitVec 16) (protocol : BitVec 8)
    (fields : FlowHashFields) : BitVec 32 :=
  let x : BitVec 64 := src.setWidth 64 <<< 32 ||| dst.setWidth 64
  let x : BitVec 64 := match fields with
    | .l3l4 =>
        x ^^^ (srcPort.setWidth 64 <<< 24 ||| dstPort.setWidth 64 <<< 8 ||| protocol.setWidth 64)
    | .l3 => x
  let x := (x ^^^ x >>> 30) * 0xbf58476d1ce4e5b9#64
  let x := (x ^^^ x >>> 27) * 0x94d049bb133111eb#64
  (x ^^^ x >>> 31).setWidth 32

/-- Word `k` of an address, as the host loads it. -/
def addressWord (bytes : ℕ → BitVec 8) (k : ℕ) : BitVec 32 :=
  bytes (4 * k + 3) ++ bytes (4 * k + 2) ++ bytes (4 * k + 1) ++ bytes (4 * k)

/-- The four words of an address folded. -/
def foldAddress (bytes : ℕ → BitVec 8) : BitVec 32 :=
  addressWord bytes 0 ^^^ addressWord bytes 1 ^^^ addressWord bytes 2 ^^^ addressWord bytes 3

/-- `FrameHash`. -/
def frameHash (p : ParsedFrame) (family : L3Family) (fields : FlowHashFields) : BitVec 32 :=
  match family with
  | .ipv4 =>
      flowHash (addressWord p.src 0) (addressWord p.dst 0) p.srcPort p.dstPort p.protocol fields
  | .ipv6 => flowHash (foldAddress p.src) (foldAddress p.dst) p.srcPort p.dstPort p.protocol fields

/-- The IPv4 destination in host order. -/
def destination4 (p : ParsedFrame) : BitVec 32 :=
  p.dst 0 ++ p.dst 1 ++ p.dst 2 ++ p.dst 3

/-- The IPv6 destination, its first byte the most significant one. -/
def destination6 (p : ParsedFrame) : BitVec 128 :=
  (range 16).foldl (fun addr k => addr <<< 8 ||| (p.dst k).setWidth 128) 0

/-- `Settle`. -/
def settleFrame (hop : Option HopRef) (frame : Frame) (l3Offset : ℕ) (out : FrameRoute) :
    FrameRoute :=
  match hop with
  | none => { out with verdict := .noRoute }
  | some ref =>
      if ref.hop.kind = .local then { out with verdict := .localDelivery }
      else if ref.hop.egress = kInvalidInterfaceId then { out with verdict := .noEgress }
      else
        let out := { out with egress := ref.hop.egress }
        if ref.hop.neighbor ≠ .resolved then { out with verdict := .unresolved }
        else
          let out := { out with l3Offset := l3Offset }
          let ttl := match out.family with
            | .ipv4 => frame.byte (l3Offset + 8)
            | .ipv6 => frame.byte (l3Offset + 7)
          if ttl.toNat ≤ 1 then { out with verdict := .ttlExpired }
          else { out with verdict := .forward, hop := hop }

/-- The parse and the checks of a frame before its lookup: the route so far, and what the parse
found when the frame goes on to one. -/
def examine (frame : Frame) (totalLen : ℕ) : FrameRoute × Option ParsedFrame :=
  let (parsed, p) := frame.parseFrame totalLen
  let (out, resolves) := parseVerdict parsed p
  if resolves then
    let (out, routable) := routable r p out
    (out, if routable then some p else none)
  else (out, none)

/-- `ResolveFrame`. -/
def resolveFrame (domain : ℕ) (frame : Frame) (totalLen : ℕ)
    (fields : FlowHashFields) : FrameRoute :=
  match examine r frame totalLen with
  | (out, none) => out
  | (out, some p) =>
      let hash := frameHash p out.family fields
      let hop := match out.family with
        | .ipv4 => r.resolve domain (destination4 p) hash
        | .ipv6 => r.resolve6 domain (destination6 p) hash
      settleFrame hop frame p.l3Offset out

/-! ### The batch -/

/-- The frames of one family put aside for their lookup. -/
structure Aside (α : Type) where
  dsts : List α := []
  hashes : List (BitVec 32) := []
  positions : List ℕ := []
  offsets : List ℕ := []

/-- One frame more. -/
def Aside.push {α : Type} (b : Aside α) (dst : α) (hash : BitVec 32) (position offset : ℕ) :
    Aside α where
  dsts := b.dsts ++ [dst]
  hashes := b.hashes ++ [hash]
  positions := b.positions ++ [position]
  offsets := b.offsets ++ [offset]

/-- What `ResolveFrames` has of its frames. -/
structure Sorted where
  out : ℕ → FrameRoute
  batch4 : Aside (BitVec 32) := {}
  batch6 : Aside (BitVec 128) := {}

/-- One frame of the first loop. A position is stored in a byte. -/
def sortFrame (fields : FlowHashFields) (s : Sorted) (frame : Frame) (totalLen i : ℕ) : Sorted :=
  match examine r frame totalLen with
  | (out, none) => { s with out := update s.out i out }
  | (out, some p) =>
      let hash := frameHash p out.family fields
      let s := { s with out := update s.out i out }
      match out.family with
      | .ipv4 => { s with batch4 := s.batch4.push (destination4 p) hash (i % 2 ^ 8) p.l3Offset }
      | .ipv6 => { s with batch6 := s.batch6.push (destination6 p) hash (i % 2 ^ 8) p.l3Offset }

/-- The first loop. -/
def sortFrames (fields : FlowHashFields) (frames : List (Frame × ℕ))
    (out : ℕ → FrameRoute) : Sorted :=
  frames.zipIdx.foldl (fun s entry => sortFrame r fields s entry.1.1 entry.1.2 entry.2)
    { out := out }

def frameAt (i : ℕ) : Frame :=
  (frames.getD i (⟨0, fun _ => 0⟩, 0)).1

/-- The loop over the results of a family. -/
def settleBatch {α : Type} (b : Aside α)
    (resolved : BitVec 64 × (ℕ → Option HopRef)) (out : ℕ → FrameRoute) : ℕ → FrameRoute :=
  Bits.scatter b.dsts.length (b.positions.getD · 0) (fun k =>
    settleFrame (if resolved.1.getLsbD k then resolved.2 k else none)
      (frameAt frames (b.positions.getD k 0)) (b.offsets.getD k 0)) out

/-- `ResolveFrames`. The arrays of hops are not set before their batch writes them. -/
def resolveFrames (domain : ℕ) (frames : List (Frame × ℕ)) (fields : FlowHashFields)
    (out : ℕ → FrameRoute) (hops4 hops6 : ℕ → Option HopRef) : ℕ → FrameRoute :=
  let s := sortFrames r fields frames out
  let out := if s.batch4.dsts.length ≠ 0 then
      settleBatch frames s.batch4
        (r.resolveBatch domain s.batch4.dsts s.batch4.hashes hops4) s.out
    else s.out
  if s.batch6.dsts.length ≠ 0 then
    settleBatch frames s.batch6
      (r.resolveBatch6 domain s.batch6.dsts s.batch6.hashes hops6) out
  else out

/-! ### The frames put aside -/

/-- A frame that goes on to a lookup in the table of its family, with its position. -/
def jobOf (family : L3Family) (entry : (Frame × ℕ) × ℕ) : Option (ℕ × ParsedFrame) :=
  match examine r entry.1.1 entry.1.2 with
  | (_, none) => none
  | (out, some p) => if out.family = family then some (entry.2, p) else none

/-- The frames of a family that go on to a lookup, in order. -/
def jobs (r : Router) (family : L3Family) (frames : List (Frame × ℕ)) : List (ℕ × ParsedFrame) :=
  frames.zipIdx.filterMap (jobOf r family)

/-- The arrays of some jobs. -/
def asideOf {α : Type} (destination : ParsedFrame → α) (family : L3Family)
    (fields : FlowHashFields) (jobs : List (ℕ × ParsedFrame)) : Aside α where
  dsts := jobs.map fun job => destination job.2
  hashes := jobs.map fun job => frameHash job.2 family fields
  positions := jobs.map fun job => job.1 % 2 ^ 8
  offsets := jobs.map fun job => job.2.l3Offset

/-- The route of a frame before its lookup. -/
def examined (out : ℕ → FrameRoute) (i : ℕ) : FrameRoute :=
  match frames[i]? with
  | some entry => (examine r entry.1 entry.2).1
  | none => out i

theorem examined_append (entry : Frame × ℕ) (out : ℕ → FrameRoute) :
  examined r (frames ++ [entry]) out
    = update (examined r frames out) frames.length (examine r entry.1 entry.2).1
  := by
  funext i
  rw [examined]
  rcases lt_trichotomy i frames.length with hlt | rfl | hgt
  · rw [update_of_ne hlt.ne, getElem?_append_left hlt]
    rfl
  · rw [update_self, getElem?_concat_length]
  rw [update_of_ne hgt.ne', examined, getElem?_eq_none hgt.le, getElem?_eq_none]
  rw [length_append]
  exact hgt

theorem jobs_append (family : L3Family) (frames : List (Frame × ℕ)) (entry : Frame × ℕ) :
  jobs r family (frames ++ [entry])
    = jobs r family frames ++ (jobOf r family (entry, frames.length)).toList
  := by
  rw [jobs, zipIdx_append, filterMap_append, Nat.zero_add]
  congr 1

/-- The first loop puts each frame aside that goes on to a lookup. -/
theorem sortFrames_eq (fields : FlowHashFields) (frames : List (Frame × ℕ)) (out : ℕ → FrameRoute) :
  sortFrames r fields frames out
    = { out := examined r frames out
        batch4 := asideOf destination4 .ipv4 fields (jobs r .ipv4 frames)
        batch6 := asideOf destination6 .ipv6 fields (jobs r .ipv6 frames) }
  := by
  induction frames using reverseRecOn with
  | nil => rfl
  | append_singleton frames entry ih =>
  have hstep : sortFrames r fields (frames ++ [entry]) out
      = sortFrame r fields (sortFrames r fields frames out) entry.1 entry.2 frames.length := by
    rw [sortFrames, zipIdx_append, foldl_append, Nat.zero_add]
    rfl
  rw [hstep, ih, examined_append, jobs_append, jobs_append, sortFrame, jobOf, jobOf]
  rcases examine r entry.1 entry.2 with ⟨route, _ | p⟩
  · simp only [Option.toList_none, append_nil]
  simp only
  cases route.family with
  | ipv4 | ipv6 =>
  simp only [if_pos, reduceCtorEq, if_neg, Option.toList_some, Option.toList_none,
    append_nil, not_false_eq_true]
  simp [asideOf, Aside.push]

variable {family : L3Family} {frames : List (Frame × ℕ)} {r : Router} {i k : ℕ}
  {hops : ℕ → Option HopRef} {p : ParsedFrame}

theorem mem_jobs_iff :
  (i, p) ∈ jobs r family frames ↔ ∃ entry route, frames[i]? = some entry
    ∧ examine r entry.1 entry.2 = (route, some p) ∧ route.family = family
  := by
  rw [jobs, mem_filterMap]
  constructor
  · rintro ⟨⟨entry, j⟩, hmem, hjob⟩
    rw [jobOf] at hjob
    split at hjob
    case h_1 => cases hjob
    case h_2 route q hexam =>
    obtain ⟨hfam, hjob⟩ | ⟨-, ⟨⟩⟩ := ite_eq_iff.mp hjob
    cases hjob
    exact ⟨entry, route, mem_zipIdx_iff_getElem?.mp hmem, hexam, hfam⟩
  rintro ⟨entry, route, hget, hexam, hfam⟩
  refine ⟨(entry, i), mem_zipIdx_iff_getElem?.mpr hget, ?_⟩
  rw [jobOf, hexam]
  exact if_pos hfam

theorem jobOf_index {entry : (Frame × ℕ) × ℕ} {job : ℕ × ParsedFrame}
    (h : jobOf r family entry = some job) :
  job.1 = entry.2
  := by
  rw [jobOf] at h
  split at h
  case h_1 => cases h
  case h_2 =>
  obtain ⟨_, h⟩ | ⟨-, ⟨⟩⟩ := ite_eq_iff.mp h
  cases h
  rfl

theorem pairwise_jobs (r : Router) (family : L3Family) (frames : List (Frame × ℕ)) :
  (jobs r family frames).Pairwise fun job job' => job.1 < job'.1
  := by
  rw [jobs, pairwise_filterMap]
  have hindex : frames.zipIdx.Pairwise fun entry entry' => entry.2 < entry'.2 := by
    have hrange : (frames.zipIdx.map Prod.snd).Pairwise (· < ·) := by
      rw [zipIdx_map_snd]
      exact pairwise_lt_range'
    exact pairwise_map.mp hrange
  apply hindex.imp
  intro entry entry' hlt job hjob job' hjob'
  rw [jobOf_index hjob, jobOf_index hjob']
  exact hlt

/-! ### The results put back -/

/-- A position of a resolved batch, read as `Settle` is given it. -/
theorem Router.Writes.read {n : ℕ} {resolved : ℕ → Option HopRef}
    {result : BitVec 64 × (ℕ → Option HopRef)} (h : Router.Writes n resolved hops result)
    (hk : k < n) :
  (if result.1.getLsbD k then result.2 k else none) = resolved k
  := by
  split
  case isTrue hset => exact h.written k hset
  case isFalse hclear =>
  have hmask := h.mask k
  rw [decide_eq_true hk, Bool.true_and, eq_false_of_ne_true hclear] at hmask
  exact (Option.not_isSome_iff_eq_none.mp (by rw [← hmask]; nofun)).symm

section SettleBatch

variable {α : Type} {destination : ParsedFrame → α} {fields : FlowHashFields}
  {jobs : List (ℕ × ParsedFrame)} {resolved : BitVec 64 × (ℕ → Option HopRef)}
  {out : ℕ → FrameRoute}

theorem getD_positions (hsmall : ∀ job ∈ jobs, job.1 < 2 ^ 8) (hk : k < jobs.length) :
  (asideOf destination family fields jobs).positions.getD k 0 = jobs[k].1
  := by
  rw [asideOf, getD_eq_getElem?_getD, getElem?_map, getElem?_eq_getElem hk]
  exact Nat.mod_eq_of_lt (hsmall _ (getElem_mem hk))

/-- A frame that was not put aside keeps its route. -/
theorem settleBatch_of_not_mem (hsmall : ∀ job ∈ jobs, job.1 < 2 ^ 8) (hi : ∀ p, (i, p) ∉ jobs) :
  settleBatch frames (asideOf destination family fields jobs) resolved out i = out i
  := by
  apply Bits.scatter_of_ne
  intro k hk heq
  have hk' : k < jobs.length := hk.trans_eq (length_map _)
  rw [getD_positions hsmall hk'] at heq
  apply hi jobs[k].2
  rw [← heq]
  exact getElem_mem hk'

/-- A frame that was put aside is settled with what its destination resolves to. -/
theorem settleBatch_of_mem (hpair : jobs.Pairwise fun job job' => job.1 < job'.1)
    (hsmall : ∀ job ∈ jobs, job.1 < 2 ^ 8) {resolve : α → BitVec 32 → Option HopRef}
    {fallback : α}
    (hwrites : Router.Writes (asideOf destination family fields jobs).dsts.length
      (fun k => resolve ((asideOf destination family fields jobs).dsts.getD k fallback)
        ((asideOf destination family fields jobs).hashes.getD k 0)) hops resolved) (hi : (i, p) ∈ jobs) :
  settleBatch frames (asideOf destination family fields jobs) resolved out i
    = settleFrame (resolve (destination p) (frameHash p family fields)) (frameAt frames i) p.l3Offset
        (out i)
  := by
  obtain ⟨k, hk, hjob⟩ := getElem_of_mem hi
  have hget : jobs[k]? = some (i, p) := by
    rw [getElem?_eq_getElem hk, hjob]
  have hpos : ∀ {k} (hk : k < jobs.length),
      (asideOf destination family fields jobs).positions.getD k 0 = jobs[k].1 :=
    getD_positions hsmall
  have hlen : (asideOf destination family fields jobs).dsts.length = jobs.length := length_map _
  obtain ⟨hdst, hhash, hoff⟩ :
      (asideOf destination family fields jobs).dsts.getD k fallback = destination p
        ∧ (asideOf destination family fields jobs).hashes.getD k 0 = frameHash p family fields
        ∧ (asideOf destination family fields jobs).offsets.getD k 0 = p.l3Offset := by
    simp only [asideOf, getD_eq_getElem?_getD, getElem?_map, hget]
    exact ⟨rfl, rfl, rfl⟩
  generalize asideOf destination family fields jobs = aside at *
  have hinj : ∀ k < aside.dsts.length, ∀ l < aside.dsts.length,
      aside.positions.getD k 0 = aside.positions.getD l 0 → k = l := by
    intro k hk l hl heq
    rw [hlen] at hk hl
    rw [hpos hk, hpos hl] at heq
    rcases lt_trichotomy k l with hlt | heq' | hgt
    · exact absurd heq (pairwise_iff_getElem.mp hpair k l hk hl hlt).ne
    · exact heq'
    · exact absurd heq (pairwise_iff_getElem.mp hpair l k hl hk hgt).ne'
  have hk' : k < aside.dsts.length := hlen.symm ▸ hk
  have hi' : aside.positions.getD k 0 = i := by rw [hpos hk, hjob]
  rw [← hi', settleBatch, Bits.scatter_of_lt hinj hk', hwrites.read hk', hdst, hhash, hoff]

end SettleBatch

/-! ### Batches and single frames -/

theorem resolveFrames_eq (r : Router) (domain : ℕ) (frames : List (Frame × ℕ))
    (fields : FlowHashFields) (out : ℕ → FrameRoute) (hops4 hops6 : ℕ → Option HopRef) :
  resolveFrames r domain frames fields out hops4 hops6
    = settleBatch frames (asideOf destination6 .ipv6 fields (jobs r .ipv6 frames))
        (r.resolveBatch6 domain (asideOf destination6 .ipv6 fields (jobs r .ipv6 frames)).dsts
          (asideOf destination6 .ipv6 fields (jobs r .ipv6 frames)).hashes hops6)
        (settleBatch frames (asideOf destination4 .ipv4 fields (jobs r .ipv4 frames))
          (r.resolveBatch domain (asideOf destination4 .ipv4 fields (jobs r .ipv4 frames)).dsts
            (asideOf destination4 .ipv4 fields (jobs r .ipv4 frames)).hashes hops4)
          (examined r frames out))
  := by
  -- an empty batch has nothing to settle
  have hempty : ∀ {α : Type} (b : Aside α) (resolved : BitVec 64 × (ℕ → Option HopRef))
      (out : ℕ → FrameRoute),
      (if b.dsts.length ≠ 0 then settleBatch frames b resolved out else out)
        = settleBatch frames b resolved out := by
    intro α b resolved out
    split
    case isTrue => rfl
    case isFalse hzero =>
    rw [settleBatch, not_not.mp hzero]
    rfl
  rw [resolveFrames, sortFrames_eq]
  simp only [hempty]

theorem job_lt (hlen : frames.length ≤ kMaxBatch) :
  ∀ job ∈ jobs r family frames, job.1 < 2 ^ 8
  := by
  rintro ⟨i, p⟩ hjob
  obtain ⟨entry, -, hget, -⟩ := mem_jobs_iff.mp hjob
  have hi := (List.getElem?_eq_some_iff.mp hget).1
  have hmax : kMaxBatch = 64 := rfl
  omega

theorem length_dsts_le {α : Type} (r : Router) (destination : ParsedFrame → α) (family : L3Family)
    (fields : FlowHashFields) (hlen : frames.length ≤ kMaxBatch) :
  (asideOf destination family fields (jobs r family frames)).dsts.length ≤ kMaxBatch
  := by
  rw [asideOf, length_map]
  apply (length_filterMap_le _ _).trans
  rw [length_zipIdx]
  exact hlen

/-- A frame of the batch gets the route it gets alone. -/
theorem resolveFrames_alone (r : Router) (domain : ℕ) (fields : FlowHashFields)
    (out : ℕ → FrameRoute) (hops4 hops6 : ℕ → Option HopRef) (hlen : frames.length ≤ kMaxBatch)
    {entry : Frame × ℕ} (hget : frames[i]? = some entry) :
  resolveFrames r domain frames fields out hops4 hops6 i
    = resolveFrame r domain entry.1 entry.2 fields
  := by
  have hframe : frameAt frames i = entry.1 := by
    rw [frameAt, getD_eq_getElem?_getD, hget]
    rfl
  have hexamined : examined r frames out i = (examine r entry.1 entry.2).1 := by
    rw [examined, hget]
  rw [resolveFrames_eq, resolveFrame]
  rcases hexam : examine r entry.1 entry.2 with ⟨route, _ | p⟩
  case none =>
    have hnot : ∀ family p, (i, p) ∉ jobs r family frames := by
      intro family p hjob
      obtain ⟨entry', route', hget', hexam', -⟩ := mem_jobs_iff.mp hjob
      rw [hget] at hget'
      cases hget'
      rw [hexam] at hexam'
      cases hexam'
    rw [settleBatch_of_not_mem (job_lt hlen) (hnot _), settleBatch_of_not_mem (job_lt hlen)
      (hnot _), hexamined, hexam]
  case some =>
  have hjob : (i, p) ∈ jobs r route.family frames :=
    mem_jobs_iff.mpr ⟨entry, route, hget, hexam, rfl⟩
  have hnot : ∀ family, family ≠ route.family → ∀ q, (i, q) ∉ jobs r family frames := by
    intro family hne q hjob'
    obtain ⟨entry', route', hget', hexam', hfam⟩ := mem_jobs_iff.mp hjob'
    rw [hget] at hget'
    cases hget'
    rw [hexam] at hexam'
    cases hexam'
    exact hne hfam.symm
  simp only
  cases hfam : route.family with
  | ipv4 =>
    rw [hfam] at hjob hnot
    have hwrites := r.writes_resolveBatch domain
      (asideOf destination4 .ipv4 fields (jobs r .ipv4 frames)).hashes hops4
      (length_dsts_le r destination4 .ipv4 fields hlen)
    rw [settleBatch_of_not_mem (job_lt hlen) (hnot .ipv6 nofun),
      settleBatch_of_mem (pairwise_jobs r .ipv4 frames) (job_lt hlen) hwrites hjob, hframe,
      hexamined, hexam]
  | ipv6 =>
  rw [hfam] at hjob hnot
  have hwrites := r.writes_resolveBatch6 domain
    (asideOf destination6 .ipv6 fields (jobs r .ipv6 frames)).hashes hops6
    (length_dsts_le r destination6 .ipv6 fields hlen)
  rw [settleBatch_of_mem (pairwise_jobs r .ipv6 frames) (job_lt hlen) hwrites hjob,
    settleBatch_of_not_mem (job_lt hlen) (hnot .ipv4 nofun), hframe, hexamined, hexam]

theorem resolveFrames_beyond (r : Router) (domain : ℕ) (fields : FlowHashFields) (out : ℕ → FrameRoute)
    (hops4 hops6 : ℕ → Option HopRef) (hlen : frames.length ≤ kMaxBatch) (hi : frames.length ≤ i) :
  resolveFrames r domain frames fields out hops4 hops6 i = out i
  := by
  have hget := getElem?_eq_none hi
  have hnot : ∀ family p, (i, p) ∉ jobs r family frames := by
    intro family p hjob
    obtain ⟨entry, route, hget', -⟩ := mem_jobs_iff.mp hjob
    rw [hget] at hget'
    cases hget'
  rw [resolveFrames_eq, settleBatch_of_not_mem (job_lt hlen) (hnot _),
    settleBatch_of_not_mem (job_lt hlen) (hnot _), examined, hget]

/-- Batches resolve as their entries alone: `ResolveFrames` gives each frame the route
`ResolveFrame` gives it, and the batches of destinations, of both families, with flow hashes or
without, set the bits and write the hops that `Resolve` finds, and nothing else. -/
theorem batches_resolve_alone (r : Router) (domain : ℕ) :
  (∀ (frames : List (Frame × ℕ)) (fields : FlowHashFields) (out : ℕ → FrameRoute)
      (hops4 hops6 : ℕ → Option HopRef), frames.length ≤ kMaxBatch →
      (∀ i entry, frames[i]? = some entry →
        resolveFrames r domain frames fields out hops4 hops6 i
          = resolveFrame r domain entry.1 entry.2 fields)
      ∧ ∀ i, frames.length ≤ i → resolveFrames r domain frames fields out hops4 hops6 i = out i)
    ∧ (∀ (dst flowHashes : List (BitVec 32)) (hops : ℕ → Option HopRef),
        dst.length ≤ kMaxBatch →
        Router.Writes dst.length
            (fun i => r.resolve domain (dst.getD i 0) (flowHashes.getD i 0)) hops
            (r.resolveBatch domain dst flowHashes hops)
          ∧ Router.Writes dst.length (fun i => r.resolve domain (dst.getD i 0) 0) hops
            (r.resolveBatchPlain domain dst hops)
          ∧ Router.Writes dst.length (fun i => r.resolveDefault (dst.getD i 0)) hops
            (r.resolveBatchDefault dst hops))
    ∧ ∀ (dst : List (BitVec 128)) (flowHashes : List (BitVec 32)) (hops : ℕ → Option HopRef),
        dst.length ≤ kMaxBatch →
        Router.Writes dst.length
          (fun i => r.resolve6 domain (dst.getD i 0) (flowHashes.getD i 0)) hops
          (r.resolveBatch6 domain dst flowHashes hops)
  := by
  refine ⟨?_, ?_, ?_⟩
  · intro frames fields out hops4 hops6 hlen
    constructor
    · intro i entry hget
      exact resolveFrames_alone r domain fields out hops4 hops6 hlen hget
    intro i hi
    exact resolveFrames_beyond r domain fields out hops4 hops6 hlen hi
  · intro dst flowHashes hops hlen
    exact ⟨r.writes_resolveBatch domain flowHashes hops hlen,
      r.writes_resolveBatchPlain domain hops hlen, r.writes_resolveBatchDefault hops hlen⟩
  intro dst flowHashes hops hlen
  exact r.writes_resolveBatch6 domain flowHashes hops hlen

/-- A router whose default routes name the group of its second next hop. -/
def groupRouter : Router where
  hasIpv4 := true
  hasIpv6 := true
  nextHops := ⟨2, fun id => some ⟨id, {}⟩⟩
  groups := ⟨1, fun _ => some ⟨1, fun _ => 2⟩⟩
  domains := ⟨1, fun _ => some ⟨some { LpmRouteTable.create {} with live := ⟨.none, 3⟩ },
    (Ipv6RouteTable.create {}).toOption.map ({ · with live := ⟨0, none, 3, 0⟩ })⟩⟩
  defaultRoutes := none
  capacity_lt := by decide

/-- A datagram of each family. -/
def mixedFrames : List (Frame × ℕ) :=
  [(⟨42, fun i => ([(12, 8), (14, 0x45), (17, 28), (22, 64), (23, 17), (39, 8)].lookup i).getD 0⟩, 42),
    (⟨62, fun i => ([(12, 0x86), (13, 0xdd), (14, 0x60), (19, 8), (20, 17), (21, 64),
      (59, 8)].lookup i).getD 0⟩, 62)]

theorem batches_resolve_alone_group :
  groupRouter.resolve 0 6 9 = some ⟨2, {}⟩
    ∧ Router.Writes 2 (fun i => groupRouter.resolve 0 ([5, 6].getD i 0) ([8, 9].getD i 0))
      (fun _ => none) (groupRouter.resolveBatch 0 [5, 6] [8, 9] fun _ => none)
    ∧ mixedFrames.map (fun entry => (resolveFrame groupRouter 0 entry.1 entry.2 .l3l4).family)
      = [.ipv4, .ipv6]
    ∧ mixedFrames.map (fun entry => (resolveFrame groupRouter 0 entry.1 entry.2 .l3l4).verdict)
      = [.noEgress, .noEgress]
    ∧ ∀ i entry, mixedFrames[i]? = some entry →
      resolveFrames groupRouter 0 mixedFrames .l3l4 (fun _ => {}) (fun _ => none) (fun _ => none) i
        = resolveFrame groupRouter 0 entry.1 entry.2 .l3l4
  := by
  obtain ⟨hframes, hbatches, -⟩ := batches_resolve_alone groupRouter 0
  refine ⟨by decide, (hbatches [5, 6] [8, 9] (fun _ => none) (by decide)).1, by decide +kernel,
    by decide +kernel, ?_⟩
  exact (hframes mixedFrames .l3l4 (fun _ => {}) (fun _ => none) (fun _ => none) (by decide)).1

end Route
