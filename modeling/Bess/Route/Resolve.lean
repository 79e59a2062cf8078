import Bess.Foundations.Bits
import Bess.Route.Table6

/-!
# Resolving destinations

The reading half of the router: a destination is looked up in the routes of its domain, the value
found names a next hop or, above the next hops, a group, and a group picks a member by the flow
hash. `ResolveBatch` does this for a batch, the lookups first and then the hops, with a word for
the positions that have one.
-/

namespace Route

open Function List

inductive NeighborState
  | resolved
  | incomplete
  | unreachable
deriving DecidableEq, Repr

inductive NextHopKind
  | forward
  | local
deriving DecidableEq, Repr

/-- `kInvalidInterfaceId`. -/
def kInvalidInterfaceId : BitVec 16 := 0

structure NextHop where
  egress : BitVec 16 := kInvalidInterfaceId
  neighbor : NeighborState := .incomplete
  kind : NextHopKind := .forward
  dstMac : BitVec 48 := 0
  srcMac : BitVec 48 := 0
deriving DecidableEq, Repr

/-- A published next hop: where it is, and what is there. -/
structure HopRef where
  address : ℕ
  hop : NextHop
deriving DecidableEq, Repr

/-- The reading half of `dataplane::SlotTable`. -/
structure SlotTable (α : Type) where
  capacity : ℕ
  slots : ℕ → Option α

/-- `SlotTable::Lookup`. -/
def SlotTable.lookup {α : Type} (table : SlotTable α) (id : ℕ) : Option α :=
  if id = 0 ∨ table.capacity < id then none else table.slots id

/-- `dataplane::RangeSelect`. -/
def rangeSelect (hash : BitVec 32) (n : ℕ) : ℕ :=
  (hash.toNat * n) >>> 32

/-- What `Select` reads of a group. -/
structure NextHopGroup where
  eligibleSize : ℕ
  eligible : ℕ → ℕ

/-- `NextHopGroup::Select`. -/
def NextHopGroup.select (group : NextHopGroup) (flowHash : BitVec 32) : ℕ :=
  group.eligible (rangeSelect flowHash group.eligibleSize)

/-- The tables of a domain. -/
structure Domain where
  table : Option LpmRouteTable
  table6 : Option Ipv6RouteTable

/-- `kMaxBatch`. -/
def kMaxBatch : ℕ := 64

/-- What readers read of a router. `Create` keeps the ids of next hops below `kNoDefault`. -/
structure Router where
  hasIpv4 : Bool
  hasIpv6 : Bool
  nextHops : SlotTable HopRef
  groups : SlotTable NextHopGroup
  domains : SlotTable Domain
  defaultRoutes : Option LpmRouteTable
  capacity_lt : nextHops.capacity < kNoDefault

/-! ### Masks of the route lookups -/

/-- The word `View::LookupBatch` returns, of either family: bit `i` is set where the structure has
the address, everywhere when there is a default value. -/
def lookupMask (default : ℕ) (hits : List Bool) : BitVec 64 :=
  if default ≠ kNoDefault then Bits.first 64 hits.length else Bits.collect 64 hits

/-- `View::LookupBatch` with the word it returns. -/
def Instance.lookupWord (instance_ : Instance) (addrs : List (BitVec 32)) :
    BitVec 64 × List ℕ :=
  let found := addrs.map instance_.lookupOne
  (lookupMask instance_.defaultValue (found.map (·.1)), found.map (·.2))

/-- `Ipv6RouteTable::View::LookupBatch` with the word it returns. -/
def Instance6.lookupWord (instance_ : Instance6) (addrs : List (BitVec 128)) :
    BitVec 64 × List ℕ :=
  let found := addrs.map instance_.lookupOne
  (lookupMask instance_.defaultValue (found.map (·.1)), found.map (·.2))

namespace Router

variable (r : Router) {default i : ℕ}

/-- `TableOf`. -/
def tableOf (domain : ℕ) : Option LpmRouteTable :=
  (r.domains.lookup (domain + 1)).bind (·.table)

/-- `Table6Of`. -/
def table6Of (domain : ℕ) : Option Ipv6RouteTable :=
  (r.domains.lookup (domain + 1)).bind (·.table6)

/-- `max_next_hops_`: the values above it name groups. -/
def maxNextHops : ℕ :=
  r.nextHops.capacity

/-- `MemberOf`. -/
def memberOf (value : ℕ) (flowHash : BitVec 32) : ℕ :=
  match r.groups.lookup (value - r.maxNextHops) with
  | some group => group.select flowHash
  | none => 0

/-- `GroupMemberHop`. -/
def groupMemberHop (value : ℕ) (flowHash : BitVec 32) : Option HopRef :=
  if value ≤ r.maxNextHops ∨ value = kNoDefault then none
  else r.nextHops.lookup (r.memberOf value flowHash)

/-- `HopOf`. -/
def hopOf (id : ℕ) (flowHash : BitVec 32) : Option HopRef :=
  match r.nextHops.lookup id with
  | some hop => some hop
  | none => r.groupMemberHop id flowHash

/-- One position of `HopsOf`: the hop is written, or the bit is cleared. -/
def hopAt (ids : List ℕ) (flowHashes : ℕ → BitVec 32) (i : ℕ)
    (s : BitVec 64 × (ℕ → Option HopRef)) : BitVec 64 × (ℕ → Option HopRef) :=
  match r.hopOf (ids.getD i 0) (flowHashes i) with
  | some hop => (s.1, update s.2 i (some hop))
  | none => (s.1 &&& ~~~(1#64 <<< i), s.2)

/-- `HopsOf`, over the positions of the mask. -/
def hopsOf (mask : BitVec 64) (ids : List ℕ) (flowHashes : ℕ → BitVec 32)
    (hops : ℕ → Option HopRef) : BitVec 64 × (ℕ → Option HopRef) :=
  Bits.visit (r.hopAt ids flowHashes) mask (mask, hops)

/-- `ResolveBatchIn`. -/
def resolveBatchIn (routes : LpmRouteTable) (dst : List (BitVec 32))
    (flowHashes : ℕ → BitVec 32) (hops : ℕ → Option HopRef) :
    BitVec 64 × (ℕ → Option HopRef) :=
  let (mask, ids) := routes.live.lookupWord dst
  r.hopsOf mask ids flowHashes hops

/-- `ResolveBatch` with the packets' flow hashes; the words after the last one are never read. -/
def resolveBatch (domain : ℕ) (dst : List (BitVec 32))
    (flowHashes : List (BitVec 32)) (hops : ℕ → Option HopRef) :
    BitVec 64 × (ℕ → Option HopRef) :=
  match r.tableOf domain with
  | some routes => r.resolveBatchIn routes dst (flowHashes.getD · 0) hops
  | none => (0, hops)

/-- `ResolveBatch` without flow hashes. -/
def resolveBatchPlain (domain : ℕ) (dst : List (BitVec 32))
    (hops : ℕ → Option HopRef) : BitVec 64 × (ℕ → Option HopRef) :=
  match r.tableOf domain with
  | some routes => r.resolveBatchIn routes dst (fun _ => 0) hops
  | none => (0, hops)

/-- `ResolveBatch` in the default domain. -/
def resolveBatchDefault (dst : List (BitVec 32)) (hops : ℕ → Option HopRef) :
    BitVec 64 × (ℕ → Option HopRef) :=
  match r.defaultRoutes with
  | some routes => r.resolveBatchIn routes dst (fun _ => 0) hops
  | none => (0, hops)

/-- `ResolveBatch6`. -/
def resolveBatch6 (domain : ℕ) (dst : List (BitVec 128))
    (flowHashes : List (BitVec 32)) (hops : ℕ → Option HopRef) :
    BitVec 64 × (ℕ → Option HopRef) :=
  match r.table6Of domain with
  | some routes =>
      let (mask, ids) := routes.live.lookupWord dst
      r.hopsOf mask ids (flowHashes.getD · 0) hops
  | none => (0, hops)

/-- `Resolve` of an IPv4 destination. -/
def resolve (domain : ℕ) (dst : BitVec 32) (flowHash : BitVec 32) : Option HopRef :=
  match r.tableOf domain with
  | some routes => r.hopOf (routes.live.lookupOrMiss dst) flowHash
  | none => none

/-- `Resolve` in the default domain. -/
def resolveDefault (dst : BitVec 32) : Option HopRef :=
  match r.defaultRoutes with
  | some routes => r.hopOf (routes.live.lookupOrMiss dst) 0
  | none => none

/-- `Resolve` of an IPv6 destination. -/
def resolve6 (domain : ℕ) (dst : BitVec 128) (flowHash : BitVec 32) : Option HopRef :=
  match r.table6Of domain with
  | some routes => r.hopOf (routes.live.lookupOrMiss dst) flowHash
  | none => none

/-! ### The hops of a batch -/

/-- A batch wrote the hops its positions resolve to: position `i` of the first `n` has its bit set,
and its hop written, exactly when it resolves; every other position is as it was. -/
structure Writes (n : ℕ) (resolved : ℕ → Option HopRef) (hops : ℕ → Option HopRef)
    (result : BitVec 64 × (ℕ → Option HopRef)) : Prop where
  mask : ∀ i, result.1.getLsbD i = (decide (i < n) && (resolved i).isSome)
  written : ∀ i, result.1.getLsbD i = true → result.2 i = resolved i
  untouched : ∀ i, result.1.getLsbD i = false → result.2 i = hops i

theorem hopAt_self (ids : List ℕ) (flowHashes : ℕ → BitVec 32)
    {s : BitVec 64 × (ℕ → Option HopRef)} (hi : s.1.getLsbD i = true) :
  (r.hopAt ids flowHashes i s).1.getLsbD i = (r.hopOf (ids.getD i 0) (flowHashes i)).isSome
    ∧ (r.hopAt ids flowHashes i s).2 i = (r.hopOf (ids.getD i 0) (flowHashes i)).or (s.2 i)
  := by
  rw [hopAt]
  cases r.hopOf (ids.getD i 0) (flowHashes i) with
  | some hop => exact ⟨hi, update_self ..⟩
  | none =>
    simp

theorem hopAt_of_ne (ids : List ℕ) (flowHashes : ℕ → BitVec 32) {j : ℕ}
    (s : BitVec 64 × (ℕ → Option HopRef)) (hij : i ≠ j) :
  (r.hopAt ids flowHashes j s).1.getLsbD i = s.1.getLsbD i
    ∧ (r.hopAt ids flowHashes j s).2 i = s.2 i
  := by
  rw [hopAt]
  cases r.hopOf (ids.getD j 0) (flowHashes j) with
  | some hop => exact ⟨rfl, update_of_ne hij ..⟩
  | none =>
  refine ⟨?_, rfl⟩
  rw [BitVec.getLsbD_and, BitVec.getLsbD_not]
  cases hi : s.1.getLsbD i with
  | false => rfl
  | true =>
  have hlt := BitVec.lt_of_getLsbD hi
  simp only [hlt]
  by_cases hle : i < j
  · simp [hle]
  have hne : i - j ≠ 0 := by omega
  simp [hne]

theorem hopsOf_spec (mask : BitVec 64) (ids : List ℕ) (flowHashes : ℕ → BitVec 32)
    (hops : ℕ → Option HopRef) (i : ℕ) :
  (r.hopsOf mask ids flowHashes hops).1.getLsbD i
      = (mask.getLsbD i && (r.hopOf (ids.getD i 0) (flowHashes i)).isSome)
    ∧ (r.hopsOf mask ids flowHashes hops).2 i
      = if mask.getLsbD i then (r.hopOf (ids.getD i 0) (flowHashes i)).or (hops i) else hops i
  := by
  -- the positions visited have their bit and hop settled, the others are as they were
  have hloop := Bits.visit_induction (s := (mask, hops))
    (fun done s => ∀ i,
      (done i → s.1.getLsbD i = (r.hopOf (ids.getD i 0) (flowHashes i)).isSome
        ∧ s.2 i = (r.hopOf (ids.getD i 0) (flowHashes i)).or (hops i))
      ∧ (¬ done i → s.1.getLsbD i = mask.getLsbD i ∧ s.2 i = hops i))
    (fun i => ⟨False.elim, fun _ => ⟨rfl, rfl⟩⟩) (by
      intro done s j ih hj hnew i
      obtain ⟨hbit, hhop⟩ := (ih j).2 hnew
      by_cases hij : i = j
      · subst hij
        refine ⟨fun _ => ?_, absurd (Or.inr rfl)⟩
        rw [← hhop]
        exact r.hopAt_self ids flowHashes (hbit.trans hj)
      obtain ⟨hsame, hsame'⟩ := r.hopAt_of_ne ids flowHashes s hij
      rw [hsame, hsame']
      refine ⟨fun hdone => (ih i).1 (hdone.resolve_right hij), fun hnot => (ih i).2 ?_⟩
      exact fun hdone => hnot (Or.inl hdone))
  obtain ⟨hdone, hnot⟩ := hloop i
  cases hi : mask.getLsbD i with
  | true => exact hdone hi
  | false =>
  obtain ⟨hbit, hhop⟩ := hnot (ne_true_of_eq_false hi)
  exact ⟨hbit.trans hi, hhop⟩

theorem getLsbD_lookupMask {hits : List Bool} (hlen : hits.length ≤ kMaxBatch) (i : ℕ) :
  (lookupMask default hits).getLsbD i
    = (decide (i < hits.length) && (decide (default ≠ kNoDefault) || hits[i]?.getD false))
  := by
  have hlen' : hits.length ≤ 64 := hlen
  rw [lookupMask]
  by_cases hi : i < hits.length
  case pos =>
    have hlt : i < 64 := hi.trans_le hlen'
    split
    case isTrue hdef =>
      rw [Bits.getLsbD_first hlen', decide_eq_true hi, decide_eq_true hdef]
      rfl
    case isFalse hdef =>
    rw [Bits.getLsbD_collect _ hlt, decide_eq_true hi, decide_eq_false hdef]
    rfl
  case neg =>
  rw [decide_eq_false hi, Bool.false_and]
  split
  case isTrue => rw [Bits.getLsbD_first hlen', decide_eq_false hi]
  case isFalse =>
  by_cases hlt : i < 64
  · rw [Bits.getLsbD_collect _ hlt, getElem?_eq_none (not_lt.mp hi)]
    rfl
  · exact BitVec.getLsbD_of_ge _ _ (not_lt.mp hlt)

/-- A batch whose looked-up values are those of the single lookups, with the default value where
the structure has nothing. -/
theorem writes_hopsOf {α : Type} {one : α → Bool × ℕ} {orMiss : α → ℕ}
    (hone : ∀ a, (one a).2 = orMiss a ∧ ((one a).1 = false → (one a).2 = default)) {dst : List α}
    (fallback : α) (flowHashes : ℕ → BitVec 32) (hops : ℕ → Option HopRef)
    (hlen : dst.length ≤ kMaxBatch) :
  Writes dst.length (fun i => r.hopOf (orMiss (dst.getD i fallback)) (flowHashes i)) hops
    (r.hopsOf (lookupMask default ((dst.map one).map (·.1))) ((dst.map one).map (·.2)) flowHashes
      hops)
  := by
  set mask := lookupMask default ((dst.map one).map (·.1)) with hdef
  have hmask : ∀ i, mask.getLsbD i = (decide (i < dst.length)
      && (decide (default ≠ kNoDefault) || (((dst.map one).map (·.1))[i]?.getD false))) := by
    intro i
    rw [getLsbD_lookupMask (by rwa [length_map, length_map]), length_map, length_map]
  -- a position without its bit has a value that names nothing
  have hbit : ∀ i < dst.length,
      ((dst.map one).map (·.2)).getD i 0 = orMiss (dst.getD i fallback)
        ∧ (mask.getLsbD i = false →
          r.hopOf (orMiss (dst.getD i fallback)) (flowHashes i) = none) := by
    intro i hi
    obtain ⟨hvalue, hmiss⟩ := hone dst[i]
    have hget := getElem?_eq_getElem hi
    rw [getD_eq_getElem?_getD, getD_eq_getElem?_getD, getElem?_map, getElem?_map, hget]
    refine ⟨hvalue, ?_⟩
    intro hclear
    rw [hmask, getElem?_map, getElem?_map, hget, decide_eq_true hi, Bool.true_and,
      Bool.or_eq_false_iff] at hclear
    have hdefault : default = kNoDefault := by simpa using hclear.1
    rw [Option.getD_some, ← hvalue, hmiss hclear.2, hdefault]
    -- a missing value names no hop
    rw [hopOf, SlotTable.lookup, if_pos (Or.inr r.capacity_lt), groupMemberHop, if_pos (Or.inr rfl)]
  have hspec := r.hopsOf_spec mask ((dst.map one).map (·.2)) flowHashes hops
  refine ⟨?_, ?_, ?_⟩
  · intro i
    rw [(hspec i).1]
    by_cases hi : i < dst.length
    · obtain ⟨hvalue, hmiss⟩ := hbit i hi
      rw [hvalue, decide_eq_true hi]
      cases hset : mask.getLsbD i with
      | true => rfl
      | false => rw [hmiss hset]; rfl
    · rw [hmask, decide_eq_false hi, Bool.false_and, Bool.false_and, Bool.false_and]
  · intro i hset
    rw [(hspec i).1, Bool.and_eq_true] at hset
    have hi : i < dst.length := by
      have hset' := hset.1
      rw [hmask, Bool.and_eq_true] at hset'
      exact of_decide_eq_true hset'.1
    obtain ⟨hop, hhop⟩ := Option.isSome_iff_exists.mp hset.2
    rw [(hspec i).2, if_pos hset.1, hhop]
    rw [(hbit i hi).1] at hhop
    exact hhop.symm
  intro i hclear
  rw [(hspec i).1] at hclear
  rw [(hspec i).2]
  split
  case isFalse => rfl
  case isTrue hset =>
  rw [hset, Bool.true_and, Option.isSome_eq_false_iff, Option.isNone_iff_eq_none] at hclear
  rw [hclear, Option.none_or]

/-! ### Single lookups -/

theorem writes_none (n : ℕ) (hops : ℕ → Option HopRef) :
  Writes n (fun _ => none) hops (0, hops)
  where
  mask i := by
    rw [Option.isSome_none, Bool.and_false]
    exact BitVec.getLsbD_zero
  written i hset := by
    change (0#64).getLsbD i = true at hset
    rw [BitVec.getLsbD_zero] at hset
    cases hset
  untouched i _ := rfl

end Router

/-- A position of the batch has the value of the single lookup. -/
theorem Instance.lookupOne_spec (instance_ : Instance) (addr : BitVec 32) :
  (instance_.lookupOne addr).2 = instance_.lookupOrMiss addr
    ∧ ((instance_.lookupOne addr).1 = false →
      (instance_.lookupOne addr).2 = instance_.defaultValue)
  := by
  rw [lookupOne, lookupOrMiss]
  cases instance_.dpdk with
  | none => exact ⟨rfl, fun _ => rfl⟩
  | lpm rules =>
    simp only
    cases LongestMatch.lookup rules addr with
    | some value => exact ⟨rfl, nofun⟩
    | none => exact ⟨rfl, fun _ => rfl⟩
  | fib rules =>
  simp only
  split
  case isTrue => exact ⟨rfl, nofun⟩
  case isFalse => exact ⟨rfl, fun _ => rfl⟩

theorem Instance6.lookupOne_spec (instance_ : Instance6) (addr : BitVec 128) :
  (instance_.lookupOne addr).2 = instance_.lookupOrMiss addr
    ∧ ((instance_.lookupOne addr).1 = false →
      (instance_.lookupOne addr).2 = instance_.defaultValue)
  := by
  rw [lookupOne, lookupOrMiss]
  cases instance_.trie with
  | none => exact ⟨rfl, fun _ => rfl⟩
  | some trie =>
  simp only
  split
  case isTrue => exact ⟨rfl, nofun⟩
  case isFalse => exact ⟨rfl, fun _ => rfl⟩

namespace Router

variable {dst : List (BitVec 32)} (r : Router)

theorem writes_resolveBatchIn (routes : LpmRouteTable) (flowHashes : ℕ → BitVec 32)
    (hops : ℕ → Option HopRef) (hlen : dst.length ≤ kMaxBatch) :
  Writes dst.length
    (fun i => r.hopOf (routes.live.lookupOrMiss (dst.getD i 0)) (flowHashes i)) hops
    (r.resolveBatchIn routes dst flowHashes hops)
  := r.writes_hopsOf routes.live.lookupOne_spec 0 flowHashes hops hlen

/-- `ResolveBatch` resolves each destination as `Resolve` does. -/
theorem writes_resolveBatch (domain : ℕ) (flowHashes : List (BitVec 32)) (hops : ℕ → Option HopRef)
    (hlen : dst.length ≤ kMaxBatch) :
  Writes dst.length (fun i => r.resolve domain (dst.getD i 0) (flowHashes.getD i 0)) hops
    (r.resolveBatch domain dst flowHashes hops)
  := by
  rw [resolveBatch]
  simp only [resolve]
  cases r.tableOf domain with
  | none => exact writes_none _ _
  | some routes => exact r.writes_resolveBatchIn routes _ hops hlen

theorem writes_resolveBatchPlain (domain : ℕ) (hops : ℕ → Option HopRef)
    (hlen : dst.length ≤ kMaxBatch) :
  Writes dst.length (fun i => r.resolve domain (dst.getD i 0) 0) hops
    (r.resolveBatchPlain domain dst hops)
  := by
  rw [resolveBatchPlain]
  simp only [resolve]
  cases r.tableOf domain with
  | none => exact writes_none _ _
  | some routes => exact r.writes_resolveBatchIn routes _ hops hlen

theorem writes_resolveBatchDefault (hops : ℕ → Option HopRef) (hlen : dst.length ≤ kMaxBatch) :
  Writes dst.length (fun i => r.resolveDefault (dst.getD i 0)) hops
    (r.resolveBatchDefault dst hops)
  := by
  rw [resolveBatchDefault]
  simp only [resolveDefault]
  cases r.defaultRoutes with
  | none => exact writes_none _ _
  | some routes => exact r.writes_resolveBatchIn routes _ hops hlen

theorem writes_resolveBatch6 (domain : ℕ) {dst : List (BitVec 128)} (flowHashes : List (BitVec 32))
    (hops : ℕ → Option HopRef) (hlen : dst.length ≤ kMaxBatch) :
  Writes dst.length (fun i => r.resolve6 domain (dst.getD i 0) (flowHashes.getD i 0)) hops
    (r.resolveBatch6 domain dst flowHashes hops)
  := by
  rw [resolveBatch6]
  simp only [resolve6]
  cases r.table6Of domain with
  | none => exact writes_none _ _
  | some routes =>
    exact r.writes_hopsOf routes.live.lookupOne_spec 0 (flowHashes.getD · 0) hops hlen

end Router

end Route
