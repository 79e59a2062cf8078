import Bess.Expiry.Threaded
import Bess.Flow.Table
import Bess.Napt.Frame
import Bess.Napt.Ports

/-!
# The NAT engine

`BasicNat` of `core/nat/nat.h` over `OwnedStore`: the NAT that one worker owns, fixed or growable,
with or without usage counters. Its lock excludes nobody, and the fields that a NAT without growth
or without counters does not have are not used by it.

A pointer to a binding is the table the binding is in and the handle of its slot. `Random` is its
64-bit seed. The hash of the flow table and the CRC that picks an external address are parameters.
The records of a usage log have no initial value that is ever read.
-/

namespace Napt

open Flow Expiry

/-! ### Configuration -/

/-- The ports from `first` up to but not including `bound`. -/
structure PortRange : Type where
  first : ℕ
  bound : ℕ
  suspended : Bool
  deriving DecidableEq

structure ExternalAddress : Type where
  addr : BitVec 32
  ranges : List PortRange

/-- `OwnedStore` with the functions of the platform. -/
structure OwnedStore : Type where
  kGrowable : Bool
  kUsage : Bool
  hash : Endpoint → BitVec 64
  crc : BitVec 32 → BitVec 32

/-- `BindingTraits`: one alias, the external endpoint. -/
def OwnedStore.traits (S : OwnedStore) : FlowTableTraits Endpoint :=
  ⟨1, .lifo, S.hash, oneAlias_le⟩

structure NatConfig : Type where
  addresses : List ExternalAddress
  capacity : ℕ
  maxCapacity : ℕ
  timeout : BitVec 64
  granularityShift : ℕ
  start : BitVec 64
  seed : BitVec 64
  usageLog : ℕ

inductive NatCreateError : Type where
  | noAddresses
  | badRange
  | outOfMemory
  | invalidCapacity
  deriving DecidableEq

/-- The ticks and levels of the NAT's wheel. -/
def wheelShape : Shape :=
  ⟨64, 6, 6, Shape.one_le_six, by decide, Shape.one_le_six, by decide⟩

abbrev Time : Type := wheelShape.Tick

/-- What a timer is for: a fixed NAT's is for the handle of a binding, a growable one's for its
internal endpoint. -/
inductive WheelKey : Type where
  | handle (h : FlowHandle)
  | endpoint (e : Endpoint)
  deriving DecidableEq

instance : Inhabited WheelKey := ⟨.handle kNoFlow⟩

/-! ### Bindings and usage records -/

/-- `Binding` and the counters of `CountedBinding`. -/
structure Binding : Type where
  internal : Endpoint
  external : Endpoint
  addressIndex : ℕ
  lastRefresh : Time
  timer : ExpiryHandle
  packets : BitVec 64
  bytes : BitVec 64
  deriving DecidableEq

def Binding.make (internal external : Endpoint) (addressIndex : ℕ) (now : Time) : Binding :=
  ⟨internal, external, addressIndex, now, kNoExpiry, 0, 0⟩

/-- The side of a binding that packets of a direction carry. -/
def Binding.side (b : Binding) : Direction → Endpoint
  | .forward => b.internal
  | .reverse => b.external

structure UsageRecord : Type where
  internal : Endpoint
  external : Endpoint
  packets : BitVec 64
  bytes : BitVec 64
  lastRefresh : Time
  final : Bool
  deriving DecidableEq

/-- A bounded ring of records. -/
structure UsageLog : Type where
  mask : ℕ
  slots : ℕ → Option UsageRecord
  head : BitVec 64
  tail : BitVec 64

namespace UsageLog

/-- The least power of two that is at least `n`. -/
def bitCeil (n : ℕ) : ℕ :=
  if n ≤ 1 then 1 else 2 ^ (Nat.log2 (n - 1) + 1)

def create (capacity : ℕ) : UsageLog :=
  ⟨bitCeil (max capacity 2) - 1, fun _ => none, 0, 0⟩

def push (log : UsageLog) (r : UsageRecord) : Option UsageLog :=
  if log.mask < (log.tail - log.head).toNat then none
  else
    some { log with
      slots := Function.update log.slots (log.tail.toNat &&& log.mask) (some r)
      tail := log.tail + 1 }

def free (log : UsageLog) : ℕ :=
  log.mask + 1 - (log.tail - log.head).toNat

def pop (log : UsageLog) : Option (UsageRecord × UsageLog) :=
  if log.head = log.tail then none
  else (log.slots (log.head.toNat &&& log.mask)).map fun r => (r, { log with head := log.head + 1 })

end UsageLog

/-! ### The engine -/

structure BasicNat : Type where
  addresses : List ExternalAddress
  timeout : Time
  table : WorkerFlowTable Endpoint Binding
  wheel : Wheel wheelShape WheelKey
  ports : PortPool
  rng : BitVec 64
  maxCapacity : ℕ
  /-- The table being moved from, and its next slot to move. -/
  old : Option (WorkerFlowTable Endpoint Binding)
  cursor : ℕ
  log : UsageLog
  reportRequested : Bool
  reportsDone : ℕ
  cursorReport : ℕ
  /-- Where the current table lies in memory, and the table the current walk is on. -/
  tableAt : ℕ
  reportTable : Option ℕ

/-- A pointer to a binding. -/
structure BindingRef : Type where
  inOld : Bool
  handle : FlowHandle
  deriving DecidableEq

namespace BasicNat

variable (S : OwnedStore)

def addrAt (addresses : List ExternalAddress) (i : ℕ) : BitVec 32 :=
  (addresses.map ExternalAddress.addr).getD i 0

/-- `pool_of_`: two entries for one address share a bitmap. -/
def poolsOf (addresses : List ExternalAddress) : List ℕ :=
  (List.range addresses.length).foldl
    (fun pools i => pools ++
      [match (List.range i).find? fun j => addrAt addresses j = addrAt addresses i with
      | some j => pools.getD j 0
      | none => i])
    []

variable (n : BasicNat)

def poolOf (a : ℕ) : ℕ :=
  (poolsOf n.addresses).getD a 0

def create (config : NatConfig) : Except NatCreateError BasicNat :=
  if config.addresses = [] then .error .noAddresses
  else if config.addresses.any fun a =>
      a.ranges.any fun r => r.bound ≤ r.first || 65536 < r.bound then .error .badRange
  else
    match WorkerFlowTable.create S.traits config.capacity with
    | none => .error .invalidCapacity
    | some table =>
        if S.kGrowable = false ∧ config.capacity < config.maxCapacity then .error .invalidCapacity
        else
          let most := max config.capacity config.maxCapacity
          match Wheel.create wheelShape most config.start config.granularityShift with
          | .error _ => .error .outOfMemory
          | .ok wheel =>
              .ok
                { addresses := config.addresses
                  timeout := config.timeout
                  table := table
                  wheel := wheel
                  ports := .empty
                  rng := config.seed
                  maxCapacity := most
                  old := none
                  cursor := 0
                  log := .create config.usageLog
                  reportRequested := false
                  reportsDone := 0
                  cursorReport := 0
                  tableAt := 0
                  reportTable := none }

/-! ### Lookups -/

/-- The binding a key names in one table. -/
def findIn (t : WorkerFlowTable Endpoint Binding) (inOld : Bool) (e : Endpoint) :
    Option BindingRef :=
  let r := t.findRef S.traits e
  r.state.map fun _ => ⟨inOld, r.handle⟩

/-- `FindAny`: the current table first, then the old one. -/
def findAny (e : Endpoint) : Option BindingRef :=
  (findIn S n.table false e).or (n.old.bind fun old => findIn S old true e)

def deref (r : BindingRef) : Option Binding :=
  if r.inOld then n.old.bind fun old => old.lookup r.handle else n.table.lookup r.handle

/-- A write through a pointer. -/
def write (r : BindingRef) (f : Binding → Binding) : BasicNat :=
  if r.inOld then { n with old := n.old.map fun old => old.modify r.handle f }
  else { n with table := n.table.modify r.handle f }

/-- `Find` -/
def find (e : Endpoint) : Option Binding :=
  (n.findAny S e).bind n.deref

/-! ### Creating a binding -/

/-- `Wheel::After` -/
def after (now timeout : Time) : Time :=
  now + if wheelShape.kMaxTimeout < timeout then wheelShape.kMaxTimeout else timeout

def pickAddress (internal : BitVec 32) : ℕ :=
  (S.crc internal).toNat % n.addresses.length

/-- The span of external ports that a mapping may use in a range. -/
def portSpan (range : PortRange) (protocol port : BitVec 16) : ℕ × ℕ :=
  if protocol ≠ 6 ∧ protocol ≠ 17 then (range.first, range.bound)
  else if port.toNat < 1024 then (max 1 range.first, min 1024 range.bound)
  else (max 1024 range.first, range.bound)

/-- `Random::Get` -/
def random (seed : BitVec 64) : BitVec 64 × BitVec 32 :=
  let seed := seed * 1103515245 + 12345
  (seed, (seed >>> 32).setWidth 32)

def wheelFull : Bool :=
  n.wheel.freeHead = kNil

/-- The timer of a new binding. A wheel that refuses it undoes the binding. -/
def arm (internal external : Endpoint) (a : ℕ) (now : Time) (handle : FlowHandle) :
    BasicNat × Except Verdict BindingRef :=
  let key := if S.kGrowable then .endpoint internal else .handle handle
  let (wheel, timer) := n.wheel.schedule (after now n.timeout) key
  if timer = kNoExpiry then
    ({ n with
        wheel := wheel
        ports := n.ports.release (n.poolOf a) internal.protocol external.port.toNat
        table := (n.table.eraseHandle S.traits handle).1 },
      .error .full)
  else
    ({ n with
        wheel := wheel
        table := n.table.modify handle fun b => { b with timer := timer } },
      .ok ⟨false, handle⟩)

/-- The loop of `BindLocked` over the ranges of the external address. -/
def bindRanges (internal : Endpoint) (now : Time) (a : ℕ) :
    BasicNat → List PortRange → BasicNat × Except Verdict BindingRef
  | n, [] => (n, .error .exhausted)
  | n, range :: ranges =>
      if range.suspended then bindRanges internal now a n ranges
      else
        let (lo, hi) := portSpan range internal.protocol internal.port
        let (seed, start) := random n.rng
        let n := { n with rng := seed }
        match n.ports.allocate (n.poolOf a) internal.protocol lo hi start with
        | none => bindRanges internal now a n ranges
        | some (port, ports) =>
            let external : Endpoint :=
              ⟨addrAt n.addresses a, BitVec.ofNat 16 port, internal.protocol⟩
            let released := ports.release (n.poolOf a) internal.protocol port
            if (n.old.bind fun old => findIn S old true external).isSome then
              ({ n with ports := released }, .error .conflict)
            else
              let (table, made) := n.table.createImpl S.traits internal (some external)
                (.make internal external a now)
              if made.status ≠ .created then
                ({ n with ports := released },
                  .error (if made.status = .full then .full else .conflict))
              else
                arm S { n with ports := ports, table := table } internal external a now made.handle

def oldSize : ℕ :=
  (n.old.map WorkerFlowTable.size).getD 0

/-- `BindLocked` -/
def bindLocked (internal : Endpoint) (now : Time) : BasicNat × Except Verdict BindingRef :=
  if n.wheelFull ∨ n.table.full then (n, .error .full)
  else if S.kGrowable ∧ n.table.capacity ≤ n.table.size + n.oldSize then (n, .error .full)
  else
    match n.old.bind fun old => findIn S old true internal with
    | some r =>
        -- While the table grows, the old table is part of the key space.
        if (n.deref r).map Binding.internal = some internal then (n, .ok r)
        else (n, .error .conflict)
    | none =>
        let a := n.pickAddress S internal.addr
        bindRanges S internal now a n ((n.addresses.map ExternalAddress.ranges).getD a [])

def bind (internal : Endpoint) (now : Time) : BasicNat × Except Verdict BindingRef :=
  if (internal.protocol = 6 ∨ internal.protocol = 17) ∧ internal.port = 0 then
    (n, .error .portZero)
  else n.bindLocked S internal now

/-! ### Translation -/

/-- Counts a packet of `bytes` IP bytes. -/
def countPacket (bytes : BitVec 16) (b : Binding) : Binding :=
  if S.kUsage then { b with packets := b.packets + 1, bytes := b.bytes + bytes.setWidth 64 } else b

/-- The end of `Finish`: the packet is counted and rewritten. -/
def carry (f : Frame) (p : ParsedFrame) (dir : Direction) (before : Endpoint)
    (r : BindingRef) : BasicNat × Frame × Verdict :=
  match n.deref r with
  | none => (n, f, .translated)
  | some b =>
      (n.write r (countPacket S (f.be16 (p.l3Offset + 2))),
        rewrite f p.l3Offset p.l4Offset dir before
          (if dir = .forward then b.external else b.internal),
        .translated)

/-- `Finish`: the rest of a translation, once the endpoint has been looked up. A key that is the
other side of a mapping belongs to another mapping. -/
def finish (f : Frame) (p : ParsedFrame) (dir : Direction) (now : Time)
    (before : Endpoint) (found : Option BindingRef) : BasicNat × Frame × Verdict :=
  let own := found.filter fun r => (n.deref r).map (Binding.side · dir) = some before
  match dir, found, own with
  | .forward, some _, none => (n, f, .conflict)
  | .forward, _, some r =>
      carry S (n.write r fun b => { b with lastRefresh := now }) f p .forward before r
  | .forward, none, none =>
      match n.bind S before now with
      | (n, .error verdict) => (n, f, verdict)
      | (n, .ok r) => carry S n f p .forward before r
  | .reverse, _, none => (n, f, .noBinding)
  | .reverse, _, some r => carry S n f p .reverse before r

def translate (f : Frame) (p : ParsedFrame) (dir : Direction) (now : Time) :
    BasicNat × Frame × Verdict :=
  match endpointOf p dir with
  | .error why => (n, f, why)
  | .ok before => n.finish S f p dir now before (n.findAny S before)

/-- A packet of a batch: its bytes, and its parse unless that failed. -/
structure Packet : Type where
  frame : Frame
  parsed : Option ParsedFrame

/-- What the first loop of `TranslateBatch` finds out about a packet: the verdict, or the endpoint
and what the batch of lookups in the current table found for it. -/
def lookupFirst (dir : Direction) (packet : Packet) :
    Except Verdict (ParsedFrame × Endpoint × Option BindingRef) :=
  match packet.parsed with
  | none => .error .unsupported
  | some p => (endpointOf p dir).map fun e => (p, e, findIn S n.table false e)

/-- The second loop: each packet is finished in order, and a miss is looked up again. -/
def finishAll (dir : Direction) (now : Time) :
    BasicNat → List (Frame × Except Verdict (ParsedFrame × Endpoint × Option BindingRef)) →
      BasicNat × List (Frame × Verdict)
  | n, [] => (n, [])
  | n, (f, .error why) :: rest =>
      let (n, done) := finishAll dir now n rest
      (n, (f, why) :: done)
  | n, (f, .ok (p, e, found)) :: rest =>
      let (n, f, verdict) := n.finish S f p dir now e (found.or (n.findAny S e))
      let (n, done) := finishAll dir now n rest
      (n, (f, verdict) :: done)

def translateBatch (packets : List Packet) (dir : Direction) (now : Time) :
    BasicNat × List (Frame × Verdict) :=
  finishAll S dir now n (packets.map fun packet => (packet.frame, n.lookupFirst S dir packet))

/-! ### Usage records -/

/-- `Log`: a record for `b`, and for its other copy `o`, whose counts add. -/
def logUsage (b : Binding) (o : Option Binding) (final : Bool) : Option BasicNat :=
  if S.kUsage then
    let packets := b.packets + (o.map Binding.packets).getD 0
    let bytes := b.bytes + (o.map Binding.bytes).getD 0
    (n.log.push ⟨b.internal, b.external, packets, bytes, b.lastRefresh, final⟩).map fun log =>
      { n with log := log }
  else some n

def kReportSlots : ℕ := 64

/-- The live bindings of `count` slots of a table from `first` on. -/
def visited (t : WorkerFlowTable Endpoint Binding) (first count : ℕ) : List Binding :=
  (List.range' first (min t.capacity (first + count) - first)).filterMap fun s =>
    if (t.slots s).live then (t.slots s).state else none

def requestReport : BasicNat :=
  { n with reportRequested := true }

/-- Continues a requested report over the next slots, if the log has room for them. -/
def reportSome (slots : ℕ) : BasicNat :=
  if S.kUsage = false ∨ n.reportRequested = false ∨ n.old.isSome ∨ n.log.free < slots then n
  else
    -- After a growth the slots mean other bindings: start over.
    let n :=
      if n.reportTable ≠ some n.tableAt then
        { n with reportTable := some n.tableAt, cursorReport := 0 }
      else n
    let logged := (visited n.table n.cursorReport slots).foldl
      (fun n b => (n.logUsage S b none false).getD n) n
    let cursor := min n.table.capacity (n.cursorReport + slots)
    if n.table.capacity ≤ cursor then
      { logged with
        cursorReport := 0
        reportTable := none
        reportRequested := false
        reportsDone := n.reportsDone + 1 }
    else { logged with cursorReport := cursor }

/-- Up to `max` records, oldest first. -/
def drainUsage : BasicNat → ℕ → BasicNat × List UsageRecord
  | n, 0 => (n, [])
  | n, max + 1 =>
      match n.log.pop with
      | none => (n, [])
      | some (r, log) =>
          let (n, records) := drainUsage { n with log := log } max
          (n, r :: records)

/-! ### Expiry -/

def kLogRetry : Time := 2 ^ 24

/-- The later of the last packets of a binding and its other copy. -/
def lastOf (b : Binding) : Option Binding → Time
  | none => b.lastRefresh
  | some o => if 0 < diff o.lastRefresh b.lastRefresh then o.lastRefresh else b.lastRefresh

/-- Ends a binding that is due, unless the log refuses its final record: whether a binding was
removed, and the new deadline of the timer. -/
def endBinding (b : Binding) (o : Option Binding) (now : Time)
    (remove : BasicNat → BasicNat × Bool) : BasicNat × Bool × Option Time :=
  -- A packet after the deadline was set: wait for the new one.
  let due := after (lastOf b o) n.timeout
  if 0 < diff due now then (n, false, some due)
  else
    match n.logUsage S b o true with
    | none => (n, false, some (now + kLogRetry))
    | some n =>
        let n := { n with
          ports := n.ports.release (n.poolOf b.addressIndex) b.external.protocol
            b.external.port.toNat }
        let (n, erased) := remove n
        (n, erased, none)

def eraseByHandle (h : FlowHandle) (n : BasicNat) : BasicNat × Bool :=
  let (table, erased) := n.table.eraseHandle S.traits h
  ({ n with table := table }, erased)

def eraseByKey (e : Endpoint) (n : BasicNat) : BasicNat × Bool :=
  let (table, erased) := n.table.erase S.traits e
  let old := n.old.map fun old => old.erase S.traits e
  ({ n with table := table, old := old.map Prod.fst }, erased || (old.map Prod.snd).getD false)

/-- The callback of `Expire`. -/
def expireKey (now : Time) : WheelKey → BasicNat × Bool × Option Time
  | .handle h =>
      match n.table.lookup h with
      | none => (n, false, none)
      | some b => n.endBinding S b none now (eraseByHandle S h)
  | .endpoint e =>
      let o := n.old.bind fun old => old.find S.traits e
      match n.table.find S.traits e, o with
      | some b, o => n.endBinding S b o now (eraseByKey S e)
      | none, some b => n.endBinding S b none now (eraseByKey S e)
      | none, none => (n, false, none)

/-- The callback, with the count of the bindings removed. -/
def onTimer (now : Time) (state : BasicNat × ℕ) (key : WheelKey) :
    (BasicNat × ℕ) × Option Time :=
  let (n, erased, again) := state.1.expireKey S now key
  ((n, state.2 + if erased then 1 else 0), again)

/-- The poll of `Expire`. -/
def expirePoll (now : Time) (budget fuel : ℕ) :
    Option (Wheel.Progress wheelShape WheelKey × BasicNat × ℕ) :=
  let n := n.reportSome S kReportSlots
  n.wheel.pollWith now budget (onTimer S now) fuel (n, 0)

/-- `Expire`, and how many bindings it removed. -/
def expire (now : Time) (budget fuel : ℕ) : Option (BasicNat × ℕ) :=
  (n.expirePoll S now budget fuel).map fun (r, n, removed) => ({ n with wheel := r.wheel }, removed)

/-! ### Growth -/

/-- The owner takes over a table that `NewTable` made for `capacity` bindings at `place`. -/
def adopt (capacity place : ℕ) : BasicNat :=
  match WorkerFlowTable.create S.traits capacity with
  | none => n
  | some bigger =>
      if n.old.isSome ∨ bigger.capacity ≤ n.table.capacity then n
      else { n with old := some n.table, table := bigger, cursor := 0, tableAt := place }

def kMaxMigrateSlots : ℕ := 256

/-- Copies the binding in a slot of the old table to the current one, and remembers its handle. -/
def copyBinding (old : WorkerFlowTable Endpoint Binding)
    (acc : WorkerFlowTable Endpoint Binding × List FlowHandle) (s : ℕ) :
    WorkerFlowTable Endpoint Binding × List FlowHandle :=
  if (old.slots s).live then
    match (old.slots s).keys 0, (old.slots s).keys 1, (old.slots s).state with
    | some internal, some external, some b =>
        let (table, made) := acc.1.createImpl S.traits internal (some external) b
        if made.status = .created then (table, acc.2 ++ [old.handleOf s]) else (table, acc.2)
    | _, _, _ => acc
  else acc

/-- Moves the bindings of the next slots of the old table. When the walk ends, the old table is
handed back. -/
def migrateSome (slots : ℕ) : BasicNat :=
  match n.old with
  | none => n
  | some old =>
      let stop := min old.capacity (n.cursor + min slots kMaxMigrateSlots)
      let (table, moved) := (List.range' n.cursor (stop - n.cursor)).foldl (copyBinding S old)
        (n.table, [])
      let old := moved.foldl (fun old h => (old.eraseHandle S.traits h).1) old
      if stop < old.capacity then { n with table := table, old := some old, cursor := stop }
      else { n with table := table, old := none, cursor := stop }

end BasicNat

end Napt
