import Bess.Conntrack.Machine
import Bess.Flow.Runs
import Bess.Napt.Engine

/-!
# The owned connection tracker

`Conntrack` (`core/conntrack/conntrack.h`): the connections of one worker in a flow table, and a
wheel with one timer for each of them, whose payload is the connection's handle. A pointer to an
entry is the handle of its flow. The caller's data in an entry is a type parameter.
-/

namespace Conntrack

open Napt Flow Expiry

/-- Ticks. -/
abbrev Tick : Type := Napt.Time

instance : Inhabited FlowHandle :=
  ⟨kNoFlow⟩

structure Entry (U : Type) : Type extends Session where
  timer : ExpiryHandle := kNoExpiry
  user : U

/-- The table's configuration: no aliases, and the slot released last is used first. -/
def tableTraits (hash : CtKey → BitVec 64) : FlowTableTraits CtKey :=
  ⟨0, .lifo, hash, noAlias_le⟩

structure Tracker (U : Type) : Type where
  table : WorkerFlowTable CtKey (Entry U)
  wheel : Wheel wheelShape FlowHandle
  policy : TimeoutPolicy
  /-- How `TrackBatch` runs. -/
  staged : Bool

/-- What `Track` answers; the handle is that of no flow where the entry is null. -/
structure Result : Type where
  status : TrackStatus := .invalid
  direction : Direction := .original
  handle : FlowHandle := kNoFlow
  deriving DecidableEq

namespace Tracker

variable {U : Type} [Inhabited U] (hash : CtKey → BitVec 64)

/-- `Create`, when memory is not refused; `staged` is chosen from the table's size. -/
def create (capacity : ℕ) (policy : TimeoutPolicy) (start : Tick) (granularityShift : ℕ)
    (staged : Bool) : Option (Tracker U) := do
  let table ← WorkerFlowTable.create (tableTraits hash) capacity
  match Wheel.create wheelShape capacity start granularityShift with
  | .error _ => none
  | .ok wheel => return ⟨table, wheel, policy, staged⟩

/-! ### Packets -/

variable (ct : Tracker U)

/-- The deadline of a connection that a packet has reached. -/
def dueAt (p : ParsedFrame) (now : Tick) (e : Session) : Tick :=
  BasicNat.after now (timeoutFor ct.policy p.l4 e)

/-- Writes an entry and moves its timer. -/
def renew (h : FlowHandle) (e : Entry U) (due : Tick) : Tracker U :=
  { ct with
    table := ct.table.modify h fun _ => e
    wheel := (ct.wheel.refresh e.timer due).1 }

/-- The part of `Resolve` for a packet of a connection. -/
def resolveExisting (p : ParsedFrame) (c : CanonicalKey) (h : FlowHandle)
    (e : Entry U) (now : Tick) (mayCreate : Bool) : Tracker U × Result :=
  let dir := directionOf e.toSession c
  match stepExisting e.toSession p dir mayCreate with
  | (.invalid, _) => (ct, { status := .invalid, direction := dir })
  | (.reopen, _) =>
      let e : Entry U :=
        { tcp := .synSent, initiatorIsA := c.srcIsA, timer := e.timer, user := default }
      (ct.renew h e (ct.dueAt p now e.toSession), { status := .new, handle := h })
  | (.existing, s) =>
      let e := { e with toSession := s }
      (ct.renew h e (ct.dueAt p now s), { status := .existing, direction := dir, handle := h })

/-- The part of `Resolve` for a packet without a connection. -/
def resolveNew (p : ParsedFrame) (c : CanonicalKey) (now : Tick)
    (mayCreate : Bool) : Tracker U × Result :=
  match openingState ct.policy p with
  | none => (ct, { status := .invalid })
  | some tcp =>
      if mayCreate = false then (ct, { status := .invalid })
      else if ct.wheel.freeHead = kNil then (ct, { status := .full })
      else
        let fresh : Entry U := { tcp := tcp, initiatorIsA := c.srcIsA, user := default }
        let made := ct.table.createImpl (tableTraits hash) c.key none fresh
        if made.2.status ≠ .created then ({ ct with table := made.1 }, { status := .full })
        else
          let h := made.2.handle
          let armed := ct.wheel.schedule (ct.dueAt p now fresh.toSession) h
          let table := made.1.modify h fun e => { e with timer := armed.2 }
          if armed.2 = kNoExpiry then
            ({ ct with
                table := (table.eraseHandle (tableTraits hash) h).1
                wheel := armed.1 },
              { status := .full })
          else ({ ct with table := table, wheel := armed.1 }, { status := .new, handle := h })

/-- `Resolve`: the rest of `Track` once the key has been looked up. -/
def resolve (p : ParsedFrame) (c : CanonicalKey) (ref : FlowRef (Entry U))
    (now : Tick) (mayCreate : Bool) : Tracker U × Result :=
  match ref.state.bind fun _ => ct.table.lookup ref.handle with
  | some e => ct.resolveExisting p c ref.handle e now mayCreate
  | none => ct.resolveNew hash p c now mayCreate

/-- An ICMP error travels opposite to the packet it quotes. -/
def related (ct : Tracker U) (f : Frame) (p : ParsedFrame) (zone : BitVec 16) : Result :=
  match quotedKey f p zone with
  | none => { status := .invalid }
  | some c =>
      let ref := ct.table.findRef (tableTraits hash) c.key
      match ref.state with
      | none => { status := .invalid }
      | some e =>
          { status := .related
            direction := if directionOf e.toSession c = .original then .reply else .original
            handle := ref.handle }

/-- What `Track` answers for a packet without a key. -/
def unkeyed (f : Frame) (p : ParsedFrame) (zone : BitVec 16) : Result :=
  if p.l3 ≠ .none ∧ p.l4 ≠ .none ∧ (p.l4 = .icmp ∨ p.l4 = .icmpv6)
      ∧ isIcmpError p.l4 p.icmpType = true then
    ct.related hash f p zone
  else { status := .untracked }

def track (f : Frame) (p : ParsedFrame) (now : Tick) (zone : BitVec 16)
    (mayCreate : Bool) : Tracker U × Result :=
  if keyed p then
    let c := makeKey p zone
    ct.resolve hash p c (ct.table.findRef (tableTraits hash) c.key) now mayCreate
  else (ct, ct.unkeyed hash f p zone)

/-! ### Batches -/

/-- Tracks a list of packets one after another. -/
def trackEach (now : Tick) (zone : BitVec 16) (mayCreate : Bool) :
    Tracker U → List (Frame × ParsedFrame) → Tracker U × List Result
  | ct, [] => (ct, [])
  | ct, (f, p) :: packets =>
      let (ct, r) := ct.track hash f p now zone mayCreate
      let (ct, rs) := trackEach now zone mayCreate ct packets
      (ct, r :: rs)

/-- The second loop of `TrackBatch`, over the packets and the references found for those with a
key. A miss is looked up again. -/
def resolveEach (now : Tick) (zone : BitVec 16) (mayCreate : Bool) :
    Tracker U → List (Frame × ParsedFrame) → List (FlowRef (Entry U)) → Tracker U × List Result
  | ct, [], _ => (ct, [])
  | ct, (f, p) :: packets, refs =>
      if keyed p then
        let c := makeKey p zone
        let ref := match refs.head? with
          | some ref =>
              if ref.state.isSome then ref else ct.table.findRef (tableTraits hash) c.key
          | none => ct.table.findRef (tableTraits hash) c.key
        let (ct, r) := ct.resolve hash p c ref now mayCreate
        let (ct, rs) := resolveEach now zone mayCreate ct packets refs.tail
        (ct, r :: rs)
      else
        let r := ct.unkeyed hash f p zone
        let (ct, rs) := resolveEach now zone mayCreate ct packets refs
        (ct, r :: rs)

def trackBatch (packets : List (Frame × ParsedFrame)) (now : Tick)
    (zone : BitVec 16) (mayCreate : Bool) : Tracker U × List Result :=
  if ct.staged = false then trackEach hash now zone mayCreate ct packets
  else
    let looked := packets.filter fun packet => keyed packet.2
    let refs := looked.map fun packet =>
      ct.table.findRef (tableTraits hash) (makeKey packet.2 zone).key
    resolveEach hash now zone mayCreate ct packets refs

/-! ### Expiry and removal -/

/-- The callback of `Expire`, with the table and the number of connections removed. -/
def onTimer (s : WorkerFlowTable CtKey (Entry U) × ℕ) (h : FlowHandle) :
    (WorkerFlowTable CtKey (Entry U) × ℕ) × Option Tick :=
  let erased := s.1.eraseHandle (tableTraits hash) h
  ((erased.1, s.2 + if erased.2 then 1 else 0), none)

/-- The poll of `Expire`. -/
def expirePoll (now : Tick) (budget fuel : ℕ) :
    Option (Wheel.Progress wheelShape FlowHandle × WorkerFlowTable CtKey (Entry U) × ℕ) :=
  ct.wheel.pollWith now budget (onTimer hash) fuel (ct.table, 0)

def expire (now : Tick) (budget fuel : ℕ) : Option (Tracker U × ℕ) :=
  (ct.expirePoll hash now budget fuel).map fun r =>
    ({ ct with wheel := r.1.wheel, table := r.2.1 }, r.2.2)

/-- Ends a connection now. -/
def remove (h : FlowHandle) : Tracker U × Bool :=
  match ct.table.lookup h with
  | none => (ct, false)
  | some e =>
      let erased := ct.table.eraseHandle (tableTraits hash) h
      ({ ct with wheel := (ct.wheel.cancel e.timer).1, table := erased.1 }, erased.2)

def setDeadline (h : FlowHandle) (deadline : Tick) : Tracker U × Bool :=
  match ct.table.lookup h with
  | none => (ct, false)
  | some e =>
      let moved := ct.wheel.refresh e.timer deadline
      ({ ct with wheel := moved.1 }, moved.2)

end Tracker

end Conntrack
