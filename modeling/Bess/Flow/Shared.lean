import Bess.Flow.Invariant
import Bess.Foundations.Ring

/-!
# A shared flow table

`core/flow/shared_flow_table.h`. Any thread reads the table without a lock; writers are serialized
by one. The directory maps keys to handles, and a directory value is believed only if the slot it
names has the handle's generation.

A writer's call is a list of writes, each of them one store that readers can see together with the
bookkeeping under the lock that goes with it. Readers may look between any two of them. The
directory is a map; whether it has a place for a new key is up to the caller of a definition, and so
are whether a state's constructor throws and how many grace periods are complete when a reclaim
makes its last check. Capacities stay below 2³⁰, so no sum of ring positions passes 2³². The owner
check and the observer do not change a table and are left out, as is refused memory.
-/

namespace Flow

open Function

/-- `rcu::GracePeriod`. Grace periods are numbered in the order in which they start. -/
abbrev GracePeriod : Type := ℕ

/-- The reader domain of a table: the grace periods started, by the table or by others, and those
of them that are complete. They complete in order. -/
structure RcuDomain : Type where
  started : ℕ
  completed : ℕ

def RcuDomain.startGracePeriod (d : RcuDomain) : RcuDomain × GracePeriod :=
  ({ d with started := d.started + 1 }, d.started + 1)

def RcuDomain.isComplete (d : RcuDomain) (token : GracePeriod) : Bool :=
  token ≤ d.completed

/-- Erased slots that share a grace period. -/
structure Batch : Type where
  token : GracePeriod
  count : ℕ

def kMaxBatches : ℕ := 256

/-- The bit of a pending entry whose slot must not be reused. -/
def kQuarantineBit : BitVec 32 := 0x80000000#32

def kSlotMask : BitVec 32 := 0x7fffffff#32

structure SharedFlowTable (Key State : Type) : Type where
  domain : RcuDomain
  directory : Key → Option FlowHandle
  slots : ℕ → SlotRecord Key State
  free : FreeList
  capacity : ℕ
  size : ℕ
  quarantined : ℕ
  pending : ℕ → BitVec 32
  pendingHead : ℕ
  pendingCount : ℕ
  /-- What `pending_reclaim()` answers. -/
  pendingPublished : ℕ
  /-- The erased slots at the end of the ring that no batch has yet. -/
  untokened : ℕ
  batches : ℕ → Batch
  batchHead : ℕ
  batchCount : ℕ
  fatal : Bool

/-- One step of a writer. -/
inductive Write (Key State : Type) : Type where
  | insert (key : Key) (handle : FlowHandle)
  | erase (key : Key)
  /-- The state is constructed in its slot. -/
  | build (slot : ℕ) (state : State)
  /-- The slot leaves the free list, gets its keys and its live generation. -/
  | publish (slot : ℕ) (key : Key) (aliasKey : Option Key)
  /-- `AbandonSlot` -/
  | abandon (slot : ℕ)
  /-- The generation of an erased flow moves on. -/
  | unpublish (slot : ℕ)
  /-- An erased slot waits for readers. -/
  | retire (slot : ℕ)
  | addAlias (slot j : ℕ) (aliasKey : Key) (handle : FlowHandle)

/-- A call under the lock: the table that its first write finds, its writes and its result. -/
structure Plan (Key State : Type) (α : Type) : Type where
  start : SharedFlowTable Key State
  writes : List (Write Key State)
  result : α

namespace SharedFlowTable

variable {Key State : Type} [DecidableEq Key] (T : FlowTableTraits Key)

def create (capacity : ℕ) (domain : RcuDomain) : Option (SharedFlowTable Key State) :=
  if capacity = 0 ∨ 2 ^ 30 ≤ capacity * T.kKeysPerSlot then none
  else some
    { domain := domain
      directory := fun _ => none
      slots := fun _ => .empty
      free := .init capacity T.kReuse
      capacity := capacity
      size := 0
      quarantined := 0
      pending := fun _ => 0
      pendingHead := 0
      pendingCount := 0
      pendingPublished := 0
      untokened := 0
      batches := fun _ => ⟨0, 0⟩
      batchHead := 0
      batchCount := 0
      fatal := false }

variable (t : SharedFlowTable Key State)

def setSlot (s : ℕ) (slot : SlotRecord Key State) : SharedFlowTable Key State :=
  { t with slots := update t.slots s slot }

/-! ### Readers -/

def handleOf (slot : ℕ) : FlowHandle :=
  ⟨BitVec.ofNat 32 (slot + 1), (t.slots slot).generation⟩

/-- The slot a live handle names. -/
def slotOf (handle : FlowHandle) : Option ℕ :=
  let slot := (handle.id - 1).toNat
  if t.capacity ≤ slot then none
  else if (t.slots slot).generation = handle.generation ∧ (t.slots slot).live then some slot
  else none

def alive (handle : FlowHandle) : Bool :=
  (t.slotOf handle).isSome

/-- `Resolve`, when nothing is written between the read of the directory and the check of the
generation. -/
def resolve (key : Key) : Option FlowHandle :=
  (t.directory key).filter t.alive

def lookup (handle : FlowHandle) : Option State :=
  (t.slotOf handle).bind fun slot => (t.slots slot).state

/-! ### Writes -/

/-- An erased slot's entry in the ring of pending ones. -/
def pendingEntry (slot : ℕ) (next : BitVec 32) : BitVec 32 :=
  BitVec.ofNat 32 slot ||| if next = 0 then kQuarantineBit else 0

/-- `TryInsert`, when the directory has a place for the key. -/
def insertKey (key : Key) (handle : FlowHandle) : SharedFlowTable Key State :=
  if (t.directory key).isSome then { t with fatal := true }
  else { t with directory := update t.directory key (some handle) }

def eraseKey (key : Key) : SharedFlowTable Key State :=
  if (t.directory key).isNone then { t with fatal := true }
  else { t with directory := update t.directory key none }

/-- The record of a slot with its state built, when its keys are stored and its generation becomes
the live one. -/
def published (slot : SlotRecord Key State) (key : Key) (aliasKey : Option Key) :
    SlotRecord Key State :=
  match aliasKey with
  | none => { slot.storeKey 0 key with keyMask := fun j => j = 0, generation := slot.generation + 1 }
  | some a =>
      { (slot.storeKey 0 key).storeKey 1 a with
        keyMask := fun j => j = 0 ∨ j = 1
        generation := slot.generation + 1 }

/-- `AbandonSlot`. The slot has been offered a handle that readers may have read. -/
def abandonSlot (s : ℕ) : SharedFlowTable Key State :=
  let next := (t.slots s).generation + 2
  let t := { t.setSlot s { t.slots s with generation := next } with free := t.free.pop }
  if next = 0 then { t with quarantined := t.quarantined + 1 }
  else { t with free := t.free.push s }

/-- The end of `EraseLocked`. -/
def retire (s : ℕ) : SharedFlowTable Key State :=
  let t := t.setSlot s { t.slots s with keyMask := fun _ => false }
  let tail := (t.pendingHead + t.pendingCount) % t.capacity
  { t with
    size := t.size - 1
    pending := update t.pending tail (pendingEntry s (t.slots s).generation)
    pendingCount := t.pendingCount + 1
    untokened := t.untokened + 1
    pendingPublished := t.pendingCount + 1 }

def write : Write Key State → SharedFlowTable Key State
  | .insert key handle => t.insertKey key handle
  | .erase key => t.eraseKey key
  | .build s state => t.setSlot s { t.slots s with state := some state }
  | .publish s key aliasKey =>
      { t.setSlot s (published (t.slots s) key aliasKey) with
        free := t.free.pop
        size := t.size + 1 }
  | .abandon s => t.abandonSlot s
  | .unpublish s => t.setSlot s (t.slots s).advance
  | .retire s => t.retire s
  | .addAlias s j aliasKey handle =>
      let t := t.insertKey aliasKey handle
      t.setSlot s (((t.slots s).storeKey j aliasKey).mark j true)

/-! ### Reclaim -/

/-- One grace period for everything erased since the last call. -/
def stamp : SharedFlowTable Key State :=
  if t.untokened = 0 then t
  else
    let (domain, token) := t.domain.startGracePeriod
    let t := { t with domain := domain }
    if t.batchCount = kMaxBatches then
      let newest := (t.batchHead + t.batchCount - 1) % kMaxBatches
      let batch : Batch := ⟨token, (t.batches newest).count + t.untokened⟩
      { t with batches := update t.batches newest batch, untokened := 0 }
    else
      let tail := (t.batchHead + t.batchCount) % kMaxBatches
      { t with
        batches := update t.batches tail ⟨token, t.untokened⟩
        batchCount := t.batchCount + 1
        untokened := 0 }

/-- The state at the head of the ring is destroyed, and its slot free or retired for good. -/
def reclaimEntry (r : SharedFlowTable Key State × ℕ) : SharedFlowTable Key State × ℕ :=
  let t := r.1
  let entry := t.pending t.pendingHead
  let slot := (entry &&& kSlotMask).toNat
  let t :=
    { t.setSlot slot { t.slots slot with state := none } with
      pendingHead := (t.pendingHead + 1) % t.capacity
      pendingCount := t.pendingCount - 1 }
  if entry &&& kQuarantineBit ≠ 0 then ({ t with quarantined := t.quarantined + 1 }, r.2)
  else ({ t with free := t.free.push slot }, r.2 + 1)

def popBatch : SharedFlowTable Key State :=
  { t with
    batchHead := (t.batchHead + 1) % kMaxBatches
    batchCount := t.batchCount - 1 }

/-- The loop over the batches, of which there are `n`. -/
def reclaimBatches : ℕ → SharedFlowTable Key State × ℕ → SharedFlowTable Key State × ℕ
  | 0, r => r
  | n + 1, r =>
      let batch := r.1.batches r.1.batchHead
      if r.1.domain.isComplete batch.token = false then r
      else
        let (t, freed) := reclaimEntry^[batch.count] r
        reclaimBatches n (t.popBatch, freed)

/-- `ReclaimLocked`, when `completed` grace periods are complete as it checks last; it returns the
number of slots freed. -/
def reclaimLocked (completed : ℕ) : SharedFlowTable Key State × ℕ :=
  let t := t.stamp
  let t := { t with domain := { t.domain with completed := completed } }
  let (t, freed) := reclaimBatches t.batchCount (t, 0)
  ({ t with pendingPublished := t.pendingCount }, freed)

/-! ### Calls -/

/-- What a call depends on besides the table: the keys that the directory has a place for, whether
the state's constructor throws, and the grace periods complete at the last check of a reclaim. -/
structure Circumstances (Key : Type) : Type where
  fits : Key → Bool
  throws : Bool
  completed : ℕ

/-- The directory refuses a key that it does not hold and has no place for. -/
def refuses (c : Circumstances Key) (key : Key) : Bool :=
  (t.directory key).isNone && !c.fits key

/-- `CreateLocked`, from the choice of the slot on. -/
def createIn (key : Key) (aliasKey : Option Key) (state : State)
    (c : Circumstances Key) : Plan Key State (Option (EmplaceResult State)) :=
  let s := t.free.peek
  let handle : FlowHandle := ⟨BitVec.ofNat 32 (s + 1), (t.slots s).generation + 1⟩
  let aliases := aliasKey.toList
  if aliases.any (t.refuses c) then ⟨t, [.abandon s], some ⟨none, kNoFlow, .placementFailed⟩⟩
  else if t.refuses c key then
    ⟨t, aliases.map (.insert · handle) ++ aliases.map .erase ++ [.abandon s],
      some ⟨none, kNoFlow, .placementFailed⟩⟩
  else if c.throws then
    ⟨t, aliases.map (.insert · handle) ++ .insert key handle :: .erase key :: aliases.map .erase
      ++ [.abandon s], none⟩
  else
    ⟨t, aliases.map (.insert · handle)
      ++ [.insert key handle, .build s state, .publish s key aliasKey],
      some ⟨some state, handle, .created⟩⟩

/-- `CreateLocked`. The result is nothing if the constructor throws. -/
def createLocked (key : Key) (aliasKey : Option Key)
    (state : State) (c : Circumstances Key) : Plan Key State (Option (EmplaceResult State)) :=
  match t.resolve key with
  | some handle => ⟨t, [], some ⟨t.lookup handle, handle, .exists⟩⟩
  | none =>
      if aliasKey = some key ∨ (aliasKey.bind t.resolve).isSome then
        ⟨t, [], some ⟨none, kNoFlow, .aliasExists⟩⟩
      else
        let t := if t.free.empty then (t.reclaimLocked c.completed).1 else t
        if t.free.empty then ⟨t, [], some ⟨none, kNoFlow, .full⟩⟩
        else t.createIn key aliasKey state c

def addAlias (t : SharedFlowTable Key State) (handle : FlowHandle) (aliasKey : Key)
    (c : Circumstances Key) : Plan Key State AliasStatus :=
  match t.slotOf handle with
  | none => ⟨t, [], .stale⟩
  | some s =>
      if (t.resolve aliasKey).isSome then ⟨t, [], .exists⟩
      else
        match (List.range' 1 T.kAliases).find? fun j => !(t.slots s).keyMask j with
        | none => ⟨t, [], .noRoom⟩
        | some j =>
            if t.refuses c aliasKey then ⟨t, [], .placementFailed⟩
            else ⟨t, [.addAlias s j aliasKey handle], .added⟩

/-- The keys of a slot that are in the directory. -/
def keysOf (s : ℕ) : List Key :=
  (List.range T.kKeysPerSlot).filterMap fun j =>
    if (t.slots s).keyMask j then (t.slots s).keys j else none

/-- `EraseLocked` -/
def eraseLocked (s : ℕ) : List (Write Key State) :=
  .unpublish s :: (t.keysOf T s).map .erase ++ [.retire s]

def eraseHandle (handle : FlowHandle) : Plan Key State Bool :=
  match t.slotOf handle with
  | none => ⟨t, [], false⟩
  | some s => ⟨t, t.eraseLocked T s, true⟩

/-- `Erase` of the flow that a key names. -/
def erase (key : Key) : Plan Key State Bool :=
  match t.resolve key with
  | none => ⟨t, [], false⟩
  | some handle => ⟨t, t.eraseLocked T (handle.id - 1).toNat, true⟩

def reclaim (c : Circumstances Key) : Plan Key State ℕ :=
  ⟨(t.reclaimLocked c.completed).1, [], (t.reclaimLocked c.completed).2⟩

end SharedFlowTable

end Flow
