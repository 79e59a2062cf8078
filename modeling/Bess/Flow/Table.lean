import Bess.Flow.Index

/-!
# A worker-owned flow table

`core/flow/worker_flow_table.h` and `core/flow/flow_storage.h`. The table keeps a slot record for
each flow, with the flow's primary key, its alias keys and its state, and finds a key through the
directory of `Bess.Flow.Index`. Key `j` of slot `s` has the key id `s * kKeysPerSlot + j`.

The table belongs to one worker and allocates only when it is created. A failed `CHECK` ends the
process; here it sets `fatal`, and the same is done for the `DCHECK` on a missing key. Slot numbers
and key ids are natural numbers, since a table has fewer than 2³² - 1 of either; the generation of
a slot wraps, and so does the sum by which the free ring finds its tail. The observer and the owner
check do not change a table and are left out.
-/

namespace Flow

open Function

/-- The slot of a flow, counted from one, and the generation it had when the handle was issued. -/
structure FlowHandle : Type where
  id : BitVec 32
  generation : BitVec 32
  deriving DecidableEq

/-- `kNoFlow` -/
def kNoFlow : FlowHandle := ⟨0, 0⟩

/-- Which free slot a new flow takes. -/
inductive SlotReuse : Type where
  | lifo
  | fifo
  deriving DecidableEq

inductive EmplaceStatus : Type where
  | created
  | exists
  | full
  | aliasExists
  /-- A shared table only: its directory has no place for the key. -/
  | placementFailed
  deriving DecidableEq

inductive AliasStatus : Type where
  | added
  | stale
  | exists
  | noRoom
  /-- A shared table only. -/
  | placementFailed
  deriving DecidableEq

/-- The static configuration of a table and the hash of its keys. -/
structure FlowTableTraits (Key : Type) : Type where
  kAliases : ℕ
  kReuse : SlotReuse
  hash : Key → BitVec 64
  aliases_le : kAliases ≤ 14

theorem noAlias_le :
  0 ≤ 14
  := by decide

theorem oneAlias_le :
  1 ≤ 14
  := by decide

def FlowTableTraits.kKeysPerSlot {Key : Type} (T : FlowTableTraits Key) : ℕ :=
  1 + T.kAliases

/-! ### Free slots -/

/-- The slots not holding a flow: a stack for `lifo`, a ring for `fifo`. -/
structure FreeList : Type where
  items : ℕ → ℕ
  capacity : ℕ
  head : ℕ
  count : ℕ
  reuse : SlotReuse

namespace FreeList

def init (capacity : ℕ) (reuse : SlotReuse) : FreeList where
  items i := match reuse with
    | .lifo => capacity - 1 - i
    | .fifo => i
  capacity := capacity
  head := 0
  count := capacity
  reuse := reuse

def empty (f : FreeList) : Bool :=
  f.count = 0

def peek (f : FreeList) : ℕ :=
  match f.reuse with
  | .lifo => f.items (f.count - 1)
  | .fifo => f.items f.head

def pop (f : FreeList) : FreeList :=
  match f.reuse with
  | .lifo => { f with count := f.count - 1 }
  | .fifo =>
      { f with
        head := if f.head + 1 = f.capacity then 0 else f.head + 1
        count := f.count - 1 }

def push (f : FreeList) (slot : ℕ) : FreeList :=
  match f.reuse with
  | .lifo => { f with items := update f.items f.count slot, count := f.count + 1 }
  | .fifo =>
      -- A 32-bit sum: past 2³² - 1 it starts again at 0.
      let sum := (f.head + f.count) % 2 ^ 32
      let tail := if f.capacity ≤ sum then sum - f.capacity else sum
      { f with items := update f.items tail slot, count := f.count + 1 }

end FreeList

/-! ### Slots -/

/-- One flow's slot. Key 0 is the primary key, the others are aliases; `keyMask j` tells that key
`j` is in the directory. The generation is odd while the slot holds a flow. -/
structure SlotRecord (Key State : Type) : Type where
  keys : ℕ → Option Key
  generation : BitVec 32
  keyMask : ℕ → Bool
  state : Option State

namespace SlotRecord

variable {Key State : Type}

def empty : SlotRecord Key State :=
  ⟨fun _ => none, 0, fun _ => false, none⟩

variable (slot : SlotRecord Key State)

def live : Bool :=
  slot.generation.toNat % 2 = 1

def storeKey (j : ℕ) (key : Key) : SlotRecord Key State :=
  { slot with keys := update slot.keys j (some key) }

/-- Sets or clears one bit of the mask. -/
def mark (j : ℕ) (bit : Bool) : SlotRecord Key State :=
  { slot with keyMask := update slot.keyMask j bit }

/-- The record while a flow is made in it: the state is in place, the key stored and marked. -/
def claim (key : Key) (state : State) : SlotRecord Key State :=
  { slot.storeKey 0 key with keyMask := fun j => j = 0, state := some state }

/-- The record after its flow has gone. -/
def vacate : SlotRecord Key State :=
  { slot with keyMask := fun _ => false, state := none, generation := slot.generation + 1 }

def advance : SlotRecord Key State :=
  { slot with generation := slot.generation + 1 }

end SlotRecord

/-! ### The table -/

structure WorkerFlowTable (Key State : Type) : Type where
  index : FlowIndex
  slots : ℕ → SlotRecord Key State
  free : FreeList
  capacity : ℕ
  size : ℕ
  quarantined : ℕ
  fatal : Bool

structure EmplaceResult (State : Type) : Type where
  state : Option State
  handle : FlowHandle
  status : EmplaceStatus
  deriving DecidableEq

/-- What a key lookup found. -/
structure FlowRef (State : Type) : Type where
  state : Option State
  handle : FlowHandle
  viaAlias : Bool
  deriving DecidableEq

namespace WorkerFlowTable

variable {Key State : Type} [DecidableEq Key] (T : FlowTableTraits Key)

/-- An empty table of `capacity` flows, unless there are none or 32-bit ids cannot name its
keys. -/
def create (capacity : ℕ) : Option (WorkerFlowTable Key State) :=
  let keys := capacity * T.kKeysPerSlot
  if capacity = 0 ∨ 2 ^ 32 - 1 ≤ keys then none
  else some
    { index := .create (FlowIndex.bucketsFor keys)
      slots := fun _ => .empty
      free := .init capacity T.kReuse
      capacity := capacity
      size := 0
      quarantined := 0
      fatal := false }

variable (t : WorkerFlowTable Key State)

def setSlot (s : ℕ) (slot : SlotRecord Key State) : WorkerFlowTable Key State :=
  { t with slots := update t.slots s slot }

def locate (key : Key) : Hashed :=
  t.index.split (T.hash key)

def keyAt (kid : ℕ) : Option Key :=
  (t.slots (kid / T.kKeysPerSlot)).keys (kid % T.kKeysPerSlot)

/-- The key id of `key`. -/
def findKid (key : Key) : Option ℕ :=
  t.index.find (t.locate T key) fun kid => t.keyAt T kid = some key

def handleOf (slot : ℕ) : FlowHandle :=
  ⟨BitVec.ofNat 32 (slot + 1), (t.slots slot).generation⟩

/-- The slot a live handle names. -/
def slotOf (handle : FlowHandle) : Option ℕ :=
  let slot := (handle.id - 1).toNat
  if t.capacity ≤ slot then none
  else if (t.slots slot).generation = handle.generation ∧ (t.slots slot).live then some slot
  else none

/-! ### Lookup -/

def find (key : Key) : Option State :=
  (t.findKid T key).bind fun kid => (t.slots (kid / T.kKeysPerSlot)).state

def findRef (key : Key) : FlowRef State :=
  match t.findKid T key with
  | none => ⟨none, kNoFlow, false⟩
  | some kid =>
      let slot := kid / T.kKeysPerSlot
      ⟨(t.slots slot).state, t.handleOf slot, kid % T.kKeysPerSlot ≠ 0⟩

/-- The states of the flows that `keys` name, and a bit for each key that names one. -/
def findBatch (keys : List Key) : List (Option State) × BitVec 64 :=
  keys.zipIdx.foldl
    (fun acc p => match t.findKid T p.1 with
      | none => (acc.1 ++ [none], acc.2)
      | some kid =>
          (acc.1 ++ [(t.slots (kid / T.kKeysPerSlot)).state], acc.2 ||| (1#64 <<< p.2)))
    ([], 0)

def lookup (handle : FlowHandle) : Option State :=
  (t.slotOf handle).bind fun slot => (t.slots slot).state

/-! ### Create and erase -/

/-- Adds a key id to the directory, which is sized for every key. -/
def insertKey (hashed : Hashed) (kid : ℕ) : WorkerFlowTable Key State :=
  match t.index.insert hashed kid with
  | some index => { t with index := index }
  | none => { t with fatal := true }

def eraseKey (hashed : Hashed) (kid : ℕ) : WorkerFlowTable Key State :=
  match t.index.erase hashed kid with
  | some index => { t with index := index }
  | none => { t with fatal := true }

/-- Makes `key` name slot `s` as its key `j`. -/
def addKey (s j : ℕ) (key : Key) : WorkerFlowTable Key State :=
  (t.setSlot s (((t.slots s).storeKey j key).mark j true)).insertKey (t.locate T key)
    (s * T.kKeysPerSlot + j)

/-- Takes the first free slot for a flow, and its primary key into the directory. -/
def claim (t : WorkerFlowTable Key State) (key : Key) (state : State) :
    WorkerFlowTable Key State :=
  let s := t.free.peek
  ({ t with free := t.free.pop }.setSlot s ((t.slots s).claim key state)).insertKey
    (t.locate T key) (s * T.kKeysPerSlot)

/-- Makes a flow in the first free slot. -/
def make (key : Key) (aliasKey : Option Key) (state : State) : WorkerFlowTable Key State :=
  let s := t.free.peek
  let claimed := t.claim T key state
  let keyed := match aliasKey with
    | some aliasKey => claimed.addKey T s 1 aliasKey
    | none => claimed
  -- Even to odd: live.
  { keyed.setSlot s (keyed.slots s).advance with size := keyed.size + 1 }

/-- `CreateImpl` -/
def createImpl (key : Key) (aliasKey : Option Key)
    (state : State) : WorkerFlowTable Key State × EmplaceResult State :=
  match t.findKid T key with
  | some kid =>
      let slot := kid / T.kKeysPerSlot
      (t, ⟨(t.slots slot).state, t.handleOf slot, .exists⟩)
  | none =>
      if aliasKey = some key ∨ (aliasKey.bind (t.findKid T)).isSome then
        (t, ⟨none, kNoFlow, .aliasExists⟩)
      else if t.free.empty then (t, ⟨none, kNoFlow, .full⟩)
      else
        let made := t.make T key aliasKey state
        (made, ⟨some state, made.handleOf t.free.peek, .created⟩)

def addAlias (handle : FlowHandle) (aliasKey : Key) : WorkerFlowTable Key State × AliasStatus :=
  match t.slotOf handle with
  | none => (t, .stale)
  | some s =>
      if (t.findKid T aliasKey).isSome then (t, .exists)
      else
        match (List.range' 1 T.kAliases).find? fun j => !(t.slots s).keyMask j with
        | none => (t, .noRoom)
        | some j => (t.addKey T s j aliasKey, .added)

def removeAlias (key : Key) : WorkerFlowTable Key State × Bool :=
  match t.findKid T key with
  | none => (t, false)
  | some kid =>
      let s := kid / T.kKeysPerSlot
      let j := kid % T.kKeysPerSlot
      if j = 0 then (t, false)
      else
        let erased := t.eraseKey (t.locate T key) kid
        (erased.setSlot s ((erased.slots s).mark j false), true)

/-- Takes key `j` of slot `s` out of the directory, if it is there. -/
def dropKey (s : ℕ) (t : WorkerFlowTable Key State) (j : ℕ) : WorkerFlowTable Key State :=
  if (t.slots s).keyMask j then
    match (t.slots s).keys j with
    | some key => t.eraseKey (t.locate T key) (s * T.kKeysPerSlot + j)
    | none => t
  else t

def eraseSlot (s : ℕ) : WorkerFlowTable Key State :=
  let dropped := (List.range T.kKeysPerSlot).foldl (dropKey T s) t
  let vacated : WorkerFlowTable Key State :=
    { dropped.setSlot s (dropped.slots s).vacate with size := dropped.size - 1 }
  -- A generation that wrapped: the first handles of the slot would match its next flow.
  if (vacated.slots s).generation = 0 then { vacated with quarantined := vacated.quarantined + 1 }
  else { vacated with free := vacated.free.push s }

def erase (key : Key) : WorkerFlowTable Key State × Bool :=
  match t.findKid T key with
  | none => (t, false)
  | some kid => (t.eraseSlot T (kid / T.kKeysPerSlot), true)

def eraseHandle (handle : FlowHandle) : WorkerFlowTable Key State × Bool :=
  match t.slotOf handle with
  | none => (t, false)
  | some s => (t.eraseSlot T s, true)

/-- The owner of a flow changes its state in place. -/
def modify (handle : FlowHandle) (f : State → State) : WorkerFlowTable Key State :=
  match t.slotOf handle with
  | none => t
  | some s => t.setSlot s { t.slots s with state := (t.slots s).state.map f }

/-- `full` -/
def full {Key : Type} (t : WorkerFlowTable Key State) : Bool :=
  t.free.empty

end WorkerFlowTable

end Flow
