import Bess.Engine.Contract

/-!
# Slot tables as resources

A slot table maps ids to immutable objects. An erased id is absent on the control side at once,
but its object stays readable, and the id cannot be published again, until a removal step empties
the slot. `SlotConfig.dataplane` are the slot tables of all resources, with an RCU domain, as
resources of a transaction engine, and `SlotConfig.contract` is the contract they keep.

A check of the source that ends the process is a call that changes nothing.
-/

namespace Engine

open Function List

/-- A slot is empty, holds a live object, or one that is removed but may still be read. -/
inductive Slot (V : Type) : Type where
  | free
  | live (object : V)
  | retiring (object : V)
  deriving DecidableEq

namespace Slot

variable {V : Type}

/-- What a reader finds. -/
def object : Slot V → Option V
  | .free => none
  | .live v => some v
  | .retiring v => some v

/-- What the control side finds. -/
def current : Slot V → Option V
  | .free => none
  | .live v => some v
  | .retiring _ => none

def canPublish : Slot V → Bool
  | .retiring _ => false
  | _ => true

end Slot

/-- The slots of a table, by id. -/
abbrev SlotTable (V : Type) : Type := ℕ → Slot V

namespace SlotTable

variable {V : Type}

/-- Makes an object visible at an id, and answers the object it replaced. -/
def publish (table : SlotTable V) (id : ℕ) (object : V) : SlotTable V × Option V :=
  if (table id).canPublish then (update table id (.live object), (table id).object)
  else (table, none)

/-- Removes a live object from the control side. It stays readable. -/
def retire (table : SlotTable V) (id : ℕ) : SlotTable V :=
  match table id with
  | .live v => update table id (.retiring v)
  | _ => table

/-- Empties a retiring slot, and answers its object. -/
def unpublish (table : SlotTable V) (id : ℕ) : SlotTable V × Option V :=
  match table id with
  | .retiring v => (update table id .free, some v)
  | _ => (table, none)

end SlotTable

/-- The RCU domain, on its own state. -/
structure RcuDomain (N R : Type) : Type where
  retireHighWater : ℕ
  startGracePeriod : R → R × ℕ
  isComplete : R → ℕ → R × Bool
  pendingRetired : R → ℕ
  retire : R → N → ℕ → R
  reclaimReady : R → R
  outstanding : R → N → ℕ

/-- The work staged for an operation on a slot table. -/
inductive SlotOp (N V : Type) : Type where
  | publish (name : N) (id : ℕ) (object : V)
  | unpublish (name : N) (id : ℕ)

/-- What a slot table hands to a retirer: an object to free, or the removal of an id. -/
inductive SlotFn (N V : Type) : Type where
  | object (object : V)
  | unpublish (name : N) (id : ℕ)
  deriving DecidableEq

structure SlotWorld (N V R : Type) : Type where
  tables : N → SlotTable V
  rcu : R

/-- Slot tables, by the name of the resource: their capacities, the encoding of ids as keys,
which values have the type of the table, and the references a value holds. -/
structure SlotConfig (N K V : Type) : Type where
  address : N ↪ ℕ
  capacity : N → ℕ
  encode : N → ℕ → K
  decode : N → K → Option ℕ
  hasType : N → V → Bool
  references : N → V → List (Reference N K)
  decode_encode : ∀ {name id}, 1 ≤ id → id ≤ capacity name → decode name (encode name id) = some id
  encode_decode : ∀ {name key id}, decode name key = some id → encode name id = key

namespace SlotConfig

variable {N K V R : Type} (S : SlotConfig N K V)
  {w w' : SlotWorld N V R} {r : Reservation N K (SlotOp N V)} {op : Op N K V}

def ValidId (name : N) (id : ℕ) : Prop := id ≠ 0 ∧ id ≤ S.capacity name

instance (name : N) (id : ℕ) : Decidable (S.ValidId name id) := by
  unfold ValidId
  infer_instance

section

variable (w : SlotWorld N V R) (name : N)

/-- The object a reader finds at a key. -/
def lookup (key : K) : Option V :=
  (S.decode name key).bind fun id =>
    if S.ValidId name id then (w.tables name id).object else none

/-- The object the control side finds at a key. -/
def current (key : K) : Option V :=
  (S.decode name key).bind fun id =>
    if S.ValidId name id then (w.tables name id).current else none

def referencesOf (key : K) : List (Reference N K) :=
  ((S.current w name key).map (S.references name)).getD []

/-- The live ids of a table. -/
def liveIds : List ℕ :=
  (List.range' 1 (S.capacity name)).filter (fun id => (w.tables name id).current.isSome)

end

def reserve (w : SlotWorld N V R) (op : Op N K V) :
    Except String (Reservation N K (SlotOp N V)) :=
  match S.decode op.resource op.key with
  | none => .error "invalid id"
  | some id =>
      if ¬ S.ValidId op.resource id then .error "invalid id"
      else
        let slot := w.tables op.resource id
        let previous := (slot.current.map (S.references op.resource)).getD []
        match op.kind with
        | .erase =>
            if slot.current.isNone then .error "not found"
            else .ok ⟨.unpublish op.resource id, [], { removals := 1 }, true, previous⟩
        | .upsert =>
            if ¬ slot.canPublish then
              .error "id is still retiring (removed less than a grace period ago)"
            else
              match op.value with
              | none => .error "wrong value type"
              | some value =>
                  if ¬ S.hasType op.resource value then .error "wrong value type"
                  else
                    .ok ⟨.publish op.resource id value, S.references op.resource value,
                      { retires := if slot.current.isSome then 1 else 0 },
                      slot.current.isSome, previous⟩

section

variable [DecidableEq N]

def setTable (w : SlotWorld N V R) (name : N) (table : SlotTable V) : SlotWorld N V R :=
  { w with tables := update w.tables name table }

def publish (w : SlotWorld N V R) : SlotOp N V → SlotWorld N V R × Handed (SlotFn N V)
  | .publish name id object =>
      let (table, old) := (w.tables name).publish id object
      (setTable w name table, { retires := old.toList.map .object })
  | .unpublish name id =>
      (setTable w name ((w.tables name).retire id), { removals := [.unpublish name id] })

/-- A removal step empties its slot, and hands over the object it held. -/
def runStep (w : SlotWorld N V R) : SlotFn N V → Option (SlotWorld N V R × Handed (SlotFn N V))
  | .object _ => some (w, {})
  | .unpublish name id =>
      let (table, old) := (w.tables name).unpublish id
      some (setTable w name table, { retires := old.toList.map .object })

/-- The slot tables as resources of a transaction engine. -/
def dataplane (rcu : RcuDomain N R) :
    Dataplane N K V (SlotOp N V) (SlotFn N V) (SlotWorld N V R) where
  address := S.address
  contains w name key := (S.current w name key).isSome
  visitReferences w name := (S.liveIds w name).flatMap fun id =>
    ((w.tables name id).current.map (S.references name)).getD []
  heldByKeyHolder _ _ _ _ := false
  reserve w op := (w, S.reserve w op)
  prepare w _ := (w, .ok ())
  defersErase _ := true
  providedConsistency _ := .referential
  endTransaction w _ := w
  liveCount w name := (S.liveIds w name).length
  publish := publish
  abort w _ := w
  runStep := runStep
  retireHighWater := rcu.retireHighWater
  startGracePeriod w := ({ w with rcu := (rcu.startGracePeriod w.rcu).1 },
    (rcu.startGracePeriod w.rcu).2)
  isComplete w token := ({ w with rcu := (rcu.isComplete w.rcu token).1 },
    (rcu.isComplete w.rcu token).2)
  pendingRetired w := rcu.pendingRetired w.rcu
  retire w name _ token := { w with rcu := rcu.retire w.rcu name token }
  runCallback w _ _ := w
  reclaimReady w := { w with rcu := rcu.reclaimReady w.rcu }
  outstanding w := rcu.outstanding w.rcu

end

/-! ### The contract -/

section

variable [DecidableEq K]

/-- What slot tables show: the live slots. -/
def committed (w : SlotWorld N V R) : Committed N K V where
  keys name := ((S.liveIds w name).map (S.encode name)).toFinset
  value := S.current w
  references := S.referencesOf w
  held _ _ := false

/-- Worlds with the same live slots show the same. -/
theorem committed_congr (h : ∀ name id, (w'.tables name id).current = (w.tables name id).current) :
  S.committed w' = S.committed w
  := by
  have hcur : S.current w' = S.current w := by
    funext name key
    simp only [current, h]
  have hrefs : S.referencesOf w' = S.referencesOf w := by
    funext name key
    simp only [referencesOf, hcur]
  simp only [committed, liveIds, hcur, hrefs, h]

end

/-- A reservation that can still be published. -/
inductive Ready (w : SlotWorld N V R) : Op N K V × Reservation N K (SlotOp N V) → Prop where
  | erase {op : Op N K V} {r : Reservation N K (SlotOp N V)} {id : ℕ} {value : V}
      (decoded : S.decode op.resource op.key = some id) (valid : S.ValidId op.resource id)
      (kind : op.kind = .erase) (staged : r.staged = .unpublish op.resource id)
      (slot : w.tables op.resource id = .live value) : Ready w (op, r)
  | upsert {op : Op N K V} {r : Reservation N K (SlotOp N V)} {id : ℕ} {value : V}
      (decoded : S.decode op.resource op.key = some id) (valid : S.ValidId op.resource id)
      (kind : op.kind = .upsert) (given : op.value = some value)
      (staged : r.staged = .publish op.resource id value)
      (references : r.references = S.references op.resource value)
      (slot : (w.tables op.resource id).canPublish) : Ready w (op, r)

/-- The reservations a world of slot tables holds: they are on different keys, and each can be
published. -/
def Holding (w : SlotWorld N V R) (rs : List (Op N K V × Reservation N K (SlotOp N V))) : Prop :=
  (rs.map (fun p => (p.1.resource, p.1.key))).Nodup ∧ ∀ p ∈ rs, S.Ready w p

theorem ready_of_reserve (h : S.reserve w op = .ok r) :
  S.Ready w (op, r)
  := by
  unfold reserve at h
  split at h
  case h_1 => simp at h
  case h_2 id hid =>
  split at h
  case isTrue => simp at h
  case isFalse hvalid =>
  rw [not_not] at hvalid
  simp only at h
  split at h
  case h_1 hkind =>
    split at h
    case isTrue => simp at h
    case isFalse hslot =>
    obtain rfl := Except.ok.inj h
    rcases hlive : w.tables op.resource id with _ | value | value <;>
      simp only [hlive, Slot.current, Option.isNone_none, not_true_eq_false] at hslot
    exact .erase hid hvalid hkind rfl hlive
  case h_2 hkind =>
  split at h
  case isTrue => simp at h
  case isFalse hslot =>
  rw [not_not] at hslot
  split at h
  case h_1 => simp at h
  case h_2 value hvalue =>
  split at h
  case isTrue => simp at h
  case isFalse =>
  obtain rfl := Except.ok.inj h
  exact .upsert hid hvalid hkind hvalue rfl rfl hslot

/-- Whether a reservation can be published depends on the slot of its key alone. -/
theorem Ready.congr {p : Op N K V × Reservation N K (SlotOp N V)}
    (ready : S.Ready w p)
    (h : ∀ id, S.decode p.1.resource p.1.key = some id →
      w'.tables p.1.resource id = w.tables p.1.resource id) :
  S.Ready w' p
  := by
  cases ready with
  | erase decoded valid kind staged slot =>
    exact .erase decoded valid kind staged ((h _ decoded).trans slot)
  | upsert decoded valid kind given staged references slot =>
  refine .upsert decoded valid kind given staged references ?_
  rw [h _ decoded]
  exact slot

section

variable [DecidableEq N]

/-- The slot an operation is on after it is published. -/
def written (w : SlotWorld N V R) : SlotOp N V → Slot V
  | .publish _ _ object => .live object
  | .unpublish name id =>
      match w.tables name id with
      | .live v => .retiring v
      | slot => slot

/-- Publishing a reservation changes the slot of its key, and no other. -/
theorem publish_tables (ready : S.Ready w (op, r)) :
  ∃ id, S.decode op.resource op.key = some id ∧ S.ValidId op.resource id
    ∧ ∀ name id', (publish w r.staged).1.tables name id'
        = if name = op.resource ∧ id' = id then written w r.staged else w.tables name id'
  := by
  cases ready with
  | @erase _ _ id value decoded valid kind staged slot =>
    use id, decoded, valid
    intro name id'
    rw [staged]
    by_cases hname : name = op.resource
    case neg => simp [publish, setTable, hname]
    case pos =>
    subst hname
    by_cases hid : id' = id
    case pos => simp [publish, setTable, SlotTable.retire, written, slot, hid]
    case neg => simp [publish, setTable, SlotTable.retire, slot, hid]
  | @upsert _ _ id value decoded valid kind given staged references slot =>
  use id, decoded, valid
  intro name id'
  rw [staged]
  by_cases hname : name = op.resource
  case neg => simp [publish, setTable, hname]
  case pos =>
  subst hname
  by_cases hid : id' = id
  case pos => simp [publish, setTable, SlotTable.publish, written, slot, hid]
  case neg => simp [publish, setTable, SlotTable.publish, slot, hid]

theorem Holding.publish {rs rest : List (Op N K V × Reservation N K (SlotOp N V))}
    (holding : S.Holding w rs) (perm : rs.Perm ((op, r) :: rest)) :
  S.Holding (publish w r.staged).1 rest
  := by
  have hnodup := (perm.map (fun p => (p.1.resource, p.1.key))).nodup_iff.mp holding.1
  rw [map_cons, nodup_cons] at hnodup
  have hready : ∀ p ∈ (op, r) :: rest, S.Ready w p := by
    intro p hp
    exact holding.2 p (perm.mem_iff.mpr hp)
  obtain ⟨id, hid, -, htables⟩ := S.publish_tables (hready _ mem_cons_self)
  refine ⟨hnodup.2, ?_⟩
  intro p hp
  apply (hready p (mem_cons_of_mem _ hp)).congr
  intro id' hid'
  rw [htables, if_neg]
  rintro ⟨hname, rfl⟩
  apply hnodup.1
  rw [mem_map]
  use p, hp
  -- two keys of one table with the same id are the same key
  have hkey : S.encode op.resource id' = p.1.key := by
    rw [← hname]
    exact S.encode_decode hid'
  rw [hname, ← hkey, S.encode_decode hid]

variable [DecidableEq K]

theorem committed_runStep {fn : SlotFn N V}
    {handed : Handed (SlotFn N V)} (h : runStep w fn = some (w', handed)) :
  S.committed w' = S.committed w
  := by
  apply S.committed_congr
  intro name id
  cases fn with
  | object v =>
    obtain ⟨rfl, -⟩ := h
    rfl
  | unpublish name' id' =>
  obtain ⟨rfl, -⟩ := h
  by_cases hname : name = name'
  case neg => simp [setTable, hname]
  case pos =>
  subst hname
  by_cases hid : id = id'
  case neg =>
    rcases hslot : w.tables name id' <;> simp [setTable, hid]
  case pos =>
  subst hid
  rcases hslot : w.tables name id <;>
    simp [setTable, hslot, Slot.current]

/-- The contract that slot tables keep. -/
def contract (rcu : RcuDomain N R) : Contract (S.dataplane rcu) where
  committed := S.committed
  Holding := S.Holding
  reserve_ok {w w' rs op r} holding fresh h := by
    obtain ⟨rfl, hreserve⟩ := Prod.mk.inj h
    refine ⟨⟨?_, ?_⟩, rfl⟩
    · rw [map_cons, nodup_cons]
      refine ⟨?_, holding.1⟩
      intro hmem
      obtain ⟨p, hp, heq⟩ := mem_map.mp hmem
      exact fresh p hp (Prod.mk.inj heq)
    · rw [forall_mem_cons]
      exact ⟨S.ready_of_reserve hreserve, holding.2⟩
  reserve_error {w w' rs op error} holding fresh h := by
    obtain ⟨rfl, -⟩ := Prod.mk.inj h
    exact ⟨holding, rfl⟩
  prepare name holding := ⟨holding, rfl⟩
  abort holding := ⟨⟨(nodup_cons.mp holding.1).2,
    fun p hp => holding.2 p (mem_cons_of_mem _ hp)⟩, rfl⟩
  publish holding perm := Holding.publish S holding perm
  endTransaction name holding := ⟨holding, rfl⟩
  runStep {w w' fn handed} holding h := by
    refine ⟨?_, S.committed_runStep h⟩
    exact ⟨nodup_nil, by simp⟩
  startGracePeriod holding := ⟨⟨nodup_nil, by simp⟩, rfl⟩
  isComplete token holding := ⟨⟨nodup_nil, by simp⟩, rfl⟩
  retire name fn token holding := ⟨⟨nodup_nil, by simp⟩, rfl⟩
  runCallback fn token holding := ⟨holding, rfl⟩
  reclaimReady holding := ⟨⟨nodup_nil, by simp⟩, rfl⟩

end

end SlotConfig

/-- Slot tables of ids, whose values are the references they hold. -/
def SlotConfig.plain : SlotConfig ℕ ℕ (List (Reference ℕ ℕ)) where
  address := .refl ℕ
  capacity _ := 8
  encode _ id := id
  decode _ key := some key
  hasType _ _ := true
  references _ value := value
  decode_encode _ _ := rfl
  encode_decode h := (Option.some.inj h).symm

def SlotWorld.empty : SlotWorld ℕ (List (Reference ℕ ℕ)) ℕ :=
  ⟨fun _ _ => .free, 0⟩

/-- A domain without readers: every grace period is over at once. -/
def RcuDomain.noReaders : RcuDomain ℕ ℕ where
  retireHighWater := 64
  startGracePeriod token := (token + 1, token + 1)
  isComplete token _ := (token, true)
  pendingRetired _ := 0
  retire token _ _ := token
  reclaimReady token := token
  outstanding _ _ := 0

end Engine
