import Bess.Engine.Registry
import Mathlib.Algebra.Order.Monoid.Unbundled.WithTop
import Mathlib.Order.Lattice.Nat

/-!
# The transaction engine: applying a transaction

`applyImpl` goes through the phases of the source in order: structure, reserve, backpressure,
references, prepare, publish, commit. Everything before publication may refuse, and what was
reserved by then is aborted, the latest reservation first.

Left out are memory that is refused to the engine itself, logging, and the check that a
publication keeps within the footprint its operation declared, which ends the process.
-/

namespace Engine

variable {N K V Staged Fn W : Type}

inductive OpStatus : Type where
  | applied
  | failed
  | notApplied
  deriving DecidableEq

structure OpResult : Type where
  status : OpStatus := .notApplied
  error : String := ""
  deriving DecidableEq

inductive Outcome : Type where
  | applied
  | rejected
  | conflict
  | busy
  | unsupported
  deriving DecidableEq

structure Result : Type where
  outcome : Outcome
  generation : BitVec 64
  ops : List OpResult
  overBudget : Bool := false
  mayRetire : ℕ := 0
  deriving DecidableEq

structure KeyRef (N K : Type) : Type where
  reg : N
  key : K
  op : ℕ

/-- A change to the number of references to a key, and the first operation that adds one,
`⊤` if none does. -/
structure Delta (N K : Type) : Type where
  target : N
  key : K
  change : ℤ
  addedBy : WithTop ℕ

/-- An operation that is reserved: its place in the request, and the work to publish. -/
structure Reserved (N K V Staged : Type) : Type where
  index : ℕ
  op : Op N K V
  work : Staged

/-- The working storage of a transaction. -/
structure Scratch (N K V Staged : Type) : Type where
  staged : List (Reserved N K V Staged)
  deltas : List (Delta N K)
  touched : List N
  footprint : Footprint
  removalsByOp : List ℕ

structure Removal (N Fn : Type) : Type where
  rank : ℕ
  owner : N
  step : Fn

/-- What the publications of a transaction hand over. -/
structure Retirer (N Fn : Type) : Type where
  retires : List (N × Fn) := []
  callbacks : List Fn := []
  removals : List (Removal N Fn) := []

/-- More pending removal cascades than this and a transaction is answered busy. -/
def kMaxPendingCascades : ℕ := 4096

def describe [ToString N] [ToString K] (resource : N) (key : K) : String :=
  toString resource ++ "/" ++ toString key

namespace TransactionEngine

variable (D : Dataplane N K V Staged Fn W) (s : TransactionEngine N K Fn W)

/-- The refusal of a request of `n` operations, blamed on one of them. -/
def reject (n failed : ℕ) (error : String) : Result where
  outcome := .rejected
  generation := s.generation
  ops := (List.replicate n {}).set failed ⟨.failed, error⟩

/-! ### Structure: known resources, one operation per key -/

section

variable [DecidableEq N] [ToString N]

/-- `owned` are the objects the operations of an owner's transaction may name. -/
def checkOp (n : ℕ) (consistency : Consistency) (owned : Option (List ℕ)) (op : Op N K V) (i : ℕ) :
    Option Result :=
  match s.find op.resource with
  | none => some (s.reject n i ("unknown resource '" ++ toString op.resource ++ "'"))
  | some reg =>
      if owned.any (fun objects => reg.resource.identity ∉ objects) then
        some (s.reject n i ("resource '" ++ toString op.resource
          ++ "' is not owned by the caller"))
      else if consistency = .scopeSnapshot
          ∧ D.providedConsistency op.resource ≠ .scopeSnapshot then
        some { s.reject n i ("resource '" ++ toString op.resource
          ++ "' cannot take part in a scope-snapshot transaction: its "
          ++ "operations become visible one by one (referential)") with
          outcome := .unsupported }
      else if op.kind = .upsert ∧ op.value.isNone then
        some (s.reject n i "upsert without a value")
      else none

def checkStructure (ops : List (Op N K V)) (consistency : Consistency) (owned : Option (List ℕ)) :
    Option Result :=
  ops.zipIdx.findSome? (fun p => s.checkOp D ops.length consistency owned p.1 p.2)

end

section

variable [DecidableEq N] [LinearOrder K]

/-- The order of `key_less`, made reflexive. -/
def keyLe (a b : KeyRef N K) : Prop :=
  if a.reg ≠ b.reg then D.address a.reg < D.address b.reg
  else if a.key ≠ b.key then a.key < b.key
  else a.op ≤ b.op

instance (D : Dataplane N K V Staged Fn W) : DecidableRel (keyLe D) := fun a b => by
  unfold keyLe
  infer_instance

def keyRefs (ops : List (Op N K V)) : List (KeyRef N K) :=
  (ops.zipIdx.map (fun p => ⟨p.1.resource, p.1.key, p.2⟩)).insertionSort (keyLe D)

/-- The first operation, in request order, that repeats a key. -/
def firstDuplicate (keys : List (KeyRef N K)) : Option ℕ :=
  ((keys.zip keys.tail).filterMap fun p =>
    if p.1.reg = p.2.reg ∧ p.1.key = p.2.key then some p.2.op else none).min?

/-- The operation on a key in the transaction, if any. -/
def opOn (keys : List (KeyRef N K)) (reg : N) (key : K) : Option ℕ :=
  (keys.find? (fun k => k.reg = reg ∧ k.key = key)).map KeyRef.op

/-! ### Reserve -/

/-- Operations by ascending rank of their resources, in request order within a rank. -/
def reserveOrder (ops : List (Op N K V)) : List (Op N K V × ℕ) :=
  ops.zipIdx.insertionSort (fun a b => s.rank a.1.resource ≤ s.rank b.1.resource)

def touch (name : N) (i : ℕ) : TransactionEngine N K Fn W :=
  s.modify name (fun r => { r with touched := true, lastOp := i })

/-- The changes for the references of the value a key had, each on its committed holder. -/
def previousDeltas
    (reg : Registration N K) (references : List (Reference N K)) : List (Delta N K) :=
  references.filterMap fun ref =>
    (resolve reg ref.resource).bind fun target =>
      (holder D s target ref.key false).map fun h => ⟨h, ref.key, -1, ⊤⟩

variable [ToString N] [ToString K]

/-- The changes for the references of a new value, each on the holder the transaction leaves the
key with, up to the first reference that is refused, with the reason. -/
def newDeltas (D : Dataplane N K V Staged Fn W) (s : TransactionEngine N K Fn W)
    (reg : Registration N K) (i : ℕ) :
    List (Reference N K) → List (Delta N K) × Option String
  | [] => ([], none)
  | ref :: references =>
      match resolve reg ref.resource with
      | none =>
          ([], some ("undeclared reference: '" ++ toString reg.name ++ "' may not reference '"
            ++ toString ref.resource ++ "' (declare it when constructing the resource)"))
      | some target =>
          match holder D s target ref.key true with
          | none =>
              ([], some ("references missing " ++ describe ref.resource ref.key
                ++ " (its key holder '"
                ++ (((s.find target).bind (·.resource.keyHolder)).map toString).getD ""
                ++ "' is not registered)"))
          | some h =>
              if D.defersErase h then
                let (deltas, error) := newDeltas D s reg i references
                (⟨h, ref.key, 1, (i : WithTop ℕ)⟩ :: deltas, error)
              else
                ([], some ("resource '" ++ toString h
                  ++ "' cannot be referenced: its erases take effect "
                  ++ "at once (Resource::DefersErase)"))

/-- The changes an operation makes, given what its resource answered. The key of an erase is
among them even if no reference to it changes, to be checked. -/
def opDeltas (reg : Registration N K) (op : Op N K V) (i : ℕ) (r : Reservation N K Staged) :
    List (Delta N K) × Option String :=
  let erased : List (Delta N K) :=
    if op.kind = .erase then [⟨op.resource, op.key, 0, ⊤⟩] else []
  let previous := if r.existed then previousDeltas D s reg r.previousReferences else []
  let (new, error) := if op.kind = .upsert then newDeltas D s reg i r.references else ([], none)
  (erased ++ previous ++ new, error)

/-- Reserves one operation, and collects what it changes. -/
def reserveOne (n : ℕ) (s : TransactionEngine N K Fn W)
    (t : Scratch N K V Staged) (op : Op N K V) (i : ℕ) :
    TransactionEngine N K Fn W × Scratch N K V Staged × Option Result :=
  match s.find op.resource with
  | none => (s, t, none)
  | some reg =>
      let t := if reg.touched then t else { t with touched := t.touched ++ [op.resource] }
      let s := s.touch op.resource i
      match D.reserve s.world op with
      | (w, .error error) => (s.setWorld w, t, some (s.reject n i error))
      | (w, .ok r) =>
          let s := s.setWorld w
          let (changes, error) := opDeltas D s reg op i r
          let t := { t with
            staged := t.staged ++ [⟨i, op, r.staged⟩]
            deltas := t.deltas ++ changes }
          match error with
          | some error => (s, t, some (s.reject n i error))
          | none =>
              let footprint : Footprint :=
                ⟨t.footprint.retires + r.footprint.retires,
                  t.footprint.removals + r.footprint.removals,
                  t.footprint.callbacks + r.footprint.callbacks⟩
              let t := { t with
                footprint := footprint
                removalsByOp := t.removalsByOp.set i r.footprint.removals }
              let mayRetire := footprint.retires + footprint.removals
              if mayRetire > D.retireBudget then
                (s, t, some { s.reject n 0 ("transaction retires up to " ++ toString mayRetire
                  ++ " objects, more than one batch allows (" ++ toString D.retireBudget
                  ++ "); split it") with
                  overBudget := true
                  mayRetire := mayRetire })
              else (s, t, none)

def reserveAll (D : Dataplane N K V Staged Fn W) (n : ℕ) :
    List (Op N K V × ℕ) → TransactionEngine N K Fn W → Scratch N K V Staged →
      TransactionEngine N K Fn W × Scratch N K V Staged × Option Result
  | [], s, t => (s, t, none)
  | (op, i) :: order, s, t =>
      match reserveOne D n s t op i with
      | (s, t, some refusal) => (s, t, some refusal)
      | (s, t, none) => reserveAll D n order s t

end

/-! ### Abort -/

section

variable [DecidableEq N] [DecidableEq K]

def endTransactions (touched : List N) : TransactionEngine N K Fn W :=
  touched.foldl (fun s name =>
    let s := s.modify name (fun r => { r with touched := false })
    s.setWorld (D.endTransaction s.world name)) s

/-- Takes out the entry of a new reference that was never counted. -/
def dropEmpty (s : TransactionEngine N K Fn W) (d : Delta N K) : TransactionEngine N K Fn W :=
  if d.change > 0 then
    s.modify d.target fun r =>
      if r.incoming.lookup d.key = some 0 then { r with incoming := r.incoming.erase d.key }
      else r
  else s

def abort (D : Dataplane N K V Staged Fn W) (s : TransactionEngine N K Fn W)
    (t : Scratch N K V Staged) : TransactionEngine N K Fn W :=
  let w := t.staged.reverse.foldl (fun w r => D.abort w r.work) s.world
  let s := endTransactions D (s.setWorld w) t.touched
  t.deltas.foldl dropEmpty s

end

/-! ### References the transaction leaves behind -/

section

variable [DecidableEq N] [LinearOrder K]

/-- The order of the deltas, made reflexive. -/
def deltaLe (a b : Delta N K) : Prop :=
  if a.target ≠ b.target then D.address a.target < D.address b.target else a.key ≤ b.key

instance (D : Dataplane N K V Staged Fn W) : DecidableRel (deltaLe D) := fun a b => by
  unfold deltaLe
  infer_instance

/-- One entry for each key of a sorted list, with the summed change and the first operation
that added a reference. The first argument is the entry being summed up. -/
def mergeFrom (d : Delta N K) : List (Delta N K) → List (Delta N K)
  | [] => [d]
  | e :: deltas =>
      if d.target = e.target ∧ d.key = e.key then
        mergeFrom ⟨d.target, d.key, d.change + e.change, min d.addedBy e.addedBy⟩ deltas
      else d :: mergeFrom e deltas

def merge : List (Delta N K) → List (Delta N K)
  | [] => []
  | d :: deltas => mergeFrom d deltas

def mergeDeltas (deltas : List (Delta N K)) : List (Delta N K) :=
  merge (deltas.insertionSort (deltaLe D))

variable [ToString N] [ToString K]

/-- Refuses a change that leaves a key referenced that does not exist afterwards. -/
def checkDelta (ops : List (Op N K V)) (keys : List (KeyRef N K)) (d : Delta N K) : Option Result :=
  let after : ℤ := s.count d.target d.key + d.change
  if after ≤ 0 then none
  else
    match opOn keys d.target d.key with
    | some i =>
        if (ops[i]?).map Op.kind = some .upsert then none
        else some (s.reject ops.length i (describe d.target d.key ++ " is still referenced "
          ++ toString after ++ " time(s)"))
    | none =>
        if D.contains s.world d.target d.key then none
        else
          match d.addedBy with
          | none => none
          | some i =>
              some (s.reject ops.length i ("references missing " ++ describe d.target d.key))

end

/-! ### Prepare -/

section

variable [DecidableEq N]

def prepareAll (D : Dataplane N K V Staged Fn W) (n : ℕ) :
    List N → TransactionEngine N K Fn W → TransactionEngine N K Fn W × Option Result
  | [], s => (s, none)
  | name :: touched, s =>
      match D.prepare s.world name with
      | (w, .error error) =>
          (s.setWorld w,
            some (s.reject n (((s.find name).map Registration.lastOp).getD 0) error))
      | (w, .ok ()) => prepareAll D n touched (s.setWorld w)

/-! ### Publish and commit -/

/-- `b` does not go out strictly before `a`: upserts go before erases, upserts by ascending and
erases by descending rank. -/
def publishLe (a b : Reserved N K V Staged) : Prop :=
  match a.op.kind, b.op.kind with
  | .upsert, .upsert => s.rank a.op.resource ≤ s.rank b.op.resource
  | .erase, .erase => s.rank b.op.resource ≤ s.rank a.op.resource
  | .upsert, .erase => True
  | .erase, .upsert => False

instance (s : TransactionEngine N K Fn W) (a b : Reserved N K V Staged) :
    Decidable (publishLe s a b) := by
  unfold publishLe
  cases a.op.kind <;> cases b.op.kind <;> infer_instance

def publishOrder (staged : List (Reserved N K V Staged)) : List (Reserved N K V Staged) :=
  staged.insertionSort (publishLe s)

def publishOne (p : W × Retirer N Fn) (r : Reserved N K V Staged) : W × Retirer N Fn :=
  let (w, handed) := D.publish p.1 r.work
  let owner := r.op.resource
  (w, ⟨p.2.retires ++ handed.retires.map (owner, ·), p.2.callbacks ++ handed.callbacks,
    p.2.removals ++ handed.removals.map (⟨s.rank owner, owner, ·⟩)⟩)

def publishAll (order : List (Reserved N K V Staged)) : W × Retirer N Fn :=
  order.foldl (publishOne D s) (s.world, {})

/-- The ranks with a stage in the removal cascade, highest first: those of the operations that
declared removals. -/
def stageRanks (ops : List (Op N K V)) (removalsByOp : List ℕ) : List ℕ :=
  (((ops.zip removalsByOp).filter (fun p => p.2 ≠ 0)).map
    (fun p => s.rank p.1.resource)).insertionSort (fun a b => b ≤ a) |>.dedup

/-- The removals, stage by stage, without the stages that got none. -/
def stages (ranks : List ℕ) (removals : List (Removal N Fn)) : List (List (Step N Fn)) :=
  (ranks.map fun rank =>
    (removals.filter (fun r => r.rank = rank)).map (fun r => ⟨r.owner, r.step⟩)).filter
      (fun stage => ¬ stage.isEmpty)

def removalPending (s : TransactionEngine N K Fn W) (r : Removal N Fn) :
    TransactionEngine N K Fn W :=
  { s.modify r.owner (fun reg => { reg with pendingRemovals := reg.pendingRemovals + 1 }) with
    deferredObjects := s.deferredObjects + 1 }

/-- Counts a change to the references to a key, which has an entry unless there are none. -/
def withChange [DecidableEq K] (key : K) (change : ℤ) (r : Registration N K) :
    Registration N K :=
  match r.incoming.lookup key with
  | none => r
  | some count =>
      let after : ℤ := count + change
      if after ≤ 0 then { r with incoming := r.incoming.erase key }
      else { r with incoming := r.incoming.insert key after.toNat }

def applyDelta [DecidableEq K] (s : TransactionEngine N K Fn W) (d : Delta N K) :
    TransactionEngine N K Fn W :=
  s.modify d.target (withChange d.key d.change)

/-- Makes room for the count of a new reference. -/
def withEntry [DecidableEq K] (key : K) (r : Registration N K) : Registration N K :=
  if r.incoming.lookup key = none then { r with incoming := r.incoming.insert key 0 } else r

def makeEntry [DecidableEq K] (s : TransactionEngine N K Fn W) (d : Delta N K) :
    TransactionEngine N K Fn W :=
  if d.change > 0 then s.modify d.target (withEntry d.key) else s

/-- Starts the grace period of what a transaction removed and replaced, if there is any. -/
def startReclaim (retirer : Retirer N Fn) (stages : List (List (Step N Fn))) :
    TransactionEngine N K Fn W :=
  if retirer.retires = [] ∧ retirer.callbacks = [] ∧ stages = [] then s
  else
    let (w, token) := D.startGracePeriod s.world
    { s with
      cascades := if stages = [] then s.cascades else s.cascades ++ [⟨token, stages⟩]
      world := finish D w retirer.retires retirer.callbacks token }

/-- Publishes what is staged, and counts the references it changes and the removals it leaves
for later: from here on nothing is refused. -/
def publishStaged [DecidableEq K] (t : Scratch N K V Staged) :
    TransactionEngine N K Fn W × Retirer N Fn :=
  let s := t.deltas.foldl makeEntry s
  let (w, retirer) := publishAll D s (publishOrder s t.staged)
  let s := t.deltas.foldl applyDelta (s.setWorld w)
  ((retirer.removals.foldl removalPending s).advanceGeneration, retirer)

def commit [DecidableEq K] (ops : List (Op N K V)) (t : Scratch N K V Staged) :
    TransactionEngine N K Fn W × Result :=
  let (s, retirer) := publishStaged D s t
  let stages := stages (stageRanks s ops t.removalsByOp) retirer.removals
  let s := startReclaim D (endTransactions D s t.touched) retirer stages
  (s.setWorld (D.reclaimReady s.world),
    { outcome := .applied
      generation := s.generation
      ops := List.replicate ops.length ⟨.applied, ""⟩
      mayRetire := t.footprint.retires + t.footprint.removals })

end

section

variable [DecidableEq N] [LinearOrder K] [ToString N] [ToString K]

/-- Refuses, to be tried again, what would leave too much to reclaim. -/
def checkBackpressure (n : ℕ) (t : Scratch N K V Staged) : Option Result :=
  let mayRetire := t.footprint.retires + t.footprint.removals
  if D.pendingRetired s.world + s.deferredObjects + mayRetire > D.retireBudget
      ∨ s.cascades.length ≥ kMaxPendingCascades then
    some
      { outcome := .busy
        generation := s.generation
        ops := List.replicate n {} }
  else none

/-- The part of a transaction that may have to be aborted. -/
def transact (ops : List (Op N K V)) : TransactionEngine N K Fn W × Result :=
  let scratch : Scratch N K V Staged := ⟨[], [], [], {}, List.replicate ops.length 0⟩
  match reserveAll D ops.length (s.reserveOrder ops) s scratch with
  | (s, t, some refusal) => (abort D s t, refusal)
  | (s, t, none) =>
      match checkBackpressure D s ops.length t with
      | some refusal => (abort D s t, refusal)
      | none =>
          let t := { t with deltas := mergeDeltas D t.deltas }
          match t.deltas.findSome? (checkDelta D s ops (keyRefs D ops)) with
          | some refusal => (abort D s t, refusal)
          | none =>
              match prepareAll D ops.length t.touched s with
              | (s, some refusal) => (abort D s t, refusal)
              | (s, none) => commit D s ops t

/-- What is answered while there is no order to publish in. -/
def refuseCycle (n : ℕ) : Result :=
  s.reject n 0 ("registered resources declare a reference cycle; the engine "
    ++ "cannot order their publication")

/-- A transaction on resources whose references have no cycle. -/
def applyOrdered (ops : List (Op N K V)) (expectedGeneration : Option (BitVec 64))
    (consistency : Consistency) (owned : Option (List ℕ)) :
    TransactionEngine N K Fn W × Result :=
  if expectedGeneration.any (· ≠ s.generation) then
    (s,
      { outcome := .conflict
        generation := s.generation
        ops := List.replicate ops.length {} })
  else
    match s.checkStructure D ops consistency owned with
    | some refusal => (s, refusal)
    | none =>
        match firstDuplicate (keyRefs D ops) with
        | some i =>
            (s, s.reject ops.length i ("second operation on "
              ++ ((ops[i]?).map (fun op => describe op.resource op.key)).getD ""
              ++ " in one transaction"))
        | none => transact D s ops

def applyImpl (ops : List (Op N K V)) (expectedGeneration : Option (BitVec 64))
    (consistency : Consistency) (owned : Option (List ℕ)) :
    TransactionEngine N K Fn W × Result :=
  let s := (s.reclaimRetired D).recomputeRanks
  if s.referenceCycle then (s, s.refuseCycle ops.length)
  else s.applyOrdered D ops expectedGeneration consistency owned

def apply (ops : List (Op N K V)) (expectedGeneration : Option (BitVec 64))
    (consistency : Consistency) : TransactionEngine N K Fn W × Result :=
  applyImpl D s ops expectedGeneration consistency none

def applyOwned (owned : List ℕ) (ops : List (Op N K V)) : TransactionEngine N K Fn W × Result :=
  applyImpl D s ops none .referential (some owned)

end

end TransactionEngine

end Engine
