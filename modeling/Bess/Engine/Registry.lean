import Bess.Engine.Resource
import Bess.Foundations.Relaxation

/-!
# The transaction engine: registrations, ranks and reclamation

The state of the engine, and its calls other than the transactions themselves: resources
register and leave, references are bound to the resources they name, ranks are derived from the
bound references, and removal cascades advance as grace periods complete.

A pointer to a registration is the name it is registered under: what is bound to a resource is
unbound or gone before the resource leaves.
-/

namespace Engine

variable {N K V Staged Fn W : Type}

/-- Everything the engine keeps about one registered resource. `incoming` are the references to
its keys held by the values of other resources. The rank is kept here rather than in the
resource. -/
structure Registration (N K : Type) : Type where
  resource : Resource N
  deps : List N
  unresolved : List N
  keyHolder : Option N
  incoming : AList (fun _ : K => ℕ)
  pendingRemovals : ℕ
  touched : Bool
  lastOp : ℕ
  rank : ℕ

abbrev Registration.name (r : Registration N K) : N := r.resource.name

structure Step (N Fn : Type) : Type where
  owner : N
  fn : Fn
  deriving DecidableEq

/-- The removals of one transaction that have not run, stage by stage: the source keeps all
stages, and counts the stages and the steps of the present one that have run. -/
structure Cascade (N Fn : Type) : Type where
  token : ℕ
  stages : List (List (Step N Fn))
  deriving DecidableEq

/-- The engine, and the world it acts on. The order of `resources` is that in which the hash
map of the registrations is iterated. -/
structure TransactionEngine (N K Fn W : Type) : Type where
  resources : List (Registration N K)
  cascades : List (Cascade N Fn)
  deferredObjects : ℕ
  generation : BitVec 64
  ranksDirty : Bool
  referenceCycle : Bool
  world : W

namespace TransactionEngine

def create (w : W) : TransactionEngine N K Fn W :=
  ⟨[], [], 0, 0, false, false, w⟩

variable (D : Dataplane N K V Staged Fn W) (s : TransactionEngine N K Fn W)

def setResources (resources : List (Registration N K)) : TransactionEngine N K Fn W :=
  { s with resources := resources }

/-- The graph of the references has changed. -/
def dirty : TransactionEngine N K Fn W :=
  { s with ranksDirty := true }

def setWorld (w : W) : TransactionEngine N K Fn W :=
  { s with world := w }

section

variable [DecidableEq N]

def find (s : TransactionEngine N K Fn W) (name : N) : Option (Registration N K) :=
  s.resources.find? (fun r => r.name = name)

def modify (name : N) (f : Registration N K → Registration N K) : TransactionEngine N K Fn W :=
  s.setResources (s.resources.map (fun r => if r.name = name then f r else r))

def registered (name : N) : Bool :=
  (s.find name).isSome

def rank (s : TransactionEngine N K Fn W) (name : N) : ℕ :=
  ((s.find name).map Registration.rank).getD 0

end

/-! ### Binding and counting references -/

section

variable [DecidableEq N] [DecidableEq K]

/-- How many references to a key are counted. -/
def count (name : N) (key : K) : ℕ :=
  (((s.find name).bind (fun r => r.incoming.lookup key))).getD 0

/-- The registration a reference from `r` names, if `r` declared it and it is bound. -/
def resolve (r : Registration N K) (resource : N) : Option N :=
  if resource ∈ r.deps then some resource else none

/-- The registration a reference to a key of `target` is counted on: `target`, or its key
holder for a key the holder holds, and none while the holder is not registered. -/
def holder (target : N) (key : K) (inTransaction : Bool) : Option N :=
  (s.find target).bind fun t =>
    if t.resource.keyHolder = none ∨ D.heldByKeyHolder s.world target key inTransaction = false
    then some target
    else t.keyHolder

/-- Binds what `r` declares to the resources registered by now. -/
def rebindDependencies (r : Registration N K) : Registration N K :=
  { r with
    deps := r.deps ++ r.unresolved.filter s.registered
    unresolved := r.unresolved.filter (fun name => ¬ s.registered name)
    keyHolder := if r.keyHolder = none then r.resource.keyHolder.filter s.registered
      else r.keyHolder }

/-- One more reference to a key. -/
def counted (key : K) (r : Registration N K) : Registration N K :=
  { r with incoming := r.incoming.insert key ((r.incoming.lookup key).getD 0 + 1) }

def zeroed (r : Registration N K) : Registration N K :=
  { r with incoming := r.incoming.keys.foldl (fun m key => m.insert key 0) r.incoming }

def dropZeros (r : Registration N K) : Registration N K :=
  { r with
    incoming := r.incoming.keys.foldl
      (fun m key => if m.lookup key = some 0 then m.erase key else m) r.incoming }

/-- The keys that the committed references of a resource are counted on. -/
def countedOn (r : Registration N K) : List (N × K) :=
  (D.visitReferences s.world r.name).filterMap fun ref =>
    (resolve r ref.resource).bind fun target =>
      (holder D s target ref.key false).map fun h => (h, ref.key)

/-- Counts all committed references anew. -/
def rebuildIncoming : TransactionEngine N K Fn W :=
  let references := s.resources.flatMap (countedOn D s)
  let start := s.setResources (s.resources.map zeroed)
  let total := references.foldl (fun s p => s.modify p.1 (counted p.2)) start
  total.setResources (total.resources.map dropZeros)

end

/-! ### Ranks -/

section

variable [DecidableEq N]

/-- The registrations that have to rank below that of a name: those it may reference, and the
key holder of each. -/
def below (name : N) : List N :=
  ((s.find name).map Registration.deps).getD [] |>.flatMap fun dep =>
    dep :: (((s.find dep).bind Registration.keyHolder).toList)

def recomputeRanks : TransactionEngine N K Fn W :=
  if s.ranksDirty then
    let settled := Relaxation.settle s.below (s.resources.map Registration.name)
      s.resources.length (fun _ => 0)
    { s with
      ranksDirty := false
      referenceCycle := settled.2
      resources := s.resources.map (fun r => { r with rank := settled.1 r.name }) }
  else s

end

/-! ### Registration -/

section

variable [DecidableEq N] [DecidableEq K] [ToString N]

def newRegistration (resource : Resource N) : Registration N K where
  resource := resource
  deps := resource.declared.filter s.registered
  unresolved := resource.declared.filter (fun name => ¬ s.registered name)
  keyHolder := none
  incoming := ∅
  pendingRemovals := 0
  touched := false
  lastOp := 0
  rank := 0

/-- Puts a new registration among the others, and binds to it what names it. `emplace` is where
the hash map of the registrations puts a new one. -/
def enroll (emplace : Registration N K → List (Registration N K) → List (Registration N K))
    (s : TransactionEngine N K Fn W) (resource : Resource N) : TransactionEngine N K Fn W :=
  let s := s.setResources (emplace (s.newRegistration resource) s.resources)
  let s := s.setResources (s.resources.map s.rebindDependencies)
  (s.rebuildIncoming D).dirty.recomputeRanks

def register (emplace : Registration N K → List (Registration N K) → List (Registration N K))
    (s : TransactionEngine N K Fn W) (resource : Resource N) :
    TransactionEngine N K Fn W × Except String Unit :=
  if s.registered resource.name then
    (s, .error ("resource '" ++ toString resource.name ++ "' is already registered"))
  else if resource.name ∈ resource.declared then
    (s, .error ("resource '" ++ toString resource.name ++ "' cannot reference itself"))
  else if resource.declared ≠ [] ∧ D.liveCount s.world resource.name ≠ 0 then
    (s, .error ("resource '" ++ toString resource.name
      ++ "' is populated and may reference others: its "
      ++ "existing references are unknown to the engine"))
  else (s.enroll D emplace resource, .ok ())

end

/-! ### Removal cascades -/

section

variable [DecidableEq N]

/-- A removal of `owner` has run. -/
def stepDone (owner : N) : TransactionEngine N K Fn W :=
  { s.modify owner (fun r => { r with pendingRemovals := r.pendingRemovals - 1 }) with
    deferredObjects := s.deferredObjects - 1 }

/-- Runs the steps of a stage until one is refused memory. Answers the steps left, and what the
others handed over: the objects to retire, with their owners, and the callbacks. -/
def runSteps (D : Dataplane N K V Staged Fn W) :
    TransactionEngine N K Fn W → List (Step N Fn) →
      TransactionEngine N K Fn W × List (Step N Fn) × List (N × Fn) × List Fn
  | s, [] => (s, [], [], [])
  | s, step :: stage =>
      match D.runStep s.world step.fn with
      | none => (s, step :: stage, [], [])
      | some (w, handed) =>
          let (s, left, retires, callbacks) :=
            runSteps D ((s.setWorld w).stepDone step.owner) stage
          (s, left, handed.retires.map (step.owner, ·) ++ retires,
            handed.callbacks ++ callbacks)

/-- Hands what a retirer collected to the domain. -/
def finish (w : W) (retires : List (N × Fn)) (callbacks : List Fn) (token : ℕ) : W :=
  callbacks.foldl (fun w fn => D.runCallback w fn token)
    (retires.foldl (fun w p => D.retire w p.1 p.2 token) w)

/-- Advances a cascade while its token is complete, it has a stage left, and the retire queue
has room for the stage. -/
def advance (D : Dataplane N K V Staged Fn W) :
    TransactionEngine N K Fn W → ℕ → List (List (Step N Fn)) →
      TransactionEngine N K Fn W × Cascade N Fn
  | s, token, [] => (s, ⟨token, []⟩)
  | s, token, stage :: stages =>
      match D.isComplete s.world token with
      | (w, false) => (s.setWorld w, ⟨token, stage :: stages⟩)
      | (w, true) =>
          if D.pendingRetired w + stage.length > D.retireBudget then
            (s.setWorld w, ⟨token, stage :: stages⟩)
          else
            let (s, left, retires, callbacks) := runSteps D (s.setWorld w) stage
            let (w, token) := D.startGracePeriod s.world
            let s := s.setWorld (finish D w retires callbacks token)
            -- a step was refused: the rest of the stage waits another grace period
            if left ≠ [] then (s, ⟨token, left :: stages⟩)
            else advance D s token stages

/-- Advances every cascade, and keeps those with a stage left. -/
def advanceAll (D : Dataplane N K V Staged Fn W) :
    TransactionEngine N K Fn W → List (Cascade N Fn) →
      TransactionEngine N K Fn W × List (Cascade N Fn)
  | s, [] => (s, [])
  | s, cascade :: cascades =>
      let (s, cascade) := advance D s cascade.token cascade.stages
      let (s, kept) := advanceAll D s cascades
      (s, if cascade.stages = [] then kept else cascade :: kept)

def reclaimRetired : TransactionEngine N K Fn W :=
  let (s, kept) := advanceAll D s s.cascades
  { s with cascades := kept, world := D.reclaimReady s.world }

end

def advanceGeneration : TransactionEngine N K Fn W :=
  { s with generation := s.generation + 1 }

/-! ### Leaving -/

section

variable [DecidableEq N] [DecidableEq K] [ToString N]

/-- What still keeps a resource of a group that is to leave: removals that have not run, or
retired objects that are not destroyed. -/
def stillWaiting (name : N) : Option String :=
  if ((s.find name).map Registration.pendingRemovals).getD 0 ≠ 0 then
    some ("removals of '" ++ toString name ++ "' are still waiting for readers")
  else if D.outstanding s.world name ≠ 0 then
    some (toString (D.outstanding s.world name) ++ " retired object(s) of '" ++ toString name
      ++ "' are still waiting for readers")
  else none

/-- Whether `other` declares `name`, as a reference, bound or not, or as its key holder. -/
def declares (other : Registration N K) (name : N) : Bool :=
  other.resource.keyHolder = some name ∨ name ∈ other.deps ∨ name ∈ other.unresolved

/-- What keeps a member of a group from being unregistered with the group. -/
def stillNeeded (group : List N) (name : N) : Option String :=
  let declarers := s.resources.filter (declares · name)
  match declarers.find? (fun other => other.name ∉ group) with
  | some other =>
      some ("resource '" ++ toString other.name
        ++ (if other.resource.keyHolder = some name then "' hands keys to '"
            else "' may reference '")
        ++ toString name ++ "' (unregister it first, or with it)")
  | none =>
      (s.find name).bind fun reg =>
        match reg.deps.find? (fun dep => dep ∉ group ∧ D.liveCount s.world name ≠ 0) with
        | some dep =>
            some ("resource '" ++ toString name ++ "' still has "
              ++ toString (D.liveCount s.world name) ++ " live key(s) referencing '"
              ++ toString dep ++ "'")
        | none =>
            if declarers = [] ∧ reg.incoming.keys ≠ [] then
              some ("keys of '" ++ toString name ++ "' are still referenced")
            else none

/-- The named registrations, each once. -/
def group (names : List N) : List N :=
  names.foldl (fun group name => if name ∈ group then group else group ++ [name]) []

def unregister (names : List N) : TransactionEngine N K Fn W × Except String Unit :=
  match names.find? (fun name => ¬ s.registered name) with
  | some name => (s, .error ("resource '" ++ toString name ++ "' is not registered"))
  | none =>
      match (group names).findSome? (s.stillNeeded D (group names)) with
      | some error => (s, .error error)
      | none =>
          let s := s.reclaimRetired D
          let s := s.setWorld (D.reclaimReady s.world)
          match (group names).findSome? (s.stillWaiting D) with
          | some error => (s, .error error)
          | none =>
              (s.setResources (s.resources.filter (fun r => r.name ∉ group names)), .ok ())

/-- Unbinds a declaration of `name`, which stays declared. -/
def unbind (name : N) (other : Registration N K) : Registration N K :=
  { other with
    deps := other.deps.filter (fun dep => dep ≠ name)
    unresolved := if name ∈ other.deps ∧ name ∉ other.unresolved
      then other.unresolved ++ [name] else other.unresolved
    keyHolder := if other.keyHolder = some name then none else other.keyHolder }

/-- Takes a group out, leaving what names its members declared but unbound. -/
def dismiss (group : List N) : TransactionEngine N K Fn W :=
  let left := s.resources.filter (fun r => r.name ∉ group)
  let s := s.setResources (left.map (fun r => group.foldl (fun r name => unbind name r) r))
  (s.rebuildIncoming D).dirty

def releaseForTeardown (names : List N) : TransactionEngine N K Fn W × Except String Unit :=
  let s := s.reclaimRetired D
  let s := s.setWorld (D.reclaimReady s.world)
  let group := group (names.filter s.registered)
  match group.findSome? (s.stillWaiting D) with
  | some error => (s, .error error)
  | none => (s.dismiss D group, .ok ())

end

end TransactionEngine

end Engine
