import Mathlib.Data.List.AList
import Mathlib.Data.List.Sort

/-!
# Resources and the operations a transaction applies to them

A resource is a named, keyed collection of dataplane state that packets read. The engine
reaches resources, the work they stage, and the RCU domain only through their methods, which
here act on one world `W`: everything outside the engine. `Dataplane` is that interface.

Names `N`, keys `K` and values `V` are arbitrary. The engine compares names and keys, orders
keys, and puts both in the texts of its answers.
-/

namespace Engine

inductive OpKind : Type where
  | upsert
  | erase
  deriving DecidableEq

/-- One change to one key of one resource. An erase has no value, and an upsert without one is
refused. -/
structure Op (N K V : Type) : Type where
  resource : N
  kind : OpKind
  key : K
  value : Option V
  deriving DecidableEq

def Op.erase {N K V : Type} (resource : N) (key : K) : Op N K V :=
  ⟨resource, .erase, key, none⟩

def Op.upsert {N K V : Type} (resource : N) (key : K) (value : V) : Op N K V :=
  ⟨resource, .upsert, key, some value⟩

/-- A reference from a value to a key of another resource. -/
structure Reference (N K : Type) : Type where
  resource : N
  key : K
  deriving DecidableEq

/-- Upper bounds on what an operation hands over when it is published. The code has them, and their
sums over a transaction, in a `uint32_t`; here the sums do not wrap. -/
structure Footprint : Type where
  retires : ℕ := 0
  removals : ℕ := 0
  callbacks : ℕ := 0

/-- What a resource answers when it has done the fallible work of an operation: the staged
work, the references of the new value, and those of the value the key had before. -/
structure Reservation (N K Staged : Type) : Type where
  staged : Staged
  references : List (Reference N K)
  footprint : Footprint
  existed : Bool
  previousReferences : List (Reference N K)

inductive Consistency : Type where
  | referential
  | scopeSnapshot
  deriving DecidableEq

/-- What one call of a publication or of a removal step hands to the retirer: objects to free
after a grace period, removals to run in the cascade, and callbacks that take the token. -/
structure Handed (Fn : Type) : Type where
  retires : List Fn := []
  removals : List Fn := []
  callbacks : List Fn := []

/-- The parts of a resource object that are fixed when it is constructed. The identity is the
address of the object. -/
structure Resource (N : Type) : Type where
  name : N
  declared : List N
  keyHolder : Option N
  identity : ℕ
  deriving DecidableEq

/-- The methods of the registered resources, of the work they stage, and of the RCU domain.
`Fn` is the type of the callables a retirer keeps. -/
structure Dataplane (N K V Staged Fn W : Type) : Type where
  /-- Where the registration of a resource lives: operations and references are sorted by it. -/
  address : N ↪ ℕ
  contains : W → N → K → Bool
  visitReferences : W → N → List (Reference N K)
  /-- The last argument tells whether the transaction in progress is to be taken into account. -/
  heldByKeyHolder : W → N → K → Bool → Bool
  reserve : W → Op N K V → W × Except String (Reservation N K Staged)
  prepare : W → N → W × Except String Unit
  defersErase : N → Bool
  providedConsistency : N → Consistency
  endTransaction : W → N → W
  liveCount : W → N → ℕ
  publish : W → Staged → W × Handed Fn
  abort : W → Staged → W
  /-- A removal step, or `none` if it is refused memory, having changed nothing. -/
  runStep : W → Fn → Option (W × Handed Fn)
  retireHighWater : ℕ
  startGracePeriod : W → W × ℕ
  /-- Whether the grace period of a token is over. Readers move on between two calls. -/
  isComplete : W → ℕ → W × Bool
  pendingRetired : W → ℕ
  /-- Hands an object of a resource to the domain, to be freed when the token completes. -/
  retire : W → N → Fn → ℕ → W
  runCallback : W → Fn → ℕ → W
  reclaimReady : W → W
  /-- The retired objects of a resource that are not yet destroyed. -/
  outstanding : W → N → ℕ

namespace Dataplane

variable {N K V Staged Fn W : Type} (D : Dataplane N K V Staged Fn W)

/-- What one transaction may retire. -/
def retireBudget : ℕ := D.retireHighWater / 2

end Dataplane

end Engine
