import Mathlib.Data.List.AList
import Bess.Foundations.LongestMatch

/-!
# The IPv4 route table

`LpmRouteTable` maps prefixes to 24-bit values on one of two DPDK structures, `rte_lpm` or
`rte_fib`. The structure cannot be read back, so the table keeps the rules beside it, and with
`rte_fib` also counts the rules longer than /24 in each /24 block, to hold the limits itself. The
/0 route is an atomic value beside the structure, which is built with the first longer route.

What the environment decides in a call is in `Backend`: whether the memory for a structure is
admitted, whether DPDK creates it, and which adds and deletes it refuses. A refused add or delete
leaves the structure as it is; otherwise the structure is an exact longest-prefix match.
-/

open LongestMatch

namespace Route

inductive RouteError
  | invalidPrefixLength
  | hostBitsSet
  | valueOutOfRange
  | tableFull
  | notFound
  | backendFailure
  | invalidId
  | unknownNextHop
  | nextHopInUse
  | nextHopRetiring
  | enrolled
  | unknownDomain
  | domainExists
  | domainInUse
  | unsupportedBackend
  | familyDisabled
deriving DecidableEq, Repr

/-- An IPv4 prefix, the address in host byte order. -/
abbrev Ipv4Prefix := LongestMatch.Prefix 32

/-- `Ipv4Prefix::Make`. -/
def Ipv4Prefix.make (addr : BitVec 32) (length : ℕ) : Except RouteError Ipv4Prefix :=
  if hlen : 32 < length then .error .invalidPrefixLength
  else if hhost : addr &&& ~~~(mask 32 length) ≠ 0 then .error .hostBitsSet
  else .ok {
    addr := addr
    length := length
    length_le := by omega
    host := by
      intro i hi
      have hbit := congrArg (fun x => x.getMsbD i) (not_not.mp hhost)
      rcases lt_or_ge i 32 with hlt | hge
      · simpa [getMsbD_mask (show length ≤ 32 by omega), hlt, Nat.not_lt.mpr hi] using hbit
      · exact BitVec.getMsbD_of_ge addr i hge }

/-- The largest route value. -/
def kMaxValue : ℕ := 2 ^ 24 - 1

/-- Stored as the default value when there is no default route. -/
def kNoDefault : ℕ := 2 ^ 32 - 1

/-- What `rte_fib` answers for an address without a rule. -/
def kFibMiss : ℕ := kMaxValue + 1

inductive RouteBackend
  | rteLpm
  | rteFib
deriving DecidableEq, Repr

structure Config where
  maxRoutes : ℕ := 1024
  tbl8Groups : ℕ := 256
  backend : RouteBackend := .rteLpm

/-- The DPDK structure of an instance, with the rules it holds. -/
inductive Dpdk
  | none
  | lpm (rules : Ipv4Prefix → Option ℕ)
  | fib (rules : Ipv4Prefix → Option ℕ)

namespace Dpdk

/-- The rules of the structure, none without one. -/
def rules : Dpdk → Ipv4Prefix → Option ℕ
  | none => fun _ => Option.none
  | lpm rules => rules
  | fib rules => rules

/-- There is a structure. -/
def made : Dpdk → Bool
  | none => false
  | lpm _ | fib _ => true

def isFib : Dpdk → Bool
  | fib _ => true
  | none | lpm _ => false

/-- The structure with its rules changed at a prefix. -/
def write (p : Ipv4Prefix) (value : Option ℕ) : Dpdk → Dpdk
  | none => none
  | lpm rules => lpm (Function.update rules p value)
  | fib rules => fib (Function.update rules p value)

/-- An empty structure of the configured kind. -/
def empty : RouteBackend → Dpdk
  | .rteLpm => lpm fun _ => Option.none
  | .rteFib => fib fun _ => Option.none

end Dpdk

/-- What readers see: the structure and the default value that goes with it. -/
structure Instance where
  dpdk : Dpdk
  defaultValue : ℕ

namespace Instance

section

variable (instance_ : Instance) (addr : BitVec 32)

/-- `View::LookupOrMiss`: the value for an address, or `kNoDefault`. -/
def lookupOrMiss : ℕ :=
  match instance_.dpdk with
  | .none => instance_.defaultValue
  | .lpm rules =>
      match lookup rules addr with
      | some value => value
      | none => instance_.defaultValue
  | .fib rules =>
      let nh := (lookup rules addr).getD kFibMiss
      if nh ≠ kFibMiss then nh else instance_.defaultValue

/-- `View::Lookup`. -/
def lookup? : Option ℕ :=
  let value := instance_.lookupOrMiss addr
  if value = kNoDefault then none else some value

/-- One position of `View::LookupBatch`: whether the structure has the address, and the value
written. -/
def lookupOne : Bool × ℕ :=
  match instance_.dpdk with
  | .none => (false, instance_.defaultValue)
  | .lpm rules =>
      match lookup rules addr with
      | some value => (true, value)
      | none => (false, instance_.defaultValue)
  | .fib rules =>
      let nh := (lookup rules addr).getD kFibMiss
      if nh ≠ kFibMiss then (true, nh) else (false, instance_.defaultValue)

end

end Instance

/-- Why the backend does not take an add. -/
inductive Refusal
  | noSpace
  | other
deriving DecidableEq, Repr

/-- The error a refused add is reported as. -/
def Refusal.error : Refusal → RouteError
  | noSpace => .tableFull
  | other => .backendFailure

/-- What the environment does in a call: the admission of memory, the creation of a structure,
and the adds and deletes it refuses. -/
structure Backend where
  admits : Bool
  creates : Option Refusal
  adds : Ipv4Prefix → Option Refusal
  deletes : Ipv4Prefix → Bool

/-- How a call ends. -/
inductive Outcome
  | ok
  | error (e : RouteError)
  /-- `utils::MemoryRefused` is thrown. -/
  | memoryRefused
deriving DecidableEq, Repr

/-- `std::map::try_emplace`: a key that is there keeps its value. -/
def tryEmplace {K V : Type} [DecidableEq K] (m : AList (fun _ : K => V)) (key : K) (value : V) :
    AList (fun _ : K => V) :=
  if key ∈ m then m else m.insert key value

/-- The /24 block of a prefix. -/
def block (p : Ipv4Prefix) : BitVec 32 :=
  p.addr >>> 8

/-- `std::map` orders the prefixes by address, then by length. -/
def Ipv4Prefix.le (p q : Ipv4Prefix) : Bool :=
  decide (p.addr.toNat < q.addr.toNat ∨ p.addr = q.addr ∧ p.length ≤ q.length)

structure LpmRouteTable where
  config : Config
  live : Instance
  built : Bool
  rules : AList (fun _ : Ipv4Prefix => ℕ)
  defaultRoute : Option ℕ
  fibBlocks : AList (fun _ : BitVec 32 => ℕ)

section

variable {K V : Type}

theorem mem_mergeSort_entries [DecidableEq K] {rules : AList (fun _ : K => V)} {p : K} {value : V}
    {le : K × V → K × V → Bool} :
  (p, value) ∈ (rules.entries.map fun entry => (entry.1, entry.2)).mergeSort le
    ↔ rules.lookup p = some value
  := by
  rw [List.mem_mergeSort, List.mem_map, ← Option.mem_def, AList.mem_lookup_iff]
  constructor
  · rintro ⟨⟨q, value'⟩, hmem, hentry⟩
    cases hentry
    exact hmem
  intro hmem
  use ⟨p, value⟩, hmem

theorem keys_mergeSort_entries (rules : AList (fun _ : K => V)) (le : K × V → K × V → Bool) :
  (((rules.entries.map fun entry => (entry.1, entry.2)).mergeSort le).map (·.1)).Perm rules.keys
  := by
  have hperm := (List.mergeSort_perm (rules.entries.map fun entry => (entry.1, entry.2)) le).map
    (·.1)
  rw [List.map_map] at hperm
  exact hperm

end

namespace LpmRouteTable

/-- A route of a replacement. -/
structure Rule where
  p : Ipv4Prefix
  value : ℕ

/-- `Create`: no structure until a route longer than /0. -/
def create (config : Config) : LpmRouteTable where
  config := config
  live := ⟨.none, kNoDefault⟩
  built := false
  rules := ∅
  defaultRoute := none
  fibBlocks := ∅

/-- `NewInstance`. -/
def newInstance (config : Config) (env : Backend) (defaultValue : ℕ) (build : Bool) :
    Except RouteError Instance :=
  if !build then .ok ⟨.none, defaultValue⟩
  else match env.creates with
    | some refusal => .error refusal.error
    | none => .ok ⟨.empty config.backend, defaultValue⟩

variable (t : LpmRouteTable)

/-- `PublishLocked`. -/
def publishLocked (fresh : Instance) : LpmRouteTable :=
  { t with live := fresh, built := fresh.dpdk.made }

/-- `FibAdmits`: whether a new prefix stays within the limits. -/
def fibAdmits (config : Config) (blocks : AList (fun _ : BitVec 32 => ℕ)) (routes : ℕ)
    (p : Ipv4Prefix) : Bool :=
  decide (routes < config.maxRoutes)
    && (decide (p.length ≤ 24) || decide (block p ∈ blocks)
      || decide (blocks.keys.length < config.tbl8Groups))

/-- The rest of `Upsert` once there is a structure. The shadow entries are made first, and taken
back when the prefix does not fit or the backend refuses it. -/
def addRule (env : Backend) (p : Ipv4Prefix) (value : ℕ) : Outcome × LpmRouteTable :=
  let routes := t.rules.keys.length
  let inserted := decide (p ∉ t.rules)
  let rules := tryEmplace t.rules p value
  let fib := t.live.dpdk.isFib
  let deep := fib && inserted && decide (24 < p.length)
  if fib && inserted && !fibAdmits t.config t.fibBlocks routes p then
    (.error .tableFull, { t with rules := rules.erase p })
  else
    let blocks := if deep then tryEmplace t.fibBlocks (block p) 0 else t.fibBlocks
    match env.adds p with
    | some refusal =>
        (.error refusal.error,
          { t with
            rules := if inserted then rules.erase p else rules
            fibBlocks := if deep && blocks.lookup (block p) == some 0 then blocks.erase (block p)
              else blocks })
    | none =>
        (.ok,
          { t with
            live := { t.live with dpdk := t.live.dpdk.write p (some value) }
            rules := rules.insert p value
            fibBlocks := if deep then
                blocks.insert (block p) ((blocks.lookup (block p)).getD 0 + 1)
              else blocks })

/-- `Upsert`. -/
def upsert (env : Backend) (p : Ipv4Prefix) (value : ℕ) : Outcome × LpmRouteTable :=
  if kMaxValue < value then (.error .valueOutOfRange, t)
  else if p.length = 0 then
    (.ok, { t with live := { t.live with defaultValue := value }, defaultRoute := some value })
  else if t.built then t.addRule env p value
  else if !env.admits then (.memoryRefused, t)
  else match newInstance t.config env (t.defaultRoute.getD kNoDefault) true with
    | .error e => (.error e, t)
    | .ok fresh => (t.publishLocked fresh).addRule env p value

/-- `Erase`. -/
def erase (t : LpmRouteTable) (env : Backend) (p : Ipv4Prefix) : Outcome × LpmRouteTable :=
  if p.length = 0 then
    match t.defaultRoute with
    | none => (.error .notFound, t)
    | some _ =>
        (.ok, { t with live := { t.live with defaultValue := kNoDefault }, defaultRoute := none })
  else if p ∉ t.rules then (.error .notFound, t)
  else if env.deletes p then (.error .backendFailure, t)
  else
    let count := (t.fibBlocks.lookup (block p)).getD 0 - 1
    (.ok,
      { t with
        live := { t.live with dpdk := t.live.dpdk.write p none }
        rules := t.rules.erase p
        fibBlocks := if t.live.dpdk.isFib && decide (24 < p.length) then
            if count = 0 then t.fibBlocks.erase (block p) else t.fibBlocks.insert (block p) count
          else t.fibBlocks })

/-- `Clear`. -/
def clear (env : Backend) : Outcome × LpmRouteTable :=
  match newInstance t.config env (t.defaultRoute.getD kNoDefault) false with
  | .error e => (.error e, t)
  | .ok fresh => (.ok, { t.publishLocked fresh with rules := ∅, fibBlocks := ∅ })

/-- The rules and the default of a replacement, or the error of a value out of range. -/
def collect : List Rule → AList (fun _ : Ipv4Prefix => ℕ) → Option ℕ →
    Except RouteError (AList (fun _ : Ipv4Prefix => ℕ) × Option ℕ)
  | [], rules, defaultRoute => .ok (rules, defaultRoute)
  | rule :: rest, rules, defaultRoute =>
      if kMaxValue < rule.value then .error .valueOutOfRange
      else if rule.p.length = 0 then collect rest rules (some rule.value)
      else collect rest (rules.insert rule.p rule.value) defaultRoute

/-- The loop of `ReplaceAll` that places the rules in the fresh structure. -/
def fill (config : Config) (env : Backend) :
    List (Ipv4Prefix × ℕ) → Dpdk → AList (fun _ : BitVec 32 => ℕ) → ℕ →
      Except RouteError (Dpdk × AList (fun _ : BitVec 32 => ℕ))
  | [], dpdk, blocks, _ => .ok (dpdk, blocks)
  | (p, value) :: rest, dpdk, blocks, placed =>
      if dpdk.isFib && !fibAdmits config blocks placed p then .error .tableFull
      else match env.adds p with
        | some refusal => .error refusal.error
        | none =>
            fill config env rest (dpdk.write p (some value))
              (if dpdk.isFib && decide (24 < p.length) then
                  blocks.insert (block p) ((blocks.lookup (block p)).getD 0 + 1)
                else blocks)
              (placed + 1)

/-- The entries of a map as `std::map` goes over them. -/
def inOrder (rules : AList (fun _ : Ipv4Prefix => ℕ)) : List (Ipv4Prefix × ℕ) :=
  (rules.entries.map fun entry => (entry.1, entry.2)).mergeSort fun a b => Ipv4Prefix.le a.1 b.1

/-- `ReplaceAll`. -/
def replaceAll (env : Backend) (rules : List Rule) : Outcome × LpmRouteTable :=
  match collect rules ∅ none with
  | .error e => (.error e, t)
  | .ok (nextRules, nextDefault) =>
      let build := !nextRules.keys.isEmpty
      if build && !env.admits then (.memoryRefused, t)
      else match newInstance t.config env (nextDefault.getD kNoDefault) build with
        | .error e => (.error e, t)
        | .ok fresh =>
            match fill t.config env (inOrder nextRules) fresh.dpdk ∅ 0 with
            | .error e => (.error e, t)
            | .ok (dpdk, nextBlocks) =>
                (.ok,
                  { t.publishLocked { fresh with dpdk := dpdk } with
                    rules := nextRules
                    fibBlocks := nextBlocks
                    defaultRoute := nextDefault })

/-- `Find`. -/
def find (p : Ipv4Prefix) : Option ℕ :=
  if p.length = 0 then t.defaultRoute else t.rules.lookup p

/-- The loop of `CoveringValue`, from a length down. -/
def coveringFrom (t : LpmRouteTable) (p : Ipv4Prefix) : ℕ → Option ℕ
  | 0 => t.defaultRoute
  | length + 1 =>
      match t.rules.lookup (Prefix.trunc p.addr (length + 1)) with
      | some value => some value
      | none => t.coveringFrom p length

/-- `CoveringValue`. -/
def coveringValue (p : Ipv4Prefix) : Option ℕ :=
  match p.length with
  | 0 => none
  | length + 1 => t.coveringFrom p length

/-- `size`. -/
def size : ℕ :=
  t.rules.keys.length + if t.defaultRoute.isSome then 1 else 0

end LpmRouteTable

end Route
