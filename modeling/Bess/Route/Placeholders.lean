import Bess.Route.TableRuns

/-!
# Routes a transaction is placing

Neither DPDK structure can promise room for a set of prefixes, so a transaction places a new
prefix when it is reserved, with the value its addresses have already: that of the longest rule
above it, or else a value readers take for a miss. Publication then stores the real value in
place, and abortion deletes the prefix.

`LpmTableResource` does this for one table, and the routes resource of the router for a table in
each domain. Both place a prefix in the same way, so what a reservation does to one table is said
once, in `Staging`: the lookups are as before, and whatever is published or aborted, in whatever
order, leaves the routes it should.
-/

open List LongestMatch Function

namespace Route

open LpmRouteTable

/-- `RouteErrorName`. -/
def RouteError.name : RouteError → String
  | invalidPrefixLength => "prefix length exceeds the address-family limit"
  | hostBitsSet => "address has bits set beyond the prefix length"
  | valueOutOfRange => "route value does not fit in 24 bits"
  | tableFull => "route table is full (rules or tbl8 groups)"
  | notFound => "no such route"
  | backendFailure => "route backend (rte_lpm or rte_fib) failure"
  | invalidId => "id is zero or beyond the configured capacity"
  | unknownNextHop => "no such next hop"
  | nextHopInUse => "next hop is still referenced by routes"
  | enrolled => "the router is enrolled in transactions: write it through them"
  | nextHopRetiring => "next hop retiring"
  | unknownDomain => "no such route domain"
  | domainExists => "route domain already exists"
  | domainInUse => "route domain is the default or still has routes"
  | unsupportedBackend => "the rte_fib route backend needs x86-64 (D-132)"
  | familyDisabled => "the address family is not enabled on this router"

/-- An operation reserved on a table: an upsert, which may have placed its prefix, or an
erase. -/
inductive Staged
  | upsert (p : Ipv4Prefix) (value : ℕ) (placed : Bool)
  | erase (p : Ipv4Prefix)
deriving DecidableEq

namespace Staged

def key : Staged → Ipv4Prefix
  | upsert p _ _ => p
  | erase p => p

/-- The prefix was placed when the operation was reserved. -/
def placed : Staged → Bool
  | upsert _ _ placed => placed
  | erase _ => false

/-- What the operation leaves at its prefix. -/
def result : Staged → Option ℕ
  | upsert _ value _ => some value
  | erase _ => none

/-- The table after a call that has to succeed; there is none when the check fails. -/
def checked (r : Outcome × LpmRouteTable) : Option LpmRouteTable :=
  if r.1 = .ok then some r.2 else none

/-- `Publish`. -/
def publish (t : LpmRouteTable) (env : Backend) : Staged → Option LpmRouteTable
  | upsert p value _ => checked (t.upsert env p value)
  | erase p => checked (t.erase env p)

/-- `Abort`: a prefix that was placed is deleted. -/
def abort (t : LpmRouteTable) (env : Backend) : Staged → Option LpmRouteTable
  | upsert p _ placed => if placed then checked (t.erase env p) else some t
  | erase _ => some t

end Staged

/-- How a reservation ends. -/
inductive Reserved
  | staged (op : Staged) (existed : Bool)
  | refused (message : String)
  /-- `utils::MemoryRefused` is thrown. -/
  | memoryRefused

/-- The operations reserved so far, with the one that was. -/
def Reserved.record (ops : List Staged) : Reserved → List Staged
  | staged op _ => op :: ops
  | refused _ | memoryRefused => ops

/-- The end of `Reserve` for an upsert of a prefix that is not there: it is placed with the value
of what covers it, or else the miss. Returns the table, and the error when it does not fit. -/
def placeNew (t : LpmRouteTable) (env : Backend) (miss : ℕ) (p : Ipv4Prefix) :
    Outcome × LpmRouteTable :=
  t.upsert env p ((t.coveringValue p).getD miss)

/-! ### A table as a resource -/

/-- `LpmTableResource`. -/
structure LpmTableResource where
  table : LpmRouteTable
  missValue : ℕ
  pending : List Ipv4Prefix

namespace LpmTableResource

/-- What an operation does at its key: an upsert of a value, which may be of another type than
`uint32_t`, or an erase. -/
inductive Op
  | upsert (value : Option ℕ)
  | erase

/-- `Decode`: a key is eight bytes, or else of the wrong size. -/
def decode (key : Option (BitVec 64)) : Option Ipv4Prefix :=
  match key with
  | none => none
  | some raw =>
      if raw >>> 40 ≠ 0 then none
      else (Ipv4Prefix.make ((raw >>> 8).setWidth 32) (raw &&& 0xff).toNat).toOption

/-- `Find`: a prefix that this transaction placed is not there yet. -/
def find (r : LpmTableResource) (p : Ipv4Prefix) : Option ℕ :=
  if p ∈ r.pending then none else r.table.find p

/-- `Reserve`. -/
def reserve (r : LpmTableResource) (env : Backend) (key : Option (BitVec 64)) (op : Op) :
    Reserved × LpmTableResource :=
  match decode key with
  | none => (.refused "not a route key of a valid prefix", r)
  | some p =>
      let previous := r.find p
      match op with
      | .erase =>
          if previous = none then (.refused "not found", r)
          else (.staged (.erase p) true, r)
      | .upsert none => (.refused "wrong value type (want uint32_t)", r)
      | .upsert (some value) =>
          if kMaxValue < value then (.refused RouteError.valueOutOfRange.name, r)
          else if previous = none ∧ p.length ≠ 0 then
            match placeNew r.table env r.missValue p with
            | (.ok, table) =>
                (.staged (.upsert p value true) false,
                  { r with table := table, pending := p :: r.pending })
            | (.error e, table) => (.refused e.name, { r with table := table })
            | (.memoryRefused, table) =>
                (.memoryRefused, { r with table := table, pending := p :: r.pending })
          else (.staged (.upsert p value false) previous.isSome, r)

/-- `EndTransaction`. -/
def endTransaction (r : LpmTableResource) : LpmTableResource :=
  { r with pending := [] }

end LpmTableResource

/-! ### The routes of a router -/

/-- What a route refers to. -/
inductive Reference
  | group (id : ℕ)
  | neighbor (id : ℕ)
  | nextHop (id : ℕ)
deriving DecidableEq

/-- The IPv4 side of the routes resource of a router: the tables of its domains and what it reads
of the router. `bound` and `boundInTransaction` say which next hops are neighbor-bound, as
committed and as the transaction has them so far. -/
structure RouteResource where
  hasIpv4 : Bool
  hasIpv6 : Bool
  maxNextHops : ℕ
  maxGroups : ℕ
  maxDomains : ℕ
  config : Config
  bound : ℕ → Bool
  boundInTransaction : ℕ → Bool
  tables : ℕ → Option LpmRouteTable
  pending : List (ℕ × Ipv4Prefix)

namespace RouteResource

/-- The value of an upsert: a next hop, a group, or something of another type. -/
inductive Value
  | hop (id : ℕ)
  | group (id : ℕ)
  | other

inductive Op
  | upsert (value : Value)
  | erase

variable (r : RouteResource)

/-- A route's value that the router does not take, or the FIB value. -/
def fibValue : Value → Except String ℕ
  | .hop id => if 1 ≤ id ∧ id ≤ r.maxNextHops then .ok id else .error RouteError.invalidId.name
  | .group id =>
      if 1 ≤ id ∧ id ≤ r.maxGroups then .ok (r.maxNextHops + id)
      else .error RouteError.invalidId.name
  | .other => .error "wrong value type (want NextHopId or NextHopGroupId)"

/-- `Decode`: the domain and the prefix of a key. -/
def decode (key : Option (BitVec 64)) : Option (ℕ × Ipv4Prefix) :=
  match key with
  | none => none
  | some raw =>
      ((Ipv4Prefix.make ((raw >>> 8).setWidth 32) (raw &&& 0xff).toNat).toOption).map fun p =>
        ((raw >>> 40).toNat, p)

/-- `Find`. -/
def find (r : RouteResource) (domain : ℕ) (p : Ipv4Prefix) : Option ℕ :=
  if (domain, p) ∈ r.pending then none
  else match r.tables domain with
    | none => none
    | some table => table.find p

/-- `References`. -/
def references (value : ℕ) (inTransaction : Bool) : List Reference :=
  if r.maxNextHops < value then [.group (value - r.maxNextHops)]
  else if if inTransaction then r.boundInTransaction value else r.bound value then
    [.neighbor value]
  else [.nextHop value]

/-- What `Reserve` hands to the engine. -/
structure Reservation where
  domain : ℕ
  op : Staged
  existed : Bool
  references : List Reference
  previousReferences : List Reference

inductive Result
  | staged (reservation : Reservation)
  | refused (message : String)
  | memoryRefused

/-- `CreateDomainLocked`: a domain within the bound gets a new table. -/
def createDomain (domain : ℕ) : Except RouteError RouteResource :=
  if ¬domain < r.maxDomains then .error .invalidId
  else if (r.tables domain).isSome then .error .domainExists
  else .ok { r with tables := update r.tables domain (some (create r.config)) }

/-- The table of a domain, which is created when there is none. -/
def tableFor (domain : ℕ) : Except RouteError (LpmRouteTable × RouteResource) :=
  match r.tables domain with
  | some table => .ok (table, r)
  | none =>
      match r.createDomain domain with
      | .error e => .error e
      | .ok r =>
          match r.tables domain with
          | some table => .ok (table, r)
          | none => .error .unknownDomain

/-- `Reserve` for an IPv4 key. -/
def reserve (env : Backend) (key : Option (BitVec 64)) (op : Op) : Result × RouteResource :=
  if !r.hasIpv4 && !r.hasIpv6 then
    (.refused ("this router has no FIB (no address family is " ++
      "configured): it holds next hops, not routes"), r)
  else match decode key with
    | none => (.refused "not a route key (Router::RouteKey) of a valid prefix", r)
    | some (domain, p) =>
        if !r.hasIpv4 then (.refused RouteError.familyDisabled.name, r)
        else
          let previous := r.find domain p
          let previousReferences := (previous.map fun value => r.references value false).getD []
          match op with
          | .erase =>
              if previous = none then (.refused "not found", r)
              else (.staged ⟨domain, .erase p, true, [], previousReferences⟩, r)
          | .upsert value =>
              match r.fibValue value with
              | .error message => (.refused message, r)
              | .ok value =>
                  match r.tableFor domain with
                  | .error e => (.refused e.name, r)
                  | .ok (table, r) =>
                      let references := r.references value true
                      if previous = none ∧ p.length ≠ 0 then
                        match placeNew table env 0 p with
                        | (.ok, table) =>
                            (.staged ⟨domain, .upsert p value true, false, references, []⟩,
                              { r with
                                tables := update r.tables domain (some table)
                                pending := (domain, p) :: r.pending })
                        | (.error e, table) =>
                            (.refused e.name,
                              { r with tables := update r.tables domain (some table) })
                        | (.memoryRefused, table) =>
                            (.memoryRefused,
                              { r with
                                tables := update r.tables domain (some table)
                                pending := (domain, p) :: r.pending })
                      else
                        (.staged ⟨domain, .upsert p value false, previous.isSome, references,
                            previousReferences⟩, r)

/-- `EndTransaction`, for the IPv4 routes. -/
def endTransaction : RouteResource :=
  { r with pending := [] }

end RouteResource

/-! ### What is reserved on a table -/

/-- The backend changes and deletes the rules that are there: neither needs a tbl8 group. -/
def Obliging (env : Backend) (p : Ipv4Prefix) : Prop :=
  env.adds p = none ∧ env.deletes p = false

/-- Operations with distinct prefixes are reserved on a table: the prefixes that were placed are
new and in the table, the others stand in it, and everywhere else the table has the routes. -/
structure Held (routes : Ipv4Prefix → Option ℕ) (ops : List Staged) (t : LpmRouteTable) :
    Prop where
  kept : t.Kept
  distinct : (ops.map Staged.key).Nodup
  fresh : ∀ op ∈ ops, op.placed = true →
    op.key.length ≠ 0 ∧ routes op.key = none ∧ t.find op.key ≠ none
  standing : ∀ op ∈ ops, op.placed = false →
    op.result ≠ none ∧ op.key.length = 0 ∨ routes op.key ≠ none
  rest : ∀ p, (∀ op ∈ ops, op.placed = true → op.key ≠ p) → t.find p = routes p
  small : ∀ op ∈ ops, ∀ value, op.result = some value → value ≤ kMaxValue

/-- The operations are reserved, and no lookup shows it. -/
structure Staging (miss : ℕ) (routes : Ipv4Prefix → Option ℕ) (ops : List Staged)
    (t : LpmRouteTable) : Prop where
  held : Held routes ops t
  same : ∀ addr, reading miss (lookup t.find addr) = reading miss (lookup routes addr)

namespace LpmRouteTable

theorem coveringFrom_eq (t : LpmRouteTable) (p : Ipv4Prefix) {length : ℕ} (hle : length ≤ 32) :
  t.coveringFrom p length = upTo t.find p.addr length
  := by
  induction length with
  | zero =>
    rw [coveringFrom, upTo, find, if_pos (Prefix.length_trunc (Nat.zero_le 32))]
  | succ length ih =>
  have hne : (Prefix.trunc p.addr (length + 1)).length ≠ 0 := by
    rw [Prefix.length_trunc hle]
    omega
  rw [coveringFrom, upTo, find_of_long hne, ih (by omega)]
  cases t.rules.lookup (Prefix.trunc p.addr (length + 1)) with
  | none | some => rfl

/-- `CoveringValue` is the value of the longest route above a prefix. -/
theorem coveringValue_eq (t : LpmRouteTable) (p : Ipv4Prefix) :
  t.coveringValue p = covering t.find p
  := by
  have hle := p.length_le
  rw [coveringValue, covering]
  cases hlen : p.length with
  | zero => rfl
  | succ length => exact t.coveringFrom_eq p (by omega)

variable {t : LpmRouteTable} {env : Backend}

/-- Changing a route that is there does not fail. -/
theorem Kept.upsert_standing (h : Kept t) {p : Ipv4Prefix} {value : ℕ} (hvalue : value ≤ kMaxValue)
    (hp : p.length = 0 ∨ t.find p ≠ none) (henv : env.adds p = none) :
  (t.upsert env p value).1 = .ok
  := by
  rw [LpmRouteTable.upsert, if_neg (by omega)]
  split
  case isTrue => rfl
  case isFalse hlen =>
  have hmem : p ∈ t.rules := by
    rw [AList.mem_keys, h.mem_rules_iff]
    exact ⟨hlen, hp.resolve_left hlen⟩
  rw [h.built, if_pos (h.made_of_mem hmem), LpmRouteTable.addRule]
  simp [hmem, henv]

/-- Deleting a route that is there does not fail. -/
theorem Kept.erase_standing (h : Kept t) {p : Ipv4Prefix}
    (hp : t.find p ≠ none) (henv : env.deletes p = false) :
  (t.erase env p).1 = .ok
  := by
  rw [LpmRouteTable.erase]
  split
  case isTrue hlen =>
    rw [find, if_pos hlen] at hp
    obtain ⟨value, hvalue⟩ := Option.ne_none_iff_exists'.mp hp
    rw [hvalue]
  case isFalse hlen =>
  have hmem : p ∈ t.rules := by
    rw [AList.mem_keys, h.mem_rules_iff]
    exact ⟨hlen, hp⟩
  rw [if_neg (not_not.mpr hmem), henv]
  rfl

end LpmRouteTable

variable {t : LpmRouteTable}

theorem Held.start (h : t.Kept) :
  Held t.find [] t
  where
  kept := h
  distinct := nodup_nil
  fresh := nofun
  standing := nofun
  rest _ _ := rfl
  small := nofun

theorem Staging.start (h : t.Kept) (miss : ℕ) :
  Staging miss t.find [] t
  := ⟨Held.start h, fun _ => rfl⟩

variable {routes : Ipv4Prefix → Option ℕ} {ops : List Staged} {t t' : LpmRouteTable} {env : Backend}
  {p : Ipv4Prefix} {op : Staged}

section Reserve

variable {miss value : ℕ}

/-- A prefix that none of the operations has is in the table as before. -/
theorem Held.find_of_not_mem (h : Held routes ops t) (hp : p ∉ ops.map Staged.key) :
  t.find p = routes p
  := by
  apply h.rest
  rintro op hop - rfl
  exact hp (mem_map_of_mem hop)

section

variable (h : Staging miss routes ops t)

include h

/-- A new prefix with the value of what covers it. -/
theorem Staging.place (hp : p ∉ ops.map Staged.key) (hlen : p.length ≠ 0) (hnew : routes p = none)
    (hvalue : value ≤ kMaxValue) (hplace : placeNew t env miss p = (.ok, t')) :
  Staging miss routes (.upsert p value true :: ops) t'
  := by
  have hkept := h.held.kept
  have hfind := h.held.find_of_not_mem hp
  obtain ⟨hkept', -, hwritten, -⟩ := hkept.upsert env p ((t.coveringValue p).getD miss)
  rw [← placeNew, hplace] at hkept' hwritten
  have hfind' : t'.find = update t.find p (some ((t.coveringValue p).getD miss)) := hwritten rfl
  constructor
  · refine ⟨hkept', ?_, ?_, ?_, ?_, ?_⟩
    · rw [map_cons, nodup_cons]
      exact ⟨hp, h.held.distinct⟩
    · rw [forall_mem_cons]
      refine ⟨fun _ => ⟨hlen, hnew, ?_⟩, ?_⟩
      · change t'.find p ≠ none
        rw [hfind', update_self]
        nofun
      intro op hop hplaced
      obtain ⟨hlong, hnone, hin⟩ := h.held.fresh op hop hplaced
      have hne : op.key ≠ p := fun heq => hp (heq ▸ mem_map_of_mem hop)
      rw [hfind', update_of_ne hne]
      exact ⟨hlong, hnone, hin⟩
    · rw [forall_mem_cons]
      exact ⟨nofun, h.held.standing⟩
    · intro q hq
      rw [forall_mem_cons] at hq
      have hne : q ≠ p := fun heq => hq.1 rfl heq.symm
      rw [hfind', update_of_ne hne]
      exact h.held.rest q hq.2
    rw [forall_mem_cons]
    refine ⟨?_, h.held.small⟩
    rintro v ⟨⟩
    exact hvalue
  intro addr
  rw [hfind', t.coveringValue_eq, reading_lookup_update miss hlen (hfind.trans hnew)]
  exact h.same addr

/-- A prefix that does not fit changes nothing. -/
theorem Staging.refuse {outcome : Outcome} (hplace : placeNew t env miss p = (outcome, t'))
    (hout : outcome ≠ .ok) :
  Staging miss routes ops t'
  := by
  obtain ⟨hkept', -, -, hfailed⟩ := h.held.kept.upsert env p ((t.coveringValue p).getD miss)
  rw [← placeNew, hplace] at hkept' hfailed
  have hfind' : t'.find = t.find := (hfailed hout).find_eq
  obtain ⟨⟨-, distinct, fresh, standing, rest, small⟩, same⟩ := h
  rw [← hfind'] at same
  refine ⟨⟨hkept', distinct, ?_, standing, ?_, small⟩, same⟩
  · intro op hop hplaced
    rw [hfind']
    exact fresh op hop hplaced
  intro q hq
  rw [hfind']
  exact rest q hq

/-- An operation on a route that is there, or on the default route, places nothing. -/
theorem Staging.stand (hp : op.key ∉ ops.map Staged.key) (hplaced : op.placed = false)
    (hstanding : op.result ≠ none ∧ op.key.length = 0 ∨ routes op.key ≠ none)
    (hsmall : ∀ value, op.result = some value → value ≤ kMaxValue) :
  Staging miss routes (op :: ops) t
  := by
  obtain ⟨⟨kept, distinct, fresh, standing, rest, small⟩, same⟩ := h
  refine ⟨⟨kept, ?_, ?_, ?_, ?_, ?_⟩, same⟩
  · rw [map_cons, nodup_cons]
    exact ⟨hp, distinct⟩
  · rw [forall_mem_cons]
    refine ⟨fun hnot => ?_, fresh⟩
    rw [hplaced] at hnot
    cases hnot
  · rw [forall_mem_cons]
    exact ⟨fun _ => hstanding, standing⟩
  · intro q hq
    rw [forall_mem_cons] at hq
    exact rest q hq.2
  rw [forall_mem_cons]
  exact ⟨hsmall, small⟩

end

/-- What an operation that sets a route finds if it has nothing to place. -/
theorem upsert_stands {p : Ipv4Prefix} {previous : Option ℕ}
    (hold : ¬ (previous = none ∧ p.length ≠ 0)) (value : ℕ) :
  Staged.result (.upsert p value false) ≠ none ∧ p.length = 0 ∨ previous ≠ none
  := by
  by_cases hlen : p.length = 0
  · exact .inl ⟨nofun, hlen⟩
  · exact .inr fun hnone => hold ⟨hnone, hlen⟩

end Reserve

/-! ### Publishing and aborting -/

section Settle

variable {op : Staged}

section

variable (h : Held routes (op :: ops) t)

include h

/-- The table changed at the prefix of the first operation, to what the routes now have there. -/
theorem Held.settled (hkept : t'.Kept) {value : Option ℕ}
    (hfind : t'.find = update t.find op.key value) :
  Held (update routes op.key value) ops t'
  := by
  obtain ⟨-, distinct, fresh, standing, rest, small⟩ := h
  rw [map_cons, nodup_cons] at distinct
  have hother : ∀ op' ∈ ops, op'.key ≠ op.key := fun op' hop' heq =>
    distinct.1 (heq ▸ mem_map_of_mem hop')
  refine ⟨hkept, distinct.2, ?_, ?_, ?_, ?_⟩
  · intro op' hop' hplaced
    rw [hfind, update_of_ne (hother op' hop'), update_of_ne (hother op' hop')]
    exact fresh op' (mem_cons_of_mem op hop') hplaced
  · intro op' hop' hplaced
    rw [update_of_ne (hother op' hop')]
    exact standing op' (mem_cons_of_mem op hop') hplaced
  · intro q hq
    by_cases heq : q = op.key
    · rw [heq, hfind, update_self, update_self]
    rw [hfind, update_of_ne heq, update_of_ne heq]
    apply rest
    rw [forall_mem_cons]
    exact ⟨fun _ hkey => heq hkey.symm, hq⟩
  intro op' hop'
  exact small op' (mem_cons_of_mem op hop')

/-- Where nothing was placed, the table has the routes. -/
theorem Held.find_key (hplaced : op.placed = false) :
  t.find op.key = routes op.key
  := by
  have hdistinct := h.distinct
  rw [map_cons, nodup_cons] at hdistinct
  apply h.rest
  rw [forall_mem_cons]
  refine ⟨fun hnot => ?_, fun op' hop' _ heq => ?_⟩
  · rw [hplaced] at hnot
    cases hnot
  · exact hdistinct.1 (heq ▸ mem_map_of_mem hop')

/-- The operation's route is in the table, or it is the default route. -/
theorem Held.standing_or_fresh :
  op.result ≠ none ∧ op.key.length = 0 ∨ t.find op.key ≠ none
  := by
  cases hplaced : op.placed with
  | true => exact Or.inr (h.fresh op mem_cons_self hplaced).2.2
  | false =>
  rw [h.find_key hplaced]
  exact h.standing op mem_cons_self hplaced

end

theorem Staged.checked_of_ok {r : Outcome × LpmRouteTable} (h : r.1 = .ok) :
  checked r = some r.2
  := if_pos h

/-- Publishing an operation does not fail, and leaves its result at its prefix. -/
theorem Held.publish (h : Held routes (op :: ops) t) (henv : Obliging env op.key) :
  ∃ t', op.publish t env = some t' ∧ Held (update routes op.key op.result) ops t'
  := by
  have hin := h.standing_or_fresh
  cases op with
  | upsert p value placed =>
    have hvalue := h.small _ mem_cons_self value rfl
    have hok := h.kept.upsert_standing hvalue (hin.imp_left And.right) henv.1
    have hends := h.kept.upsert env p value
    exact ⟨_, Staged.checked_of_ok hok, h.settled hends.kept (hends.written hok)⟩
  | erase p =>
  have hfind := hin.resolve_left fun hnot => hnot.1 rfl
  have hok := h.kept.erase_standing hfind henv.2
  have hends := h.kept.erase env p
  exact ⟨_, Staged.checked_of_ok hok, h.settled hends.kept (hends.written hok)⟩

/-- Aborting an operation does not fail, and leaves the routes as they were. -/
theorem Held.abort (h : Held routes (op :: ops) t) (henv : Obliging env op.key) :
  ∃ t', op.abort t env = some t' ∧ Held routes ops t'
  := by
  -- an operation that placed nothing leaves the table alone
  have hidle : op.placed = false → Held routes ops t := by
    intro hplaced
    have hheld := h.settled h.kept (update_eq_self op.key t.find).symm
    rw [h.find_key hplaced, update_eq_self] at hheld
    exact hheld
  cases op with
  | erase p => exact ⟨t, rfl, hidle rfl⟩
  | upsert p value placed =>
  cases placed with
  | false => exact ⟨t, rfl, hidle rfl⟩
  | true =>
  obtain ⟨-, hnone, hin⟩ := h.fresh _ mem_cons_self rfl
  have hok := h.kept.erase_standing hin henv.2
  have hends := h.kept.erase env p
  have hheld := h.settled hends.kept (hends.written hok)
  rw [← hnone, update_eq_self] at hheld
  exact ⟨_, Staged.checked_of_ok hok, hheld⟩

/-- An operation is published or aborted. -/
def settle (env : Ipv4Prefix → Backend) (t : LpmRouteTable) (choice : Staged × Bool) :
    Option LpmRouteTable :=
  if choice.2 then choice.1.publish t (env choice.1.key) else choice.1.abort t (env choice.1.key)

/-- The operations are published or aborted one after another. -/
def settleAll (env : Ipv4Prefix → Backend) (t : LpmRouteTable) :
    List (Staged × Bool) → Option LpmRouteTable
  | [] => some t
  | choice :: rest => (settle env t choice).bind fun t => settleAll env t rest

/-- Whatever is published and whatever is aborted, the published operations leave their results
and everything else is as before. -/
theorem Held.settleAll {env : Ipv4Prefix → Backend} (choices : List (Staged × Bool))
    (h : Held routes (choices.map Prod.fst) t) (henv : ∀ p, Obliging (env p) p) :
  ∃ t', settleAll env t choices = some t' ∧ t'.Kept
    ∧ (∀ op, (op, true) ∈ choices → t'.find op.key = op.result)
    ∧ ∀ p, (∀ op, (op, true) ∈ choices → op.key ≠ p) → t'.find p = routes p
  := by
  induction choices generalizing routes t with
  | nil => exact ⟨t, rfl, h.kept, nofun, fun p _ => h.rest p nofun⟩
  | cons choice choices ih =>
  obtain ⟨op, publish⟩ := choice
  have hdistinct := h.distinct
  rw [map_cons, map_cons, nodup_cons] at hdistinct
  have hother : ∀ op', (op', true) ∈ choices → op'.key ≠ op.key := fun op' hop' heq =>
    hdistinct.1 (heq ▸ mem_map_of_mem (mem_map_of_mem hop'))
  have hstep : ∃ t₁, settle env t (op, publish) = some t₁
      ∧ Held (if publish then update routes op.key op.result else routes)
        (choices.map Prod.fst) t₁ := by
    cases publish with
    | true => exact h.publish (henv op.key)
    | false => exact h.abort (henv op.key)
  obtain ⟨t₁, hsettle, hheld⟩ := hstep
  obtain ⟨t', hall, hkept, hresults, hrest⟩ := ih hheld
  refine ⟨t', ?_, hkept, ?_, ?_⟩
  · rw [Route.settleAll, hsettle]
    exact hall
  · intro op' hop'
    rcases mem_cons.mp hop' with heq | hop'
    · cases heq
      rw [hrest op.key hother, if_pos rfl, update_self]
    · exact hresults op' hop'
  intro p hp
  rw [hrest p fun op' hop' => hp op' (mem_cons_of_mem _ hop')]
  split
  case isTrue hpublish =>
    subst hpublish
    exact update_of_ne (fun heq => hp op mem_cons_self heq.symm) ..
  case isFalse => rfl

end Settle

/-- The routes once the chosen operations are published. -/
def published (routes : Ipv4Prefix → Option ℕ) (choices : List (Staged × Bool)) (p : Ipv4Prefix) :
    Option ℕ :=
  match choices.find? fun choice => choice.2 && decide (choice.1.key = p) with
  | some choice => choice.1.result
  | none => routes p

/-- After a reservation no lookup has changed. The operations can then be published or aborted,
each as one chooses and in any order, and this leaves the routes with the published ones. -/
structure Invisible (miss : ℕ) (t₀ : LpmRouteTable) (ops : List Staged) (t : LpmRouteTable) :
    Prop where
  same : ∀ addr, reading miss (t.live.lookup? addr) = reading miss (t₀.live.lookup? addr)
  settles : ∀ (choices : List (Staged × Bool)) (env : Ipv4Prefix → Backend),
    (choices.map Prod.fst).Perm ops → (∀ p, Obliging (env p) p) →
      ∃ t', settleAll env t choices = some t' ∧ t'.find = published t₀.find choices
        ∧ ∀ addr, t'.live.lookup? addr = lookup (published t₀.find choices) addr
  aborts : ∀ (order : List Staged) (env : Ipv4Prefix → Backend),
    order.Perm ops → (∀ p, Obliging (env p) p) →
      ∃ t', settleAll env t (order.map fun op => (op, false)) = some t' ∧ t'.find = t₀.find

theorem Held.perm {ops' : List Staged} (h : Held routes ops t) (hperm : ops'.Perm ops) :
  Held routes ops' t
  where
  kept := h.kept
  distinct := (hperm.map _).nodup_iff.mpr h.distinct
  fresh op hop := h.fresh op (hperm.mem_iff.mp hop)
  standing op hop := h.standing op (hperm.mem_iff.mp hop)
  rest p hp := h.rest p fun op hop => hp op (hperm.mem_iff.mpr hop)
  small op hop := h.small op (hperm.mem_iff.mp hop)

theorem Staging.invisible {miss : ℕ} {t₀ : LpmRouteTable}
    (h : Staging miss t₀.find ops t) (hkept : t₀.Kept) :
  Invisible miss t₀ ops t
  where
  same addr := by
    rw [h.held.kept.lookup_eq, hkept.lookup_eq]
    exact h.same addr
  settles choices env hperm henv := by
    obtain ⟨t', hall, hkept', hresults, hrest⟩ := (h.held.perm hperm).settleAll choices henv
    have hfind : t'.find = published t₀.find choices := by
      funext p
      rw [published]
      split
      case h_1 op hfound =>
        obtain ⟨op, publish⟩ := op
        have hchosen := find?_some hfound
        rw [Bool.and_eq_true, decide_eq_true_iff] at hchosen
        obtain ⟨rfl, rfl⟩ := hchosen
        exact hresults op (mem_of_find?_eq_some hfound)
      case h_2 hnone =>
      apply hrest
      rintro op hop rfl
      have hnot := find?_eq_none.mp hnone (op, true) hop
      simp at hnot
    refine ⟨t', hall, hfind, fun addr => ?_⟩
    rw [hkept'.lookup_eq, hfind]
  aborts order env hperm henv := by
    have hfst : (order.map fun op => (op, false)).map Prod.fst = order := by
      rw [map_map]
      exact map_id order
    obtain ⟨t', hall, -, -, hrest⟩ := (h.held.perm (hfst ▸ hperm)).settleAll _ henv
    refine ⟨t', hall, funext fun p => hrest p fun op hop => ?_⟩
    simp at hop

/-! ### Reserving on a table -/

namespace LpmTableResource

/-- The operations a transaction has reserved, and the resource after it. The engine refuses a
second operation on a key. -/
inductive Reserving (r₀ : LpmTableResource) : List Staged → LpmTableResource → Prop
  | start : Reserving r₀ [] r₀
  | reserve {ops : List Staged} {r : LpmTableResource} (env : Backend) (key : Option (BitVec 64))
      (op : Op) : Reserving r₀ ops r →
        (∀ p, decode key = some p → p ∉ ops.map Staged.key) →
        Reserving r₀
          ((r.reserve env key op).1.record ops) (r.reserve env key op).2

/-- What holds while operations are reserved. -/
structure Placing (r₀ : LpmTableResource) (ops : List Staged) (r : LpmTableResource) : Prop where
  staging : Staging r₀.missValue r₀.table.find ops r.table
  miss : r.missValue = r₀.missValue
  pending : ∀ p ∈ r.pending, r₀.table.find p = none

variable {r r₀ : LpmTableResource}

theorem Placing.find_eq (h : Placing r₀ ops r) {p : Ipv4Prefix} (hp : p ∉ ops.map Staged.key) :
  r.find p = r₀.table.find p
  := by
  rw [find]
  split
  case isTrue hpend => exact (h.pending p hpend).symm
  case isFalse => exact h.staging.held.find_of_not_mem hp

theorem Placing.reserve (h : Placing r₀ ops r) (env : Backend) (key : Option (BitVec 64)) (op : Op)
    (hdistinct : ∀ p, decode key = some p → p ∉ ops.map Staged.key) :
  Placing r₀
    ((r.reserve env key op).1.record ops) (r.reserve env key op).2
  := by
  rw [LpmTableResource.reserve]
  cases hkey : decode key with
  | none => exact h
  | some p =>
  have hp := hdistinct p hkey
  have hfind := h.find_eq hp
  cases op with
  | erase =>
    simp only
    split
    case isTrue => exact h
    case isFalse hprev =>
    rw [hfind] at hprev
    exact ⟨h.staging.stand hp rfl (Or.inr hprev) nofun, h.miss, h.pending⟩
  | upsert value =>
  cases value with
  | none => exact h
  | some value =>
  simp only
  split
  case isTrue => exact h
  case isFalse hvalue =>
  split
  case isFalse hold =>
    rw [hfind] at hold
    refine ⟨h.staging.stand hp rfl (upsert_stands hold value) ?_, h.miss, h.pending⟩
    rintro v ⟨⟩
    omega
  case isTrue hnew =>
  obtain ⟨hprev, hlen⟩ := hnew
  rw [hfind] at hprev
  have hpend : ∀ q ∈ p :: r.pending, r₀.table.find q = none :=
    forall_mem_cons.mpr ⟨hprev, h.pending⟩
  rw [h.miss]
  cases hplace : placeNew r.table env r₀.missValue p with
  | mk outcome table =>
  cases outcome with
  | ok => exact ⟨h.staging.place hp hlen hprev (by omega) hplace, rfl, hpend⟩
  | error e => exact ⟨h.staging.refuse hplace nofun, rfl, h.pending⟩
  | memoryRefused => exact ⟨h.staging.refuse hplace nofun, rfl, hpend⟩

theorem Reserving.placing (h : Reserving r₀ ops r) (hkept : r₀.table.Kept) (hpend : r₀.pending = []) :
  Placing r₀ ops r
  := by
  induction h with
  | start =>
    refine ⟨Staging.start hkept _, rfl, ?_⟩
    rw [hpend]
    nofun
  | reserve env key op _ hdistinct ih => exact ih.reserve env key op hdistinct

end LpmTableResource

/-! ### Reserving in the domains of a router -/

namespace RouteResource

/-- The operations of a domain. -/
def opsOf (domain : ℕ) (ops : List (ℕ × Staged)) : List Staged :=
  (ops.filter fun op => op.1 = domain).map Prod.snd

/-- The operations reserved so far, with the one that was. -/
def Result.record (ops : List (ℕ × Staged)) : Result → List (ℕ × Staged)
  | staged reservation => (reservation.domain, reservation.op) :: ops
  | refused _ | memoryRefused => ops

/-- The operations a transaction has reserved, and the resource after it. -/
inductive Reserving (r₀ : RouteResource) : List (ℕ × Staged) → RouteResource → Prop
  | start : Reserving r₀ [] r₀
  | reserve {ops : List (ℕ × Staged)} {r : RouteResource} (env : Backend)
      (key : Option (BitVec 64)) (op : Op) : Reserving r₀ ops r →
        (∀ domain p, decode key = some (domain, p) → p ∉ (opsOf domain ops).map Staged.key) →
        Reserving r₀ ((r.reserve env key op).1.record ops) (r.reserve env key op).2

/-- The table a domain has, or the new one it gets. -/
def tableOf (r : RouteResource) (domain : ℕ) : LpmRouteTable :=
  (r.tables domain).getD (create r.config)

/-- What readers of a domain find: nothing without a table. -/
def lookup? (r : RouteResource) (domain : ℕ) (addr : BitVec 32) : Option ℕ :=
  (r.tables domain).bind fun table => table.live.lookup? addr

/-- What holds while operations are reserved. -/
structure Placing (r₀ : RouteResource) (ops : List (ℕ × Staged)) (r : RouteResource) : Prop where
  staging : ∀ domain,
    Staging 0 (r₀.tableOf domain).find (opsOf domain ops) (r.tableOf domain)
  config : r.config = r₀.config
  range : r.maxNextHops = r₀.maxNextHops ∧ r.maxGroups = r₀.maxGroups
  absent : ∀ domain, r.tables domain = none → r₀.tables domain = none ∧ opsOf domain ops = []
  pending : ∀ domain p, (domain, p) ∈ r.pending → (r₀.tableOf domain).find p = none

theorem opsOf_cons (domain : ℕ) (op : ℕ × Staged) (ops : List (ℕ × Staged)) :
  opsOf domain (op :: ops) = if op.1 = domain then op.2 :: opsOf domain ops else opsOf domain ops
  := by
  by_cases hdom : op.1 = domain
  · simp [hdom, opsOf]
  · simp [hdom, opsOf]

theorem tableOf_update (r : RouteResource) (domain domain' : ℕ) (table : LpmRouteTable)
    (pending : List (ℕ × Ipv4Prefix)) :
  tableOf { r with tables := update r.tables domain (some table), pending := pending }
      domain'
    = if domain' = domain then table else r.tableOf domain'
  := by
  by_cases hdom : domain' = domain
  · simp [tableOf, hdom]
  · simp [tableOf, hdom]

variable {ops : List (ℕ × Staged)} {r r₀ : RouteResource} {domain : ℕ} {table : LpmRouteTable}

section

variable (h : Placing r₀ ops r)

include h

theorem Placing.find_eq (hp : p ∉ (opsOf domain ops).map Staged.key) :
  r.find domain p = (r₀.tableOf domain).find p
  := by
  rw [find]
  split
  case isTrue hpend => exact (h.pending domain p hpend).symm
  case isFalse =>
  rw [← (h.staging domain).held.find_of_not_mem hp, tableOf]
  cases r.tables domain with
  | none => rw [Option.getD_none, find_create]
  | some table => rfl

theorem Placing.update {ops' : List (ℕ × Staged)} {pending : List (ℕ × Ipv4Prefix)}
    (hstaging : Staging 0 (r₀.tableOf domain).find (opsOf domain ops') table)
    (hother : ∀ domain', domain' ≠ domain → opsOf domain' ops' = opsOf domain' ops)
    (hpend : ∀ domain p, (domain, p) ∈ pending → (r₀.tableOf domain).find p = none) :
  Placing r₀ ops'
    { r with tables := update r.tables domain (some table), pending := pending }
  := by
  refine ⟨?_, h.config, h.range, ?_, hpend⟩
  · intro domain'
    rw [tableOf_update]
    split
    case isTrue heq =>
      rw [heq]
      exact hstaging
    case isFalse hne =>
    rw [hother domain' hne]
    exact h.staging domain'
  intro domain' hnone
  change Function.update r.tables domain (some table) domain' = none at hnone
  by_cases heq : domain' = domain
  · subst heq
    rw [update_self] at hnone
    cases hnone
  rw [update_of_ne heq] at hnone
  rw [hother domain' heq]
  exact h.absent domain' hnone

/-- The first route of a domain creates its table. -/
theorem Placing.tableFor {r' : RouteResource} (hfor : r.tableFor domain = .ok (table, r')) :
  Placing r₀ ops r' ∧ r'.tables domain = some table ∧ r'.pending = r.pending
  := by
  rw [RouteResource.tableFor] at hfor
  cases htable : r.tables domain with
  | some table' =>
    rw [htable] at hfor
    cases hfor
    exact ⟨h, htable, rfl⟩
  | none =>
  by_cases hmax : domain < r.maxDomains
  case neg =>
    have hcreate : r.createDomain domain = .error .invalidId := if_pos hmax
    rw [htable, hcreate] at hfor
    cases hfor
  case pos =>
  have hcreate : r.createDomain domain = .ok { r with
      tables := Function.update r.tables domain (some (create r.config)) } := by
    rw [createDomain, if_neg (not_not.mpr hmax), htable]
    rfl
  rw [htable, hcreate] at hfor
  simp only [update_self] at hfor
  cases hfor
  refine ⟨?_, update_self .., rfl⟩
  apply h.update _ (fun _ _ => rfl) h.pending
  have htableOf : r.tableOf domain = create r.config := by
    rw [tableOf, htable, Option.getD_none]
  rw [← htableOf]
  exact h.staging domain

theorem Placing.stand (hp : op.key ∉ (opsOf domain ops).map Staged.key)
    (htable : r.tables domain ≠ none) (hplaced : op.placed = false)
    (hstanding : op.result ≠ none ∧ op.key.length = 0 ∨ (r₀.tableOf domain).find op.key ≠ none)
    (hsmall : ∀ value, op.result = some value → value ≤ kMaxValue) :
  Placing r₀ ((domain, op) :: ops) r
  := by
  refine ⟨?_, h.config, h.range, ?_, h.pending⟩
  · intro domain'
    rw [opsOf_cons]
    by_cases hdom : domain = domain'
    · subst hdom
      rw [if_pos rfl]
      exact (h.staging domain).stand hp hplaced hstanding hsmall
    rw [if_neg hdom]
    exact h.staging domain'
  intro domain' hnone
  have hne : domain ≠ domain' := by
    rintro rfl
    exact htable hnone
  rw [opsOf_cons, if_neg hne]
  exact h.absent domain' hnone

end

theorem fibValue_le (hrange : r.maxNextHops + r.maxGroups ≤ kMaxValue) {value : Value} {fib : ℕ}
    (h : r.fibValue value = .ok fib) :
  fib ≤ kMaxValue
  := by
  cases value with
  | hop | group =>
    rw [fibValue] at h
    split at h
    case isTrue => cases h; omega
    case isFalse => cases h
  | other => cases h

theorem Placing.staging_of_some (h : Placing r₀ ops r) (htable : r.tables domain = some table) :
  Staging 0 (r₀.tableOf domain).find (opsOf domain ops) table
  := by
  have htableOf : r.tableOf domain = table := by rw [tableOf, htable, Option.getD_some]
  exact htableOf ▸ h.staging domain


theorem Placing.reserve (h : Placing r₀ ops r) (hrange : r₀.maxNextHops + r₀.maxGroups ≤ kMaxValue)
    (env : Backend) (key : Option (BitVec 64)) (op : Op)
    (hdistinct : ∀ domain p, decode key = some (domain, p) →
      p ∉ (opsOf domain ops).map Staged.key) :
  Placing r₀ ((r.reserve env key op).1.record ops) (r.reserve env key op).2
  := by
  rw [RouteResource.reserve]
  split
  case isTrue => exact h
  case isFalse =>
  cases hkey : decode key with
  | none => exact h
  | some id =>
  obtain ⟨domain, p⟩ := id
  have hp := hdistinct domain p hkey
  have hfind := h.find_eq hp
  simp only
  split
  case isTrue => exact h
  case isFalse =>
  cases op with
  | erase =>
    simp only
    split
    case isTrue => exact h
    case isFalse hprev =>
    refine h.stand hp ?_ rfl (Or.inr (hfind ▸ hprev)) nofun
    intro hnone
    apply hprev
    rw [find, hnone, ite_self]
  | upsert value =>
  simp only
  cases hfib : r.fibValue value with
  | error message => exact h
  | ok value =>
  have hvalue : value ≤ kMaxValue := by
    apply fibValue_le _ hfib
    rw [h.range.1, h.range.2]
    exact hrange
  cases hfor : r.tableFor domain with
  | error e => exact h
  | ok made =>
  obtain ⟨table, r'⟩ := made
  obtain ⟨h', htable, hsame⟩ := h.tableFor hfor
  rw [hfind]
  simp only
  split
  case isFalse hold =>
    refine h'.stand hp ?_ rfl (upsert_stands hold value) ?_
    · rw [htable]
      nofun
    rintro v ⟨⟩
    exact hvalue
  case isTrue hnew =>
  obtain ⟨hprev, hlen⟩ := hnew
  have hpend : ∀ domain' q, (domain', q) ∈ (domain, p) :: r'.pending →
      (r₀.tableOf domain').find q = none := by
    intro domain' q hq
    rcases mem_cons.mp hq with heq | hq
    · cases heq
      exact hprev
    · exact h'.pending domain' q hq
  have hstaging := h'.staging_of_some htable
  cases hplace : placeNew table env 0 p with
  | mk outcome table' =>
  cases outcome with
  | ok =>
    apply h'.update _ (fun domain' hne => (opsOf_cons ..).trans (if_neg (Ne.symm hne))) hpend
    refine ((opsOf_cons ..).trans (if_pos rfl)).symm ▸ ?_
    exact hstaging.place hp hlen hprev hvalue hplace
  | error e => exact h'.update (hstaging.refuse hplace nofun) (fun _ _ => rfl) h'.pending
  | memoryRefused => exact h'.update (hstaging.refuse hplace nofun) (fun _ _ => rfl) hpend

theorem Reserving.placing (h : Reserving r₀ ops r) (hkept : ∀ domain, (r₀.tableOf domain).Kept)
    (hrange : r₀.maxNextHops + r₀.maxGroups ≤ kMaxValue) (hpend : r₀.pending = []) :
  Placing r₀ ops r
  := by
  induction h with
  | start =>
    refine ⟨fun domain => Staging.start (hkept domain) 0, rfl, ⟨rfl, rfl⟩,
      fun _ hnone => ⟨hnone, rfl⟩, ?_⟩
    rw [hpend]
    nofun
  | reserve env key op _ hdistinct ih => exact ih.reserve hrange env key op hdistinct

end RouteResource

/-- Whatever a transaction reserves, on a table that is a resource or in the domains of a router,
no lookup changes. The reserved operations can then be published or aborted in any order: aborting
all restores the routes, and publication leaves the routes with the values given. -/
theorem placeholders_are_invisible :
  (∀ (config : Config) (routes : Ipv4Prefix → Option ℕ) (r₀ r : LpmTableResource)
      (ops : List Staged), Run config r₀.table routes → r₀.pending = [] →
        LpmTableResource.Reserving r₀ ops r → Invisible r₀.missValue r₀.table ops r.table)
    ∧ ∀ (r₀ r : RouteResource) (ops : List (ℕ × Staged)),
        (∀ domain table, r₀.tables domain = some table →
          ∃ config routes, Run config table routes) →
        r₀.maxNextHops + r₀.maxGroups ≤ kMaxValue → r₀.pending = [] →
        RouteResource.Reserving r₀ ops r →
          (∀ domain addr,
            reading 0 (r.lookup? domain addr) = reading 0 (r₀.lookup? domain addr))
          ∧ ∀ domain table, r.tables domain = some table →
              Invisible 0 (r₀.tableOf domain) (RouteResource.opsOf domain ops) table
  := by
  constructor
  · intro config routes r₀ r ops hrun hpend hreserving
    have hkept := hrun.kept.1
    exact (hreserving.placing hkept hpend).staging.invisible hkept
  intro r₀ r ops htables hrange hpend hreserving
  have hkept : ∀ domain, (r₀.tableOf domain).Kept := by
    intro domain
    rw [RouteResource.tableOf]
    cases htable : r₀.tables domain with
    | none => exact Kept.create _
    | some table =>
    obtain ⟨config, routes, hrun⟩ := htables domain table htable
    exact hrun.kept.1
  have hplacing := hreserving.placing hkept hrange hpend
  have hinvisible : ∀ domain table, r.tables domain = some table →
      Invisible 0 (r₀.tableOf domain) (RouteResource.opsOf domain ops) table := by
    intro domain table htable
    exact (hplacing.staging_of_some htable).invisible (hkept domain)
  refine ⟨fun domain addr => ?_, hinvisible⟩
  -- a domain without a table is read as its new table would be
  have hbare : r₀.lookup? domain addr = (r₀.tableOf domain).live.lookup? addr := by
    rw [RouteResource.lookup?, RouteResource.tableOf]
    cases r₀.tables domain with
    | none | some => rfl
  cases htable : r.tables domain with
  | none =>
    rw [RouteResource.lookup?, RouteResource.lookup?, htable, (hplacing.absent domain htable).1]
  | some table =>
  rw [hbare, RouteResource.lookup?, htable]
  exact (hinvisible domain table htable).same addr

/-- The key of a prefix. -/
def routeKey (addr : BitVec 32) (length : BitVec 8) : Option (BitVec 64) :=
  some (addr.setWidth 64 <<< 8 ||| length.setWidth 64)

/-- A table of a resource with 10.0.0.0/8, and 10.1.0.0/16 and then 10.1.2.0/25 reserved. -/
def nestedStart : LpmTableResource where
  table := ((create {}).exec willing
    (.upsert (Prefix.trunc 0x0a000000 8) 7)).2
  missValue := 0
  pending := []

def nestedOuter : Reserved × LpmTableResource :=
  nestedStart.reserve willing (routeKey 0x0a010000 16) (.upsert (some 8))

def nestedInner : Reserved × LpmTableResource :=
  nestedOuter.2.reserve willing (routeKey 0x0a010200 25) (.upsert (some 9))

/-- The nested prefixes show only once they are published. -/
theorem placeholders_are_invisible_nested :
  ∀ addr, reading 0 (nestedInner.2.table.live.lookup? addr)
    = reading 0 (nestedStart.table.live.lookup? addr)
  := by
  have houter : LpmTableResource.Reserving nestedStart (nestedOuter.1.record []) nestedOuter.2 :=
    .reserve _ _ _ .start nofun
  have hinner : LpmTableResource.Reserving nestedStart
      (nestedInner.1.record (nestedOuter.1.record [])) nestedInner.2 := by
    apply LpmTableResource.Reserving.reserve _ _ _ houter
    intro p hp
    obtain rfl : Prefix.trunc 0x0a010200 25 = p := by
      rw [← Option.some.injEq, ← hp]
      decide
    decide
  exact (placeholders_are_invisible.1 _ _ _ _ _
    (.call willing (.upsert (Prefix.trunc 0x0a000000 8) 7) .create) rfl hinner).same

end Route
