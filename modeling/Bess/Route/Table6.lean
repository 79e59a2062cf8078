import Bess.Route.Table

/-!
# The IPv6 route table

`Ipv6RouteTable` owns two instances of `rte_fib6`: the live one, which readers use and nobody
edits, and a spare. A change edits the spare and publication exchanges the two. The old live
instance is then the spare, behind the rules by the prefixes of the change; the next change
replays those once a grace period has passed, or else builds a new spare.

`Rte6` is what the environment decides in a call. An edit that `rte_fib6` refuses may leave the
trie half written, with any rules at all. Grace periods are numbered as they start, and complete
at any time later. Three things are kept that the code does not have: a number for each instance,
the numbers of the instances that were ever published, with the grace periods started when each
was last replaced, and the numbers of the instances each call edits.
-/

open LongestMatch

namespace Route

abbrev Ipv6Prefix := LongestMatch.Prefix 128

/-- The prefix of ::/0. -/
def Ipv6Prefix.zero : Ipv6Prefix := Prefix.trunc 0 0

/-- `std::map` orders the prefixes by address, then by length. -/
def Ipv6Prefix.le (p q : Ipv6Prefix) : Bool :=
  decide (p.addr.toNat < q.addr.toNat ∨ p.addr = q.addr ∧ p.length ≤ q.length)

structure Config6 where
  maxRoutes : ℕ := 1024
  maxValue : ℕ := kMaxValue

/-- An instance: its trie, if it has one, and the default route. -/
structure Instance6 where
  id : ℕ
  trie : Option (Ipv6Prefix → Option ℕ)
  defaultValue : ℕ
  miss : ℕ

namespace Instance6

section

variable (instance_ : Instance6) (addr : BitVec 128)

/-- `View::LookupOrMiss`. -/
def lookupOrMiss : ℕ :=
  match instance_.trie with
  | none => instance_.defaultValue
  | some trie =>
      let nh := (lookup trie addr).getD instance_.miss
      if nh ≠ instance_.miss then nh else instance_.defaultValue

/-- `View::Lookup`. -/
def lookup? : Option ℕ :=
  let value := instance_.lookupOrMiss addr
  if value = kNoDefault then none else some value

/-- One position of `View::LookupBatch`. -/
def lookupOne : Bool × ℕ :=
  match instance_.trie with
  | none => (false, instance_.defaultValue)
  | some trie =>
      let nh := (lookup trie addr).getD instance_.miss
      if nh ≠ instance_.miss then (true, nh) else (false, instance_.defaultValue)

end

end Instance6

/-- A refused edit, and what it leaves of the trie. -/
structure Broken where
  refusal : Refusal
  left : Ipv6Prefix → Option ℕ

/-- What the environment does in a call. -/
structure Rte6 where
  admits : Bool
  creates : Option Refusal
  replays : Ipv6Prefix → Option Broken
  builds : Ipv6Prefix → Option Broken
  edits : Option Broken

/-- `Apply`: 0, or the error of a refused edit; an add needs a trie. -/
def Instance6.apply (instance_ : Instance6) (broken : Option Broken) (p : Ipv6Prefix)
    (value : Option ℕ) : Option RouteError × Instance6 :=
  if p.length = 0 then (none, { instance_ with defaultValue := value.getD kNoDefault })
  else match instance_.trie with
    | none => (if value.isSome then some .backendFailure else none, instance_)
    | some trie =>
        match broken with
        | some broken => (some broken.refusal.error, { instance_ with trie := some broken.left })
        | none => (none, { instance_ with trie := some (Function.update trie p value) })

/-- A prefix a stage has edited: the value it has now, and the node made for it when the
committed rules lack it. -/
structure Change where
  value : Option ℕ
  node : Option ℕ

structure Stage6 where
  changes : AList (fun _ : Ipv6Prefix => Change)
  touched : List Ipv6Prefix
  routes : ℕ
  broken : Bool

structure Ipv6RouteTable where
  config : Config6
  live : Instance6
  rules : AList (fun _ : Ipv6Prefix => ℕ)
  spare : Option Instance6
  spareToken : Option ℕ
  spareUnpublished : Bool
  spareLag : List Ipv6Prefix
  stage : Option Stage6
  /-- Grace periods started so far. -/
  started : ℕ
  completed : ℕ → Bool
  /-- The number of the next instance. -/
  nextId : ℕ
  /-- For an instance that was live and was replaced, the grace periods started by then. -/
  replaced : ℕ → Option ℕ
  /-- The grace periods started by the last commit. -/
  lastCommit : ℕ
  /-- The instances edited, the last one first. -/
  edited : List ℕ

namespace Ipv6RouteTable

/-- `NewInstance`. -/
def newInstance (config : Config6) (id : ℕ) : Instance6 where
  id := id
  trie := none
  defaultValue := kNoDefault
  miss := config.maxValue + 1

/-- `Create`. -/
def create (config : Config6) : Except RouteError Ipv6RouteTable :=
  if kMaxValue < config.maxValue then .error .valueOutOfRange
  else if (2 ^ 31 - 1) / 2 < config.maxRoutes then .error .backendFailure
  else .ok {
    config := config
    live := newInstance config 0
    rules := ∅
    spare := none
    spareToken := none
    spareUnpublished := false
    spareLag := []
    stage := none
    started := 0
    completed := fun _ => false
    nextId := 1
    replaced := fun _ => none
    lastCommit := 0
    edited := [] }

variable (t : Ipv6RouteTable)

/-- `RoutesLocked`: the rules other than ::/0, which is the first key when it is there. -/
def routesLocked : ℕ :=
  t.rules.keys.length - if Ipv6Prefix.zero ∈ t.rules then 1 else 0

/-- How a step that may build a trie ends. -/
inductive Step (α : Type)
  | ok (value : α)
  | error (e : RouteError)
  | memoryRefused

/-- `BuildTrie`. -/
def buildTrie (env : Rte6) (instance_ : Instance6) : Step Instance6 :=
  if !env.admits then .memoryRefused
  else match env.creates with
    | some refusal => .error refusal.error
    | none => .ok { instance_ with trie := some fun _ => none }

/-- The entries of a map as `std::map` goes over them. -/
def inOrder (rules : AList (fun _ : Ipv6Prefix => ℕ)) : List (Ipv6Prefix × ℕ) :=
  (rules.entries.map fun entry => (entry.1, entry.2)).mergeSort fun a b => Ipv6Prefix.le a.1 b.1

/-- The loop of `Build`. -/
def fill (env : Rte6) : List (Ipv6Prefix × ℕ) → Instance6 → Except RouteError Instance6
  | [], instance_ => .ok instance_
  | (p, value) :: rest, instance_ =>
      match instance_.apply (env.builds p) p (some value) with
      | (some e, _) => .error e
      | (none, instance_) => fill env rest instance_

/-- `Build`: a new instance with the rules. -/
def build (env : Rte6) : Step Instance6 :=
  let fresh := newInstance t.config t.nextId
  let filled := fun instance_ =>
    match fill env (inOrder t.rules) instance_ with
    | .ok instance_ => Step.ok instance_
    | .error e => .error e
  if t.routesLocked ≠ 0 then
    match buildTrie env fresh with
    | .ok instance_ => filled instance_
    | .error e => .error e
    | .memoryRefused => .memoryRefused
  else filled fresh

/-- A loop of `Replay`: the lagging prefixes for which `change` gives an edit. -/
def replayLoop (env : Rte6) (change : Ipv6Prefix → Option (Option ℕ)) :
    List Ipv6Prefix → Instance6 → Option Instance6
  | [], instance_ => some instance_
  | p :: rest, instance_ =>
      match change p with
      | none => replayLoop env change rest instance_
      | some value =>
          match instance_.apply (env.replays p) p value with
          | (some _, _) => none
          | (none, instance_) => replayLoop env change rest instance_

/-- `Replay`: deletes first, then adds. -/
def replay (env : Rte6) (instance_ : Instance6) : Option Instance6 :=
  (replayLoop env (fun p => if p ∉ t.rules then some none else none) t.spareLag instance_).bind
    (replayLoop env (fun p => (t.rules.lookup p).map some) t.spareLag)

/-- A spare that was published and has no token gets a grace period that starts now. -/
def takeToken : Ipv6RouteTable :=
  match t.spareToken with
  | some _ => t
  | none => { t with spareToken := some t.started, started := t.started + 1 }

/-- The start of `PrepareSpare`: a spare that readers may still be in goes to the RCU domain. -/
def waitSpare : Ipv6RouteTable :=
  if t.spare.isSome && !t.spareUnpublished then
    let t := t.takeToken
    if t.completed (t.spareToken.getD 0) then t else { t with spare := none, spareLag := [] }
  else t

/-- The middle of `PrepareSpare`: a spare that is there is brought up to the rules, or else
dropped. -/
def catchUp (env : Rte6) : Ipv6RouteTable :=
  match t.spare with
  | none => { t with spareLag := [] }
  | some instance_ =>
      { t with
        spare := t.replay env instance_, spareLag := [], edited := instance_.id :: t.edited }

/-- The end of `PrepareSpare`: without a spare one is built. -/
def buildSpare (env : Rte6) : Outcome × Ipv6RouteTable :=
  match t.spare with
  | some _ => (.ok, t)
  | none =>
      let t' := { t with nextId := t.nextId + 1, edited := t.nextId :: t.edited }
      match t.build env with
      | .memoryRefused => (.memoryRefused, t')
      | .error e => (.error e, t')
      | .ok instance_ =>
          (.ok, { t' with spare := some instance_, spareToken := none, spareUnpublished := true })

/-- `PrepareSpare`. -/
def prepareSpare (env : Rte6) : Outcome × Ipv6RouteTable :=
  (t.waitSpare.catchUp env).buildSpare env

/-- `BeginStageLocked`; there is no table after a failed check. -/
def beginStageLocked (env : Rte6) : Option (Outcome × Ipv6RouteTable) :=
  if t.stage.isSome then none
  else match t.prepareSpare env with
    | (.ok, t) => some (.ok, { t with stage := some ⟨∅, [], t.routesLocked, false⟩ })
    | (outcome, t) => some (outcome, t)

/-- `Stage::FindLocked`. -/
def findStaged (stage : Stage6) (p : Ipv6Prefix) : Option ℕ :=
  match stage.changes.lookup p with
  | some change => change.value
  | none => t.rules.lookup p

/-- The trie a stage's spare needs for a prefix other than ::/0. -/
def ensureTrie (env : Rte6) (instance_ : Instance6) (p : Ipv6Prefix) : Step Instance6 :=
  if p.length ≠ 0 ∧ instance_.trie = none then buildTrie env instance_ else .ok instance_

/-- `Stage::UpsertLocked`; there is no table after a failed check. -/
def upsertLocked (env : Rte6) (p : Ipv6Prefix) (value : ℕ) : Option (Outcome × Ipv6RouteTable) :=
  match t.stage, t.spare with
  | some stage, some spare =>
      if stage.broken then some (.error .backendFailure, t)
      else if t.config.maxValue < value then some (.error .valueOutOfRange, t)
      else
        let current := t.findStaged stage p
        if current = some value then some (.ok, t)
        else if current = none ∧ p.length ≠ 0 ∧ t.config.maxRoutes ≤ stage.routes then
          some (.error .tableFull, t)
        else match ensureTrie env spare p with
          | .memoryRefused => some (.memoryRefused, t)
          | .error e => some (.error e, t)
          | .ok spare =>
              let t := { t with spare := some spare, edited := spare.id :: t.edited }
              let inserted := decide (p ∉ stage.changes)
              let change := (stage.changes.lookup p).getD ⟨none, none⟩
              let node := if change.node.isNone && decide (p ∉ t.rules) then some value
                else change.node
              match spare.apply env.edits p (some value) with
              | (some e, spare) =>
                  -- the entry just made is taken back, one that was there keeps its node
                  some (.error e,
                    { t with
                      spare := some spare
                      stage := some
                        { stage with
                          broken := true
                          changes := if inserted then stage.changes
                            else stage.changes.insert p { change with node := node } } })
              | (none, spare) =>
                  some (.ok,
                    { t with
                      spare := some spare
                      stage := some
                        { stage with
                          touched := if inserted then stage.touched ++ [p] else stage.touched
                          changes := stage.changes.insert p
                            ⟨some value, node.map fun _ => value⟩
                          routes := if current = none ∧ p.length ≠ 0 then stage.routes + 1
                            else stage.routes } })
  | _, _ => none

/-- `Stage::EraseLocked`. -/
def eraseLocked (env : Rte6) (p : Ipv6Prefix) : Option (Outcome × Ipv6RouteTable) :=
  match t.stage, t.spare with
  | some stage, some spare =>
      if stage.broken then some (.error .backendFailure, t)
      else if t.findStaged stage p = none then some (.error .notFound, t)
      else
        let t := { t with edited := spare.id :: t.edited }
        let inserted := decide (p ∉ stage.changes)
        let change := (stage.changes.lookup p).getD ⟨none, none⟩
        match spare.apply env.edits p none with
        | (some e, spare) =>
            some (.error e,
              { t with spare := some spare, stage := some { stage with broken := true } })
        | (none, spare) =>
            some (.ok,
              { t with
                spare := some spare
                stage := some
                  { stage with
                    touched := if inserted then stage.touched ++ [p] else stage.touched
                    changes := stage.changes.insert p { change with value := none }
                    routes := if p.length ≠ 0 then stage.routes - 1 else stage.routes } })
  | _, _ => none

/-- The rules after one change of a stage. -/
def commitChange (rules : AList (fun _ : Ipv6Prefix => ℕ)) (p : Ipv6Prefix) (change : Change) :
    AList (fun _ : Ipv6Prefix => ℕ) :=
  match change.value with
  | some value =>
      if p ∈ rules then rules.insert p value
      else match change.node with
        | some mapped => rules.insert p mapped
        | none => rules
  | none => rules.erase p

/-- `CommitLocked`. -/
def commitLocked : Option Ipv6RouteTable :=
  match t.stage, t.spare with
  | some stage, some spare =>
      if stage.broken then none
      else some
        { t with
          live := spare
          spare := some t.live
          spareToken := none
          spareUnpublished := false
          spareLag := stage.touched
          rules := stage.changes.entries.foldl (fun rules entry =>
            commitChange rules entry.1 entry.2) t.rules
          stage := none
          replaced := Function.update t.replaced t.live.id (some t.started)
          lastCommit := t.started }
  | _, _ => none

/-- `AbortLocked`. -/
def abortLocked : Ipv6RouteTable :=
  match t.stage with
  | none => t
  | some stage =>
      if stage.broken then
        { t with
          stage := none, spare := none, spareLag := [], spareToken := none
          spareUnpublished := false }
      else { t with stage := none, spareLag := stage.touched }

/-- `Committed`. -/
def committed (t : Ipv6RouteTable) (token : ℕ) : Ipv6RouteTable :=
  if t.spare.isSome && !t.spareUnpublished && t.spareToken.isNone then
    { t with spareToken := some token }
  else t

/-- The end of a direct change: the stage is committed when its edit succeeded. -/
def finish (r : Outcome × Ipv6RouteTable) : Option (Outcome × Ipv6RouteTable) :=
  match r with
  | (.ok, t) =>
      t.commitLocked.map fun t =>
        (.ok, { t with spareToken := some t.started, started := t.started + 1 })
  | (outcome, t) => some (outcome, t.abortLocked)

/-- `Upsert`. -/
def upsert (env : Rte6) (p : Ipv6Prefix) (value : ℕ) : Option (Outcome × Ipv6RouteTable) :=
  if t.config.maxValue < value then some (.error .valueOutOfRange, t)
  else if t.rules.lookup p = some value then some (.ok, t)
  else match t.beginStageLocked env with
    | none => none
    | some (.ok, t) => (t.upsertLocked env p value).bind finish
    | some (outcome, t) => some (outcome, t)

/-- `Erase`. -/
def erase (env : Rte6) (p : Ipv6Prefix) : Option (Outcome × Ipv6RouteTable) :=
  if p ∉ t.rules then some (.error .notFound, t)
  else match t.beginStageLocked env with
    | none => none
    | some (.ok, t) => (t.eraseLocked env p).bind finish
    | some (outcome, t) => some (outcome, t)

/-- `size`. -/
def size : ℕ :=
  t.rules.keys.length

end Ipv6RouteTable

end Route
