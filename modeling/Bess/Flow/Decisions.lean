import Bess.Flow.Runs

/-!
# A cache of decisions

`core/flow/decision_cache.h`. A worker keeps the decisions compiled for its flows in a flow table.
Each entry carries the generation of the policy it was compiled against, and a hit is an entry
whose generation is the current one. The generation is one 64-bit counter that all workers and the
control threads share.

The counter is read and incremented by many threads, so the calls are taken apart into their
accesses to it: the miss path reads the generation, compiles, and installs, where `Install` first
compares the generation and then stores; a lookup first finds its entries and then reads the
generation. A control thread publishes a policy and then invalidates.
-/

namespace Flow

open Function List Option WorkerFlowTable

structure DecisionEntry (Id : Type) : Type where
  id : Id
  generation : BitVec 64
  deriving DecidableEq

inductive DecisionLookup : Type where
  | hit
  | miss
  | stale
  deriving DecidableEq

inductive DecisionInstall : Type where
  | installed
  | replaced
  | staleGeneration
  | full
  deriving DecidableEq

/-- What `LookupBatch` writes: `out i` where it stores a decision, and its two bit sets. -/
structure DecisionBatch (Id : Type) : Type where
  out : ℕ → Option Id
  hits : BitVec 64
  stale : BitVec 64

abbrev DecisionTable (Key Id : Type) : Type :=
  WorkerFlowTable Key (DecisionEntry Id)

namespace DecisionTable

variable {Key Id : Type} [DecidableEq Key] (T : FlowTableTraits Key)

/-- The entry a lookup points at, by its slot. -/
def findSlot (t : DecisionTable Key Id) (key : Key) : Option ℕ :=
  (t.findKid T key).map (· / T.kKeysPerSlot)

/-- `Lookup`, with the entry found and the generation read afterwards. -/
def answer {Key : Type} (t : DecisionTable Key Id) (slot : Option ℕ) (current : BitVec 64) :
    DecisionLookup × Option Id :=
  match slot.bind fun s => (t.slots s).state with
  | none => (.miss, none)
  | some entry => if entry.generation ≠ current then (.stale, none) else (.hit, some entry.id)

def setBits (m : BitVec 64) : List ℕ :=
  (List.range 64).filter m.getLsbD

/-- One round of `LookupBatch`'s loop over the keys that were found. -/
def answerAt {Key : Type} (t : DecisionTable Key Id) (slots : List (Option ℕ)) (current : BitVec 64)
    (acc : (ℕ → Option Id) × BitVec 64) (i : ℕ) : (ℕ → Option Id) × BitVec 64 :=
  match t.answer (slots.getD i none) current with
  | (.hit, id) => (update acc.1 i id, acc.2 ||| 1#64 <<< i)
  | _ => acc

/-- `LookupBatch`, with the entries found and the generation read afterwards. -/
def answerBatch {Key : Type} (t : DecisionTable Key Id) (slots : List (Option ℕ))
    (found current : BitVec 64) : DecisionBatch Id :=
  let looked := (setBits found).foldl (t.answerAt slots current) (fun _ => none, 0)
  { out := looked.1, hits := looked.2, stale := found &&& ~~~looked.2 }

/-- The part of `Install` behind its comparison. -/
def store (t : DecisionTable Key Id) (key : Key) (entry : DecisionEntry Id) :
    DecisionTable Key Id × DecisionInstall :=
  let made := createImpl T t key none entry
  match made.2.status, t.findSlot T key with
  | .created, _ => (made.1, .installed)
  | .exists, some s => (made.1.setSlot s { made.1.slots s with state := some entry }, .replaced)
  | _, _ => (made.1, .full)

end DecisionTable

/-! ### Workers and control threads -/

/-- What a worker is in the middle of. -/
inductive Activity (Key Id : Type) : Type where
  | idle
  /-- The miss path has read the generation. -/
  | read (key : Key) (generation : BitVec 64)
  | compiled (key : Key) (id : Id) (generation : BitVec 64)
  /-- `Install` has found the generation current. -/
  | checked (key : Key) (id : Id) (generation : BitVec 64)
  | found (key : Key) (slot : Option ℕ)
  | foundBatch (keys : List Key) (slots : List (Option ℕ)) (found : BitVec 64)

/-- When a decision was made: the policy it was compiled against, and how many `Invalidate` calls
there had been when its generation was read and when it was stored. -/
structure Stamp : Type where
  policy : ℕ
  readAt : ℕ
  storedAt : ℕ
  deriving DecidableEq

/-- A worker with its cache. `draft` and `stamps` record when the decision being made and the
decision in each slot were made; no step depends on them. -/
structure Worker (Key Id : Type) : Type where
  table : DecisionTable Key Id
  activity : Activity Key Id := .idle
  draft : Stamp := ⟨0, 0, 0⟩
  stamps : ℕ → Stamp := fun _ => ⟨0, 0, 0⟩

/-- The workers and control threads of one policy scope. Policies are numbered as they are
published; `control c` is the policy that thread `c` has published and not yet invalidated for.
`count` and `made` record how many `Invalidate` calls there were and which policy the last of them
was for; no step depends on them. -/
structure Scope (W C Key Id : Type) : Type where
  generation : BitVec 64 := 1
  policy : ℕ := 0
  control : C → Option ℕ := fun _ => none
  workers : W → Worker Key Id
  count : ℕ := 0
  made : ℕ := 0

inductive Access (W C Key : Type) : Type where
  | publish (c : C)
  | invalidate (c : C)
  | readGeneration (w : W) (key : Key)
  | compile (w : W)
  | check (w : W)
  | store (w : W)
  | find (w : W) (key : Key)
  | load (w : W)
  | findBatch (w : W) (keys : List Key)
  | loadBatch (w : W)
  | erase (w : W) (key : Key)

inductive Outcome (Key Id : Type) : Type where
  | none
  | lookup (key : Key) (slot : Option ℕ) (answer : DecisionLookup × Option Id)
  | lookupBatch (keys : List Key) (slots : List (Option ℕ)) (answer : DecisionBatch Id)
  | install (key : Key) (answer : DecisionInstall)

namespace Scope

variable {W C Key Id : Type} [DecidableEq W] [DecidableEq C] [DecidableEq Key]
  (T : FlowTableTraits Key) (compile : ℕ → Key → Id)

def setWorker (σ : Scope W C Key Id) (w : W) (worker : Worker Key Id) : Scope W C Key Id :=
  { σ with workers := update σ.workers w worker }

/-- The slot that `Install` writes. -/
def target (t : DecisionTable Key Id) (key : Key) : ℕ :=
  (t.findSlot T key).getD t.free.peek

/-- One access, where the thread that makes it is at that point. -/
def step (σ : Scope W C Key Id) : Access W C Key → Option (Scope W C Key Id × Outcome Key Id)
  | .publish c =>
      some ({ σ with
        policy := σ.policy + 1
        control := update σ.control c (some (σ.policy + 1)) }, .none)
  | .invalidate c => (σ.control c).map fun policy =>
      ({ σ with
        generation := σ.generation + 1
        control := update σ.control c none
        count := σ.count + 1
        made := policy }, .none)
  | .readGeneration w key =>
      match (σ.workers w).activity with
      | .idle => some (σ.setWorker w { σ.workers w with
          activity := .read key σ.generation
          draft := { policy := 0, readAt := σ.count, storedAt := 0 } }, .none)
      | _ => none
  | .compile w =>
      match (σ.workers w).activity with
      | .read key generation => some (σ.setWorker w { σ.workers w with
          activity := .compiled key (compile σ.policy key) generation
          draft := { (σ.workers w).draft with policy := σ.policy } }, .none)
      | _ => none
  | .check w =>
      match (σ.workers w).activity with
      | .compiled key id generation =>
          if generation ≠ σ.generation then
            some (σ.setWorker w { σ.workers w with activity := .idle },
              .install key .staleGeneration)
          else some (σ.setWorker w { σ.workers w with activity := .checked key id generation }, .none)
      | _ => none
  | .store w =>
      match (σ.workers w).activity with
      | .checked key id generation =>
          let stored := (σ.workers w).table.store T key ⟨id, generation⟩
          some (σ.setWorker w
            { table := stored.1
              activity := .idle
              draft := (σ.workers w).draft
              stamps := if stored.2 = .full then (σ.workers w).stamps
                else update (σ.workers w).stamps (target T (σ.workers w).table key)
                  { (σ.workers w).draft with storedAt := σ.count } }, .install key stored.2)
      | _ => none
  | .find w key =>
      match (σ.workers w).activity with
      | .idle => some (σ.setWorker w { σ.workers w with
          activity := .found key ((σ.workers w).table.findSlot T key) }, .none)
      | _ => none
  | .load w =>
      match (σ.workers w).activity with
      | .found key slot => some (σ.setWorker w { σ.workers w with activity := .idle },
          .lookup key slot ((σ.workers w).table.answer slot σ.generation))
      | _ => none
  | .findBatch w keys =>
      match (σ.workers w).activity with
      | .idle => some (σ.setWorker w { σ.workers w with
          activity := .foundBatch keys (keys.map ((σ.workers w).table.findSlot T))
            (findBatch T (σ.workers w).table keys).2 }, .none)
      | _ => none
  | .loadBatch w =>
      match (σ.workers w).activity with
      | .foundBatch keys slots found => some (σ.setWorker w { σ.workers w with activity := .idle },
          .lookupBatch keys slots ((σ.workers w).table.answerBatch slots found σ.generation))
      | _ => none
  | .erase w key =>
      match (σ.workers w).activity with
      | .idle => some (σ.setWorker w { σ.workers w with
          table := (erase T (σ.workers w).table key).1 }, .none)
      | _ => none

/-- The scopes that some interleaving of accesses reaches from new caches. -/
inductive Reached : Scope W C Key Id → Prop where
  | create {workers : W → Worker Key Id} (hworkers : ∀ w, ∃ capacity table,
      create T capacity = some table ∧ workers w = { table := table }) :
      Reached { workers := workers }
  | step {σ σ' : Scope W C Key Id} {access : Access W C Key} {outcome : Outcome Key Id} :
      Reached σ → σ.step T compile access = some (σ', outcome) → Reached σ'

end Scope

/-! ### What each access keeps -/

namespace DecisionTable

variable {Key Id : Type} [DecidableEq Key] {T : FlowTableTraits Key} {t : DecisionTable Key Id}
  {entry : DecisionEntry Id}

theorem findFrom_test {ix : FlowIndex} {h : Hashed} {eq : ℕ → Bool} {id : ℕ} :
    ∀ {n b : ℕ}, ix.findFrom h eq n b = some id → eq id = true
  | 0, b, hfind => by
    rw [FlowIndex.findFrom] at hfind
    cases hfind
  | n + 1, b, hfind => by
    rw [FlowIndex.findFrom] at hfind
    split at hfind
    case h_1 hsome =>
      rw [← Option.some.inj hfind]
      exact find?_some hsome
    case h_2 =>
      obtain ⟨-, ⟨⟩⟩ | ⟨_, hfind⟩ := ite_eq_iff.mp hfind
      exact findFrom_test hfind

/-- A lookup points at a slot that stores its key, where slots have no aliases. -/
theorem keys_of_findSlot (halone : ∀ s j, 1 ≤ j → (t.slots s).keys j = none) {key : Key} {s : ℕ}
    (h : t.findSlot T key = some s) :
  (t.slots s).keys 0 = some key
  := by
  obtain ⟨kid, hkid, rfl⟩ := map_eq_some_iff.mp h
  have htest := of_decide_eq_true (findFrom_test hkid)
  rw [keyAt] at htest
  rcases Nat.eq_zero_or_pos (kid % T.kKeysPerSlot) with hzero | hpos
  · rw [hzero] at htest
    exact htest
  rw [halone _ _ hpos] at htest
  cases htest

/-- The slots after `Install` has stored an entry: one slot holds the key and the entry. -/
theorem store_slots {key : Key} (halone : ∀ s j, 1 ≤ j → (t.slots s).keys j = none)
    (hstored : (t.store T key entry).2 ≠ .full) :
  ∃ slot : SlotRecord Key (DecisionEntry Id),
    (t.store T key entry).1.slots = update t.slots (Scope.target T t key) slot
    ∧ slot.keys 0 = some key ∧ (∀ j, 1 ≤ j → slot.keys j = none) ∧ slot.state = some entry
  := by
  rw [Scope.target]
  rw [store, createImpl] at hstored ⊢
  cases hkid : t.findKid T key with
  | some kid =>
    have hslot : t.findSlot T key = some (kid / T.kKeysPerSlot) := by
      rw [findSlot, hkid]
      rfl
    refine ⟨{ t.slots (kid / T.kKeysPerSlot) with state := some entry }, ?_,
      keys_of_findSlot halone hslot, halone _, rfl⟩
    simp only [hslot]
    rfl
  | none =>
  have hslot : t.findSlot T key = none := by
    rw [findSlot, hkid]
    rfl
  simp only [hkid, hslot] at hstored ⊢
  by_cases hempty : t.free.empty = true
  · simp [hempty] at hstored
  simp only [hempty]
  have hkeys : (madeSlot (t.slots t.free.peek) key none entry).keys
      = update (t.slots t.free.peek).keys 0 (some key) := rfl
  refine ⟨_, slots_make t key entry, ?_, ?_, rfl⟩
  · rw [hkeys, update_self]
  intro j hj
  rw [hkeys, update_of_ne (by omega)]
  exact halone _ j hj

theorem store_full {key : Key} (h : (t.store T key entry).2 = .full) :
  (t.store T key entry).1 = t
  := by
  rw [store, createImpl] at h ⊢
  cases hkid : t.findKid T key with
  | some kid =>
    simp [hkid, findSlot] at h
  | none =>
  simp only [hkid] at h ⊢
  by_cases hempty : t.free.empty = true
  · simp [hempty]
  · simp [hempty] at h

end DecisionTable

/-! ### The invariant -/

/-- The decision for `key` stamped `stamp`, when there have been `count` calls of `Invalidate` and
the last was for the policy `made`. -/
structure Stamp.Seals {Key Id : Type} (compile : ℕ → Key → Id) (count made : ℕ) (stamp : Stamp)
    (key : Key) (id : Id) (generation : BitVec 64) : Prop where
  id_eq : id = compile stamp.policy key
  generation_eq : generation = BitVec.ofNat 64 (1 + stamp.readAt)
  readAt_le : stamp.readAt ≤ count
  made_le : stamp.readAt = count → made ≤ stamp.policy

variable {generation : BitVec 64}

/-- Only the decisions whose generation is current are bound to the policy. -/
theorem Stamp.Seals.invalidate {Key Id : Type} {compile : ℕ → Key → Id} {count made : ℕ}
    {stamp : Stamp} {key : Key} {id : Id}
    (seals : stamp.Seals compile count made key id generation) (made' : ℕ) :
  stamp.Seals compile (count + 1) made' key id generation
  := by
  have := seals.readAt_le
  exact ⟨seals.id_eq, seals.generation_eq, by omega, fun _ => by omega⟩

section

variable {W C Key Id : Type} (compile : ℕ → Key → Id) (count made : ℕ)

/-- What holds of the decision that a worker is in the middle of making, or of the entries it has
found. -/
def Activity.Inv (table : DecisionTable Key Id) (draft : Stamp) : Activity Key Id → Prop
  | .idle => True
  | .read _ generation => generation = BitVec.ofNat 64 (1 + draft.readAt) ∧ draft.readAt ≤ count
  | .compiled key id generation => draft.Seals compile count made key id generation
  | .checked key id generation => draft.Seals compile count made key id generation
  | .found key slot => ∀ s, slot = some s → (table.slots s).keys 0 = some key
  | .foundBatch keys slots _ => ∀ i s, slots.getD i none = some s →
      ∃ key, keys[i]? = some key ∧ (table.slots s).keys 0 = some key

structure Worker.Inv (worker : Worker Key Id) : Prop where
  alone : ∀ s j, 1 ≤ j → (worker.table.slots s).keys j = none
  entry : ∀ s key entry, (worker.table.slots s).keys 0 = some key →
    (worker.table.slots s).state = some entry →
    (worker.stamps s).Seals compile count made key entry.id entry.generation
      ∧ (worker.stamps s).readAt ≤ (worker.stamps s).storedAt ∧ (worker.stamps s).storedAt ≤ count
  activity : worker.activity.Inv compile count made worker.table worker.draft

structure Scope.Inv (σ : Scope W C Key Id) : Prop where
  generation : σ.generation = BitVec.ofNat 64 (1 + σ.count)
  made : σ.made ≤ σ.policy
  control : ∀ c policy, σ.control c = some policy → policy ≤ σ.policy
  workers : ∀ w, (σ.workers w).Inv compile σ.count σ.made

end

section

variable {W C Key Id : Type} [DecidableEq W] [DecidableEq C] [DecidableEq Key]
  {T : FlowTableTraits Key} {compile : ℕ → Key → Id} {count made : ℕ} {σ : Scope W C Key Id}
  {worker : Worker Key Id}

section

omit [DecidableEq Key]

section

variable (inv : worker.Inv compile count made) {draft : Stamp}

include inv

theorem Worker.Inv.invalidate (made' : ℕ) :
  worker.Inv compile (count + 1) made'
  := by
  constructor
  case alone => exact inv.alone
  case entry =>
    intro s key entry hkey hstate
    obtain ⟨seals, hread, hstored⟩ := inv.entry s key entry hkey hstate
    exact ⟨seals.invalidate made', hread, by omega⟩
  case activity =>
  have hact := inv.activity
  cases hactive : worker.activity with rw [hactive] at hact
  | idle => trivial
  | read key generation => exact ⟨hact.1, Nat.le_succ_of_le hact.2⟩
  | compiled | checked => exact hact.invalidate made'
  | _ => exact hact

/-- A worker that changes only what it is in the middle of. -/
theorem Worker.Inv.turn {activity : Activity Key Id}
    (h : activity.Inv compile count made worker.table draft) :
  { worker with activity := activity, draft := draft }.Inv compile count made
  := ⟨inv.alone, inv.entry, h⟩

theorem Worker.Inv.rewrite {table : DecisionTable Key Id} {slot : SlotRecord Key (DecisionEntry Id)}
    {s : ℕ} {stamps : ℕ → Stamp}
    (hslots : table.slots = update worker.table.slots s slot)
    (hstamps : ∀ s' ≠ s, stamps s' = worker.stamps s') (halone : ∀ j, 1 ≤ j → slot.keys j = none)
    (hentry : ∀ key entry, slot.keys 0 = some key → slot.state = some entry →
      (stamps s).Seals compile count made key entry.id entry.generation
        ∧ (stamps s).readAt ≤ (stamps s).storedAt ∧ (stamps s).storedAt ≤ count) :
  Worker.Inv compile count made ⟨table, .idle, draft, stamps⟩
  := by
  constructor
  case alone =>
    intro s' j hj
    simp only [hslots]
    rcases eq_or_ne s' s with rfl | hne
    · rw [update_self]
      exact halone j hj
    rw [update_of_ne hne]
    exact inv.alone s' j hj
  case entry =>
    intro s' key entry
    simp only [hslots]
    rcases eq_or_ne s' s with rfl | hne
    · rw [update_self]
      exact hentry key entry
    rw [update_of_ne hne, hstamps s' hne]
    exact inv.entry s' key entry
  case activity => trivial

end

omit [DecidableEq C] in
theorem Scope.Inv.setWorker (inv : σ.Inv compile) {w : W}
    (hworker : worker.Inv compile σ.count σ.made) :
  (σ.setWorker w worker).Inv compile
  := by
  refine { inv with workers := ?_ }
  intro w'
  rw [Scope.setWorker]
  rcases eq_or_ne w' w with rfl | hne
  · simp only [update_self]
    exact hworker
  simp only [update_of_ne hne]
  exact inv.workers w'

omit [DecidableEq W] in
theorem Scope.Inv.publish (inv : σ.Inv compile) (c : C) :
  { σ with
    policy := σ.policy + 1
    control := update σ.control c (some (σ.policy + 1)) }.Inv compile
  := by
  refine ⟨inv.generation, Nat.le_succ_of_le inv.made, ?_, inv.workers⟩
  intro c' policy hpol
  rcases eq_or_ne c' c with rfl | hne
  · simp only [update_self] at hpol
    exact (Option.some.inj hpol).ge
  simp only [update_of_ne hne] at hpol
  exact Nat.le_succ_of_le (inv.control c' policy hpol)

omit [DecidableEq W] in
theorem Scope.Inv.invalidate (inv : σ.Inv compile) {c : C} {policy : ℕ}
    (hpol : σ.control c = some policy) :
  { σ with
    generation := σ.generation + 1
    control := update σ.control c none
    count := σ.count + 1
    made := policy }.Inv compile
  := by
  constructor
  case generation =>
    simp only [inv.generation]
    rw [show (1 : BitVec 64) = BitVec.ofNat 64 1 from rfl, ← BitVec.ofNat_add, Nat.add_assoc]
  case made => exact inv.control c policy hpol
  case workers =>
    intro w
    exact (inv.workers w).invalidate policy
  case control =>
  intro c' policy' hpol'
  rcases eq_or_ne c' c with rfl | hne
  · simp only [update_self] at hpol'
    cases hpol'
  simp only [update_of_ne hne] at hpol'
  exact inv.control c' policy' hpol'

end

/-- What `Install` stores carries the draft's stamp. -/
theorem Worker.Inv.store (inv : worker.Inv compile count made) {key : Key} {id : Id}
    (hact : worker.activity = .checked key id generation) :
  Worker.Inv compile count made
    { table := (worker.table.store T key ⟨id, generation⟩).1
      activity := .idle
      draft := worker.draft
      stamps := if (worker.table.store T key ⟨id, generation⟩).2 = .full then worker.stamps
        else update worker.stamps (Scope.target T worker.table key)
          { worker.draft with storedAt := count } }
  := by
  have seals := inv.activity
  rw [hact] at seals
  by_cases hfull : (worker.table.store T key ⟨id, generation⟩).2 = .full
  · rw [if_pos hfull, DecisionTable.store_full hfull]
    exact ⟨inv.alone, inv.entry, trivial⟩
  rw [if_neg hfull]
  obtain ⟨slot, hslots, hkey, halone, hstate⟩ := DecisionTable.store_slots inv.alone hfull
  apply inv.rewrite hslots
  case hstamps =>
    intro s' hne
    rw [update_of_ne hne]
  case halone => exact halone
  case hentry =>
  intro key' entry hkey' hstate'
  rw [hkey] at hkey'
  rw [hstate] at hstate'
  obtain rfl := Option.some.inj hkey'
  obtain rfl := Option.some.inj hstate'
  rw [update_self]
  exact ⟨{ seals with }, seals.readAt_le, Nat.le_refl _⟩

theorem Worker.Inv.erase (inv : worker.Inv compile count made) (hidle : worker.activity = .idle)
    (key : Key) :
  { worker with table := (erase T worker.table key).1 }.Inv compile count made
  := by
  rw [WorkerFlowTable.erase]
  cases worker.table.findKid T key with
  | none => exact inv
  | some kid =>
  have hslots := slots_eraseSlot (T := T) worker.table (kid / T.kKeysPerSlot)
  have kept : Worker.Inv compile count made ⟨_, .idle, worker.draft, worker.stamps⟩ :=
    inv.rewrite hslots (fun _ _ => rfl) (inv.alone _) (by rintro _ _ _ ⟨⟩)
  exact ⟨kept.alone, kept.entry, by simp only [hidle]; trivial⟩

theorem Scope.Inv.step {σ' : Scope W C Key Id} (inv : σ.Inv compile) {access : Access W C Key}
    {outcome : Outcome Key Id} (hstep : σ.step T compile access = some (σ', outcome)) :
  σ'.Inv compile
  := by
  cases access with rw [Scope.step] at hstep
  | publish c =>
    cases hstep
    exact inv.publish c
  | invalidate c =>
    obtain ⟨policy, hpol, heq⟩ := map_eq_some_iff.mp hstep
    cases heq
    exact inv.invalidate hpol
  | readGeneration w key =>
    split at hstep
    case h_1 =>
      cases hstep
      exact inv.setWorker ((inv.workers w).turn ⟨inv.generation, Nat.le_refl _⟩)
    case h_2 => cases hstep
  | compile w =>
    split at hstep
    case h_1 key generation hactive =>
      have hact := (inv.workers w).activity
      rw [hactive] at hact
      cases hstep
      exact inv.setWorker ((inv.workers w).turn ⟨rfl, hact.1, hact.2, fun _ => inv.made⟩)
    case h_2 => cases hstep
  | check w =>
    split at hstep
    case h_2 => cases hstep
    case h_1 key id generation hactive =>
    have hact := (inv.workers w).activity
    rw [hactive] at hact
    split at hstep
    case isTrue =>
      cases hstep
      exact inv.setWorker ((inv.workers w).turn trivial)
    case isFalse =>
    cases hstep
    exact inv.setWorker ((inv.workers w).turn hact)
  | store w =>
    split at hstep
    case h_1 key id generation hactive =>
      cases hstep
      exact inv.setWorker ((inv.workers w).store hactive)
    case h_2 => cases hstep
  | find w key =>
    split at hstep
    case h_1 =>
      cases hstep
      apply inv.setWorker ((inv.workers w).turn _)
      intro s hs
      exact DecisionTable.keys_of_findSlot (inv.workers w).alone hs
    case h_2 => cases hstep
  | findBatch w keys =>
    split at hstep
    case h_2 => cases hstep
    case h_1 =>
    cases hstep
    apply inv.setWorker ((inv.workers w).turn _)
    intro i s hs
    rw [getD_eq_getElem?_getD, getElem?_map] at hs
    cases hkey : keys[i]? with
    | none => simp [hkey] at hs
    | some key =>
    simp only [hkey] at hs
    exact ⟨key, rfl, DecisionTable.keys_of_findSlot (inv.workers w).alone hs⟩
  | load w | loadBatch w =>
    split at hstep
    case h_1 =>
      cases hstep
      exact inv.setWorker ((inv.workers w).turn trivial)
    case h_2 => cases hstep
  | erase w key =>
  split at hstep
  case h_1 hidle =>
    cases hstep
    exact inv.setWorker ((inv.workers w).erase hidle key)
  case h_2 => cases hstep

theorem Scope.Reached.inv (reached : Scope.Reached T compile σ) :
  σ.Inv compile
  := by
  induction reached with
  | create hworkers =>
    refine ⟨rfl, Nat.le_refl _, nofun, ?_⟩
    intro w
    obtain ⟨capacity, table, hcreate, hworker⟩ := hworkers w
    have hslots : ∀ s, table.slots s = .empty := by
      obtain ⟨-, ⟨⟩⟩ | ⟨_, hcreate⟩ := ite_eq_iff.mp hcreate
      cases hcreate
      intro s
      rfl
    simp only [hworker]
    constructor
    case alone =>
      intro s j _
      rw [hslots]
      rfl
    case entry =>
      intro s key entry hkey
      rw [hslots] at hkey
      cases hkey
    case activity => trivial
  | step _ hstep ih => exact ih.step hstep

/-! ### Hits are current -/

/-- The decision `id` for `key` was compiled against a policy at least as new as the one whose
`Invalidate` made the generation current, and there has been no `Invalidate` since its generation
was read, so none before it was stored. -/
structure Scope.Current (σ : Scope W C Key Id) (compile : ℕ → Key → Id) (stamp : Stamp) (key : Key)
    (id : Id) : Prop where
  id_eq : id = compile stamp.policy key
  made_le : σ.made ≤ stamp.policy
  readAt : stamp.readAt = σ.count
  storedAt : stamp.storedAt = σ.count

/-- Before the counter has wrapped, equal generations are the same generation. -/
theorem ofNat_inj_of_le {m n : ℕ} (hle : m ≤ n) (hfew : n < 2 ^ 64)
    (h : BitVec.ofNat 64 (1 + m) = BitVec.ofNat 64 (1 + n)) :
  m = n
  := by
  have hmod := congrArg BitVec.toNat h
  rw [BitVec.toNat_ofNat, BitVec.toNat_ofNat] at hmod
  omega

omit [DecidableEq W] [DecidableEq C] [DecidableEq Key] in
theorem Scope.Inv.answer (inv : σ.Inv compile) (hfew : σ.count < 2 ^ 64) {w : W} {s : ℕ} {key : Key}
    (hkey : ((σ.workers w).table.slots s).keys 0 = some key) {answer : Option Id}
    (hhit : (σ.workers w).table.answer (some s) σ.generation = (.hit, answer)) :
  ∃ id, answer = some id ∧ σ.Current compile ((σ.workers w).stamps s) key id
  := by
  rw [DecisionTable.answer] at hhit
  split at hhit
  case h_1 => cases hhit
  case h_2 entry hstate =>
  obtain ⟨-, ⟨⟩⟩ | ⟨hgen, hhit⟩ := ite_eq_iff.mp hhit
  cases hhit
  obtain ⟨seals, hread, hstored⟩ := (inv.workers w).entry s key entry hkey hstate
  have hsame := not_not.mp hgen
  rw [seals.generation_eq, inv.generation] at hsame
  have hcount := ofNat_inj_of_le seals.readAt_le hfew hsame
  exact ⟨_, rfl, seals.id_eq, seals.made_le hcount, hcount, by omega⟩

namespace DecisionTable

variable {t : DecisionTable Key Id}

theorem getLsbD_or_bit {hits : BitVec 64} {i j : ℕ} (hi : i < 64) :
  (hits ||| 1#64 <<< i).getLsbD j = (hits.getLsbD j || decide (j = i))
  := by
  by_cases hj : j = i
  · simp [hj, hi]
  simp [hj]
  omega

omit [DecidableEq Key] in
/-- The loop over the found keys records the hits and nothing else. -/
theorem answerBatch_hit (slots : List (Option ℕ)) (found current : BitVec 64) (i : ℕ) :
  ((t.answerBatch slots found current).hits.getLsbD i = true
      ↔ ((t.answerBatch slots found current).out i).isSome = true)
    ∧ ∀ id, (t.answerBatch slots found current).out i = some id →
      t.answer (slots.getD i none) current = (.hit, some id)
  := by
  suffices h : ∀ (is : List ℕ) (acc : (ℕ → Option Id) × BitVec 64), (∀ i ∈ is, i < 64) →
      (∀ i, (acc.2.getLsbD i = true ↔ (acc.1 i).isSome = true)
        ∧ ∀ id, acc.1 i = some id → t.answer (slots.getD i none) current = (.hit, some id)) →
      ∀ i, ((is.foldl (t.answerAt slots current) acc).2.getLsbD i = true
        ↔ ((is.foldl (t.answerAt slots current) acc).1 i).isSome = true)
        ∧ ∀ id, (is.foldl (t.answerAt slots current) acc).1 i = some id →
          t.answer (slots.getD i none) current = (.hit, some id) by
    apply h
    · intro i hi
      exact mem_range.mp (mem_filter.mp hi).1
    intro i
    simp
  intro is
  induction is with
  | nil => exact fun acc _ hacc => hacc
  | cons k is ih =>
  intro acc hlt hacc
  apply ih _ (fun i hi => hlt i (mem_cons_of_mem k hi))
  intro i
  rw [answerAt]
  split
  case h_2 => exact hacc i
  case h_1 id hans =>
  have hid : id.isSome = true := by
    cases id with
    | some id => rfl
    | none =>
    rw [answer] at hans
    split at hans
    · cases hans
    · split at hans <;> cases hans
  rw [getLsbD_or_bit (hlt k mem_cons_self)]
  rcases eq_or_ne i k with rfl | hne
  · simp only [update_self, decide_true, Bool.or_true, true_iff]
    exact ⟨hid, fun id' hid' => hid' ▸ hans⟩
  simp only [update_of_ne hne, hne, decide_false, Bool.or_false]
  exact hacc i

end DecisionTable

/-- While there have been fewer than 2⁶⁴ calls of `Invalidate`, every hit of a lookup, alone or in
a batch, is a current decision, and an install that is refused changes no entry. -/
theorem Scope.hits_are_current {σ σ' : Scope W C Key Id} (reached : Scope.Reached T compile σ)
    (hfew : σ.count < 2 ^ 64) {access : Access W C Key} {outcome : Outcome Key Id}
    (hstep : σ.step T compile access = some (σ', outcome)) :
  (∀ w key slot answer, access = .load w → outcome = .lookup key slot (.hit, answer) →
      ∃ s id, slot = some s ∧ answer = some id
        ∧ σ.Current compile ((σ.workers w).stamps s) key id)
    ∧ (∀ w keys slots answer, access = .loadBatch w → outcome = .lookupBatch keys slots answer →
      ∀ i, (answer.hits.getLsbD i = true ↔ (answer.out i).isSome = true)
        ∧ ∀ id, answer.out i = some id → ∃ key s, keys[i]? = some key
          ∧ slots.getD i none = some s ∧ σ.Current compile ((σ.workers w).stamps s) key id)
    ∧ (∀ key answer, outcome = .install key answer → answer = .staleGeneration ∨ answer = .full →
      ∀ w, (σ'.workers w).table = (σ.workers w).table)
  := by
  have inv := reached.inv
  refine ⟨?_, ?_, ?_⟩
  · rintro w key slot answer rfl hout
    rw [Scope.step] at hstep
    split at hstep
    case h_2 => cases hstep
    case h_1 key' slot' hactive =>
    have hact := (inv.workers w).activity
    rw [hactive] at hact
    obtain ⟨rfl, rfl⟩ := Prod.mk.inj (Option.some.inj hstep)
    obtain ⟨rfl, rfl, hhit⟩ := Outcome.lookup.inj hout
    cases slot' with
    | none => cases hhit
    | some s =>
    obtain ⟨id, rfl, current⟩ := inv.answer hfew (hact s rfl) hhit
    exact ⟨s, id, rfl, rfl, current⟩
  · rintro w keys slots answer rfl hout i
    rw [Scope.step] at hstep
    split at hstep
    case h_2 => cases hstep
    case h_1 keys' slots' found hactive =>
    have hact := (inv.workers w).activity
    rw [hactive] at hact
    obtain ⟨rfl, rfl⟩ := Prod.mk.inj (Option.some.inj hstep)
    obtain ⟨rfl, rfl, rfl⟩ := Outcome.lookupBatch.inj hout
    obtain ⟨hbits, hhits⟩ := DecisionTable.answerBatch_hit slots' found σ.generation i
    refine ⟨hbits, ?_⟩
    intro id hid
    have hhit := hhits id hid
    cases hslot : slots'.getD i none with
    | none =>
      rw [hslot] at hhit
      cases hhit
    | some s =>
    rw [hslot] at hhit
    obtain ⟨key, hkey, hstored⟩ := hact i s hslot
    obtain ⟨_, hsome, current⟩ := inv.answer hfew hstored hhit
    obtain rfl := Option.some.inj hsome
    exact ⟨key, s, hkey, rfl, current⟩
  rintro key answer rfl hrefused w
  cases access with rw [Scope.step] at hstep
  | check w' =>
    split at hstep
    case h_2 => cases hstep
    case h_1 =>
    obtain ⟨_, hstep⟩ | ⟨-, ⟨⟩⟩ := ite_eq_iff.mp hstep
    cases hstep
    rw [Scope.setWorker]
    rcases eq_or_ne w w' with rfl | hne
    · simp only [update_self]
    · simp only [update_of_ne hne]
  | store w' =>
    split at hstep
    case h_2 => cases hstep
    case h_1 key' id generation hactive =>
    obtain ⟨rfl, hout⟩ := Prod.mk.inj (Option.some.inj hstep)
    obtain ⟨rfl, rfl⟩ := Outcome.install.inj hout
    rw [Scope.setWorker]
    rcases eq_or_ne w w' with rfl | hne
    · simp only [update_self]
      apply DecisionTable.store_full
      apply hrefused.resolve_left
      rw [DecisionTable.store]
      split <;> exact nofun
    · simp only [update_of_ne hne]
  | publish c => cases hstep
  | invalidate c =>
    obtain ⟨policy, _, heq⟩ := map_eq_some_iff.mp hstep
    cases heq
  | _ => split at hstep <;> cases hstep

end

/-! ### A cache of one entry -/

namespace Scope

open WorkerFlowTable (wideTraits)

/-- One worker with room for one decision, and a decision that says which policy it was compiled
against. -/
def solo : Scope Unit Unit ℕ ℕ :=
  { workers := fun _ => { table :=
      { index := .create (FlowIndex.bucketsFor 1)
        slots := fun _ => .empty
        free := .init 1 .fifo
        capacity := 1
        size := 0
        quarantined := 0
        fatal := false } } }

def policyNumber (policy : ℕ) (_ : ℕ) : ℕ :=
  policy

def run (σ : Scope Unit Unit ℕ ℕ) (accesses : List (Access Unit Unit ℕ)) :
    Option (Scope Unit Unit ℕ ℕ) :=
  accesses.foldlM (fun σ access => (σ.step wideTraits policyNumber access).map Prod.fst) σ

variable {σ : Scope Unit Unit ℕ ℕ}

theorem Reached.run (reached : Reached wideTraits policyNumber σ)
    {accesses : List (Access Unit Unit ℕ)} {σ' : Scope Unit Unit ℕ ℕ} (h : σ.run accesses = some σ') :
  Reached wideTraits policyNumber σ'
  := by
  induction accesses generalizing σ with
  | nil =>
    obtain rfl := Option.some.inj h
    exact reached
  | cons access accesses ih =>
  obtain ⟨σ₁, hfirst, hrest⟩ := bind_eq_some_iff.mp h
  obtain ⟨⟨_, outcome⟩, hstep, rfl⟩ := map_eq_some_iff.mp hfirst
  exact ih (reached.step hstep) hrest

theorem reached_solo :
  Reached wideTraits policyNumber solo
  := .create fun _ => ⟨1, _, rfl, rfl⟩

/-- The worker installs a decision for key 5 and finds it. -/
def missPath : List (Access Unit Unit ℕ) :=
  [.readGeneration () 5, .compile (), .check (), .store (), .find () 5]

/-- The scope in which the worker has found the decision and not yet read the generation. -/
def soloFound : Scope Unit Unit ℕ ℕ :=
  (solo.run missPath).getD solo

theorem reached_soloFound :
  Reached wideTraits policyNumber soloFound
  := reached_solo.run (show solo.run missPath = some soloFound from rfl)

theorem soloFound_load :
  soloFound.step wideTraits policyNumber (.load ())
    = some (soloFound.setWorker () { soloFound.workers () with activity := .idle },
      .lookup 5 (some 0) (.hit, some 0))
  := rfl

theorem hits_are_current_soloFound :
  soloFound.count < 2 ^ 64 ∧ soloFound.Current policyNumber ((soloFound.workers ()).stamps 0) 5 0
  := by
  have hfew : soloFound.count < 2 ^ 64 := show 0 < 2 ^ 64 by decide
  refine ⟨hfew, ?_⟩
  obtain ⟨s, id, hs, hid, current⟩ := (hits_are_current reached_soloFound hfew soloFound_load).1
    () 5 (some 0) (some 0) rfl rfl
  obtain rfl := Option.some.inj hs
  obtain rfl := Option.some.inj hid
  exact current

/-- A control thread publishes and invalidates `n` times. -/
def invalidated (σ : Scope Unit Unit ℕ ℕ) (n : ℕ) : Scope Unit Unit ℕ ℕ :=
  { σ with
    generation := σ.generation + BitVec.ofNat 64 n
    policy := σ.policy + n
    count := σ.count + n
    made := if n = 0 then σ.made else σ.policy + n }

theorem Reached.invalidated (reached : Reached wideTraits policyNumber σ)
    (hcontrol : σ.control = fun _ => none) (n : ℕ) :
  Reached wideTraits policyNumber (σ.invalidated n)
  := by
  induction n with
  | zero =>
    have hsame : σ.invalidated 0 = σ := by
      rw [Scope.invalidated, BitVec.add_zero]
      rfl
    rw [hsame]
    exact reached
  | succ n ih =>
  have hstep : (σ.invalidated n).run [.publish (), .invalidate ()]
      = some (σ.invalidated (n + 1)) := by
    have hupd : update (update σ.control () (some (σ.policy + n + 1))) ()
        none = σ.control := by
      rw [hcontrol]
      rfl
    have hgen : σ.generation + BitVec.ofNat 64 n + 1
        = σ.generation + BitVec.ofNat 64 (n + 1) := by
      rw [BitVec.ofNat_add, BitVec.add_assoc]
      rfl
    change some { σ.invalidated n with
      generation := σ.generation + BitVec.ofNat 64 n + 1
      policy := σ.policy + n + 1
      control := update (update σ.control () (some (σ.policy + n + 1))) () none
      count := σ.count + n + 1
      made := σ.policy + n + 1 } = _
    rw [hupd, hgen]
    rfl
  exact ih.run hstep

/-- A policy is published between the compile and the install of a decision. -/
def publishedMeanwhile : List (Access Unit Unit ℕ) :=
  [.readGeneration () 5, .compile (), .publish (), .check (), .store (), .find () 5]

/-- The decision for policy 0 is a hit when policy 1 has been published and not yet invalidated for.
And after 2⁶⁴ policies the counter has come back, and the decision for the first of them is a hit. -/
theorem old_policy_hits :
  (∃ σ σ' : Scope Unit Unit ℕ ℕ, solo.run publishedMeanwhile = some σ
      ∧ Reached wideTraits policyNumber σ ∧ σ.policy = 1
      ∧ σ.step wideTraits policyNumber (.load ()) = some (σ', .lookup 5 (some 0) (.hit, some 0)))
    ∧ ∃ σ σ' : Scope Unit Unit ℕ ℕ, Reached wideTraits policyNumber σ
      ∧ σ.step wideTraits policyNumber (.load ()) = some (σ', .lookup 5 (some 0) (.hit, some 0))
      ∧ σ.made = 2 ^ 64
  := by
  have hrun : solo.run publishedMeanwhile = some ((solo.run publishedMeanwhile).getD solo) := rfl
  refine ⟨⟨_, _, hrun, reached_solo.run hrun, rfl, rfl⟩, ?_⟩
  have hwrap : soloFound.generation + BitVec.ofNat 64 (2 ^ 64) = soloFound.generation := by
    rw [show BitVec.ofNat 64 (2 ^ 64) = 0#64 by decide, BitVec.add_zero]
  refine ⟨soloFound.invalidated (2 ^ 64), (soloFound.invalidated (2 ^ 64)).setWorker ()
    { soloFound.workers () with activity := .idle }, reached_soloFound.invalidated rfl _, ?_, ?_⟩
  · rw [Scope.invalidated]
    rfl
  rw [Scope.invalidated]
  exact Nat.zero_add _

end Scope

end Flow
