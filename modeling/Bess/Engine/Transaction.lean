import Bess.Engine.Apply

/-!
# What a transaction can do

One inversion of `transact`: either the transaction is refused, and then what was reserved is
aborted and the engine is as it was, or everything is reserved and checked, and `commit` runs.
No assumption is made about the resources.

While a transaction is in progress the engine changes only the world and the marks `touched`
and `lastOp` of its registrations. `bare` forgets these.
-/

namespace Engine

open List Registration

variable {N K V Staged Fn W : Type}

/-- A registration without the marks of the transaction in progress. -/
def Registration.core (r : Registration N K) : Registration N K :=
  { r with touched := false, lastOp := 0 }

@[simp]
theorem Registration.core_incoming (r : Registration N K) :
  r.core.incoming = r.incoming
  := rfl

theorem Registration.name_of_core_eq {r r' : Registration N K} (h : r'.core = r.core) :
  r'.name = r.name
  := by
  have hname := congrArg name h
  exact hname

theorem Registration.deps_of_core_eq {r r' : Registration N K} (h : r'.core = r.core) :
  r'.deps = r.deps
  := by
  have hdeps := congrArg deps h
  exact hdeps

namespace TransactionEngine

section

variable (s : TransactionEngine N K Fn W)

@[simp]
theorem setResources_resources (resources : List (Registration N K)) :
  (s.setResources resources).resources = resources
  := rfl

@[simp]
theorem setWorld_resources (w : W) :
  (s.setWorld w).resources = s.resources
  := rfl

@[simp]
theorem setWorld_world (w : W) :
  (s.setWorld w).world = w
  := rfl

end

/-- The engine without the marks of the transaction in progress, on another world. -/
def withWorld {W' : Type} (s : TransactionEngine N K Fn W) (w : W') :
    TransactionEngine N K Fn W' where
  resources := s.resources.map core
  cascades := s.cascades
  deferredObjects := s.deferredObjects
  generation := s.generation
  ranksDirty := s.ranksDirty
  referenceCycle := s.referenceCycle
  world := w

/-- The engine without the marks of the transaction in progress and without its world. -/
def bare (s : TransactionEngine N K Fn W) : TransactionEngine N K Fn Unit :=
  s.withWorld ()

variable {s s' : TransactionEngine N K Fn W} {order : List (Op N K V × ℕ)} {name : N}

theorem resources_of_bare_eq (h : s'.bare = s.bare) :
  s'.resources.map core = s.resources.map core
  := congrArg resources h

theorem cascades_of_bare_eq (h : s'.bare = s.bare) :
  s'.cascades = s.cascades
  := congrArg (fun t : TransactionEngine N K Fn Unit => t.cascades) h

theorem generation_of_bare_eq (h : s'.bare = s.bare) :
  s'.generation = s.generation
  := congrArg (fun t : TransactionEngine N K Fn Unit => t.generation) h

/-- Lists that agree under a map have elements with the properties the map keeps. -/
theorem forall_of_map_eq {α β : Type} {l l' : List α} {g : α → β} {P : α → Prop}
    (h : l'.map g = l.map g) (hP : ∀ a a', g a' = g a → P a → P a') (hl : ∀ a ∈ l, P a) :
  ∀ a ∈ l', P a
  := by
  intro a ha
  have hmem := mem_map_of_mem (f := g) ha
  rw [h] at hmem
  obtain ⟨a₀, ha₀, heq⟩ := mem_map.mp hmem
  exact hP a₀ a heq.symm (hl a₀ ha₀)

/-- What no step of a fold changes, the fold does not change. -/
theorem foldl_unchanged {α β γ : Type} (g : α → γ) {f : α → β → α}
    (hf : ∀ a b, g (f a b) = g a) (l : List β) (a : α) :
  g (l.foldl f a) = g a
  := by
  induction l generalizing a with
  | nil => rfl
  | cons b l ih => rw [foldl_cons, ih, hf]

/-- Every registration a transaction has marked is in the list of those to unmark. -/
def Marked (s : TransactionEngine N K Fn W) (touched : List N) : Prop :=
  ∀ r ∈ s.resources, r.touched = true → r.name ∈ touched

/-- The ledgers hold no entry without a reference. -/
def NoZeros [DecidableEq K] (s : TransactionEngine N K Fn W) : Prop :=
  ∀ r ∈ s.resources, ∀ key, r.incoming.lookup key ≠ some 0

theorem NoZeros.of_bare_eq [DecidableEq K] (h : s'.bare = s.bare) (zeros : s.NoZeros) :
  s'.NoZeros
  := by
  refine forall_of_map_eq (resources_of_bare_eq h) ?_ zeros
  intro r r' hcore hr key
  have hincoming := congrArg incoming hcore
  rw [core_incoming] at hincoming
  rw [hincoming]
  apply hr

section

variable [DecidableEq N] {α : Type} {g f : Registration N K → Registration N K}

/-- What does not read what `g` forgets is found alike in engines that agree under `g`. -/
theorem find_map_of_map_eq
    (h : s'.resources.map g = s.resources.map g) (hname : ∀ r, (g r).name = r.name) (name : N)
    (f : Registration N K → α) (hf : ∀ r, f (g r) = f r) :
  (s'.find name).map f = (s.find name).map f
  := by
  have hfind : ∀ s : TransactionEngine N K Fn W, (s.find name).map f
      = ((s.resources.map g).find? (fun r => r.name = name)).map f := by
    intro s
    rw [find?_map, Option.map_map, find]
    simp only [Function.comp_def, hname, hf]
  rw [hfind s', hfind s, h]

theorem find_bind_of_map_eq
    (h : s'.resources.map g = s.resources.map g) (hname : ∀ r, (g r).name = r.name) (name : N)
    (f : Registration N K → Option α) (hf : ∀ r, f (g r) = f r) :
  (s'.find name).bind f = (s.find name).bind f
  := by
  have hmap := congrArg (fun o => o.bind id) (find_map_of_map_eq h hname name f hf)
  simpa only [Option.bind_map, Function.id_comp] using hmap

theorem find_of_bare_eq (h : s'.bare = s.bare) (name : N) :
  (s'.find name).map core = (s.find name).map core
  := find_map_of_map_eq (resources_of_bare_eq h) (fun _ => rfl) name _ (fun _ => rfl)

theorem find_bind_of_bare_eq (h : s'.bare = s.bare) (name : N) (f : Registration N K → Option α)
    (hf : ∀ r, f r.core = f r) :
  (s'.find name).bind f = (s.find name).bind f
  := find_bind_of_map_eq (resources_of_bare_eq h) (fun _ => rfl) name f hf

theorem map_modify (s : TransactionEngine N K Fn W) (name : N) {g : Registration N K → α}
    (hg : ∀ r, g (f r) = g r) :
  (s.modify name f).resources.map g = s.resources.map g
  := by
  rw [modify, setResources_resources, map_map]
  apply map_congr_left
  intro r _
  rw [Function.comp_apply]
  split
  case isTrue => apply hg
  case isFalse => rfl

theorem modify_eq_self (hf : ∀ r ∈ s.resources, f r = r) :
  s.modify name f = s
  := by
  have hmap : s.resources.map (fun r => if r.name = name then f r else r)
      = s.resources.map id := by
    apply map_congr_left
    intro r hr
    simp [hf r hr]
  rw [modify, hmap, map_id]
  rfl

theorem bare_modify (s : TransactionEngine N K Fn W) (name : N)
    (f : Registration N K → Registration N K) (hf : ∀ r, (f r).core = r.core) :
  (s.modify name f).bare = s.bare
  := by
  unfold bare withWorld
  rw [map_modify s name hf]
  rfl

@[simp]
theorem bare_touch (s : TransactionEngine N K Fn W) (name : N) (i : ℕ) :
  (s.touch name i).bare = s.bare
  := bare_modify s name _ (fun _ => rfl)

end

/-! ### Reservations -/

/-- A successful reservation: the operation and its place in the request, what the resource
answered, and the world after it. -/
structure Entry (N K V Staged W : Type) : Type where
  op : Op N K V
  index : ℕ
  reservation : Reservation N K Staged
  world : W

namespace Entry

def request (e : Entry N K V Staged W) : Op N K V × ℕ :=
  (e.op, e.index)

def reserved (e : Entry N K V Staged W) : Reserved N K V Staged :=
  ⟨e.index, e.op, e.reservation.staged⟩

end Entry

/-- The successful reservations that lead from one world to another. -/
inductive Reserves (D : Dataplane N K V Staged Fn W) :
    W → List (Entry N K V Staged W) → W → Prop where
  | nil (w : W) : Reserves D w [] w
  | cons {w w' : W} {e : Entry N K V Staged W} {es : List (Entry N K V Staged W)}
      (head : D.reserve w e.op = (e.world, .ok e.reservation)) (tail : Reserves D e.world es w') :
      Reserves D w (e :: es) w'

/-- What happens between the last reservation and a refusal: nothing, a reservation that fails,
or preparations. -/
inductive Refused (D : Dataplane N K V Staged Fn W) (order : List (Op N K V × ℕ))
    (es : List (Entry N K V Staged W)) : W → W → Prop where
  | check (w : W) : Refused D order es w w
  | reserve {w w' : W} {op : Op N K V} {i : ℕ} {error : String}
      (next : es.map Entry.request ++ [(op, i)] <+: order)
      (failed : D.reserve w op = (w', .error error)) : Refused D order es w w'
  | prepare (w : W) (names : List N) :
      Refused D order es w (names.foldl (fun w name => (D.prepare w name).1) w)

variable {es : List (Entry N K V Staged W)} {o : Option Result} {t : Scratch N K V Staged}

theorem Refused.cons {D : Dataplane N K V Staged Fn W} {w w' : W} (h : Refused D order es w w')
    {p : Op N K V × ℕ} {e : Entry N K V Staged W} (he : e.request = p) :
  Refused D (p :: order) (e :: es) w w'
  := by
  cases h with
  | check => apply Refused.check
  | @reserve _ op i _ next failed =>
    refine Refused.reserve (i := i) ?_ failed
    simpa [he] using next
  | prepare names => apply Refused.prepare

section

variable [DecidableEq N] {reg reg' : Registration N K} (D : Dataplane N K V Staged Fn W) {i : ℕ}

theorem holder_of_bare_eq (h : s'.bare = s.bare) (hw : s'.world = s.world) :
  holder D s' = holder D s
  := by
  funext target key inTransaction
  unfold holder
  rw [hw]
  apply find_bind_of_bare_eq h
  intro r
  rfl

theorem resolve_of_core_eq {r r' : Registration N K} (h : r'.core = r.core) :
  resolve r' = resolve r
  := by
  unfold resolve
  rw [deps_of_core_eq h]

theorem previousDeltas_of_bare_eq (h : s'.bare = s.bare)
    (hw : s'.world = s.world) (hreg : reg'.core = reg.core) :
  previousDeltas D s' reg' = previousDeltas D s reg
  := by
  have hresolve : resolve reg' = resolve reg := resolve_of_core_eq hreg
  unfold previousDeltas
  rw [holder_of_bare_eq D h hw, hresolve]

theorem marked_touch {touched : List N} (marked : s.Marked touched) (hreg : s.find name = some reg) :
  (s.touch name i).Marked (if reg.touched then touched else touched ++ [name])
  := by
  intro r hr htouched
  obtain ⟨r₀, hr₀, rfl⟩ := mem_map.mp hr
  have hname : reg.name = name := by simpa using find?_some hreg
  by_cases hr₀name : r₀.name = name
  case neg =>
    simp only [hr₀name] at htouched ⊢
    have hmem := marked r₀ hr₀ htouched
    split
    case isTrue => exact hmem
    case isFalse => exact mem_append_left _ hmem
  case pos =>
  rw [if_pos hr₀name]
  rw [hr₀name]
  split
  case isTrue h =>
    have hmem := marked reg (mem_of_find?_eq_some hreg) h
    rwa [hname] at hmem
  case isFalse => simp

variable [ToString N] [ToString K] {t' : Scratch N K V Staged}

/-- The changes a reservation makes to the counts of references. -/
def entryDeltas (D : Dataplane N K V Staged Fn W) (s : TransactionEngine N K Fn W)
    (e : Entry N K V Staged W) : List (Delta N K) × Option String :=
  match s.find e.op.resource with
  | none => ([], none)
  | some reg => opDeltas D (s.setWorld e.world) reg e.op e.index e.reservation

section

variable (h : s'.bare = s.bare) (hw : s'.world = s.world) (hreg : reg'.core = reg.core)

include h hw hreg

theorem newDeltas_of_bare_eq (i : ℕ) :
  newDeltas D s' reg' i = newDeltas D s reg i
  := by
  have hresolve : resolve reg' = resolve reg := resolve_of_core_eq hreg
  have hname : reg'.name = reg.name := name_of_core_eq hreg
  have hholder : ∀ target : N, (s'.find target).bind (·.resource.keyHolder)
      = (s.find target).bind (·.resource.keyHolder) := by
    intro target
    apply find_bind_of_bare_eq h
    intro r
    rfl
  funext references
  induction references with
  | nil => rfl
  | cons ref references ih =>
    simp only [newDeltas, ih, hresolve, hname, hholder, holder_of_bare_eq D h hw]

theorem opDeltas_of_bare_eq (op : Op N K V) (i : ℕ) (r : Reservation N K Staged) :
  opDeltas D s' reg' op i r = opDeltas D s reg op i r
  := by
  simp only [opDeltas, previousDeltas_of_bare_eq D h hw hreg, newDeltas_of_bare_eq D h hw hreg]

end

theorem entryDeltas_of_bare_eq (h : s'.bare = s.bare) (e : Entry N K V Staged W) :
  entryDeltas D s' e = entryDeltas D s e
  := by
  have hfind := find_of_bare_eq h e.op.resource
  unfold entryDeltas
  rcases h₁ : s'.find e.op.resource with _ | reg' <;>
    rcases h₂ : s.find e.op.resource with _ | reg
  case none.none => rfl
  case none.some | some.none => simp [h₁, h₂] at hfind
  case some.some =>
  rw [h₁, h₂, Option.map_some, Option.map_some, Option.some.injEq] at hfind
  refine opDeltas_of_bare_eq D ?_ ?_ hfind _ _ _
  · exact h
  · rfl

/-- What the reservation of one operation can do. -/
theorem reserveOne_cases (n : ℕ) {op : Op N K V} (hreg : s.find op.resource = some reg)
    (h : reserveOne D n s t op i = (s', t', o)) :
  s'.bare = s.bare ∧ (s.Marked t.touched → s'.Marked t'.touched)
    ∧ (∀ refusal ∈ o, refusal.outcome = .rejected)
    ∧ ((∃ error, D.reserve s.world op = (s'.world, .error error) ∧ t'.staged = t.staged
          ∧ o.isSome)
      ∨ (∃ r, D.reserve s.world op = (s'.world, .ok r)
          ∧ t'.staged = t.staged ++ [⟨i, op, r.staged⟩]
          ∧ (o = none →
              t'.deltas = t.deltas ++ (entryDeltas D s ⟨op, i, r, s'.world⟩).1
                ∧ (entryDeltas D s ⟨op, i, r, s'.world⟩).2 = none
                ∧ t'.removalsByOp = t.removalsByOp.set i r.footprint.removals)))
  := by
  rw [reserveOne, hreg] at h
  simp only at h
  set touched := if reg.touched then t else { t with touched := t.touched ++ [op.resource] }
    with htouched
  obtain ⟨hlist, hstaged, hdeltas, hremovals⟩ : touched.touched
        = (if reg.touched then t.touched else t.touched ++ [op.resource])
      ∧ touched.staged = t.staged ∧ touched.deltas = t.deltas
      ∧ touched.removalsByOp = t.removalsByOp := by
    rw [htouched]
    split <;> exact ⟨rfl, rfl, rfl, rfl⟩
  have hmarked : s.Marked t.touched → (s.touch op.resource i).Marked touched.touched := by
    intro marked
    rw [hlist]
    apply marked_touch marked hreg
  rcases hans : D.reserve (s.touch op.resource i).world op with ⟨w, answer⟩
  rw [hans] at h
  cases answer with
  | error error =>
    simp only [Prod.mk.injEq] at h
    obtain ⟨rfl, rfl, rfl⟩ := h
    use bare_touch s op.resource i, hmarked
    constructor
    · simp [reject]
    left
    use error, hans, hstaged
    rfl
  | ok r =>
  -- the marks do not show in the changes
  have hentry : entryDeltas D s ⟨op, i, r, w⟩
      = opDeltas D ((s.touch op.resource i).setWorld w) reg op i r := by
    simp only [entryDeltas, hreg]
    symm
    refine opDeltas_of_bare_eq D ?_ ?_ ?_ op i r
    · apply bare_touch
    · rfl
    · rfl
  simp only [← hentry] at h
  rcases hchanges : entryDeltas D s ⟨op, i, r, w⟩ with ⟨changes, error⟩
  rw [hchanges] at h
  cases error with
  | some error =>
    obtain ⟨rfl, rfl, rfl⟩ := h
    use bare_touch s op.resource i, hmarked
    constructor
    · simp [reject]
    right
    use r, hans
    constructor
    · rw [hstaged]
    · simp
  | none =>
  simp only at h
  split at h
  case isTrue =>
    obtain ⟨rfl, rfl, rfl⟩ := h
    use bare_touch s op.resource i, hmarked
    constructor
    · simp [reject]
    right
    use r, hans
    constructor
    · rw [hstaged]
    · simp
  case isFalse =>
  obtain ⟨rfl, rfl, rfl⟩ := h
  use bare_touch s op.resource i, hmarked
  constructor
  · simp
  right
  use r, hans
  constructor
  · rw [hstaged]
  · simp [hchanges, hdeltas, hremovals]

/-- What the reservations of a transaction can do: the operations reserved are the first ones in
the order, and all of them unless the transaction is refused. -/
theorem reserveAll_cases (n : ℕ) (known : ∀ p ∈ order, (s.find p.1.resource).isSome)
    (h : reserveAll D n order s t = (s', t', o)) :
  s'.bare = s.bare ∧ (s.Marked t.touched → s'.Marked t'.touched)
    ∧ (∀ refusal ∈ o, refusal.outcome = .rejected)
    ∧ ∃ es : List (Entry N K V Staged W), ∃ w,
        Reserves D s.world es w ∧ t'.staged = t.staged ++ es.map Entry.reserved
          ∧ es.map Entry.request <+: order
          ∧ (o.isSome → Refused D order es w s'.world)
          ∧ (o = none → w = s'.world ∧ es.map Entry.request = order
              ∧ t'.deltas = t.deltas ++ es.flatMap (fun e => (entryDeltas D s e).1)
              ∧ (∀ e ∈ es, (entryDeltas D s e).2 = none)
              ∧ t'.removalsByOp = es.foldl
                  (fun l e => l.set e.index e.reservation.footprint.removals) t.removalsByOp)
  := by
  induction order generalizing s t with
  | nil =>
    obtain ⟨rfl, rfl, rfl⟩ := h
    use rfl, id
    constructor
    · simp
    use [], s'.world, .nil _
    simp
  | cons p order ih =>
  obtain ⟨op, i⟩ := p
  rw [reserveAll] at h
  rcases hone : reserveOne D n s t op i with ⟨s₁, t₁, o₁⟩
  rw [hone] at h
  obtain ⟨reg, hreg⟩ := Option.isSome_iff_exists.mp (known (op, i) mem_cons_self)
  obtain ⟨hbare, hmarked, hrej, hcases⟩ := reserveOne_cases D n hreg hone
  cases o₁ with
  | some refusal =>
    obtain ⟨rfl, rfl, rfl⟩ := h
    use hbare, hmarked, hrej
    obtain ⟨error, hans, hstaged, -⟩ | ⟨r, hans, hstaged, -⟩ := hcases
    case inr =>
      use [⟨op, i, r, s'.world⟩], s'.world, .cons hans (.nil _), hstaged
      use by simp [Entry.request]
      constructor
      · intro _
        apply Refused.check
      · simp
    case inl =>
    use [], s.world, .nil _
    simp only [hstaged, map_nil, append_nil, true_and]
    use nil_prefix
    constructor
    · intro _
      refine Refused.reserve (i := i) ?_ hans
      simp
    · simp
  | none =>
  obtain ⟨_, _, _, habsurd⟩ | ⟨r, hans, hstaged, haccept⟩ := hcases
  case inl => simp at habsurd
  case inr =>
  obtain ⟨hdeltas, hresolved, hremovals⟩ := haccept rfl
  have known' : ∀ p ∈ order, (s₁.find p.1.resource).isSome := by
    intro p hp
    have hsome := congrArg Option.isSome (find_of_bare_eq hbare p.1.resource)
    rw [Option.isSome_map, Option.isSome_map] at hsome
    rw [hsome]
    apply known p (mem_cons_of_mem _ hp)
  obtain ⟨hbare', hmarked', hrej', es, w, hes, hst, hinit, hrefused, hall⟩ := ih known' h
  use hbare'.trans hbare, fun marked => hmarked' (hmarked marked), hrej'
  use ⟨op, i, r, s₁.world⟩ :: es, w, .cons hans hes
  constructor
  · simp [hst, hstaged, Entry.reserved]
  constructor
  · simpa [Entry.request] using hinit
  constructor
  · intro ho
    exact (hrefused ho).cons rfl
  intro ho
  obtain ⟨hw, hrequests, hdeltas', hresolved', hremovals'⟩ := hall ho
  simp only [entryDeltas_of_bare_eq D hbare] at hdeltas' hresolved'
  use hw
  constructor
  · simp [hrequests, Entry.request]
  constructor
  · simp [hdeltas', hdeltas]
  constructor
  · simpa [hresolved] using hresolved'
  · simp [hremovals', hremovals]

end

/-! ### Ending a transaction -/

section

variable [DecidableEq N]

section

variable (D : Dataplane N K V Staged Fn W) (s : TransactionEngine N K Fn W) (touched : List N)

theorem endTransactions_world :
  (endTransactions D s touched).world = touched.foldl D.endTransaction s.world
  := by
  induction touched generalizing s with
  | nil => rfl
  | cons name touched ih => apply ih

theorem endTransactions_bare :
  (endTransactions D s touched).bare = s.bare
  := by
  induction touched generalizing s with
  | nil => rfl
  | cons name touched ih =>
  apply (ih _).trans
  apply bare_modify
  intro r
  rfl

end

variable {ops : List (Op N K V)} {touched : List N} (D : Dataplane N K V Staged Fn W)

theorem marked_untouch (marked : s.Marked (name :: touched)) :
  (s.modify name (fun r => { r with touched := false })).Marked touched
  := by
  intro r hr htouched
  obtain ⟨r₀, hr₀, rfl⟩ := mem_map.mp hr
  by_cases hname : r₀.name = name
  case pos => simp [hname] at htouched
  case neg =>
  simp only [hname] at htouched ⊢
  have hmem := marked r₀ hr₀ htouched
  simpa [hname] using hmem

theorem endTransactions_marked (marked : s.Marked touched) :
  (endTransactions D s touched).Marked []
  := by
  induction touched generalizing s with
  | nil => exact marked
  | cons name touched ih =>
  apply ih
  apply marked_untouch marked

/-- Where every entry of the ledgers has a reference, there is none to take out. -/
theorem dropEmpty_noZeros [DecidableEq K] (zeros : s.NoZeros) (d : Delta N K) :
  s.dropEmpty d = s
  := by
  unfold dropEmpty
  split
  case isTrue =>
    apply modify_eq_self
    intro r hr
    simp [zeros r hr d.key]
  case isFalse => rfl

/-- An abort puts back nothing but the world: the engine is as it was. -/
theorem abort_eq [DecidableEq K] (zeros : s.NoZeros) (t : Scratch N K V Staged) :
  abort D s t = endTransactions D
    (s.setWorld (t.staged.reverse.foldl (fun w r => D.abort w r.work) s.world)) t.touched
  := by
  have hdrop : ∀ (deltas : List (Delta N K)) (s : TransactionEngine N K Fn W),
      s.NoZeros → deltas.foldl dropEmpty s = s := by
    intro deltas
    induction deltas with
    | nil => simp
    | cons d deltas ih =>
    intro s zeros
    rw [foldl_cons, dropEmpty_noZeros zeros]
    apply ih s zeros
  apply hdrop
  apply NoZeros.of_bare_eq (endTransactions_bare D _ _)
  exact zeros

theorem prepareAll_cases (n : ℕ) (h : prepareAll D n touched s = (s', o)) :
  (∃ names : List N, s' = s.setWorld (names.foldl (fun w name => (D.prepare w name).1) s.world))
    ∧ ∀ refusal ∈ o, refusal.outcome = .rejected
  := by
  induction touched generalizing s with
  | nil =>
    obtain ⟨rfl, rfl⟩ := h
    constructor
    · use []
      rfl
    · simp
  | cons name touched ih =>
  rw [prepareAll] at h
  rcases hans : D.prepare s.world name with ⟨w, answer⟩
  rw [hans] at h
  cases answer with
  | error error =>
    obtain ⟨rfl, rfl⟩ := h
    constructor
    · use [name]
      simp [hans]
    · simp [reject]
  | ok _ =>
  obtain ⟨⟨names, hs'⟩, hrej⟩ := ih h
  refine ⟨⟨name :: names, ?_⟩, hrej⟩
  rw [hs']
  simp [hans, setWorld]

theorem count_of_bare_eq [DecidableEq K] (h : s'.bare = s.bare) :
  s'.count = s.count
  := by
  funext name key
  unfold count
  rw [find_bind_of_bare_eq h name (fun r => r.incoming.lookup key) (fun _ => rfl)]

/-- A refused transaction: the engine is as it was, and what was reserved was aborted, the
latest reservation first. -/
structure Aborted (D : Dataplane N K V Staged Fn W) (s : TransactionEngine N K Fn W)
    (ops : List (Op N K V)) (s' : TransactionEngine N K Fn W) : Prop where
  bare : s'.bare = s.bare
  marked : s'.Marked []
  undone : ∃ (es : List (Entry N K V Staged W)) (w w' : W) (touched : List N),
    Reserves D s.world es w ∧ es.map Entry.request <+: s.reserveOrder ops
      ∧ Refused D (s.reserveOrder ops) es w w'
      ∧ s'.world = touched.foldl D.endTransaction
          (es.reverse.foldl (fun w e => D.abort w e.reservation.staged) w')

theorem aborted_abort [DecidableEq K] (zeros : s.NoZeros) {w : W} (reserves : Reserves D s.world es w)
    (order : es.map Entry.request <+: s.reserveOrder ops) {s₁ : TransactionEngine N K Fn W}
    (bare : s₁.bare = s.bare) (refused : Refused D (s.reserveOrder ops) es w s₁.world)
    (marked : s₁.Marked t.touched) (staged : t.staged = es.map Entry.reserved) :
  Aborted D s ops (abort D s₁ t)
  := by
  rw [abort_eq D (zeros.of_bare_eq bare)]
  constructor
  case bare =>
    apply (endTransactions_bare D _ _).trans
    exact bare
  case marked =>
    apply endTransactions_marked
    exact marked
  case undone =>
  use es, w, s₁.world, t.touched, reserves, order, refused
  rw [endTransactions_world, staged, ← map_reverse, foldl_map]
  rfl

theorem reserveOrder_known (known : ∀ op ∈ ops, (s.find op.resource).isSome) :
  ∀ p ∈ s.reserveOrder ops, (s.find p.1.resource).isSome
  := by
  intro p hp
  apply known
  rw [reserveOrder, mem_insertionSort] at hp
  exact (mem_zipIdx' hp).2 ▸ getElem_mem _

variable [LinearOrder K] [ToString N] [ToString K]

theorem checkDelta_outcome {D : Dataplane N K V Staged Fn W} {keys : List (KeyRef N K)}
    {d : Delta N K} {refusal : Result} (h : checkDelta D s ops keys d = some refusal) :
  refusal.outcome = .rejected
  := by
  unfold checkDelta at h
  simp only at h
  split at h
  case isTrue => simp at h
  case isFalse =>
  split at h
  case h_1 =>
    split at h
    case isTrue => simp at h
    case isFalse =>
    obtain rfl := Option.some.inj h
    rfl
  case h_2 =>
  split at h
  case isTrue => simp at h
  case isFalse =>
  split at h
  case h_1 => simp at h
  case h_2 =>
  obtain rfl := Option.some.inj h
  rfl

/-! ### The transaction -/

/-- A transaction whose operations are all reserved, with `w` the world after that, and which
passed the checks: `s₁` and `t` are what it commits. -/
structure Accepted (D : Dataplane N K V Staged Fn W) (s : TransactionEngine N K Fn W)
    (ops : List (Op N K V)) (es : List (Entry N K V Staged W)) (w : W)
    (s₁ : TransactionEngine N K Fn W) (t : Scratch N K V Staged) : Prop where
  reserves : Reserves D s.world es w
  requests : es.map Entry.request = s.reserveOrder ops
  staged : t.staged = es.map Entry.reserved
  deltas : t.deltas = mergeDeltas D (es.flatMap (fun e => (entryDeltas D s e).1))
  resolved : ∀ e ∈ es, (entryDeltas D s e).2 = none
  removals : t.removalsByOp = es.foldl
    (fun l e => l.set e.index e.reservation.footprint.removals) (List.replicate ops.length 0)
  checked : ∀ d ∈ t.deltas, checkDelta D (s.setWorld w) ops (keyRefs D ops) d = none
  bare : s₁.bare = s.bare
  marked : s₁.Marked t.touched
  prepared : ∃ names : List N,
    s₁.world = names.foldl (fun w name => (D.prepare w name).1) w

/-- What a transaction can do: it is refused, and what is reserved is aborted, or it commits. -/
theorem transact_cases (zeros : s.NoZeros) (marked : s.Marked [])
    (known : ∀ op ∈ ops, (s.find op.resource).isSome) {r : Result} (h : transact D s ops = (s', r))
    :
  (r.outcome ≠ .applied ∧ Aborted D s ops s')
    ∨ ∃ es w s₁ t, Accepted D s ops es w s₁ t ∧ commit D s₁ ops t = (s', r)
  := by
  have order_known := reserveOrder_known known
  unfold transact at h
  simp only at h
  rcases hreserve : reserveAll D ops.length (s.reserveOrder ops) s
    ⟨[], [], [], {}, List.replicate ops.length 0⟩ with ⟨s₁, t, o⟩
  rw [hreserve] at h
  obtain ⟨hbare, hmarked, hrej, es, w, hes, hstaged, hinit, hrefused, hall⟩ :=
    reserveAll_cases D _ order_known hreserve
  have hmarked₁ := hmarked marked
  cases o with
  | some refusal =>
    obtain ⟨rfl, rfl⟩ := h
    left
    constructor
    · simp [hrej _ rfl]
    · apply aborted_abort D zeros hes hinit hbare (hrefused rfl) hmarked₁ hstaged
  | none =>
  obtain ⟨rfl, hrequests, hdeltas, hresolved, hremovals⟩ := hall rfl
  rw [nil_append] at hdeltas
  simp only at h
  split at h
  case h_1 refusal hbusy =>
    obtain ⟨rfl, rfl⟩ := h
    left
    constructor
    · simp only [checkBackpressure, Option.ite_none_right_eq_some, Option.some.injEq] at hbusy
      simp [← hbusy.2]
    · apply aborted_abort D zeros hes hinit hbare (.check _) hmarked₁ hstaged
  case h_2 =>
  split at h
  case h_1 refusal hcheck =>
    obtain ⟨rfl, rfl⟩ := h
    left
    constructor
    · obtain ⟨d, -, hd⟩ := exists_of_findSome?_eq_some hcheck
      simp [checkDelta_outcome hd]
    apply aborted_abort D zeros hes hinit hbare (.check _)
    · exact hmarked₁
    · exact hstaged
  case h_2 hcheck =>
  rcases hprepare : prepareAll D ops.length t.touched s₁ with ⟨s₂, o⟩
  rw [hprepare] at h
  obtain ⟨⟨names, hs₂⟩, hrej⟩ := prepareAll_cases D _ hprepare
  have hbare₂ : s₂.bare = s.bare := by
    rw [hs₂]
    exact hbare
  have hmarked₂ : s₂.Marked t.touched := by
    rw [hs₂]
    exact hmarked₁
  cases o with
  | some refusal =>
    obtain ⟨rfl, rfl⟩ := h
    left
    constructor
    · simp [hrej _ rfl]
    refine aborted_abort D zeros hes hinit hbare₂ ?_ hmarked₂ hstaged
    rw [hs₂]
    apply Refused.prepare
  | none =>
  right
  refine ⟨es, s₁.world, s₂, _, ?_, h⟩
  constructor
  case reserves => exact hes
  case requests => exact hrequests
  case staged => exact hstaged
  case deltas => rw [hdeltas]
  case resolved => exact hresolved
  case removals => exact hremovals
  case checked =>
    rw [findSome?_eq_none_iff] at hcheck
    intro d hd
    rw [← hcheck d hd]
    simp only [checkDelta, reject, count_of_bare_eq hbare, generation_of_bare_eq hbare]
    rfl
  case bare => exact hbare₂
  case marked => exact hmarked₂
  case prepared =>
  use names
  rw [hs₂]
  rfl

end

end TransactionEngine

end Engine
