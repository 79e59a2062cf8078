import Bess.Engine.Ledger

/-!
# What resources say about references

`Referential` is what the engine relies on for its counts, besides the contract: what a resource
says about its keys and references is what it shows, a publication writes the key of its
operation, and a key changes hands only as the transaction in progress says, and while nothing
references it. Under it a transaction that passes the checks makes a change that keeps the ledger
consistent.
-/

namespace Engine

variable {N K V Staged Fn W : Type}

open List TransactionEngine

/-- What resources say about keys and references is what they show. -/
structure Referential {D : Dataplane N K V Staged Fn W} (C : Contract D) : Type where
  /-- The resource, if any, that may hold keys of a resource. -/
  keyHolder : N → Option N
  tidy : ∀ {w rs}, C.Holding w rs → (C.committed w).Tidy
  contains : ∀ {w rs}, C.Holding w rs → ∀ name key,
    D.contains w name key = true ↔ key ∈ (C.committed w).keys name
  visitReferences : ∀ {w}, C.Holding w [] → ∀ name, (D.visitReferences w name).Perm
    (((C.committed w).keys name).toList.flatMap ((C.committed w).references name))
  liveCount : ∀ {w}, C.Holding w [] → ∀ name,
    D.liveCount w name = 0 → (C.committed w).keys name = ∅
  reserve : ∀ {w w' rs op r}, C.Holding w rs →
    (∀ p ∈ rs, ¬ (p.1.resource = op.resource ∧ p.1.key = op.key)) →
    D.reserve w op = (w', .ok r) →
    (r.existed = true ↔ op.key ∈ (C.committed w).keys op.resource)
      ∧ (r.existed = true →
          r.previousReferences = (C.committed w).references op.resource op.key)
  publish : ∀ {w rs op r rest}, C.Holding w rs → rs.Perm ((op, r) :: rest) →
    ((op.key ∈ (C.committed (D.publish w r.staged).1).keys op.resource ↔ op.kind = .upsert)
      ∧ (op.kind = .upsert →
          (C.committed (D.publish w r.staged).1).references op.resource op.key = r.references))
    ∧ ∀ name key, (name, key) ≠ op.target →
        (key ∈ (C.committed (D.publish w r.staged).1).keys name
            ↔ key ∈ (C.committed w).keys name)
          ∧ (C.committed (D.publish w r.staged).1).references name key
            = (C.committed w).references name key
  held : ∀ {w rs}, C.Holding w rs → ∀ name key,
    D.heldByKeyHolder w name key false = (C.committed w).held name key
  /-- Only operations on a resource and on its key holder change who is to hold its keys. -/
  reserve_held : ∀ {w w' rs op r}, C.Holding w rs →
    (∀ p ∈ rs, ¬ (p.1.resource = op.resource ∧ p.1.key = op.key)) →
    D.reserve w op = (w', .ok r) → ∀ name key, op.resource ≠ name →
    keyHolder name ≠ some op.resource →
    D.heldByKeyHolder w' name key true = D.heldByKeyHolder w name key true
  prepare_held : ∀ {w rs}, C.Holding w rs → ∀ n name key,
    D.heldByKeyHolder (D.prepare w n).1 name key true = D.heldByKeyHolder w name key true
  /-- Published, the transaction leaves the keys with those it said would hold them. -/
  settle_held : ∀ {w rs} {order : List (Reserved N K V Staged)}, C.Holding w rs →
    (order.map (fun r => (r.op, r.work))).Perm (rs.map (fun p => (p.1, p.2.staged))) →
    ∀ name key,
      (C.committed (order.foldl (fun w r => (D.publish w r.work).1) w)).held name key
        = D.heldByKeyHolder w name key true
  /-- A key changes hands while nothing references it, or with an erase of the key where it is. -/
  handover : ∀ {w rs}, C.Holding w rs → ∀ name key,
    D.heldByKeyHolder w name key true ≠ (C.committed w).held name key →
    (∃ p ∈ rs, p.1.kind = .erase ∧ p.1.key = key
        ∧ some p.1.resource
          = if (C.committed w).held name key then keyHolder name else some name)
      ∨ ∀ n k, ⟨name, key⟩ ∉ (C.committed w).references n k

variable {D : Dataplane N K V Staged Fn W} {C : Contract D} {es : List (Entry N K V Staged W)} {name : N}

namespace Referential

variable (L : Referential C)

include L

variable {rs : List (Op N K V × Reservation N K Staged)} {w w' : W} (holding : C.Holding w rs)

include holding

section

variable (distinct : (es.map (fun e => e.op.target) ++ rs.map (fun p => p.1.target)).Nodup)

include distinct

variable (h : Reserves D w es w')

include h

/-- What a resource says when it reserves an operation of a transaction. -/
theorem reserves :
  ∀ e ∈ es,
    (e.reservation.existed = true ↔ e.op.key ∈ (C.committed w).keys e.op.resource)
      ∧ (e.reservation.existed = true →
          e.reservation.previousReferences = (C.committed w).references e.op.resource e.op.key)
      ∧ ∀ name key, D.heldByKeyHolder e.world name key false = (C.committed w).held name key
  := by
  induction h generalizing rs with
  | nil => simp
  | @cons w w' e es head tail ih =>
  obtain ⟨fresh, hdistinct⟩ := fresh_of_distinct distinct
  obtain ⟨hhold, hcommitted⟩ := C.reserve_ok holding fresh head
  rw [forall_mem_cons]
  constructor
  · obtain ⟨hexisted, hprev⟩ := L.reserve holding fresh head
    refine ⟨hexisted, hprev, ?_⟩
    intro name key
    rw [L.held hhold, hcommitted]
  have hrest := ih hhold (hdistinct e.reservation)
  rwa [hcommitted] at hrest

/-- Reservations on other resources do not change who is to hold a key. -/
theorem reserves_held
    (others : ∀ e ∈ es, e.op.resource ≠ name ∧ L.keyHolder name ≠ some e.op.resource) (key : K) :
  D.heldByKeyHolder w' name key true = D.heldByKeyHolder w name key true
  := by
  induction h generalizing rs with
  | nil => rfl
  | @cons w w' e es head tail ih =>
  obtain ⟨fresh, hdistinct⟩ := fresh_of_distinct distinct
  obtain ⟨hhold, -⟩ := C.reserve_ok holding fresh head
  rw [forall_mem_cons] at others
  rw [ih hhold (hdistinct e.reservation) others.2]
  exact L.reserve_held holding fresh head name key others.1.1 others.1.2

/-- Who is to hold a key that an operation may name is settled when the operation is reserved. -/
theorem reserves_settled {P : Entry N K V Staged W → N → Prop}
    (later : es.Pairwise (fun e e' => ∀ name, P e name →
      e'.op.resource ≠ name ∧ L.keyHolder name ≠ some e'.op.resource)) :
  ∀ e ∈ es, ∀ name, P e name → ∀ key,
    D.heldByKeyHolder e.world name key true = D.heldByKeyHolder w' name key true
  := by
  induction h generalizing rs with
  | nil => simp
  | @cons w w' e es head tail ih =>
  obtain ⟨fresh, hdistinct⟩ := fresh_of_distinct distinct
  obtain ⟨hhold, -⟩ := C.reserve_ok holding fresh head
  rw [pairwise_cons] at later
  rw [forall_mem_cons]
  constructor
  · intro name hname key
    symm
    apply L.reserves_held hhold (hdistinct e.reservation) tail
    intro e' he'
    exact later.1 e' he' name hname
  · exact ih hhold (hdistinct e.reservation) later.2

end

/-- What resources show when everything is published, in whatever order. -/
theorem publishes {order : List (Reserved N K V Staged)}
    (distinct : (rs.map (fun p => p.1.target)).Nodup)
    (perm : (order.map (fun r => (r.op, r.work))).Perm (rs.map (fun p => (p.1, p.2.staged)))) :
  let c' := C.committed (order.foldl (fun w r => (D.publish w r.work).1) w)
  (∀ p ∈ rs, (p.1.key ∈ c'.keys p.1.resource ↔ p.1.kind = .upsert)
      ∧ (p.1.kind = .upsert → c'.references p.1.resource p.1.key = p.2.references))
    ∧ ∀ x, x ∉ rs.map (fun p => p.1.target) →
        (x.2 ∈ c'.keys x.1 ↔ x.2 ∈ (C.committed w).keys x.1)
          ∧ c'.references x.1 x.2 = (C.committed w).references x.1 x.2
  := by
  induction order generalizing w rs with
  | nil =>
    rw [map_nil, nil_perm, map_eq_nil_iff] at perm
    subst perm
    simp
  | cons r order ih =>
  obtain ⟨p, rest, hrest, hwork, hperm⟩ := Contract.exists_perm_cons perm
  have hhold := C.publish holding hrest
  obtain ⟨hself, hothers⟩ := L.publish holding hrest
  rw [hwork] at hhold hself hothers
  have hnodup := (hrest.map (fun p => p.1.target)).nodup_iff.mp distinct
  rw [map_cons, nodup_cons] at hnodup
  obtain ⟨hwritten, hkept⟩ := ih hhold hnodup.2 hperm
  constructor
  · intro q hq
    rw [hrest.mem_iff, mem_cons] at hq
    obtain rfl | hq := hq
    case inr => exact hwritten q hq
    case inl =>
    obtain ⟨hkeys, hrefs⟩ := hkept q.1.target hnodup.1
    refine ⟨hkeys.trans hself.1, ?_⟩
    intro hkind
    exact hrefs.trans (hself.2 hkind)
  intro x hx
  rw [(hrest.map (fun p => p.1.target)).mem_iff, map_cons, mem_cons, not_or] at hx
  obtain ⟨hkeys, hrefs⟩ := hkept x hx.2
  obtain ⟨hkeys', hrefs'⟩ := hothers x.1 x.2 hx.1
  exact ⟨hkeys.trans hkeys', hrefs.trans hrefs'⟩

end Referential

namespace TransactionEngine

variable {s : TransactionEngine N K Fn W} {ops : List (Op N K V)}
  {c : Committed N K V} {x : N × K} {reg : Registration N K}

/-! ### The changes of a reservation -/

section

variable [DecidableEq N]

theorem previousDeltas_eq (D : Dataplane N K V Staged Fn W)
    (hreg : s.find name = some reg) (w : W) (references : List (Reference N K)) :
  previousDeltas D (s.setWorld w) reg references
    = (references.filterMap (s.countsOn (fun target key =>
        D.heldByKeyHolder w target key false) name)).map (fun y => ⟨y.1, y.2, -1, ⊤⟩)
  := by
  rw [map_filterMap]
  apply filterMap_congr
  intro ref _
  rw [countsOn, hreg, Option.bind_some, Option.map_bind]
  congr 1
  funext target
  rw [Function.comp_apply, Option.map_map]
  rfl

/-- Only registered resources have references counted on them. -/
theorem Bound.countsOn_registered (bound : s.Bound) {held : N → K → Bool}
    {ref : Reference N K} (h : s.countsOn held name ref = some x) :
  s.registered x.1 = true
  := by
  obtain ⟨t, ht, hholder⟩ := Option.bind_eq_some_iff.mp (countsOn_eq_some h).1
  split at hholder
  case isTrue =>
    rw [← Option.some.inj hholder, registered, ht]
    rfl
  case isFalse =>
  rw [bound.keyHolder t ((find_eq_some_iff bound.nodup).mp ht).1,
    Option.filter_eq_some_iff] at hholder
  exact hholder.2

theorem Bound.named_registered (bound : s.Bound) {p : N × K} (h : x ∈ s.named c p) :
  s.registered x.1 = true
  := by
  obtain ⟨ref, -, hcounts⟩ := mem_filterMap.mp h
  exact bound.countsOn_registered hcounts

variable [DecidableEq K]

theorem sumAt_map (l : List (N × K)) (change : ℤ) (addedBy : WithTop ℕ) (x : N × K) :
  sumAt x (l.map (fun y => ⟨y.1, y.2, change, addedBy⟩)) = change * l.count x
  := by
  induction l with
  | nil => simp [sumAt]
  | cons y l ih =>
  rw [map_cons, sumAt_cons, ih, count_cons]
  change (if y = x then change else 0) + _ = _
  by_cases hy : y = x
  case pos =>
    simp only [hy, beq_self_eq_true]
    push_cast
    rw [Int.mul_add, Int.mul_one, Int.add_comm]
  case neg => simp [hy]

end

section

variable [DecidableEq N] [ToString N] [ToString K]

theorem newDeltas_eq (D : Dataplane N K V Staged Fn W) (hreg : s.find name = some reg) (w : W) (i : ℕ)
    {references : List (Reference N K)} (h : (newDeltas D (s.setWorld w) reg i references).2 = none) :
  (∀ ref ∈ references, ∃ n, s.countsOn (fun target key =>
      D.heldByKeyHolder w target key true) name ref = some (n, ref.key))
    ∧ (newDeltas D (s.setWorld w) reg i references).1
      = (references.filterMap (s.countsOn (fun target key =>
          D.heldByKeyHolder w target key true) name)).map (fun y => ⟨y.1, y.2, 1, (i : ℕ)⟩)
  := by
  induction references with
  | nil => simp [newDeltas]
  | cons ref references ih =>
  rw [newDeltas] at h ⊢
  split at h
  case h_1 => simp at h
  case h_2 target htarget =>
  split at h
  case h_1 => simp at h
  case h_2 n hn =>
  split at h
  case isFalse => simp at h
  case isTrue hdefers =>
  obtain ⟨hresolved, hdeltas⟩ := ih h
  have hcounts : s.countsOn (fun target key => D.heldByKeyHolder w target key true)
      name ref = some (n, ref.key) := by
    rw [countsOn, hreg, Option.bind_some, htarget]
    change (holder D (s.setWorld w) target ref.key true).map _ = _
    rw [hn]
    rfl
  rw [if_pos hdefers]
  constructor
  · rw [forall_mem_cons]
    exact ⟨⟨n, hcounts⟩, hresolved⟩
  · rw [filterMap_cons_some hcounts, map_cons, ← hdeltas]

end

theorem sum_map_sub {α : Type} (l : List α) (f g : α → ℕ) :
  (l.map (fun a => (f a : ℤ) - g a)).sum = ((l.map f).sum : ℤ) - (l.map g).sum
  := by
  induction l with
  | nil => rfl
  | cons a l ih =>
  rw [map_cons, sum_cons, map_cons, sum_cons, map_cons, sum_cons]
  omega

/-! ### The operation on a key -/

section

variable [DecidableEq N] [LinearOrder K]

theorem mem_keyRefs {k : KeyRef N K} :
  k ∈ keyRefs D ops ↔ ∃ op, ops[k.op]? = some op ∧ op.target = (k.reg, k.key)
  := by
  rw [keyRefs, mem_insertionSort, mem_map]
  constructor
  · rintro ⟨p, hp, rfl⟩
    exact ⟨p.1, mk_mem_zipIdx_iff_getElem?.mp hp, rfl⟩
  rintro ⟨op, hop, htarget⟩
  use (op, k.op), mk_mem_zipIdx_iff_getElem?.mpr hop
  obtain ⟨hreg, hkey⟩ := Prod.mk.inj htarget
  rw [hreg, hkey]

theorem opOn_eq_some {i : ℕ} (h : opOn (keyRefs D ops) x.1 x.2 = some i) :
  ∃ op, ops[i]? = some op ∧ op.target = x
  := by
  obtain ⟨k, hk, rfl⟩ := Option.map_eq_some_iff.mp h
  obtain ⟨op, hop, htarget⟩ := mem_keyRefs.mp (mem_of_find?_eq_some hk)
  have hx := find?_some hk
  rw [decide_eq_true_eq] at hx
  exact ⟨op, hop, htarget.trans (Prod.ext hx.1 hx.2)⟩

theorem opOn_eq_none (h : opOn (keyRefs D ops) x.1 x.2 = none) :
  ∀ op ∈ ops, op.target ≠ x
  := by
  intro op hop htarget
  obtain ⟨i, hi⟩ := mem_iff_getElem?.mp hop
  rw [opOn, Option.map_eq_none_iff, find?_eq_none] at h
  apply h ⟨x.1, x.2, i⟩
  · rw [mem_keyRefs]
    exact ⟨op, hi, htarget⟩
  · simp

variable [ToString N] [ToString K]

/-- What a delta that is not refused satisfies. -/
theorem checkDelta_eq_none {d : Delta N K} (h : checkDelta D s ops (keyRefs D ops) d = none) :
  (s.count d.target d.key : ℤ) + d.change ≤ 0
    ∨ (∃ op ∈ ops, op.target = d.at ∧ op.kind = .upsert)
    ∨ (∀ op ∈ ops, op.target ≠ d.at)
        ∧ (D.contains s.world d.target d.key = true ∨ d.addedBy = ⊤)
  := by
  unfold checkDelta at h
  simp only at h
  split at h
  case isTrue hle => exact .inl hle
  case isFalse =>
  right
  split at h
  case h_1 i hi =>
    left
    obtain ⟨op, hop, htarget⟩ := opOn_eq_some (x := d.at) hi
    split at h
    case isFalse => simp at h
    case isTrue hkind =>
    rw [hop, Option.map_some, Option.some.injEq] at hkind
    exact ⟨op, mem_of_getElem? hop, htarget, hkind⟩
  case h_2 hnone =>
  right
  refine ⟨opOn_eq_none hnone, ?_⟩
  split at h
  case isTrue hcontains => exact .inl hcontains
  case isFalse =>
  split at h
  case h_1 hadded => exact .inr hadded
  case h_2 => simp at h

end

/-! ### A transaction that passes the checks -/

section

variable [DecidableEq N] [ToString N] [ToString K] {D : Dataplane N K V Staged Fn W}
  {C : Contract D} {s : TransactionEngine N K Fn W}

/-- What a reservation of a committed transaction says, in terms of what resources show before
and after it. -/
structure Entry.Faithful (s : TransactionEngine N K Fn W) (c c' : Committed N K V)
    (D : Dataplane N K V Staged Fn W) (e : Entry N K V Staged W) : Prop where
  existed : e.reservation.existed = true ↔ e.op.key ∈ c.keys e.op.resource
  previous : e.reservation.existed = true →
    e.reservation.previousReferences = c.references e.op.resource e.op.key
  held : ∀ name key, D.heldByKeyHolder e.world name key false = c.held name key
  settled : ∀ reg, s.find e.op.resource = some reg → ∀ name ∈ reg.deps, ∀ key,
    D.heldByKeyHolder e.world name key true = c'.held name key
  written : e.op.kind = .upsert →
    c'.references e.op.resource e.op.key = e.reservation.references
  gone : e.op.kind = .erase → c'.references e.op.resource e.op.key = []

variable {reg : Registration N K} {e : Entry N K V Staged W} {c' : Committed N K V}

/-- The changes of an operation: those of an erase that is to be checked, of the references of
the value that was there, and of those of the new value. -/
theorem entryDeltas_eq (tidy : c.Tidy) (faithful : e.Faithful s c c' D)
    (hreg : s.find e.op.resource = some reg) (resolved : (entryDeltas D s e).2 = none) :
  (entryDeltas D s e).1
      = (if e.op.kind = .erase then [⟨e.op.resource, e.op.key, 0, ⊤⟩] else [])
        ++ (s.named c e.op.target).map (fun y => ⟨y.1, y.2, -1, ⊤⟩)
        ++ (s.named c' e.op.target).map (fun y => ⟨y.1, y.2, 1, (e.index : ℕ)⟩)
    ∧ (e.op.kind = .upsert → ∀ ref ∈ c'.references e.op.resource e.op.key,
        ∃ n, s.countsOn c'.held e.op.resource ref = some (n, ref.key))
  := by
  have hprev : (if e.reservation.existed
        then previousDeltas D (s.setWorld e.world) reg e.reservation.previousReferences else [])
      = (s.named c e.op.target).map (fun y => ⟨y.1, y.2, -1, ⊤⟩) := by
    have hheld : (fun name key => D.heldByKeyHolder e.world name key false) = c.held := by
      funext name key
      exact faithful.held name key
    split
    case isTrue hexisted =>
      rw [previousDeltas_eq D hreg, faithful.previous hexisted, hheld]
      rfl
    case isFalse hexisted =>
    rw [faithful.existed] at hexisted
    rw [named, Op.target, tidy _ _ hexisted]
    rfl
  have hcounts : ∀ ref, s.countsOn (fun name key => D.heldByKeyHolder e.world name key true)
      e.op.resource ref = s.countsOn c'.held e.op.resource ref := by
    intro ref
    apply countsOn_congr
    intro reg' hreg' hdep
    exact faithful.settled reg' hreg' _ hdep _
  have hcounts' : s.countsOn (fun name key => D.heldByKeyHolder e.world name key true)
      e.op.resource = s.countsOn c'.held e.op.resource := funext hcounts
  rw [entryDeltas, hreg] at resolved ⊢
  simp only [opDeltas] at resolved ⊢
  rw [hprev]
  rcases hkind : e.op.kind with _ | _
  case upsert =>
    simp only [hkind, if_true] at resolved ⊢
    obtain ⟨hnamed, hnew⟩ := newDeltas_eq D hreg e.world e.index resolved
    rw [hcounts', ← faithful.written hkind] at hnew
    simp only [hcounts, ← faithful.written hkind] at hnamed
    refine ⟨?_, fun _ => hnamed⟩
    rw [← faithful.written hkind, hnew]
    rfl
  case erase =>
  simp only [reduceCtorEq, false_implies, and_true]
  have hnone : s.named c' e.op.target = [] := by
    rw [named, Op.target, faithful.gone hkind]
    rfl
  rw [hnone]
  rfl

variable [LinearOrder K]

theorem sumAt_entryDeltas (tidy : c.Tidy) (faithful : e.Faithful s c c' D)
    (hreg : s.find e.op.resource = some reg) (resolved : (entryDeltas D s e).2 = none) (x : N × K) :
  sumAt x (entryDeltas D s e).1
    = ((s.named c' e.op.target).count x : ℤ) - (s.named c e.op.target).count x
  := by
  have hzero : sumAt x (if e.op.kind = .erase
      then [(⟨e.op.resource, e.op.key, 0, ⊤⟩ : Delta N K)] else []) = 0 := by
    split <;> simp [sumAt]
  rw [(entryDeltas_eq tidy faithful hreg resolved).1, sumAt_append, sumAt_append, sumAt_map,
    sumAt_map]
  omega

/-- What resources show when a transaction is published. -/
def published (C : Contract D) (s : TransactionEngine N K Fn W) (t : Scratch N K V Staged) :
    Committed N K V :=
  C.committed ((publishOrder s t.staged).foldl (fun w r => (D.publish w r.work).1) s.world)

omit [ToString N] [ToString K] [LinearOrder K] in
/-- The key holders of the registered resources are those of the contract. -/
def Declared (L : Referential C) (s : TransactionEngine N K Fn W) : Prop :=
  ∀ r ∈ s.resources, r.resource.keyHolder = L.keyHolder r.name

variable {t : Scratch N K V Staged} {s₁ : TransactionEngine N K Fn W} {w : W}

/-- An operation reserved later is on no resource that holds what the earlier one names. -/
theorem Accepted.later {L : Referential C} (bound : s.Bound)
    (descends : ∀ v, ∀ u ∈ s.below v, s.rank u < s.rank v) (declared : s.Declared L)
    (known : ∀ op ∈ ops, (s.find op.resource).isSome) (accepted : Accepted D s ops es w s₁ t) :
  es.Pairwise (fun e e' => ∀ name,
    (∃ reg, s.find e.op.resource = some reg ∧ name ∈ reg.deps) →
    e'.op.resource ≠ name ∧ L.keyHolder name ≠ some e'.op.resource)
  := by
  have hsorted : es.Pairwise (fun e e' => s.rank e.op.resource ≤ s.rank e'.op.resource) := by
    have hpair : (s.reserveOrder ops).Pairwise (fun a b =>
        s.rank a.1.resource ≤ s.rank b.1.resource) := pairwise_insertionSort _ _
    rw [← accepted.requests, pairwise_map] at hpair
    exact hpair
  apply hsorted.imp_of_mem
  rintro e e' - he' hrank name ⟨reg, hreg, hdep⟩
  have hbelow : ∀ other, other = name ∨ (s.find name).bind Registration.keyHolder = some other →
      other ∈ s.below e.op.resource := by
    intro other hother
    rw [below, hreg, mem_flatMap]
    use name, hdep
    rw [mem_cons, Option.mem_toList]
    exact hother
  constructor
  · rintro rfl
    have hlt := descends _ _ (hbelow e'.op.resource (.inl rfl))
    omega
  intro hholder
  have hr := ((find_eq_some_iff bound.nodup).mp hreg).1
  obtain ⟨reg', hreg'⟩ := Option.isSome_iff_exists.mp (bound.deps reg hr name hdep)
  obtain ⟨hr', rfl⟩ := (find_eq_some_iff bound.nodup).mp hreg'
  have hregistered : s.registered e'.op.resource = true := by
    apply reserveOrder_known known e'.request
    rw [← accepted.requests]
    exact mem_map_of_mem he'
  have hbound : reg'.keyHolder = some e'.op.resource := by
    rw [bound.keyHolder reg' hr', declared reg' hr', hholder, Option.filter_eq_some_iff]
    exact ⟨rfl, hregistered⟩
  have hlt := descends _ _ (hbelow e'.op.resource (.inr (by rw [hreg', Option.bind_some, hbound])))
  omega

section

variable (L : Referential C) (idle : s.Idle C) (bound : s.Bound)
  (descends : ∀ v, ∀ u ∈ s.below v, s.rank u < s.rank v) (declared : s.Declared L)
  (known : ∀ op ∈ ops, (s.find op.resource).isSome) (distinct : (ops.map Op.target).Nodup)
  (accepted : Accepted D s ops es w s₁ t)

include L idle bound descends declared known distinct accepted

theorem Accepted.faithful :
  (∀ e ∈ es, e.Faithful s (C.committed s.world) (published C s₁ t) D)
    ∧ (∀ e ∈ es, e.op.key ∈ (published C s₁ t).keys e.op.resource ↔ e.op.kind = .upsert)
    ∧ (∀ x, x ∉ es.map (fun e => e.op.target) →
        (x.2 ∈ (published C s₁ t).keys x.1 ↔ x.2 ∈ (C.committed s.world).keys x.1)
          ∧ (published C s₁ t).references x.1 x.2 = (C.committed s.world).references x.1 x.2)
    ∧ ∀ name key, (published C s₁ t).held name key = D.heldByKeyHolder w name key true
  := by
  have horder := request_targets (s := s) distinct
  have htargets : (es.map (fun e => e.op.target)).Nodup := by
    rw [← accepted.requests, map_map] at horder
    exact horder
  have hreserved := L.reserves idle.holding (by simpa using htargets) accepted.reserves
  have hsettled := L.reserves_settled idle.holding (by simpa using htargets) accepted.reserves
    (accepted.later bound descends declared known)
  obtain ⟨hhold, hcommitted⟩ := accepted.holding idle distinct
  have hrs : ((es.map Entry.pair).reverse.map (fun p => p.1.target)).Nodup := by
    rw [← map_reverse, map_map, (reverse_perm es).map _ |>.nodup_iff]
    exact htargets
  obtain ⟨hwritten, hkept⟩ := L.publishes hhold hrs accepted.perm
  have hpair : ∀ e ∈ es, Entry.pair e ∈ (es.map Entry.pair).reverse := by
    intro e he
    rw [mem_reverse]
    exact mem_map_of_mem he
  -- what the transaction in progress said before the preparations is what becomes of it
  have hheld : ∀ name key, (published C s₁ t).held name key
      = D.heldByKeyHolder w name key true := by
    intro name key
    rw [published, L.settle_held hhold accepted.perm]
    obtain ⟨names, hnames⟩ := accepted.prepared
    obtain ⟨hheld, -⟩ := C.reserves idle.holding (by simpa using htargets) accepted.reserves
    rw [hnames]
    apply (List.foldlRecOn (motive := fun w' : W =>
      C.Holding w' ((es.map Entry.pair).reverse ++ [])
        ∧ D.heldByKeyHolder w' name key true = D.heldByKeyHolder w name key true) _ _ _ _).2
    · exact ⟨hheld, rfl⟩
    rintro w' ⟨hw', hsame⟩ n -
    exact ⟨(C.prepare n hw').1, (L.prepare_held hw' n name key).trans hsame⟩
  refine ⟨?_, ?_, ?_, hheld⟩
  · intro e he
    obtain ⟨hexisted, hprev, hfalse⟩ := hreserved e he
    constructor
    case existed => exact hexisted
    case previous => exact hprev
    case held => exact hfalse
    case settled =>
      intro reg hreg name hdep key
      rw [hheld]
      exact hsettled e he name ⟨reg, hreg, hdep⟩ key
    case written => exact (hwritten _ (hpair e he)).2
    case gone =>
    intro hkind
    apply L.tidy (C.publishes hhold accepted.perm)
    intro hmem
    have hupsert := (hwritten _ (hpair e he)).1.mp hmem
    rw [Entry.pair, hkind] at hupsert
    exact absurd hupsert (by simp)
  · intro e he
    exact (hwritten _ (hpair e he)).1
  intro x hx
  have hmem : x ∉ (es.map Entry.pair).reverse.map (fun p => p.1.target) := by
    rw [← map_reverse, map_map, ((reverse_perm es).map _).mem_iff]
    exact hx
  obtain ⟨hkeys, hrefs⟩ := hkept x hmem
  rw [hcommitted] at hkeys hrefs
  exact ⟨hkeys, hrefs⟩

/-- What a transaction that passes the checks changes. -/
theorem Accepted.change :
  s.Change (es.map Entry.op) t.deltas (C.committed s.world) (published C s₁ t)
  := by
  obtain ⟨hfaithful, hkeys, hkept, hheld⟩ :=
    accepted.faithful L idle bound descends declared known distinct
  have htargets : (es.map Entry.op).map Op.target = es.map (fun e => e.op.target) := by
    rw [map_map]
    rfl
  have hops := accepted.ops_perm
  have htidy := L.tidy idle.holding
  obtain ⟨hhold, hcommitted⟩ := accepted.holding idle distinct
  have hes : (es.map (fun e => e.op.target)).Nodup := by
    rw [← htargets, (hops.map Op.target).nodup_iff]
    exact distinct
  obtain ⟨hheld', hcommitted'⟩ := C.reserves idle.holding (by simpa using hes) accepted.reserves
  have hfound : ∀ e ∈ es, ∃ reg, s.find e.op.resource = some reg := by
    intro e he
    exact Option.isSome_iff_exists.mp (known e.op (hops.mem_iff.mp (mem_map_of_mem he)))
  have hentry : ∀ e ∈ es, (entryDeltas D s e).1
      = (if e.op.kind = .erase then [⟨e.op.resource, e.op.key, 0, ⊤⟩] else [])
        ++ (s.named (C.committed s.world) e.op.target).map (fun y => ⟨y.1, y.2, -1, ⊤⟩)
        ++ (s.named (published C s₁ t) e.op.target).map
          (fun y => ⟨y.1, y.2, 1, (e.index : ℕ)⟩) := by
    intro e he
    obtain ⟨reg, hreg⟩ := hfound e he
    exact (entryDeltas_eq htidy (hfaithful e he) hreg (accepted.resolved e he)).1
  have hmerged : ∀ {d : Delta N K} {e : Entry N K V Staged W}, e ∈ es →
      d ∈ (entryDeltas D s e).1 → ∃ d' ∈ t.deltas, d'.at = d.at ∧ d'.addedBy ≤ d.addedBy := by
    intro d e he hd
    rw [accepted.deltas]
    exact exists_mem_mergeDeltas D (mem_flatMap.mpr ⟨e, he, hd⟩)
  constructor
  case distinct =>
    rw [htargets]
    exact hes
  case tidy => exact htidy
  case tidy' => exact L.tidy (C.publishes hhold accepted.perm)
  case keys =>
    rw [htargets]
    exact hkept
  case written =>
    intro op hop
    obtain ⟨e, he, rfl⟩ := mem_map.mp hop
    exact hkeys e he
  case deltas_nodup =>
    rw [accepted.deltas]
    apply mergeDeltas_nodup
  case sum =>
    intro x
    have hsum : ∀ e ∈ es, sumAt x (entryDeltas D s e).1
        = ((s.named (published C s₁ t) e.op.target).count x : ℤ)
          - (s.named (C.committed s.world) e.op.target).count x := by
      intro e he
      obtain ⟨reg, hreg⟩ := hfound e he
      exact sumAt_entryDeltas htidy (hfaithful e he) hreg (accepted.resolved e he) x
    rw [accepted.deltas, sumAt_mergeDeltas, sumAt_flatMap, htargets, Tally.part, Tally.part,
      map_congr_left hsum, map_map, map_map]
    exact sum_map_sub es (fun e => (s.named (published C s₁ t) e.op.target).count x)
      (fun e => (s.named (C.committed s.world) e.op.target).count x)
  case erased =>
    intro op hop hkind
    obtain ⟨e, he, rfl⟩ := mem_map.mp hop
    obtain ⟨d, hd, hat, -⟩ := hmerged (d := ⟨e.op.resource, e.op.key, 0, ⊤⟩) he (by
      rw [hentry e he, if_pos hkind]
      simp)
    exact ⟨d, hd, hat⟩
  case added =>
    intro op hop hkind ref href
    obtain ⟨e, he, rfl⟩ := mem_map.mp hop
    obtain ⟨reg, hreg⟩ := hfound e he
    obtain ⟨n, hn⟩ := (entryDeltas_eq htidy (hfaithful e he) hreg
      (accepted.resolved e he)).2 hkind ref href
    refine ⟨n, hn, ?_⟩
    obtain ⟨d, hd, hat, hadded⟩ := hmerged he (by
      rw [hentry e he]
      apply mem_append_right
      rw [mem_map]
      refine ⟨(n, ref.key), ?_, rfl⟩
      rw [named, mem_filterMap]
      exact ⟨ref, href, hn⟩)
    refine ⟨d, hd, hat, ?_⟩
    intro htop
    rw [htop, top_le_iff] at hadded
    exact absurd hadded WithTop.coe_ne_top
  case registered =>
    intro d hd
    rw [accepted.deltas] at hd
    obtain ⟨d', hd', hat⟩ := exists_of_mem_mergeDeltas D hd
    obtain ⟨e, he, hd'⟩ := mem_flatMap.mp hd'
    obtain ⟨htarget, -⟩ := Prod.mk.inj hat
    rw [← htarget]
    rw [hentry e he, mem_append, mem_append] at hd'
    obtain (hd' | hd') | hd' := hd'
    · split at hd'
      case isTrue =>
        rw [mem_singleton] at hd'
        obtain ⟨reg, hreg⟩ := hfound e he
        rw [hd', registered, hreg]
        rfl
      case isFalse => exact absurd hd' not_mem_nil
    all_goals
      obtain ⟨y, hy, rfl⟩ := mem_map.mp hd'
      exact bound.named_registered hy
  case checked =>
    intro d hd
    have hcheck := checkDelta_eq_none (accepted.checked d hd)
    simp only [setWorld_world, L.contains hheld', hcommitted', ← hops.mem_iff] at hcheck
    exact hcheck
  case handover =>
  intro name key h hchanged hholder
  rw [hheld, ← hcommitted'] at hchanged
  obtain ⟨p, hp, hkind, hkey, hres⟩ | hnone := L.handover hheld' name key hchanged
  case inr =>
    right
    rw [hcommitted'] at hnone
    intro p _
    apply hnone
  case inl =>
  left
  rw [append_nil, mem_reverse] at hp
  obtain ⟨e, he, rfl⟩ := mem_map.mp hp
  refine ⟨e.op, mem_map_of_mem he, Prod.ext ?_ hkey, hkind⟩
  obtain ⟨r, hr, hholder⟩ := Option.bind_eq_some_iff.mp hholder
  obtain ⟨hmem, rfl⟩ := (find_eq_some_iff bound.nodup).mp hr
  rw [hcommitted', ← declared r hmem] at hres
  split at hres
  case isFalse hfree =>
    rw [if_pos (.inr (by simpa using hfree))] at hholder
    exact Option.some.inj (hres.trans hholder)
  case isTrue htaken =>
  rw [if_neg (by simp [htaken, ← hres]), bound.keyHolder r hmem, ← hres,
    Option.filter_eq_some_iff] at hholder
  exact Option.some.inj hholder.1

end

end

end TransactionEngine

end Engine
