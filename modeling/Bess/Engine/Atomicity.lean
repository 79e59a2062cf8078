import Bess.Engine.Calls
import Bess.Engine.SlotResource

/-!
# Transactions are all or nothing

A refused transaction leaves the engine and what the resources show as they were, and aborts
what it reserved in reverse order. An applied one publishes every operation once.

Which operations are reserved, aborted and published is recorded by `Dataplane.traced`: the same
resources on a world that keeps a log of these calls besides.
-/

namespace Engine

open List Dataplane

variable {N K V Staged Fn W : Type}

/-- A call on an operation: it was reserved, successfully, or aborted, or published. -/
inductive Event (N K V : Type) : Type where
  | reserved (op : Op N K V)
  | aborted (op : Op N K V)
  | published (op : Op N K V)
  deriving DecidableEq

namespace Dataplane

variable (D : Dataplane N K V Staged Fn W)

/-- Tags the work staged for an operation with it. -/
def tag (op : Op N K V) (r : Reservation N K Staged) : Reservation N K (Op N K V × Staged) :=
  ⟨(op, r.staged), r.references, r.footprint, r.existed, r.previousReferences⟩

/-- The same resources, on a world that also keeps a log of the calls on operations. -/
def traced : Dataplane N K V (Op N K V × Staged) Fn (W × List (Event N K V)) where
  address := D.address
  contains w := D.contains w.1
  visitReferences w := D.visitReferences w.1
  heldByKeyHolder w := D.heldByKeyHolder w.1
  reserve w op :=
    match D.reserve w.1 op with
    | (w', .error error) => ((w', w.2), .error error)
    | (w', .ok r) => ((w', w.2 ++ [.reserved op]), .ok (tag op r))
  prepare w name := (((D.prepare w.1 name).1, w.2), (D.prepare w.1 name).2)
  defersErase := D.defersErase
  providedConsistency := D.providedConsistency
  endTransaction w name := (D.endTransaction w.1 name, w.2)
  liveCount w := D.liveCount w.1
  publish w staged :=
    (((D.publish w.1 staged.2).1, w.2 ++ [.published staged.1]), (D.publish w.1 staged.2).2)
  abort w staged := (D.abort w.1 staged.2, w.2 ++ [.aborted staged.1])
  runStep w fn := (D.runStep w.1 fn).map (fun p => ((p.1, w.2), p.2))
  retireHighWater := D.retireHighWater
  startGracePeriod w := (((D.startGracePeriod w.1).1, w.2), (D.startGracePeriod w.1).2)
  isComplete w token := (((D.isComplete w.1 token).1, w.2), (D.isComplete w.1 token).2)
  pendingRetired w := D.pendingRetired w.1
  retire w name fn token := (D.retire w.1 name fn token, w.2)
  runCallback w fn token := (D.runCallback w.1 fn token, w.2)
  reclaimReady w := (D.reclaimReady w.1, w.2)
  outstanding w := D.outstanding w.1

variable {D} {op : Op N K V}

theorem reserve_traced_ok {w w' : W × List (Event N K V)}
    {r : Reservation N K (Op N K V × Staged)} (h : D.traced.reserve w op = (w', .ok r)) :
  ∃ r₀, D.reserve w.1 op = (w'.1, .ok r₀) ∧ r = tag op r₀ ∧ w'.2 = w.2 ++ [.reserved op]
  := by
  simp only [traced] at h
  split at h
  case h_1 => simp at h
  case h_2 w₁ r₀ h₀ =>
  obtain ⟨rfl, rfl⟩ := h
  exact ⟨r₀, h₀, rfl, rfl⟩

theorem reserve_traced_error {w w' : W × List (Event N K V)} {error : String}
    (h : D.traced.reserve w op = (w', .error error)) :
  D.reserve w.1 op = (w'.1, .error error) ∧ w'.2 = w.2
  := by
  simp only [traced] at h
  split at h
  case h_1 w₁ error₀ h₀ =>
    obtain ⟨rfl, rfl⟩ := h
    exact ⟨h₀, rfl⟩
  case h_2 => simp at h

theorem kept_log (log : List (Event N K V)) :
  Kept D.traced (fun w => w.2 = log)
  := by
  constructor
  case runStep =>
    rintro w w' fn handed rfl h
    obtain ⟨p, -, hp⟩ := Option.map_eq_some_iff.mp h
    rw [← congrArg (fun p => p.1.2) hp]
  all_goals intros; assumption

end Dataplane

/-- A reservation without the tag of its work. -/
def untag (p : Op N K V × Reservation N K (Op N K V × Staged)) :
    Op N K V × Reservation N K Staged :=
  (p.1, ⟨p.2.staged.2, p.2.references, p.2.footprint, p.2.existed, p.2.previousReferences⟩)

theorem forall_untag {rs : List (Op N K V × Reservation N K (Op N K V × Staged))}
    {P : Op N K V → Prop} (h : ∀ p ∈ rs, P p.1) :
  ∀ p ∈ rs.map untag, P p.1
  := by
  intro p hp
  obtain ⟨p₀, hp₀, rfl⟩ := mem_map.mp hp
  exact h p₀ hp₀

/-- A log does not change what resources show or hold. -/
def Contract.traced {D : Dataplane N K V Staged Fn W} (C : Contract D) : Contract D.traced where
  committed w := C.committed w.1
  Holding w rs := C.Holding w.1 (rs.map untag)
  reserve_ok {w w' rs op r} holding fresh h := by
    obtain ⟨r₀, h₀, rfl, -⟩ := reserve_traced_ok h
    exact C.reserve_ok holding
      (forall_untag (P := fun o => ¬ (o.resource = op.resource ∧ o.key = op.key)) fresh) h₀
  reserve_error {w w' rs op error} holding fresh h := by
    obtain ⟨h₀, -⟩ := reserve_traced_error h
    exact C.reserve_error holding
      (forall_untag (P := fun o => ¬ (o.resource = op.resource ∧ o.key = op.key)) fresh) h₀
  prepare name holding := C.prepare name holding
  abort holding := C.abort holding
  publish holding perm := C.publish holding (perm.map untag)
  endTransaction name holding := C.endTransaction name holding
  runStep holding h := by
    obtain ⟨p, hp, heq⟩ := Option.map_eq_some_iff.mp h
    rw [Prod.mk.injEq] at heq
    obtain ⟨rfl, rfl⟩ := heq
    exact C.runStep holding hp
  startGracePeriod holding := C.startGracePeriod holding
  isComplete token holding := C.isComplete token holding
  retire name fn token holding := C.retire name fn token holding
  runCallback fn token holding := C.runCallback fn token holding
  reclaimReady holding := C.reclaimReady holding

/-! ### The log of a transaction -/

namespace TransactionEngine

variable {D : Dataplane N K V Staged Fn W}
  {es : List (Entry N K V (Op N K V × Staged) (W × List (Event N K V)))}
  {w : W × List (Event N K V)}

theorem reserves_log {w' : W × List (Event N K V)} (h : Reserves D.traced w es w') :
  w'.2 = w.2 ++ es.map (fun e => .reserved e.op)
    ∧ ∀ e ∈ es, e.reservation.staged.1 = e.op
  := by
  induction h with
  | nil => simp
  | @cons w w' e es head tail ih =>
  obtain ⟨r₀, -, hr, hlog⟩ := reserve_traced_ok head
  obtain ⟨hlog', hstaged⟩ := ih
  constructor
  · rw [hlog', hlog]
    simp
  intro e' he'
  rw [mem_cons] at he'
  obtain rfl | he' := he'
  case inl =>
    rw [hr]
    rfl
  case inr => exact hstaged e' he'

theorem prepares_log (w : W × List (Event N K V)) (names : List N) :
  (names.foldl (fun w name => (D.traced.prepare w name).1) w).2 = w.2
  := by
  apply foldl_unchanged (fun w : W × List (Event N K V) => w.2)
  intro w name
  rfl

theorem ends_log (w : W × List (Event N K V)) (names : List N) :
  (names.foldl D.traced.endTransaction w).2 = w.2
  := by
  apply foldl_unchanged (fun w : W × List (Event N K V) => w.2)
  intro w name
  rfl

theorem refused_log {w' : W × List (Event N K V)} {order : List (Op N K V × ℕ)}
    (h : Refused D.traced order es w w') :
  w'.2 = w.2
  := by
  cases h with
  | check => rfl
  | reserve _ failed => exact (reserve_traced_error failed).2
  | prepare names => apply prepares_log

theorem aborts_log (h : ∀ e ∈ es, e.reservation.staged.1 = e.op) :
  (es.foldl (fun w e => D.traced.abort w e.reservation.staged) w).2
    = w.2 ++ es.map (fun e => .aborted e.op)
  := by
  induction es generalizing w with
  | nil => simp
  | cons e es ih =>
  rw [foldl_cons, ih (fun e he => h e (mem_cons_of_mem _ he))]
  simp [traced, h e mem_cons_self]

theorem publishes_log {order : List (Reserved N K V (Op N K V × Staged))}
    (h : ∀ r ∈ order, r.work.1 = r.op) :
  (order.foldl (fun w r => (D.traced.publish w r.work).1) w).2
    = w.2 ++ order.map (fun r => .published r.op)
  := by
  induction order generalizing w with
  | nil => simp
  | cons r order ih =>
  rw [foldl_cons, ih (fun r hr => h r (mem_cons_of_mem _ hr))]
  simp [traced, h r mem_cons_self]

section

variable [DecidableEq N] [LinearOrder K] [ToString N] [ToString K] (C : Contract D)

/-- A transaction that is refused leaves what the resources show, the references counted, the
generation and, but for reclamation, the cascades as they were, and aborts what it reserved in
reverse order. One that is applied publishes every operation once, and aborts none. -/
theorem applyImpl_all_or_nothing
    {s s' : TransactionEngine N K Fn (W × List (Event N K V))} (reached : Reached C.traced s)
    {ops : List (Op N K V)} {expectedGeneration : Option (BitVec 64)}
    {consistency : Consistency} {owned : Option (List ℕ)} {r : Result}
    (h : applyImpl D.traced s ops expectedGeneration consistency owned = (s', r)) :
  (r.outcome ≠ .applied →
      C.committed s'.world.1 = C.committed s.world.1 ∧ s'.ledger = s.ledger
        ∧ s'.generation = s.generation ∧ s'.cascades = (s.reclaimRetired D.traced).cascades
        ∧ ∃ reserved : List (Op N K V), s'.world.2
            = s.world.2 ++ reserved.map .reserved ++ reserved.reverse.map .aborted)
    ∧ (r.outcome = .applied →
        s'.generation = s.generation + 1
          ∧ ∃ reserved published : List (Op N K V), reserved.Perm ops ∧ published.Perm ops
              ∧ s'.world.2 = s.world.2 ++ reserved.map .reserved ++ published.map .published)
  := by
  have idle := reached.idle
  obtain ⟨hbegin, hcommitted⟩ := idle.begin
  have hlog : (s.begin D.traced).world.2 = s.world.2 := by
    rw [begin, (recomputeRanks_unchanged _).2.2.2]
    exact reclaimRetired_kept (kept_log s.world.2) rfl
  have hcascades : (s.begin D.traced).cascades = (s.reclaimRetired D.traced).cascades :=
    (recomputeRanks_unchanged _).2.2.1
  obtain ⟨hrefused, rfl⟩ | ⟨-, hknown, hdistinct, htransact⟩ := applyImpl_cases D.traced h
  case inl =>
    refine ⟨fun _ => ?_, fun happlied => absurd happlied hrefused⟩
    refine ⟨hcommitted, begin_ledger _ s, begin_generation _ s, hcascades, [], ?_⟩
    simpa using hlog
  case inr =>
  obtain ⟨hrefused, haborted⟩ | ⟨es, w, s₁, t, hacc, hcommit⟩ :=
    transact_cases D.traced hbegin.zeros hbegin.marked (fun op hop => (hknown op hop).1) htransact
  case inl =>
    refine ⟨fun _ => ?_, fun happlied => absurd happlied hrefused⟩
    have hshown := (hbegin.aborted hdistinct haborted).2
    refine ⟨hshown.trans hcommitted, ?_, ?_, ?_, ?_⟩
    · exact (ledger_of_bare_eq haborted.bare).trans (begin_ledger _ s)
    · exact (generation_of_bare_eq haborted.bare).trans (begin_generation _ s)
    · exact (cascades_of_bare_eq haborted.bare).trans hcascades
    obtain ⟨es, w, w', touched, hreserves, -, hrefusal, hworld⟩ := haborted.undone
    obtain ⟨hreserved, hstaged⟩ := reserves_log hreserves
    use es.map Entry.op
    rw [hworld, ends_log, aborts_log, refused_log hrefusal, hreserved, hlog]
    · simp [Function.comp_def]
    intro e he
    exact hstaged e (mem_reverse.mp he)
  case inr =>
  obtain ⟨happlied, hgen, -, -, hkept⟩ := commit_spec D.traced ops hacc.marked
    (hbegin.zeros.of_bare_eq hacc.bare) hcommit
  refine ⟨absurd happlied, fun _ => ?_⟩
  rw [hgen, generation_of_bare_eq hacc.bare, begin_generation]
  refine ⟨rfl, es.map Entry.op, (publishOrder s₁ t.staged).map Reserved.op, ?_, ?_, ?_⟩
  · exact hacc.ops_perm
  · apply ((perm_insertionSort _ t.staged).map Reserved.op).trans
    rw [hacc.staged, map_map]
    exact hacc.ops_perm
  obtain ⟨hreserved, hstaged⟩ := reserves_log hacc.reserves
  obtain ⟨names, hnames⟩ := hacc.prepared
  apply hkept _ (kept_log _)
  rw [publishes_log, hnames, prepares_log, hreserved, hlog]
  · simp [Function.comp_def]
  intro r hr
  rw [publishOrder, mem_insertionSort, hacc.staged] at hr
  obtain ⟨e, he, rfl⟩ := mem_map.mp hr
  exact hstaged e he

end

/-- An upsert and the erase of a key that is not there: the upsert is reserved, and aborted. -/
theorem applyImpl_all_or_nothing_refused :
  ∃ s : TransactionEngine ℕ ℕ (SlotFn ℕ (List (Reference ℕ ℕ)))
      (SlotWorld ℕ (List (Reference ℕ ℕ)) ℕ × List (Event ℕ ℕ (List (Reference ℕ ℕ)))),
    let p := applyImpl (SlotConfig.plain.dataplane RcuDomain.noReaders).traced s
      [.upsert 0 1 [], .erase 0 2] none .referential none
    p.2.outcome = .rejected ∧ p.1.generation = s.generation
  := by
  let C := (SlotConfig.plain.contract RcuDomain.noReaders).traced
  let s := (create (SlotWorld.empty, [])).exec
    (SlotConfig.plain.dataplane RcuDomain.noReaders).traced (.register List.cons ⟨0, [], none, 0⟩)
  have reached : Reached C s := by
    apply Run.call
    · apply Run.create
      exact ⟨nodup_nil, by simp⟩
    refine ⟨?_, by simp⟩
    intro r l
    exact List.Perm.refl _
  have hrej : (applyImpl (SlotConfig.plain.dataplane RcuDomain.noReaders).traced s
      [.upsert 0 1 [], .erase 0 2] none .referential none).2.outcome = .rejected := by
    decide +kernel
  use s, hrej
  exact ((applyImpl_all_or_nothing _ reached Prod.mk.eta.symm).1 (by simp [hrej])).2.2.1

end TransactionEngine

end Engine
