import Bess.Engine.Transaction

/-!
# The contract of the resources, and the calls on the engine

What the engine relies on: nothing a resource does for a transaction shows before it is
published, and an abort takes back the latest reservation. `Contract` states this with the view
of the committed keys and values that a resource shows, and with the reservations a world holds.

`TransactionEngine.Reached` are the states that any sequence of calls leads to, with changes of
the world in between.
-/

namespace Engine

open List

variable {N K V Staged Fn W : Type} {D : Dataplane N K V Staged Fn W}

/-- What the resources show: the keys each has, their values, the references these hold, and the
keys that the key holder of a resource holds. -/
structure Committed (N K V : Type) : Type where
  keys : N → Finset K
  value : N → K → Option V
  references : N → K → List (Reference N K)
  held : N → K → Bool

/-- The contract of the resources of a dataplane. `Holding w rs` says that the world holds the
reservations `rs`, the latest first. -/
structure Contract (D : Dataplane N K V Staged Fn W) : Type where
  committed : W → Committed N K V
  Holding : W → List (Op N K V × Reservation N K Staged) → Prop
  reserve_ok : ∀ {w w' rs op r}, Holding w rs →
    (∀ p ∈ rs, ¬ (p.1.resource = op.resource ∧ p.1.key = op.key)) →
    D.reserve w op = (w', .ok r) → Holding w' ((op, r) :: rs) ∧ committed w' = committed w
  reserve_error : ∀ {w w' rs op error}, Holding w rs →
    (∀ p ∈ rs, ¬ (p.1.resource = op.resource ∧ p.1.key = op.key)) →
    D.reserve w op = (w', .error error) → Holding w' rs ∧ committed w' = committed w
  prepare : ∀ {w rs} name, Holding w rs →
    Holding (D.prepare w name).1 rs ∧ committed (D.prepare w name).1 = committed w
  abort : ∀ {w op r rs}, Holding w ((op, r) :: rs) →
    Holding (D.abort w r.staged) rs ∧ committed (D.abort w r.staged) = committed w
  publish : ∀ {w rs op r rest}, Holding w rs → rs.Perm ((op, r) :: rest) →
    Holding (D.publish w r.staged).1 rest
  endTransaction : ∀ {w} name, Holding w [] →
    Holding (D.endTransaction w name) [] ∧ committed (D.endTransaction w name) = committed w
  runStep : ∀ {w w' fn handed}, Holding w [] → D.runStep w fn = some (w', handed) →
    Holding w' [] ∧ committed w' = committed w
  startGracePeriod : ∀ {w}, Holding w [] →
    Holding (D.startGracePeriod w).1 [] ∧ committed (D.startGracePeriod w).1 = committed w
  isComplete : ∀ {w} token, Holding w [] →
    Holding (D.isComplete w token).1 [] ∧ committed (D.isComplete w token).1 = committed w
  retire : ∀ {w} name fn token, Holding w [] →
    Holding (D.retire w name fn token) [] ∧ committed (D.retire w name fn token) = committed w
  runCallback : ∀ {w} fn token, Holding w [] →
    Holding (D.runCallback w fn token) [] ∧ committed (D.runCallback w fn token) = committed w
  reclaimReady : ∀ {w}, Holding w [] →
    Holding (D.reclaimReady w) [] ∧ committed (D.reclaimReady w) = committed w

/-- A property of worlds that the calls outside reservation and publication keep. -/
structure Kept (D : Dataplane N K V Staged Fn W) (I : W → Prop) : Prop where
  endTransaction : ∀ {w} name, I w → I (D.endTransaction w name)
  runStep : ∀ {w w' fn handed}, I w → D.runStep w fn = some (w', handed) → I w'
  startGracePeriod : ∀ {w}, I w → I (D.startGracePeriod w).1
  isComplete : ∀ {w} token, I w → I (D.isComplete w token).1
  retire : ∀ {w} name fn token, I w → I (D.retire w name fn token)
  runCallback : ∀ {w} fn token, I w → I (D.runCallback w fn token)
  reclaimReady : ∀ {w}, I w → I (D.reclaimReady w)

theorem Contract.kept (C : Contract D) (c : Committed N K V) :
  Kept D (fun w => C.Holding w [] ∧ C.committed w = c)
  := by
  constructor
  case endTransaction =>
    rintro w name ⟨h, rfl⟩
    exact C.endTransaction name h
  case runStep =>
    rintro w w' fn handed ⟨h, rfl⟩ hrun
    exact C.runStep h hrun
  case startGracePeriod =>
    rintro w ⟨h, rfl⟩
    exact C.startGracePeriod h
  case isComplete =>
    rintro w token ⟨h, rfl⟩
    exact C.isComplete token h
  case retire =>
    rintro w name fn token ⟨h, rfl⟩
    exact C.retire name fn token h
  case runCallback =>
    rintro w fn token ⟨h, rfl⟩
    exact C.runCallback fn token h
  case reclaimReady =>
  rintro w ⟨h, rfl⟩
  exact C.reclaimReady h

namespace TransactionEngine

/-! ### Reclamation -/

theorem finish_kept {I : W → Prop} (kept : Kept D I) {w : W}
    (retires : List (N × Fn)) (callbacks : List Fn) (token : ℕ) (hI : I w) :
  I (finish D w retires callbacks token)
  := by
  apply List.foldlRecOn
  · apply List.foldlRecOn
    · exact hI
    intro w hw p _
    exact kept.retire p.1 p.2 token hw
  intro w hw fn _
  exact kept.runCallback fn token hw

variable {D : Dataplane N K V Staged Fn W} {s s' : TransactionEngine N K Fn W}

section

variable [DecidableEq N]

/-- What reclamation leaves alone: all but the world, the cascades, and the counts of the
removals that have not run. -/
def registry (s : TransactionEngine N K Fn W) :
    List (Registration N K) × BitVec 64 × Bool × Bool :=
  (s.resources.map (fun r => { r with pendingRemovals := 0 }), s.generation, s.ranksDirty,
    s.referenceCycle)

theorem registry_stepDone (s : TransactionEngine N K Fn W) (owner : N) :
  (s.stepDone owner).registry = s.registry
  := by
  have hmap := map_modify s owner
    (f := fun r => { r with pendingRemovals := r.pendingRemovals - 1 })
    (g := fun r => { r with pendingRemovals := 0 }) (fun _ => rfl)
  exact congrArg (fun l => (l, s.generation, s.ranksDirty, s.referenceCycle)) hmap

variable {s s' : TransactionEngine N K Fn W} {I : W → Prop}

theorem runSteps_spec (kept : Kept D I) {stage left : List (Step N Fn)} {retires : List (N × Fn)}
    {callbacks : List Fn} (h : runSteps D s stage = (s', left, retires, callbacks)) :
  s'.registry = s.registry ∧ (I s.world → I s'.world)
  := by
  induction stage generalizing s left retires callbacks with
  | nil =>
    obtain ⟨rfl, -⟩ := h
    exact ⟨rfl, id⟩
  | cons step stage ih =>
  rw [runSteps] at h
  split at h
  case h_1 =>
    obtain ⟨rfl, -⟩ := h
    exact ⟨rfl, id⟩
  case h_2 w handed hrun =>
  rcases hrest : runSteps D ((s.setWorld w).stepDone step.owner) stage
  rw [hrest] at h
  obtain ⟨rfl, -⟩ := h
  obtain ⟨hregistry, hkept⟩ := ih hrest
  rw [registry_stepDone] at hregistry
  use hregistry
  intro hI
  apply hkept
  exact kept.runStep hI hrun

theorem advance_spec (kept : Kept D I) {stages : List (List (Step N Fn))} {token : ℕ}
    {cascade : Cascade N Fn} (h : advance D s token stages = (s', cascade)) :
  s'.registry = s.registry ∧ (I s.world → I s'.world)
  := by
  induction stages generalizing s token with
  | nil =>
    obtain ⟨rfl, -⟩ := h
    exact ⟨rfl, id⟩
  | cons stage stages ih =>
  rw [advance] at h
  rcases hcomplete : D.isComplete s.world token with ⟨w, complete⟩
  have hw : I s.world → I w := by
    intro hI
    have hkept := kept.isComplete token hI
    rwa [hcomplete] at hkept
  rw [hcomplete] at h
  cases complete with
  | false =>
    obtain ⟨rfl, -⟩ := h
    exact ⟨rfl, hw⟩
  | true =>
  simp only at h
  split at h
  case isTrue =>
    obtain ⟨rfl, -⟩ := h
    exact ⟨rfl, hw⟩
  case isFalse =>
  rcases hrun : runSteps D (s.setWorld w) stage with ⟨s₁, left, retires, callbacks⟩
  rw [hrun] at h
  obtain ⟨hregistry, hkept⟩ := runSteps_spec kept hrun
  have hfinish : I s.world → I (finish D (D.startGracePeriod s₁.world).1 retires
      callbacks (D.startGracePeriod s₁.world).2) := by
    intro hI
    apply finish_kept kept
    apply kept.startGracePeriod
    apply hkept
    exact hw hI
  split at h
  case isTrue =>
    obtain ⟨rfl, -⟩ := h
    exact ⟨hregistry, hfinish⟩
  case isFalse =>
  obtain ⟨hregistry', hkept'⟩ := ih h
  use hregistry'.trans hregistry
  intro hI
  apply hkept'
  exact hfinish hI

theorem advanceAll_spec (kept : Kept D I) {cascades left : List (Cascade N Fn)}
    (h : advanceAll D s cascades = (s', left)) :
  s'.registry = s.registry ∧ (I s.world → I s'.world)
  := by
  induction cascades generalizing s left with
  | nil =>
    obtain ⟨rfl, -⟩ := h
    exact ⟨rfl, id⟩
  | cons cascade cascades ih =>
  rw [advanceAll] at h
  rcases hone : advance D s cascade.token cascade.stages with ⟨s₁, cascade₁⟩
  rcases hrest : advanceAll D s₁ cascades with ⟨s₂, kept₂⟩
  simp only [hone, hrest] at h
  obtain ⟨rfl, -⟩ := h
  obtain ⟨hregistry, hkept⟩ := advance_spec kept hone
  obtain ⟨hregistry', hkept'⟩ := ih hrest
  exact ⟨hregistry'.trans hregistry, hkept' ∘ hkept⟩

theorem reclaimRetired_registry (D : Dataplane N K V Staged Fn W)
    (s : TransactionEngine N K Fn W) :
  (s.reclaimRetired D).registry = s.registry
  := by
  have always : Kept D (fun _ => True) := by constructor <;> intros <;> trivial
  rcases hall : advanceAll D s s.cascades with ⟨s₁, left⟩
  unfold reclaimRetired
  rw [hall]
  exact (advanceAll_spec always hall).1

theorem reclaimRetired_kept (kept : Kept D I) (hI : I s.world) :
  I (s.reclaimRetired D).world
  := by
  rcases hall : advanceAll D s s.cascades with ⟨s₁, left⟩
  unfold reclaimRetired
  rw [hall]
  apply kept.reclaimReady
  exact (advanceAll_spec kept hall).2 hI

end

/-! ### The calls -/

/-- The calls on the engine, and changes of the world that are not the engine's doing. -/
inductive Call (N K V W : Type) : Type where
  | register (emplace : Registration N K → List (Registration N K) → List (Registration N K))
      (resource : Resource N)
  | unregister (names : List N)
  | releaseForTeardown (names : List N)
  | apply (ops : List (Op N K V)) (expectedGeneration : Option (BitVec 64))
      (consistency : Consistency) (owned : Option (List ℕ))
  | reclaimRetired
  | advanceGeneration
  | outside (w : W)

section

variable [DecidableEq N] [LinearOrder K] [ToString N] [ToString K]

def exec (D : Dataplane N K V Staged Fn W) (s : TransactionEngine N K Fn W) :
    Call N K V W → TransactionEngine N K Fn W
  | .register emplace resource => (s.register D emplace resource).1
  | .unregister names => (s.unregister D names).1
  | .releaseForTeardown names => (s.releaseForTeardown D names).1
  | .apply ops expectedGeneration consistency owned =>
      (s.applyImpl D ops expectedGeneration consistency owned).1
  | .reclaimRetired => s.reclaimRetired D
  | .advanceGeneration => s.advanceGeneration
  | .outside w => s.setWorld w

end

/-- The states that a sequence of admitted calls leads to. -/
inductive Run [DecidableEq N] [LinearOrder K] [ToString N] [ToString K]
    (D : Dataplane N K V Staged Fn W) (starts : W → Prop)
    (admits : TransactionEngine N K Fn W → Call N K V W → Prop) :
    TransactionEngine N K Fn W → Prop where
  | create {w : W} (start : starts w) : Run D starts admits (create w)
  | call {s : TransactionEngine N K Fn W} {c : Call N K V W} (run : Run D starts admits s)
      (admitted : admits s c) : Run D starts admits (s.exec D c)

theorem Run.mono [DecidableEq N] [LinearOrder K] [ToString N] [ToString K] {starts starts' : W → Prop}
    {admits admits' : TransactionEngine N K Fn W → Call N K V W → Prop}
    (hstarts : ∀ w, starts w → starts' w) (hadmits : ∀ s c, admits s c → admits' s c)
    (run : Run D starts admits s) :
  Run D starts' admits' s
  := by
  induction run with
  | create start => exact .create (hstarts _ start)
  | call _ admitted ih => exact .call ih (hadmits _ _ admitted)

/-- A new registration goes somewhere in the hash map, which may be rehashed then. -/
def Call.Emplaces : Call N K V W → Prop
  | .register emplace _ => ∀ r l, (emplace r l).Perm (r :: l)
  | _ => True

/-- The world changes on its own only to one that holds no reservation. -/
def Call.Admitted {D : Dataplane N K V Staged Fn W} (C : Contract D) (c : Call N K V W) : Prop :=
  c.Emplaces ∧ ∀ w, c = .outside w → C.Holding w []

/-- The states any sequence of calls leads to. -/
def Reached [DecidableEq N] [LinearOrder K] [ToString N] [ToString K]
    {D : Dataplane N K V Staged Fn W} (C : Contract D) (s : TransactionEngine N K Fn W) : Prop :=
  Run D (fun w => C.Holding w []) (fun _ c => c.Admitted C) s

/-- What holds of the engine between two calls. -/
structure Idle [DecidableEq K] {D : Dataplane N K V Staged Fn W} (C : Contract D)
    (s : TransactionEngine N K Fn W) : Prop where
  holding : C.Holding s.world []
  marked : s.Marked []
  zeros : s.NoZeros

theorem marked_nil_iff :
  s.Marked [] ↔ ∀ r ∈ s.resources, r.touched = false
  := by
  simp [Marked]

/-! ### Counting anew -/

/-- A registration without its ledger. -/
def withoutLedger (r : Registration N K) : Registration N K :=
  { r with incoming := ∅ }

theorem name_of_withoutLedger_eq {r r' : Registration N K}
    (h : withoutLedger r' = withoutLedger r) :
  r'.name = r.name
  := by
  have hname := congrArg Registration.name h
  exact hname

section

variable [DecidableEq K]

theorem lookup_eraseZero (m : AList (fun _ : K => ℕ)) (k key : K) :
  (if m.lookup k = some 0 then m.erase k else m).lookup key
    = if key = k then (m.lookup key).filter (fun count => count ≠ 0) else m.lookup key
  := by
  by_cases hkey : key = k
  case neg =>
    split
    case isTrue => rw [AList.lookup_erase_ne hkey]
    case isFalse => rfl
  case pos =>
  subst hkey
  rw [if_pos rfl]
  split
  case isTrue h => simp [h, Option.filter]
  case isFalse h =>
  rcases hcount : m.lookup key with _ | count
  case none => rfl
  case some =>
  have hne : count ≠ 0 := by
    rintro rfl
    exact h hcount
  simp [Option.filter, hne]

/-- Entries without a reference are gone, and the others are kept. -/
theorem lookup_dropZeros (r : Registration N K) (key : K) :
  (dropZeros r).incoming.lookup key = (r.incoming.lookup key).filter (fun count => count ≠ 0)
  := by
  have hfold : ∀ (keys : List K) (m : AList (fun _ : K => ℕ)),
      (keys.foldl (fun m key => if m.lookup key = some 0 then m.erase key else m) m).lookup key
        = if key ∈ keys then (m.lookup key).filter (fun count => count ≠ 0) else m.lookup key := by
    intro keys
    induction keys with
    | nil => simp
    | cons k keys ih =>
    intro m
    rw [foldl_cons, ih, lookup_eraseZero]
    by_cases hk : key = k <;> by_cases hmem : key ∈ keys <;> simp [hk]
  rw [dropZeros, hfold]
  split
  case isTrue => rfl
  case isFalse hmem =>
  have hnone : r.incoming.lookup key = none := AList.lookup_eq_none.mpr hmem
  simp [hnone]

end

section

variable [DecidableEq N] [DecidableEq K] (D : Dataplane N K V Staged Fn W)
  (s : TransactionEngine N K Fn W)

theorem rebuildIncoming_withoutLedger :
  (s.rebuildIncoming D).resources.map withoutLedger = s.resources.map withoutLedger
  := by
  have hcounted : ∀ (s : TransactionEngine N K Fn W) (p : N × K),
      (s.modify p.1 (counted p.2)).resources.map withoutLedger = s.resources.map withoutLedger := by
    intro s p
    apply map_modify
    intro r
    rfl
  have hdrop : (withoutLedger ∘ dropZeros : Registration N K → _) = withoutLedger := rfl
  simp only [rebuildIncoming, setResources_resources, map_map]
  rw [hdrop, foldl_unchanged (fun s : TransactionEngine N K Fn W =>
    s.resources.map withoutLedger) hcounted, setResources_resources, map_map]
  rfl

theorem rebuildIncoming_world :
  (s.rebuildIncoming D).world = s.world
  := by
  apply foldl_unchanged (fun s : TransactionEngine N K Fn W => s.world)
  intro s p
  rfl

theorem rebuildIncoming_noZeros :
  (s.rebuildIncoming D).NoZeros
  := by
  intro r hr key
  obtain ⟨r₀, -, rfl⟩ := mem_map.mp hr
  rw [lookup_dropZeros]
  simp

end

/-! ### Between two calls -/

theorem marked_of_registry_eq (h : s'.registry = s.registry) (marked : s.Marked []) :
  s'.Marked []
  := by
  rw [marked_nil_iff] at marked ⊢
  refine forall_of_map_eq (congrArg Prod.fst h) ?_ marked
  intro r r' heq hr
  have htouched := congrArg Registration.touched heq
  exact htouched.trans hr

theorem noZeros_of_registry_eq [DecidableEq K] (h : s'.registry = s.registry) (zeros : s.NoZeros) :
  s'.NoZeros
  := by
  refine forall_of_map_eq (congrArg Prod.fst h) ?_ zeros
  intro r r' heq hr key
  have hincoming := congrArg Registration.incoming heq
  rw [hincoming]
  apply hr

section

variable [DecidableEq K] {C : Contract D}

theorem Idle.reclaimReady (idle : s.Idle C) :
  (s.setWorld (D.reclaimReady s.world)).Idle C
  := ⟨(C.reclaimReady idle.holding).1, idle.marked, idle.zeros⟩

theorem Idle.dirty (idle : s.Idle C) :
  s.dirty.Idle C
  := { idle with }

theorem Idle.filter (idle : s.Idle C) (p : Registration N K → Bool) :
  (s.setResources (s.resources.filter p)).Idle C
  := by
  refine ⟨idle.holding, ?_, ?_⟩
  · intro r hr
    exact idle.marked r (mem_of_mem_filter hr)
  intro r hr
  exact idle.zeros r (mem_of_mem_filter hr)

variable [DecidableEq N] {emplace : Registration N K → List (Registration N K) → List (Registration N K)}

theorem Idle.reclaimRetired (idle : s.Idle C) :
  (s.reclaimRetired D).Idle C ∧ C.committed (s.reclaimRetired D).world = C.committed s.world
  := by
  have hkept := reclaimRetired_kept (C.kept (C.committed s.world)) ⟨idle.holding, rfl⟩
  have hregistry := reclaimRetired_registry D s
  refine ⟨⟨hkept.1, ?_, ?_⟩, hkept.2⟩
  · exact marked_of_registry_eq hregistry idle.marked
  · exact noZeros_of_registry_eq hregistry idle.zeros

theorem Idle.recomputeRanks (idle : s.Idle C) :
  s.recomputeRanks.Idle C
  := by
  unfold TransactionEngine.recomputeRanks
  split
  case isFalse => exact idle
  case isTrue =>
  refine ⟨idle.holding, ?_, ?_⟩
  · intro r hr
    obtain ⟨r₀, hr₀, rfl⟩ := mem_map.mp hr
    exact idle.marked r₀ hr₀
  intro r hr
  obtain ⟨r₀, hr₀, rfl⟩ := mem_map.mp hr
  exact idle.zeros r₀ hr₀

/-- Counting anew needs nothing of the ledgers. -/
theorem idle_rebuildIncoming (holding : C.Holding s.world []) (marked : s.Marked []) :
  (s.rebuildIncoming D).Idle C
  := by
  refine ⟨?_, ?_, rebuildIncoming_noZeros D s⟩
  · rw [rebuildIncoming_world]
    exact holding
  rw [marked_nil_iff] at marked ⊢
  refine forall_of_map_eq (rebuildIncoming_withoutLedger D s) ?_ marked
  intro r r' heq hr
  have htouched := congrArg Registration.touched heq
  exact htouched.trans hr

section

variable (idle : s.Idle C)

include idle

theorem Idle.enroll (hemplace : ∀ r l, (emplace r l).Perm (r :: l)) (resource : Resource N) :
  (s.enroll D emplace resource).Idle C
  := by
  apply Idle.recomputeRanks
  apply Idle.dirty
  apply idle_rebuildIncoming
  · exact idle.holding
  rw [marked_nil_iff]
  intro r hr
  obtain ⟨r₀, hr₀, rfl⟩ := mem_map.mp hr
  rw [setResources_resources, (hemplace _ _).mem_iff, mem_cons] at hr₀
  obtain rfl | hr₀ := hr₀
  case inl => rfl
  case inr => exact marked_nil_iff.mp idle.marked r₀ hr₀

theorem Idle.dismiss (group : List N) :
  (s.dismiss D group).Idle C
  := by
  apply Idle.dirty
  apply idle_rebuildIncoming
  · exact idle.holding
  rw [marked_nil_iff]
  intro r hr
  obtain ⟨r₀, hr₀, rfl⟩ := mem_map.mp hr
  have htouched : (group.foldl (fun r name => unbind name r) r₀).touched = r₀.touched := by
    apply List.foldlRecOn (motive := fun r : Registration N K => r.touched = r₀.touched)
    · rfl
    intro r hr name _
    exact hr
  rw [htouched]
  exact marked_nil_iff.mp idle.marked r₀ (mem_of_mem_filter hr₀)

variable [ToString N]

theorem Idle.register (hemplace : ∀ r l, (emplace r l).Perm (r :: l)) (resource : Resource N) :
  (s.register D emplace resource).1.Idle C
  := by
  unfold TransactionEngine.register
  split
  case isTrue => exact idle
  case isFalse =>
  split
  case isTrue => exact idle
  case isFalse =>
  split
  case isTrue => exact idle
  case isFalse => exact idle.enroll hemplace resource

theorem Idle.unregister (names : List N) :
  (s.unregister D names).1.Idle C
  := by
  unfold TransactionEngine.unregister
  split
  case h_1 => exact idle
  case h_2 =>
  split
  case h_1 => exact idle
  case h_2 =>
  have hreclaim := idle.reclaimRetired.1.reclaimReady
  simp only
  split
  case h_1 => exact hreclaim
  case h_2 => exact hreclaim.filter _

theorem Idle.releaseForTeardown (names : List N) :
  (s.releaseForTeardown D names).1.Idle C
  := by
  have hreclaim := idle.reclaimRetired.1.reclaimReady
  unfold TransactionEngine.releaseForTeardown
  simp only
  split
  case h_1 => exact hreclaim
  case h_2 => exact hreclaim.dismiss _

end

end

end TransactionEngine

end Engine
