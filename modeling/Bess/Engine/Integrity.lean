import Bess.Engine.References
import Bess.Engine.Ranks

/-!
# Referential integrity

Every sequence of registrations and transactions leaves the ledger with the count of the
references that live values hold, and no value with a reference to a key that is not there.
-/

namespace Engine

open List

variable {N K V Staged Fn W : Type} {D : Dataplane N K V Staged Fn W} {C : Contract D} {name : N}

namespace TransactionEngine

variable {s s' : TransactionEngine N K Fn W} {L : Referential C} {resource : Resource N}
  {g : Registration N K → Registration N K} {x : N × K}

/-! ### Consistency under the calls -/

section

variable [DecidableEq N] [DecidableEq K] {c c' : Committed N K V}

/-- Consistency depends on the graph of the references and on the counts. -/
theorem Consistent.of_map_eq (keeps : KeepsLinks g) (h : s'.resources.map g = s.resources.map g)
    (hcount : s'.count = s.count) (consistent : s.Consistent c) :
  s'.Consistent c
  := by
  have hplaces : s'.places c = s.places c := by
    rw [places, places, keeps.names h]
  have hcounts := keeps.countsOn h
  have hnamed : s'.named c = s.named c := by
    funext p
    rw [named, named, hcounts]
  constructor
  case count =>
    intro x hx
    rw [keeps.registered h] at hx
    rw [hcount, hplaces, hnamed]
    exact consistent.count x hx
  case live =>
  rw [hplaces, hcounts]
  exact consistent.live

theorem Consistent.dirty (consistent : s.Consistent c) :
  s.dirty.Consistent c
  := ⟨consistent.count, consistent.live⟩

/-- Two views of what resources show agree on the registered ones. -/
def Agree (s : TransactionEngine N K Fn W) (c c' : Committed N K V) : Prop :=
  ∀ name, s.registered name = true →
    c'.keys name = c.keys name ∧ c'.references name = c.references name
      ∧ c'.held name = c.held name

theorem Consistent.of_agree (bound : s.Bound) (agree : s.Agree c c') (consistent : s.Consistent c) :
  s.Consistent c'
  := by
  have hplaces : s.places c' = s.places c := by
    ext p
    rw [mem_places, mem_places]
    exact and_congr_right fun hp => by rw [(agree p.1 hp).1]
  have hcounts : ∀ name ref, s.countsOn c'.held name ref = s.countsOn c.held name ref := by
    intro name ref
    apply countsOn_congr
    intro reg hreg hdep
    have hregistered := bound.deps reg ((find_eq_some_iff bound.nodup).mp hreg).1 _ hdep
    rw [(agree _ hregistered).2.2]
  have hnamed : ∀ p ∈ s.places c, s.named c' p = s.named c p := by
    intro p hp
    rw [named, (agree p.1 (mem_places.mp hp).1).2.1]
    apply filterMap_congr
    intro ref _
    apply hcounts
  constructor
  case count =>
    intro x hx
    rw [consistent.count x hx, hplaces]
    apply Finset.sum_congr rfl
    intro p hp
    rw [hnamed p hp]
  case live =>
  rw [hplaces]
  intro p hp ref href
  rw [(agree p.1 (mem_places.mp hp).1).2.1] at href
  obtain ⟨h, hcount, hlive⟩ := consistent.live p hp ref href
  refine ⟨h, (hcounts _ _).trans hcount, ?_⟩
  rw [(agree h (bound.countsOn_registered hcount)).1]
  exact hlive

theorem count_reclaimRetired (D : Dataplane N K V Staged Fn W)
    (s : TransactionEngine N K Fn W) :
  (s.reclaimRetired D).count = s.count
  := by
  have hregistry := congrArg Prod.fst (reclaimRetired_registry D s)
  funext name key
  rw [count, count, find_bind_of_map_eq hregistry (fun _ => rfl) name
    (fun r => r.incoming.lookup key) (fun _ => rfl)]

theorem count_recomputeRanks (s : TransactionEngine N K Fn W) :
  s.recomputeRanks.count = s.count
  := by
  funext name key
  rw [count, count, find_bind_of_map_eq (recomputeRanks_withoutRank s) (fun _ => rfl) name
    (fun r => r.incoming.lookup key) (fun _ => rfl)]

theorem Consistent.reclaimRetired (consistent : s.Consistent c) (D : Dataplane N K V Staged Fn W) :
  (s.reclaimRetired D).Consistent c
  := consistent.of_map_eq keepsLinks_skeleton
    (skeletons_of_topology_eq (topology_reclaimRetired D s)) (count_reclaimRetired D s)

theorem Consistent.begin (consistent : s.Consistent c) (D : Dataplane N K V Staged Fn W) :
  (s.begin D).Consistent c
  := (consistent.reclaimRetired D).of_map_eq keepsLinks_withoutRank
    (recomputeRanks_withoutRank _) (count_recomputeRanks _)

/-! ### Transactions -/

theorem count_commit (D : Dataplane N K V Staged Fn W) (s : TransactionEngine N K Fn W)
    (ops : List (Op N K V)) {t : Scratch N K V Staged}
    (nodup : (t.deltas.map Delta.at).Nodup) (registered : s.registered x.1 = true) :
  (commit D s ops t).1.count x.1 x.2 = (s.count x.1 x.2 + sumAt x t.deltas).toNat
  := by
  have hpend : ∀ (s : TransactionEngine N K Fn W) (r : Removal N Fn),
      (s.removalPending r).count = s.count := by
    intro s r
    have hmap : (s.removalPending r).resources.map (fun r => { r with pendingRemovals := 0 })
        = s.resources.map (fun r => { r with pendingRemovals := 0 }) := by
      apply map_modify
      intro reg
      rfl
    funext name key
    rw [count, count, find_bind_of_map_eq hmap (fun _ => rfl) name
      (fun r => r.incoming.lookup key) (fun _ => rfl)]
  have hpub : (publishStaged D s t).1.count x.1 x.2
      = (s.count x.1 x.2 + sumAt x t.deltas).toNat := by
    change count (List.foldl removalPending _ _) x.1 x.2 = _
    rw [foldl_unchanged (fun s : TransactionEngine N K Fn W => s.count) hpend]
    exact count_foldl nodup s _ registered
  rcases h : publishStaged D s t with ⟨s₁, retirer⟩
  rw [h] at hpub
  simp only [commit, h]
  rw [← hpub, ← count_of_bare_eq (endTransactions_bare D s₁ t.touched), count, count]
  unfold find
  rw [setWorld_resources, (startReclaim_unchanged D _ retirer _).1]

theorem Consistent.of_change {ops : List (Op N K V)}
    {deltas : List (Delta N K)} (consistent : s.Consistent c)
    (change : s.Change ops deltas c c') (h : s'.resources.map skeleton = s.resources.map skeleton)
    (hcount : ∀ x : N × K, s.registered x.1 = true →
      s'.count x.1 x.2 = (s.count x.1 x.2 + sumAt x deltas).toNat) :
  s'.Consistent c'
  := by
  have hplaces : s'.places c' = s.places c' := by
    rw [places, places, keepsLinks_skeleton.names h]
  have hcounts := keepsLinks_skeleton.countsOn h
  have hnamed : s'.named c' = s.named c' := by
    funext p
    rw [named, named, hcounts]
  constructor
  case count =>
    intro x hx
    rw [keepsLinks_skeleton.registered h] at hx
    rw [hcount x hx, hplaces, hnamed, ← change.total_eq consistent hx, Int.toNat_natCast]
  case live =>
  rw [hplaces, hcounts]
  exact change.live consistent

end

section

theorem Declared.of_map_eq (keeps : KeepsLinks g) (h : s'.resources.map g = s.resources.map g)
    (declared : s.Declared L) :
  s'.Declared L
  := by
  refine forall_of_map_eq h ?_ declared
  intro r r' heq hr
  have hres : r'.resource = r.resource := by
    rw [← keeps.resource r', heq, keeps.resource]
  rw [Registration.name, hres]
  exact hr

variable [DecidableEq N]

/-- What holds of the engine and its ledger between two calls. -/
structure Integral [LinearOrder K] (L : Referential C) (s : TransactionEngine N K Fn W) :
    Prop where
  idle : s.Idle C
  bound : s.Bound
  ranked : s.Ranked
  declared : s.Declared L
  consistent : s.Consistent (C.committed s.world)

variable [LinearOrder K]

theorem Integral.declared_begin (integral : s.Integral L) :
  (s.begin D).Declared L
  := by
  apply Declared.of_map_eq keepsLinks_withoutRank (recomputeRanks_withoutRank _)
  exact integral.declared.of_map_eq keepsLinks_skeleton
    (skeletons_of_topology_eq (topology_reclaimRetired D s))

variable [ToString N] [ToString K]

theorem Integral.consistent_applyImpl (integral : s.Integral L) (ops : List (Op N K V))
    (expectedGeneration : Option (BitVec 64)) (consistency : Consistency) (owned : Option (List ℕ))
    :
  (applyImpl D s ops expectedGeneration consistency owned).1.Consistent
    (C.committed (applyImpl D s ops expectedGeneration consistency owned).1.world)
  := by
  obtain ⟨hidle, hcommitted⟩ := integral.idle.begin
  obtain ⟨hbound, hranked⟩ := begin_ranked D integral.bound integral.ranked
  have hconsistent := integral.consistent.begin D
  rw [← hcommitted] at hconsistent
  rcases h : applyImpl D s ops expectedGeneration consistency owned with ⟨s', r⟩
  obtain ⟨-, rfl⟩ | ⟨hcycle, hknown, hdistinct, htransact⟩ := applyImpl_cases D h
  case inl => exact hconsistent
  case inr =>
  have hknown' : ∀ op ∈ ops, ((s.begin D).find op.resource).isSome :=
    fun op hop => (hknown op hop).1
  obtain ⟨-, haborted⟩ | ⟨es, w, s₁, t, hacc, hcommit⟩ :=
    transact_cases D hidle.zeros hidle.marked hknown' htransact
  case inl =>
    have hshown := (hidle.aborted hdistinct haborted).2
    rw [hshown]
    exact hconsistent.of_map_eq keepsLinks_skeleton
      (skeletons_of_topology_eq (topology_of_bare_eq haborted.bare))
      (count_of_bare_eq haborted.bare)
  case inr =>
  have hchange := hacc.change L hidle hbound
    (hranked (recomputeRanks_ranksDirty _) hcycle) integral.declared_begin hknown' hdistinct
  obtain ⟨-, -, -, -, hkept⟩ := commit_spec D ops hacc.marked
    (hidle.zeros.of_bare_eq hacc.bare) hcommit
  obtain ⟨hhold, -⟩ := hacc.holding hidle hdistinct
  have hshown : C.committed s'.world = published C s₁ t :=
    (hkept _ (C.kept _) ⟨C.publishes hhold hacc.perm, rfl⟩).2
  have htopo : s'.topology = (s.begin D).topology := by
    rw [← topology_of_bare_eq hacc.bare, ← topology_commit D s₁ ops t, hcommit]
  rw [hshown]
  apply hconsistent.of_change hchange (skeletons_of_topology_eq htopo)
  intro x hx
  have hreg : s₁.registered x.1 = true := by
    rw [keepsLinks_skeleton.registered
      (skeletons_of_topology_eq (topology_of_bare_eq hacc.bare))]
    exact hx
  have hcount := count_commit D s₁ ops hchange.deltas_nodup hreg
  rw [hcommit, count_of_bare_eq hacc.bare] at hcount
  exact hcount

end

/-! ### Registration -/

section

variable [DecidableEq N] {s₁ : TransactionEngine N K Fn W}

/-- Binding a new resource leaves the references that are counted where they are. -/
theorem countsOn_emplaced (bound : s.Bound) (fresh : s.registered resource.name = false)
    (perm : s₁.resources.Perm (s.newRegistration resource :: s.resources)) {held : N → K → Bool}
    {ref : Reference N K} (h : s.countsOn held name ref = some x) :
  (s₁.setResources (s₁.resources.map s₁.rebindDependencies)).countsOn held name ref = some x
  := by
  set s₂ := s₁.setResources (s₁.resources.map s₁.rebindDependencies)
  have hbound := bound.emplaced fresh perm
  have hfind : ∀ {n r}, s.find n = some r → s₂.find n = some (s₁.rebindDependencies r) := by
    intro n r hr
    obtain ⟨hmem, rfl⟩ := (find_eq_some_iff bound.nodup).mp hr
    rw [find_eq_some_iff hbound.nodup]
    refine ⟨?_, rfl⟩
    apply mem_map_of_mem
    rw [perm.mem_iff]
    exact mem_cons_of_mem _ hmem
  obtain ⟨reg, hreg, h⟩ := Option.bind_eq_some_iff.mp h
  obtain ⟨target, htarget, h⟩ := Option.bind_eq_some_iff.mp h
  obtain ⟨n, hn, rfl⟩ := Option.map_eq_some_iff.mp h
  rw [resolve, Option.ite_none_right_eq_some, Option.some.injEq] at htarget
  obtain ⟨hdep, rfl⟩ := htarget
  obtain ⟨r, hr, hn⟩ := Option.bind_eq_some_iff.mp hn
  have hholder : s₂.holderOf held ref.resource ref.key = some n := by
    rw [holderOf, hfind hr]
    split at hn
    case isTrue hfree =>
      apply (if_pos ?_).trans hn
      exact hfree
    case isFalse htaken =>
    apply (if_neg ?_).trans
    · rw [rebindDependencies, if_neg (by simp [hn]), hn]
    · exact htaken
  have hdep' : ref.resource ∈ (s₁.rebindDependencies reg).deps := mem_append_left _ hdep
  rw [countsOn, hfind hreg, Option.bind_some, resolve, if_pos hdep', Option.bind_some, hholder]
  rfl

variable [DecidableEq K]

/-- What is counted anew are the references that live values hold. -/
theorem total_eq_counted (L : Referential C) (holding : C.Holding s.world [])
    (nodup : (s.resources.map Registration.name).Nodup) (x : N × K) :
  Tally.total (s.places (C.committed s.world)) (s.named (C.committed s.world)) x
    = (s.resources.flatMap (countedOn D s)).count x
  := by
  set c := C.committed s.world
  -- per resource, the references of its values in the order of the resource or of the keys
  have hcounted : ∀ r ∈ s.resources, (countedOn D s r).count x
      = ∑ key ∈ c.keys r.name, (s.named c (r.name, key)).count x := by
    intro r hr
    have hfind : s.find r.name = some r := (find_eq_some_iff nodup).mpr ⟨hr, rfl⟩
    have hheld : (fun name key => D.heldByKeyHolder s.world name key false) = c.held := by
      funext name key
      exact L.held holding name key
    have hcountedOn : countedOn D s r
        = (D.visitReferences s.world r.name).filterMap (s.countsOn c.held r.name) := by
      rw [← hheld]
      apply filterMap_congr
      intro ref _
      rw [countsOn, hfind]
      rfl
    have hperm := (L.visitReferences holding r.name).filterMap (s.countsOn c.held r.name)
    rw [hcountedOn, hperm.count_eq, filterMap_flatMap, count_flatMap, ← Finset.sum_map_toList]
    rfl
  rw [count_flatMap, Tally.total, places, Finset.sum_biUnion]
  · rw [sum_toFinset _ nodup, map_map]
    congr 1
    apply map_congr_left
    intro r hr
    rw [Function.comp_apply, Function.comp_apply, hcounted r hr, Finset.sum_image]
    intro key _ key' _ h
    exact (Prod.mk.inj h).2
  intro n _ n' _ hne
  rw [Function.onFun, Finset.disjoint_left]
  intro p hp hp'
  obtain ⟨key, -, rfl⟩ := Finset.mem_image.mp hp
  obtain ⟨key', -, h⟩ := Finset.mem_image.mp hp'
  exact hne (Prod.mk.inj h).1.symm

/-- Counting anew makes the counts right, whatever they were. -/
theorem consistent_rebuildIncoming (L : Referential C) (holding : C.Holding s.world [])
    (nodup : (s.resources.map Registration.name).Nodup)
    (live : ∀ p ∈ s.places (C.committed s.world),
      ∀ ref ∈ (C.committed s.world).references p.1 p.2, ∃ h,
        s.countsOn (C.committed s.world).held p.1 ref = some (h, ref.key)
          ∧ ref.key ∈ (C.committed s.world).keys h) :
  (s.rebuildIncoming D).Consistent (C.committed s.world)
  := by
  set c := C.committed s.world
  have hskel := congrArg (List.map skeleton) (rebuildIncoming_withoutLedger D s)
  rw [map_map, map_map] at hskel
  have hplaces : (s.rebuildIncoming D).places c = s.places c := by
    rw [places, places, keepsLinks_skeleton.names hskel]
  have hcounts := keepsLinks_skeleton.countsOn hskel
  have hnamed : (s.rebuildIncoming D).named c = s.named c := by
    funext p
    rw [named, named, hcounts]
  constructor
  case count =>
    intro x hx
    rw [keepsLinks_skeleton.registered hskel] at hx
    rw [count_rebuildIncoming D s hx, hplaces, hnamed, total_eq_counted L holding nodup]
  case live =>
  rw [hplaces, hcounts]
  exact live

/-- Binding a new resource, whose values hold no references, leaves every reference to a live
key. -/
theorem Consistent.live_emplaced {c : Committed N K V} (consistent : s.Consistent c) (bound : s.Bound)
    (fresh : s.registered resource.name = false)
    (perm : s₁.resources.Perm (s.newRegistration resource :: s.resources))
    (independent : ∀ key ∈ c.keys resource.name, c.references resource.name key = []) :
  ∀ p ∈ (s₁.setResources (s₁.resources.map s₁.rebindDependencies)).places c,
    ∀ ref ∈ c.references p.1 p.2, ∃ h,
      (s₁.setResources (s₁.resources.map s₁.rebindDependencies)).countsOn c.held p.1 ref
          = some (h, ref.key)
        ∧ ref.key ∈ c.keys h
  := by
  intro p hp ref href
  obtain ⟨hreg, hkey⟩ := mem_places.mp hp
  rw [registered_iff, setResources_resources, map_map] at hreg
  have hname : p.1 ∈ s₁.resources.map Registration.name := hreg
  rw [(perm.map Registration.name).mem_iff, map_cons, mem_cons, ← registered_iff] at hname
  obtain hname | hname := hname
  case inr =>
    obtain ⟨h, hcounts, hlive⟩ := consistent.live p (mem_places.mpr ⟨hname, hkey⟩) ref href
    exact ⟨h, countsOn_emplaced bound fresh perm hcounts, hlive⟩
  case inl =>
  have hnone : c.references p.1 p.2 = [] := by
    have hp₁ : p.1 = resource.name := hname
    rw [hp₁] at hkey ⊢
    exact independent p.2 hkey
  rw [hnone] at href
  exact absurd href not_mem_nil

end

section

variable [DecidableEq N] {D : Dataplane N K V Staged Fn W} {C : Contract D}

/-- The calls of a run in which nothing leaves: resources register with the key holders of the
contract, and one that declares no references has none in its values, and nothing but the engine
changes what registered resources show. -/
def Call.Grows (L : Referential C) (s : TransactionEngine N K Fn W) : Call N K V W → Prop
  | .register emplace resource => (∀ r l, (emplace r l).Perm (r :: l))
      ∧ resource.keyHolder = L.keyHolder resource.name
      ∧ (resource.declared = [] →
          ∀ key, (C.committed s.world).references resource.name key = [])
  | .unregister _ => False
  | .releaseForTeardown _ => False
  | .outside w => C.Holding w [] ∧ s.Agree (C.committed s.world) (C.committed w)
  | _ => True

variable {L : Referential C} {s : TransactionEngine N K Fn W} {c : Call N K V W}

theorem Call.Grows.admitted (grows : c.Grows L s) :
  c.Admitted C
  := by
  cases c with
  | register emplace resource => exact ⟨grows.1, by simp⟩
  | unregister | releaseForTeardown => exact grows.elim
  | outside w =>
    refine ⟨trivial, ?_⟩
    intro w' h
    obtain rfl := Call.outside.inj h
    exact grows.1
  | _ => exact ⟨trivial, by simp⟩

variable [LinearOrder K] [ToString N]

theorem Integral.register (integral : s.Integral L)
    {emplace : Registration N K → List (Registration N K) → List (Registration N K)}
    (grows : (Call.register emplace resource : Call N K V W).Grows L s) :
  (s.register D emplace resource).1.Declared L
    ∧ (s.register D emplace resource).1.Consistent
        (C.committed (s.register D emplace resource).1.world)
  := by
  obtain ⟨hemplace, hholder, hindependent⟩ := grows
  unfold TransactionEngine.register
  split
  case isTrue => exact ⟨integral.declared, integral.consistent⟩
  case isFalse fresh =>
  split
  case isTrue => exact ⟨integral.declared, integral.consistent⟩
  case isFalse =>
  split
  case isTrue => exact ⟨integral.declared, integral.consistent⟩
  case isFalse hpopulated =>
  rw [Bool.not_eq_true] at fresh
  set s₁ := s.setResources (emplace (s.newRegistration resource) s.resources)
  set s₂ := s₁.setResources (s₁.resources.map s₁.rebindDependencies)
  have hperm : s₁.resources.Perm (s.newRegistration resource :: s.resources) := hemplace _ _
  have hbound : s₂.Bound := integral.bound.emplaced fresh hperm
  have hskel : (s₂.rebuildIncoming D).resources.map skeleton
      = s₂.resources.map skeleton := by
    have hmap := congrArg (List.map skeleton) (rebuildIncoming_withoutLedger D s₂)
    rwa [map_map, map_map] at hmap
  have hranks := recomputeRanks_withoutRank (s₂.rebuildIncoming D).dirty
  have hworld : (s.enroll D emplace resource).world = s.world := by
    exact rebuildIncoming_world D s₂
  have hdeclared : s₂.Declared L := by
    intro r hr
    obtain ⟨r₀, hr₀, rfl⟩ := mem_map.mp hr
    rw [hperm.mem_iff, mem_cons] at hr₀
    obtain rfl | hr₀ := hr₀
    case inl => exact hholder
    case inr => exact integral.declared r₀ hr₀
  constructor
  · apply Declared.of_map_eq keepsLinks_withoutRank hranks
    exact hdeclared.of_map_eq keepsLinks_skeleton hskel
  simp only
  rw [hworld]
  have hindependent' : ∀ key ∈ (C.committed s.world).keys resource.name,
      (C.committed s.world).references resource.name key = [] := by
    intro key hkey
    by_cases hnone : resource.declared = []
    case pos => exact hindependent hnone key
    case neg =>
    rw [not_and, not_not] at hpopulated
    rw [L.liveCount integral.idle.holding _ (hpopulated hnone)] at hkey
    exact absurd hkey (Finset.notMem_empty _)
  apply Consistent.of_map_eq keepsLinks_withoutRank hranks (count_recomputeRanks _)
  apply Consistent.dirty
  apply consistent_rebuildIncoming L (s := s₂) integral.idle.holding hbound.nodup
  exact integral.consistent.live_emplaced integral.bound fresh hperm hindependent'

variable [ToString K]

theorem Integral.exec (integral : s.Integral L) (grows : c.Grows L s) :
  (s.exec D c).Declared L ∧ (s.exec D c).Consistent (C.committed (s.exec D c).world)
  := by
  cases c with
  | register emplace resource => exact integral.register grows
  | unregister | releaseForTeardown => exact grows.elim
  | apply ops expectedGeneration consistency owned =>
    have htopo := topology_applyImpl D s ops expectedGeneration consistency owned
    refine ⟨?_, integral.consistent_applyImpl _ _ _ _⟩
    apply Declared.of_map_eq keepsLinks_skeleton (skeletons_of_topology_eq htopo)
    exact integral.declared_begin
  | reclaimRetired =>
    have htopo := topology_reclaimRetired D s
    constructor
    · exact integral.declared.of_map_eq keepsLinks_skeleton (skeletons_of_topology_eq htopo)
    have hconsistent := integral.consistent.reclaimRetired D
    rwa [← integral.idle.reclaimRetired.2] at hconsistent
  | advanceGeneration => exact ⟨integral.declared, integral.consistent.count, integral.consistent.live⟩
  | outside w =>
  have hconsistent := integral.consistent.of_agree integral.bound grows.2
  exact ⟨integral.declared, hconsistent.count, hconsistent.live⟩

theorem Run.integral (run : Run D (fun w => C.Holding w []) (fun s c => c.Grows L s) s) :
  s.Integral L
  := by
  have reached : ∀ {s}, Run D (fun w => C.Holding w []) (fun s c => c.Grows L s) s →
      s.Idle C ∧ s.Bound ∧ s.Ranked := by
    intro s run
    have hreached : Reached C s := run.mono (fun _ h => h) (fun _ _ h => h.admitted)
    exact ⟨hreached.idle, run.ranked (fun _ _ h => h.admitted.1)⟩
  induction run with
  | create start =>
    obtain ⟨hidle, hbound, hranked⟩ := reached (.create start)
    refine ⟨hidle, hbound, hranked, ?_, ?_, ?_⟩
    · simp [Declared, TransactionEngine.create]
    · simp [registered_iff, TransactionEngine.create]
    · simp [places, TransactionEngine.create]
  | call run grows integral =>
  obtain ⟨hidle, hbound, hranked⟩ := reached (.call run grows)
  obtain ⟨hdeclared, hconsistent⟩ := integral.exec grows
  exact ⟨hidle, hbound, hranked, hdeclared, hconsistent⟩

end

end TransactionEngine

/-! ### Slot tables -/

namespace SlotConfig

variable {R : Type} (S : SlotConfig N K V) {w : SlotWorld N V R} {id : ℕ} {key : K}

theorem current_of_free (h : ∀ id, w.tables name id = .free) :
  S.current w name key = none
  := by
  rw [current, Option.bind_eq_none_iff]
  intro id _
  rw [h]
  exact ite_self _

theorem mem_liveIds :
  id ∈ S.liveIds w name ↔ S.ValidId name id ∧ (w.tables name id).current.isSome = true
  := by
  rw [liveIds, mem_filter, mem_range'_1, ValidId]
  constructor
  · rintro ⟨h, hlive⟩
    exact ⟨by omega, hlive⟩
  rintro ⟨h, hlive⟩
  exact ⟨by omega, hlive⟩

theorem decode_encode_of_mem (h : id ∈ S.liveIds w name) :
  S.decode name (S.encode name id) = some id
  := by
  have hvalid := (S.mem_liveIds.mp h).1
  exact S.decode_encode (Nat.one_le_iff_ne_zero.mpr hvalid.1) hvalid.2

theorem current_encode (h : id ∈ S.liveIds w name) :
  S.current w name (S.encode name id) = (w.tables name id).current
  := by
  rw [current, S.decode_encode_of_mem h, Option.bind_some, if_pos (S.mem_liveIds.mp h).1]

theorem liveIds_nodup (w : SlotWorld N V R) (name : N) :
  ((S.liveIds w name).map (S.encode name)).Nodup
  := by
  apply List.Nodup.map_on
  · intro id hid id' hid' h
    have hdecode := congrArg (S.decode name) h
    rw [S.decode_encode_of_mem hid, S.decode_encode_of_mem hid'] at hdecode
    exact Option.some.inj hdecode
  · exact List.Nodup.filter _ nodup_range'

variable [DecidableEq K] {r : Reservation N K (SlotOp N V)} {op : Op N K V}

theorem mem_keys :
  key ∈ (S.committed w).keys name ↔ (S.current w name key).isSome = true
  := by
  rw [committed, mem_toFinset, mem_map]
  constructor
  · rintro ⟨id, hid, rfl⟩
    rw [S.current_encode hid]
    exact (S.mem_liveIds.mp hid).2
  intro h
  obtain ⟨value, hvalue⟩ := Option.isSome_iff_exists.mp h
  obtain ⟨id, hid, hslot⟩ := Option.bind_eq_some_iff.mp hvalue
  rw [Option.ite_none_right_eq_some] at hslot
  refine ⟨id, S.mem_liveIds.mpr ⟨hslot.1, ?_⟩, S.encode_decode hid⟩
  rw [hslot.2]
  rfl

theorem references_perm (w : SlotWorld N V R) (name : N) :
  ((S.liveIds w name).flatMap fun id =>
      ((w.tables name id).current.map (S.references name)).getD []).Perm
    (((S.committed w).keys name).toList.flatMap ((S.committed w).references name))
  := by
  have hperm := (toFinset_toList (S.liveIds_nodup w name)).flatMap_right
    ((S.committed w).references name)
  apply List.Perm.trans _ hperm.symm
  rw [flatMap_map]
  apply List.Perm.of_eq
  apply flatMap_congr
  intro id hid
  change _ = S.referencesOf w name (S.encode name id)
  rw [referencesOf, S.current_encode hid]

/-- What a slot table says when it reserves an operation. -/
theorem existed_of_reserve (h : S.reserve w op = .ok r) :
  (r.existed = true ↔ op.key ∈ (S.committed w).keys op.resource)
    ∧ r.previousReferences = (S.committed w).references op.resource op.key
  := by
  rw [mem_keys]
  change _ ∧ r.previousReferences = S.referencesOf w op.resource op.key
  unfold reserve at h
  split at h
  case h_1 => simp at h
  case h_2 id hid =>
  split at h
  case isTrue => simp at h
  case isFalse hvalid =>
  rw [not_not] at hvalid
  have hcur : S.current w op.resource op.key = (w.tables op.resource id).current := by
    rw [current, hid, Option.bind_some, if_pos hvalid]
  rw [referencesOf, hcur]
  simp only at h
  split at h
  case h_1 =>
    split at h
    case isTrue => simp at h
    case isFalse hslot =>
    obtain rfl := Except.ok.inj h
    rw [Option.isNone_iff_eq_none, ← ne_eq, Option.ne_none_iff_isSome] at hslot
    exact ⟨by simp [hslot], rfl⟩
  case h_2 =>
  split at h
  case isTrue => simp at h
  case isFalse =>
  split at h
  case h_1 => simp at h
  case h_2 =>
  split at h
  case isTrue => simp at h
  case isFalse =>
  obtain rfl := Except.ok.inj h
  exact ⟨Iff.rfl, rfl⟩

variable [DecidableEq N]

/-- What the control side finds after a publication. -/
theorem current_publish (ready : S.Ready w (op, r)) (name : N) (key : K) :
  S.current (publish w r.staged).1 name key
    = if (name, key) = op.target then (written w r.staged).current else S.current w name key
  := by
  obtain ⟨id, hid, hvalid, htables⟩ := S.publish_tables ready
  by_cases htarget : (name, key) = op.target
  case pos =>
    obtain ⟨rfl, rfl⟩ := Prod.mk.inj htarget
    rw [if_pos htarget, current, hid, Option.bind_some, if_pos hvalid, htables, if_pos ⟨rfl, rfl⟩]
  case neg =>
  rw [if_neg htarget, current, current]
  rcases hid' : S.decode name key with _ | id'
  case none => rfl
  case some =>
  have hslot : ¬(name = op.resource ∧ id' = id) := by
    rintro ⟨rfl, rfl⟩
    apply htarget
    rw [Op.target, ← S.encode_decode hid, S.encode_decode hid']
  rw [Option.bind_some, Option.bind_some, htables, if_neg hslot]

/-- Slot tables say about references what they show, and have no key holders. -/
def referential (rcu : RcuDomain N R) : Referential (S.contract rcu) where
  keyHolder _ := none
  tidy {w rs} _ name key h := by
    change key ∉ (S.committed w).keys name at h
    rw [mem_keys, Option.not_isSome_iff_eq_none] at h
    change S.referencesOf w name key = []
    rw [referencesOf, h]
    rfl
  contains _ name key := S.mem_keys.symm
  visitReferences _ name := S.references_perm _ name
  liveCount {w} _ name h := by
    have hnil : S.liveIds w name = [] := length_eq_zero_iff.mp h
    change ((S.liveIds w name).map (S.encode name)).toFinset = ∅
    rw [hnil]
    rfl
  reserve _ _ h := by
    obtain ⟨rfl, hreserve⟩ := Prod.mk.inj h
    obtain ⟨hexisted, hprev⟩ := S.existed_of_reserve hreserve
    exact ⟨hexisted, fun _ => hprev⟩
  publish {w rs op r rest} holding perm := by
    have hready := holding.2 (op, r) (perm.mem_iff.mpr mem_cons_self)
    have hcur := S.current_publish hready
    change ((op.key ∈ (S.committed (publish w r.staged).1).keys op.resource ↔ _)
      ∧ (_ → S.referencesOf (publish w r.staged).1 op.resource op.key = _))
      ∧ ∀ name key, _ → (key ∈ (S.committed (publish w r.staged).1).keys name
          ↔ key ∈ (S.committed w).keys name)
        ∧ S.referencesOf (publish w r.staged).1 name key = S.referencesOf w name key
    simp only [mem_keys, referencesOf, hcur]
    constructor
    · simp only [Op.target, if_true]
      cases hready with
      | erase decoded valid kind staged slot =>
          simp [kind, staged, written, slot, Slot.current]
      | upsert decoded valid kind given staged references slot =>
          simp [kind, staged, written, Slot.current, references]
    · intro name key htarget
      rw [if_neg htarget]
      exact ⟨Iff.rfl, rfl⟩
  held _ _ _ := rfl
  reserve_held _ _ _ _ _ _ _ := rfl
  prepare_held _ _ _ _ := rfl
  settle_held _ _ _ _ := rfl
  handover _ _ _ h := absurd rfl h

end SlotConfig

namespace TransactionEngine

variable [DecidableEq N] [LinearOrder K] [ToString N] [ToString K]
  {D : Dataplane N K V Staged Fn W} {C : Contract D}

/-- However resources register and transactions are applied, the ledger counts the references that
live values hold, and every one of these is to a live key. -/
theorem referential_integrity (L : Referential C) {s : TransactionEngine N K Fn W}
    (run : Run D (fun w => C.Holding w []) (fun s c => c.Grows L s) s) :
  (∀ x : N × K, s.registered x.1 = true → s.count x.1 x.2
      = Tally.total (s.places (C.committed s.world)) (s.named (C.committed s.world)) x)
    ∧ ∀ p ∈ s.places (C.committed s.world),
        ∀ ref ∈ (C.committed s.world).references p.1 p.2, ∃ h,
          s.countsOn (C.committed s.world).held p.1 ref = some (h, ref.key)
            ∧ ref.key ∈ (C.committed s.world).keys h
  := by
  have hconsistent := run.integral.consistent
  exact ⟨hconsistent.count, hconsistent.live⟩

/-- A value and the key it names, put in place by one transaction that lists the value first. -/
theorem referential_integrity_upserted :
  ∃ s : TransactionEngine ℕ ℕ (SlotFn ℕ (List (Reference ℕ ℕ)))
      (SlotWorld ℕ (List (Reference ℕ ℕ)) ℕ),
    let c := SlotConfig.plain.committed s.world
    s.count 0 3 = 1 ∧ Tally.total (s.places c) (s.named c) (0, 3) = 1
  := by
  let D := SlotConfig.plain.dataplane RcuDomain.noReaders
  let s := (((create SlotWorld.empty).exec D (.register List.cons ⟨0, [], none, 0⟩)).exec D
    (.register List.cons ⟨1, [0], none, 1⟩)).exec D
    (.apply [.upsert 1 5 [⟨0, 3⟩], .upsert 0 3 []] none .referential none)
  let L := SlotConfig.plain.referential RcuDomain.noReaders
  have hrun : Run D (fun w => (SlotConfig.plain.contract RcuDomain.noReaders).Holding w [])
      (fun s c => c.Grows L s) s := by
    apply Run.call
    · apply Run.call
      · apply Run.call
        · apply Run.create
          exact ⟨nodup_nil, by simp⟩
        refine ⟨fun _ _ => List.Perm.refl _, rfl, ?_⟩
        intro _ key
        change SlotConfig.plain.referencesOf SlotWorld.empty 0 key = []
        rw [SlotConfig.referencesOf, SlotConfig.current_of_free _ (fun _ => rfl)]
        rfl
      · exact ⟨fun _ _ => List.Perm.refl _, rfl, by simp⟩
    · trivial
  have hcount : s.count 0 3 = 1 := by decide +kernel
  refine ⟨s, hcount, ?_⟩
  have hreg : s.registered 0 = true := by decide +kernel
  have htotal := (referential_integrity L hrun).1 (0, 3) hreg
  exact htotal.symm.trans hcount

end TransactionEngine

end Engine
