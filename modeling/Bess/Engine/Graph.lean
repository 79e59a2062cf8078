import Bess.Engine.Calls

/-!
# The graph of the references

Resources declare which others they may reference, and which holds their keys. What is declared
is bound to the resources that are registered, and the bound references are a graph, from which
ranks are derived. Here is how the parts of the calls act on this graph and on the ranks.
-/

namespace Engine

open List

open Relaxation (Cyclic)

variable {N K V Staged Fn W : Type}

namespace TransactionEngine

/-- A registration without what changes while the graph of the references does not. -/
def skeleton (r : Registration N K) : Registration N K :=
  { r with incoming := ∅, pendingRemovals := 0, touched := false, lastOp := 0 }

/-- The graph of the references, the ranks, and the flags about both. -/
def topology (s : TransactionEngine N K Fn W) : List (Registration N K) × Bool × Bool :=
  (s.resources.map skeleton, s.ranksDirty, s.referenceCycle)

variable {s s' : TransactionEngine N K Fn W} {g : Registration N K → Registration N K}

section

variable (h : s'.topology = s.topology)

include h

theorem skeletons_of_topology_eq :
  s'.resources.map skeleton = s.resources.map skeleton
  := congrArg Prod.fst h

theorem ranksDirty_of_topology_eq :
  s'.ranksDirty = s.ranksDirty
  := congrArg (fun p => p.2.1) h

theorem referenceCycle_of_topology_eq :
  s'.referenceCycle = s.referenceCycle
  := congrArg (fun p => p.2.2) h

end

theorem topology_of_bare_eq (h : s'.bare = s.bare) :
  s'.topology = s.topology
  := by
  have hcores := congrArg (List.map skeleton) (resources_of_bare_eq h)
  rw [map_map, map_map] at hcores
  have hdirty := congrArg (fun t : TransactionEngine N K Fn Unit => t.ranksDirty) h
  have hcycle := congrArg (fun t : TransactionEngine N K Fn Unit => t.referenceCycle) h
  exact Prod.ext hcores (Prod.ext hdirty hcycle)

/-- What keeps the references and key holders of registrations, bound or not. -/
structure KeepsLinks (g : Registration N K → Registration N K) : Prop where
  resource : ∀ r, (g r).resource = r.resource
  deps : ∀ r, (g r).deps = r.deps
  unresolved : ∀ r, (g r).unresolved = r.unresolved
  keyHolder : ∀ r, (g r).keyHolder = r.keyHolder

theorem keepsLinks_skeleton :
  KeepsLinks (skeleton : Registration N K → Registration N K)
  := ⟨fun _ => rfl, fun _ => rfl, fun _ => rfl, fun _ => rfl⟩

/-- A registration without its rank. -/
def withoutRank (r : Registration N K) : Registration N K :=
  { r with rank := 0 }

theorem keepsLinks_withoutRank :
  KeepsLinks (withoutRank : Registration N K → Registration N K)
  := ⟨fun _ => rfl, fun _ => rfl, fun _ => rfl, fun _ => rfl⟩

theorem KeepsLinks.name (keeps : KeepsLinks g) (r : Registration N K) :
  (g r).name = r.name
  := congrArg Resource.name (keeps.resource r)

theorem KeepsLinks.names (keeps : KeepsLinks g) (h : s'.resources.map g = s.resources.map g) :
  s'.resources.map Registration.name = s.resources.map Registration.name
  := by
  have hmap := congrArg (List.map Registration.name) h
  simpa only [map_map, Function.comp_def, keeps.name] using hmap

section

variable [DecidableEq N] {r : Registration N K} {g : Registration N K → Registration N K}
  (D : Dataplane N K V Staged Fn W) {name : N}

theorem registered_iff :
  s.registered name = true ↔ name ∈ s.resources.map Registration.name
  := by
  simp [registered, find]

section

variable (keeps : KeepsLinks g) (h : s'.resources.map g = s.resources.map g)

include keeps h

theorem KeepsLinks.registered :
  s'.registered = s.registered
  := by
  funext name
  rw [Bool.eq_iff_iff, registered_iff, registered_iff, keeps.names h]

theorem KeepsLinks.below :
  s'.below = s.below
  := by
  have hdeps : ∀ name, (s'.find name).map Registration.deps
      = (s.find name).map Registration.deps := fun name =>
    find_map_of_map_eq h keeps.name name Registration.deps keeps.deps
  have hholder : ∀ name, (s'.find name).bind Registration.keyHolder
      = (s.find name).bind Registration.keyHolder := fun name =>
    find_bind_of_map_eq h keeps.name name Registration.keyHolder keeps.keyHolder
  funext name
  simp only [TransactionEngine.below, hdeps, hholder]

end

theorem rank_of_skeletons_eq (h : s'.resources.map skeleton = s.resources.map skeleton) :
  s'.rank = s.rank
  := by
  funext name
  unfold rank
  rw [find_map_of_map_eq h (fun _ => rfl) name Registration.rank (fun _ => rfl)]

theorem find_eq_some_iff (nodup : (s.resources.map Registration.name).Nodup) :
  s.find name = some r ↔ r ∈ s.resources ∧ r.name = name
  := by
  constructor
  · intro h
    have hname := find?_some h
    exact ⟨mem_of_find?_eq_some h, by simpa using hname⟩
  rintro ⟨hr, rfl⟩
  rcases h : s.find r.name with _ | r'
  case none =>
    rw [find, find?_eq_none] at h
    exact absurd (h r hr) (by simp)
  case some =>
  have hname : r'.name = r.name := by simpa using find?_some h
  rw [inj_on_of_nodup_map nodup (mem_of_find?_eq_some h) hr hname]

/-! ### What is bound is registered -/

/-- Names are unique, references and key holders are bound to registered resources, and only
those that are not registered are left unbound. -/
structure Bound (s : TransactionEngine N K Fn W) : Prop where
  nodup : (s.resources.map Registration.name).Nodup
  deps : ∀ r ∈ s.resources, ∀ name ∈ r.deps, s.registered name = true
  unresolved : ∀ r ∈ s.resources, ∀ name ∈ r.unresolved, s.registered name = false
  keyHolder : ∀ r ∈ s.resources, r.keyHolder = r.resource.keyHolder.filter s.registered

theorem Bound.of_map_eq (keeps : KeepsLinks g) (h : s'.resources.map g = s.resources.map g)
    (bound : s.Bound) :
  s'.Bound
  := by
  have hreg := keeps.registered h
  constructor
  case nodup =>
    rw [keeps.names h]
    exact bound.nodup
  case deps =>
    rw [hreg]
    refine forall_of_map_eq h ?_ bound.deps
    intro r r' heq hr
    rwa [← keeps.deps r', heq, keeps.deps]
  case unresolved =>
    rw [hreg]
    refine forall_of_map_eq h ?_ bound.unresolved
    intro r r' heq hr
    rwa [← keeps.unresolved r', heq, keeps.unresolved]
  case keyHolder =>
  rw [hreg]
  refine forall_of_map_eq h ?_ bound.keyHolder
  intro r r' heq hr
  rwa [← keeps.keyHolder r', ← keeps.resource r', heq, keeps.keyHolder, keeps.resource]

/-- The graph of the references is one on the registered resources. -/
theorem Bound.below_registered (bound : s.Bound) {v u : N} (h : u ∈ s.below v) :
  v ∈ s.resources.map Registration.name ∧ u ∈ s.resources.map Registration.name
  := by
  obtain ⟨dep, hdep, hu⟩ := mem_flatMap.mp h
  rcases hv : s.find v with _ | r
  case none => simp [hv] at hdep
  case some =>
  obtain ⟨hr, rfl⟩ := (find_eq_some_iff bound.nodup).mp hv
  rw [hv] at hdep
  refine ⟨mem_map_of_mem hr, ?_⟩
  rw [← registered_iff]
  rw [mem_cons] at hu
  obtain rfl | hu := hu
  case inl => exact bound.deps r hr _ hdep
  case inr =>
  rw [Option.mem_toList, Option.bind_eq_some_iff] at hu
  obtain ⟨r', hr', hholder⟩ := hu
  rw [bound.keyHolder r' ((find_eq_some_iff bound.nodup).mp hr').1,
    Option.filter_eq_some_iff] at hholder
  exact hholder.2

/-! ### Deriving ranks -/

/-- Ranks that are up to date descend along references. -/
def Ranked (s : TransactionEngine N K Fn W) : Prop :=
  s.ranksDirty = false → s.referenceCycle = false → ∀ v, ∀ u ∈ s.below v, s.rank u < s.rank v

/-- A cycle that is reported, and not to be looked for again, is there. -/
def CycleKnown (s : TransactionEngine N K Fn W) : Prop :=
  s.ranksDirty = false → s.referenceCycle = true → Cyclic s.below

section

variable (h : s'.topology = s.topology)

include h

theorem Bound.of_topology_eq (bound : s.Bound) :
  s'.Bound
  := bound.of_map_eq keepsLinks_skeleton (skeletons_of_topology_eq h)

theorem Ranked.of_topology_eq (ranked : s.Ranked) :
  s'.Ranked
  := by
  have hskel := skeletons_of_topology_eq h
  unfold Ranked
  rw [ranksDirty_of_topology_eq h, referenceCycle_of_topology_eq h,
    keepsLinks_skeleton.below hskel, rank_of_skeletons_eq hskel]
  exact ranked

theorem CycleKnown.of_topology_eq (known : s.CycleKnown) :
  s'.CycleKnown
  := by
  unfold CycleKnown
  rw [ranksDirty_of_topology_eq h, referenceCycle_of_topology_eq h,
    keepsLinks_skeleton.below (skeletons_of_topology_eq h)]
  exact known

end

theorem recomputeRanks_withoutRank (s : TransactionEngine N K Fn W) :
  s.recomputeRanks.resources.map withoutRank = s.resources.map withoutRank
  := by
  unfold recomputeRanks
  split
  case isFalse => rfl
  case isTrue =>
  rw [map_map]
  rfl

theorem Bound.recomputeRanks (bound : s.Bound) :
  s.recomputeRanks.Bound
  := bound.of_map_eq keepsLinks_withoutRank (recomputeRanks_withoutRank s)

section

variable (s : TransactionEngine N K Fn W)

theorem below_recomputeRanks :
  s.recomputeRanks.below = s.below
  := keepsLinks_withoutRank.below (recomputeRanks_withoutRank s)

theorem recomputeRanks_ranksDirty :
  s.recomputeRanks.ranksDirty = false
  := by
  unfold recomputeRanks
  split
  case isFalse h => simpa using h
  case isTrue => rfl

/-- What the relaxation settles on, and whether it did not settle. -/
def settled : (N → ℕ) × Bool :=
  Relaxation.settle s.below (s.resources.map Registration.name) s.resources.length (fun _ => 0)

end

theorem Bound.settled_iff (bound : s.Bound) :
  s.settled.2 = true ↔ Cyclic s.below
  := by
  have hsettle := Relaxation.settle_changes_iff bound.nodup
    (fun v u hu => bound.below_registered hu)
  rwa [length_map] at hsettle

theorem rank_recomputeRanks (dirty : s.ranksDirty = true)
    (h : name ∈ s.resources.map Registration.name) :
  s.recomputeRanks.rank name = s.settled.1 name
  := by
  rw [← registered_iff, registered, Option.isSome_iff_exists] at h
  obtain ⟨r, hr⟩ := h
  have hname : r.name = name := by simpa using find?_some hr
  rw [find] at hr
  simp only [TransactionEngine.recomputeRanks, dirty, if_true, rank, find, find?_map,
    Function.comp_def, hr, Option.map_some]
  rw [hname]
  rfl

theorem referenceCycle_recomputeRanks (dirty : s.ranksDirty = true) :
  s.recomputeRanks.referenceCycle = s.settled.2
  := by
  simp only [TransactionEngine.recomputeRanks, dirty]
  rfl

theorem Ranked.recomputeRanks (bound : s.Bound) (ranked : s.Ranked) :
  s.recomputeRanks.Ranked
  := by
  rcases hdirty : s.ranksDirty with _ | _
  case false =>
    simpa [TransactionEngine.recomputeRanks, hdirty] using ranked
  case true =>
  intro _ hcycle v u hu
  rw [referenceCycle_recomputeRanks hdirty] at hcycle
  rw [below_recomputeRanks] at hu
  obtain ⟨hv, hu'⟩ := bound.below_registered hu
  rw [rank_recomputeRanks hdirty hu', rank_recomputeRanks hdirty hv]
  exact Relaxation.settle_of_unchanged hcycle v hv u hu

theorem CycleKnown.recomputeRanks (bound : s.Bound) (known : s.CycleKnown) :
  s.recomputeRanks.CycleKnown
  := by
  rcases hdirty : s.ranksDirty with _ | _
  case false =>
    simpa [TransactionEngine.recomputeRanks, hdirty] using known
  case true =>
  intro _ hcycle
  rw [below_recomputeRanks, ← bound.settled_iff, ← referenceCycle_recomputeRanks hdirty]
  exact hcycle

/-! ### Calls that leave the graph alone -/

section

variable (s : TransactionEngine N K Fn W)

theorem topology_modify (name : N) {f : Registration N K → Registration N K}
    (hf : ∀ r, skeleton (f r) = skeleton r) :
  (s.modify name f).topology = s.topology
  := by
  unfold topology
  rw [map_modify s name hf]
  rfl

theorem topology_reclaimRetired :
  (s.reclaimRetired D).topology = s.topology
  := by
  have hregistry := reclaimRetired_registry D s
  have hskel := congrArg (fun p => p.1.map skeleton) hregistry
  simp only [registry, map_map] at hskel
  have hflags := congrArg (fun p => p.2.2) hregistry
  exact Prod.ext hskel hflags

theorem begin_below :
  (s.begin D).below = s.below
  := by
  rw [begin, below_recomputeRanks]
  exact keepsLinks_skeleton.below (skeletons_of_topology_eq (topology_reclaimRetired D s))

end

/-- Ranks are up to date when the checks of a transaction begin. -/
theorem begin_ranked (bound : s.Bound) (ranked : s.Ranked) :
  (s.begin D).Bound ∧ (s.begin D).Ranked
  := by
  have htopo := topology_reclaimRetired D s
  have hbound := bound.of_topology_eq htopo
  exact ⟨hbound.recomputeRanks, (ranked.of_topology_eq htopo).recomputeRanks hbound⟩

section

variable [DecidableEq K] (s : TransactionEngine N K Fn W)

theorem topology_dropEmpty (d : Delta N K) :
  (s.dropEmpty d).topology = s.topology
  := by
  unfold dropEmpty
  split
  case isFalse => rfl
  case isTrue =>
  apply topology_modify
  intro r
  split <;> rfl

theorem topology_abort (t : Scratch N K V Staged) :
  (abort D s t).topology = s.topology
  := by
  unfold abort
  rw [foldl_unchanged topology topology_dropEmpty, topology_of_bare_eq (endTransactions_bare D _ _)]
  rfl

theorem topology_makeEntry (d : Delta N K) :
  (s.makeEntry d).topology = s.topology
  := by
  unfold makeEntry
  split
  case isFalse => rfl
  case isTrue =>
  apply topology_modify
  intro r
  unfold withEntry
  split <;> rfl

theorem topology_applyDelta (d : Delta N K) :
  (s.applyDelta d).topology = s.topology
  := by
  apply topology_modify
  intro r
  unfold withChange
  split
  case h_1 => rfl
  case h_2 =>
  simp only
  split <;> rfl

theorem topology_publishStaged (t : Scratch N K V Staged) :
  (publishStaged D s t).1.topology = s.topology
  := by
  change topology (List.foldl removalPending _ _) = _
  rw [foldl_unchanged topology]
  · rw [foldl_unchanged topology topology_applyDelta]
    change (t.deltas.foldl makeEntry s).topology = _
    rw [foldl_unchanged topology topology_makeEntry]
  intro s r
  exact topology_modify s r.owner (fun _ => rfl)

theorem topology_commit (ops : List (Op N K V)) (t : Scratch N K V Staged) :
  (commit D s ops t).1.topology = s.topology
  := by
  have hreclaim : ∀ (s : TransactionEngine N K Fn W) retirer stages,
      (startReclaim D s retirer stages).topology = s.topology := by
    intro s retirer stages
    unfold startReclaim
    split <;> rfl
  have hpub := topology_publishStaged D s t
  rcases h : publishStaged D s t with ⟨s₁, retirer⟩
  rw [h] at hpub
  simp only [commit, h]
  apply (hreclaim _ _ _).trans
  rw [topology_of_bare_eq (endTransactions_bare D _ _)]
  exact hpub

end

section

variable [LinearOrder K] [ToString N] [ToString K]

theorem topology_transact {ops : List (Op N K V)} (known : ∀ op ∈ ops, (s.find op.resource).isSome) :
  (transact D s ops).1.topology = s.topology
  := by
  have order_known := reserveOrder_known known
  unfold transact
  simp only
  rcases hreserve : reserveAll D ops.length (s.reserveOrder ops) s
    ⟨[], [], [], {}, List.replicate ops.length 0⟩ with ⟨s₁, t, o⟩
  have hs₁ := topology_of_bare_eq (reserveAll_cases D _ order_known hreserve).1
  cases o with
  | some refusal => exact (topology_abort D s₁ t).trans hs₁
  | none =>
  simp only
  split
  case h_1 => exact (topology_abort D s₁ t).trans hs₁
  case h_2 =>
  split
  case h_1 => exact (topology_abort D s₁ _).trans hs₁
  case h_2 =>
  rcases hprepare : prepareAll D ops.length t.touched s₁ with ⟨s₂, o⟩
  obtain ⟨⟨names, rfl⟩, -⟩ := prepareAll_cases D _ hprepare
  cases o with
  | some refusal => exact (topology_abort D _ _).trans hs₁
  | none => exact (topology_commit D _ ops _).trans hs₁

theorem topology_applyImpl (s : TransactionEngine N K Fn W)
    (ops : List (Op N K V)) (expectedGeneration : Option (BitVec 64))
    (consistency : Consistency) (owned : Option (List ℕ)) :
  (applyImpl D s ops expectedGeneration consistency owned).1.topology = (s.begin D).topology
  := by
  rcases h : applyImpl D s ops expectedGeneration consistency owned with ⟨s', r⟩
  obtain ⟨-, rfl⟩ | ⟨-, hknown, -, htransact⟩ := applyImpl_cases D h
  case inl => rfl
  case inr =>
    rw [← topology_transact D (fun op hop => (hknown op hop).1), htransact]

end

/-! ### Calls that change the graph -/

theorem Bound.rebuildIncoming [DecidableEq K] (bound : s.Bound) (D : Dataplane N K V Staged Fn W) :
  (s.rebuildIncoming D).Bound
  := by
  have hskel := congrArg (List.map skeleton) (rebuildIncoming_withoutLedger D s)
  rw [map_map, map_map] at hskel
  exact bound.of_map_eq keepsLinks_skeleton hskel

theorem Bound.dirty (bound : s.Bound) :
  s.dirty.Bound
  := { bound with }

theorem ranked_dirty (s : TransactionEngine N K Fn W) :
  s.dirty.Ranked
  := by
  intro hdirty
  exact absurd hdirty (by simp [dirty])

theorem cycleKnown_dirty (s : TransactionEngine N K Fn W) :
  s.dirty.CycleKnown
  := by
  intro hdirty
  exact absurd hdirty (by simp [dirty])

/-- A new registration is bound to the others, and the others to it. -/
theorem Bound.emplaced {s₁ : TransactionEngine N K Fn W} (bound : s.Bound) {resource : Resource N}
    (fresh : s.registered resource.name = false)
    (perm : s₁.resources.Perm (s.newRegistration resource :: s.resources)) :
  (s₁.setResources (s₁.resources.map s₁.rebindDependencies)).Bound
  := by
  set s₂ := s₁.setResources (s₁.resources.map s₁.rebindDependencies)
  have hnames : s₂.resources.map Registration.name = s₁.resources.map Registration.name := by
    simp only [s₂, setResources_resources, map_map]
    rfl
  have hreg₂ : s₂.registered = s₁.registered := by
    funext name
    rw [Bool.eq_iff_iff, registered_iff, registered_iff, hnames]
  have hreg : ∀ name, s.registered name = true → s₁.registered name = true := by
    intro name h
    rw [registered_iff] at h ⊢
    rw [(perm.map Registration.name).mem_iff]
    exact mem_cons_of_mem _ h
  have hcases : ∀ {P : Registration N K → Prop}, P (s.newRegistration resource) →
      (∀ r ∈ s.resources, P r) → ∀ r ∈ s₁.resources, P r := by
    intro P hnew hold r hr
    rw [perm.mem_iff, mem_cons] at hr
    obtain rfl | hr := hr
    case inl => exact hnew
    case inr => exact hold r hr
  constructor
  case nodup =>
    rw [hnames, (perm.map Registration.name).nodup_iff, map_cons, nodup_cons]
    exact ⟨fun h => Bool.noConfusion (fresh.symm.trans (registered_iff.mpr h)), bound.nodup⟩
  case deps =>
    rw [hreg₂]
    have hdeps : ∀ r ∈ s₁.resources, ∀ name ∈ r.deps, s₁.registered name = true := by
      apply hcases
      · intro name hname
        exact hreg name (of_mem_filter hname)
      intro r hr name hname
      exact hreg name (bound.deps r hr name hname)
    intro r hr name hname
    obtain ⟨r₀, hr₀, rfl⟩ := mem_map.mp hr
    simp only [rebindDependencies, mem_append, mem_filter] at hname
    obtain hname | ⟨-, hname⟩ := hname
    case inl => exact hdeps r₀ hr₀ name hname
    case inr => exact hname
  case unresolved =>
    rw [hreg₂]
    intro r hr name hname
    obtain ⟨r₀, -, rfl⟩ := mem_map.mp hr
    simpa [rebindDependencies] using (mem_filter.mp hname).2
  case keyHolder =>
  rw [hreg₂]
  have hholder : ∀ r ∈ s₁.resources,
      r.keyHolder = none ∨ r.keyHolder = r.resource.keyHolder.filter s.registered := by
    apply hcases
    · exact .inl rfl
    intro r hr
    exact .inr (bound.keyHolder r hr)
  intro r hr
  obtain ⟨r₀, hr₀, rfl⟩ := mem_map.mp hr
  simp only [rebindDependencies]
  split
  case isTrue => rfl
  case isFalse hsome =>
  have hbound := (hholder r₀ hr₀).resolve_left hsome
  obtain ⟨h, hh⟩ := Option.ne_none_iff_exists'.mp hsome
  rw [hh, eq_comm, Option.filter_eq_some_iff] at hbound
  rw [hh, eq_comm, Option.filter_eq_some_iff]
  exact ⟨hbound.1, hreg _ hbound.2⟩

/-- The engine when the registrations of a group are taken out. -/
def without (s : TransactionEngine N K Fn W) (group : List N) : TransactionEngine N K Fn W :=
  s.setResources (s.resources.filter (fun r => r.name ∉ group))

theorem mem_without {group : List N} :
  r ∈ (s.without group).resources ↔ r ∈ s.resources ∧ r.name ∉ group
  := by
  simp [without]

/-- Nothing that stays declares a resource of the group. -/
def Undeclared (s : TransactionEngine N K Fn W) (group : List N) : Prop :=
  ∀ r ∈ s.resources, r.name ∉ group → ∀ name ∈ group, declares r name = false

theorem find_without {group : List N} (h : name ∉ group) :
  (s.without group).find name = s.find name
  := by
  rw [find, without, setResources_resources, find?_filter]
  congr 1
  funext r
  by_cases hname : r.name = name <;> simp [hname, h]

theorem registered_without (s : TransactionEngine N K Fn W) (group : List N) (name : N) :
  (s.without group).registered name = (decide (name ∉ group) && s.registered name)
  := by
  rw [Bool.eq_iff_iff, Bool.and_eq_true, registered_iff, registered_iff, decide_eq_true_eq]
  simp only [mem_map, mem_without]
  constructor
  · rintro ⟨r, ⟨hr, hgroup⟩, rfl⟩
    exact ⟨hgroup, r, hr, rfl⟩
  rintro ⟨hgroup, r, hr, rfl⟩
  exact ⟨r, ⟨hr, hgroup⟩, rfl⟩

theorem declares_eq_false_iff :
  declares r name = false
    ↔ r.resource.keyHolder ≠ some name ∧ name ∉ r.deps ∧ name ∉ r.unresolved
  := by
  simp [declares]

theorem Bound.without (bound : s.Bound) {group : List N} (undeclared : s.Undeclared group) :
  (s.without group).Bound
  := by
  constructor
  case nodup => exact bound.nodup.sublist (filter_sublist.map _)
  case deps =>
    intro r hr name hname
    rw [mem_without] at hr
    rw [registered_without, Bool.and_eq_true, decide_eq_true_eq]
    refine ⟨?_, bound.deps r hr.1 name hname⟩
    intro hgroup
    exact (declares_eq_false_iff.mp (undeclared r hr.1 hr.2 name hgroup)).2.1 hname
  case unresolved =>
    intro r hr name hname
    rw [registered_without, bound.unresolved r (mem_without.mp hr).1 name hname, Bool.and_false]
  case keyHolder =>
  intro r hr
  rw [mem_without] at hr
  rw [bound.keyHolder r hr.1]
  rcases hh : r.resource.keyHolder with _ | h
  case none => rfl
  case some =>
  have hgroup : h ∉ group := by
    intro hgroup
    exact (declares_eq_false_iff.mp (undeclared r hr.1 hr.2 h hgroup)).1 hh
  simp [Option.filter, registered_without, hgroup]

theorem Bound.below_without (bound : s.Bound) {group : List N} (undeclared : s.Undeclared group)
    (h : name ∉ group) :
  (s.without group).below name = s.below name
  := by
  unfold below
  rw [find_without h]
  rcases hfind : s.find name with _ | r
  case none => simp
  case some =>
  obtain ⟨hr, rfl⟩ := (find_eq_some_iff bound.nodup).mp hfind
  apply flatMap_congr
  intro dep hdep
  rw [find_without]
  intro hgroup
  exact (declares_eq_false_iff.mp (undeclared r hr h dep hgroup)).2.1 hdep

theorem Ranked.without (ranked : s.Ranked) (bound : s.Bound) {group : List N}
    (undeclared : s.Undeclared group) :
  (s.without group).Ranked
  := by
  intro hdirty hcycle v u hu
  obtain ⟨hv', hu'⟩ := (bound.without undeclared).below_registered hu
  have hrank : ∀ name ∈ (s.without group).resources.map Registration.name,
      (s.without group).rank name = s.rank name := by
    intro name hname
    obtain ⟨r, hr, rfl⟩ := mem_map.mp hname
    rw [rank, rank, find_without (mem_without.mp hr).2]
  rw [hrank u hu', hrank v hv']
  apply ranked hdirty hcycle
  obtain ⟨r, hr, rfl⟩ := mem_map.mp hv'
  rwa [bound.below_without undeclared (mem_without.mp hr).2] at hu

/-- What the declarations of a group leave behind when all of them are unbound. -/
theorem foldl_unbind (group : List N) (r : Registration N K) :
  (group.foldl (fun r name => unbind name r) r).resource = r.resource
    ∧ (∀ name, name ∈ (group.foldl (fun r name => unbind name r) r).deps
        ↔ name ∈ r.deps ∧ name ∉ group)
    ∧ (∀ name ∈ (group.foldl (fun r name => unbind name r) r).unresolved,
        name ∈ r.unresolved ∨ name ∈ group)
    ∧ (group.foldl (fun r name => unbind name r) r).keyHolder
        = r.keyHolder.filter (fun name => name ∉ group)
  := by
  induction group generalizing r with
  | nil =>
    rcases hr : r.keyHolder <;> simp [hr, Option.filter]
  | cons n group ih =>
  obtain ⟨hres, hdeps, hunresolved, hholder⟩ := ih (unbind n r)
  rw [foldl_cons]
  refine ⟨hres, ?_, ?_, ?_⟩
  · intro name
    rw [hdeps]
    simp only [unbind, mem_filter, decide_eq_true_eq, mem_cons]
    tauto
  · intro name hname
    obtain h | h := hunresolved name hname
    case inr => exact .inr (mem_cons_of_mem _ h)
    case inl =>
    simp only [unbind] at h
    split at h
    case isFalse => exact .inl h
    case isTrue =>
    rw [mem_append, mem_singleton] at h
    obtain h | rfl := h
    case inl => exact .inl h
    case inr => exact .inr mem_cons_self
  rw [hholder]
  rcases hr : r.keyHolder with _ | h
  case none => simp [unbind, hr]
  case some =>
  by_cases hn : h = n
  case pos | neg => simp [unbind, hr, hn, Option.filter]

theorem Bound.unbound (bound : s.Bound) (group : List N) :
  ((s.without group).setResources ((s.without group).resources.map
    (fun r => group.foldl (fun r name => unbind name r) r))).Bound
  := by
  set s' := (s.without group).setResources ((s.without group).resources.map
    (fun r => group.foldl (fun r name => unbind name r) r))
  have hnames : s'.resources.map Registration.name
      = (s.without group).resources.map Registration.name := by
    simp only [s', setResources_resources, map_map]
    apply map_congr_left
    intro r _
    exact congrArg Resource.name (foldl_unbind group r).1
  have hreg : s'.registered = (s.without group).registered := by
    funext name
    rw [Bool.eq_iff_iff, registered_iff, registered_iff, hnames]
  constructor
  case nodup =>
    rw [hnames]
    exact bound.nodup.sublist (filter_sublist.map _)
  case deps =>
    rw [hreg]
    intro r hr name hname
    obtain ⟨r₀, hr₀, rfl⟩ := mem_map.mp hr
    obtain ⟨hdep, hgroup⟩ := ((foldl_unbind group r₀).2.1 name).mp hname
    simp [registered_without, hgroup, bound.deps r₀ (mem_without.mp hr₀).1 name hdep]
  case unresolved =>
    rw [hreg]
    intro r hr name hname
    obtain ⟨r₀, hr₀, rfl⟩ := mem_map.mp hr
    rw [registered_without]
    obtain h | h := (foldl_unbind group r₀).2.2.1 name hname
    case inl => rw [bound.unresolved r₀ (mem_without.mp hr₀).1 name h, Bool.and_false]
    case inr => simp [h]
  case keyHolder =>
  rw [hreg]
  intro r hr
  obtain ⟨r₀, hr₀, rfl⟩ := mem_map.mp hr
  obtain ⟨hres, -, -, hholder⟩ := foldl_unbind group r₀
  rw [hres, hholder, bound.keyHolder r₀ (mem_without.mp hr₀).1, Option.filter_filter]
  congr 1
  funext name
  rw [registered_without, Bool.and_comm]

theorem mem_group {names : List N} :
  name ∈ group names ↔ name ∈ names
  := by
  have hfold : ∀ (names acc : List N), name ∈ names.foldl
      (fun group name => if name ∈ group then group else group ++ [name]) acc
        ↔ name ∈ acc ∨ name ∈ names := by
    intro names
    induction names with
    | nil => simp
    | cons n names ih =>
    intro acc
    rw [foldl_cons, ih, mem_cons]
    split
    case isFalse =>
      rw [mem_append, mem_singleton]
      tauto
    case isTrue hn =>
    constructor
    · tauto
    rintro (h | rfl | h)
    · exact .inl h
    · exact .inl hn
    · exact .inr h
  rw [group, hfold]
  simp

end

end TransactionEngine

end Engine
