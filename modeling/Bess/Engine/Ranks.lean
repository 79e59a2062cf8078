import Bess.Engine.Graph
import Bess.Engine.SlotResource

/-!
# Ranks and reference cycles

Ranks order publication, and are derived from the graph of the bound references behind a flag
that says whether the graph has changed. Every call keeps what is bound to resources that are
registered, and ranks that are up to date put each resource above all that it may reference.

The flag for a cycle is up to date as well, unless `unregister` takes out the last cycle: it
does not mark the ranks as dirty, and transactions are refused for a cycle that is gone.
-/

namespace Engine

open Relaxation (Cyclic)

variable {N K V Staged Fn W : Type}

namespace TransactionEngine

section

variable [DecidableEq N]

/-! ### What a call does to the graph -/

/-- What a call can do to the graph and the ranks: leave both alone, derive the ranks anew, bind
a new resource, take a group out that nothing else declares, or unbind a group. -/
inductive GraphStep (s : TransactionEngine N K Fn W) :
    Call N K V W → TransactionEngine N K Fn W → Prop where
  | same {c : Call N K V W} {s' : TransactionEngine N K Fn W}
      (topology : s'.topology = s.topology) : GraphStep s c s'
  | derived {c : Call N K V W} {t s' : TransactionEngine N K Fn W}
      (before : t.topology = s.topology) (topology : s'.topology = t.recomputeRanks.topology) :
      GraphStep s c s'
  | bind {c : Call N K V W} {t : TransactionEngine N K Fn W} (bound : s.Bound → t.Bound) :
      GraphStep s c t.dirty.recomputeRanks
  | leave {names : List N} {t : TransactionEngine N K Fn W}
      (before : t.topology = s.topology) (undeclared : t.Undeclared names) :
      GraphStep s (.unregister names) (t.without names)
  | unbind {c : Call N K V W} {t : TransactionEngine N K Fn W} (bound : s.Bound → t.Bound) :
      GraphStep s c t.dirty

/-- `unregister` does not take out the last cycle while the ranks count as up to date. -/
def Call.KeepsCycle [ToString N] (D : Dataplane N K V Staged Fn W) (s : TransactionEngine N K Fn W) :
    Call N K V W → Prop
  | .unregister names =>
      s.ranksDirty = false → Cyclic s.below → Cyclic (s.unregister D names).1.below
  | _ => True

variable {c : Call N K V W} {s s' : TransactionEngine N K Fn W} {D : Dataplane N K V Staged Fn W}

theorem GraphStep.bound (step : GraphStep s c s') (bound : s.Bound) :
  s'.Bound
  := by
  cases step with
  | same topology =>
    exact bound.of_topology_eq topology
  | derived before topology =>
    have ht := bound.of_topology_eq before
    exact ht.recomputeRanks.of_topology_eq topology
  | bind h => exact (h bound).dirty.recomputeRanks
  | leave before undeclared =>
    have ht := bound.of_topology_eq before
    exact ht.without undeclared
  | unbind h => exact (h bound).dirty

theorem GraphStep.ranked (step : GraphStep s c s') (bound : s.Bound) (ranked : s.Ranked) :
  s'.Ranked
  := by
  cases step with
  | same topology => exact ranked.of_topology_eq topology
  | derived before topology =>
    have ht := bound.of_topology_eq before
    exact ((ranked.of_topology_eq before).recomputeRanks ht).of_topology_eq topology
  | bind h => exact (ranked_dirty _).recomputeRanks (h bound).dirty
  | leave before undeclared =>
    have ht := bound.of_topology_eq before
    exact (ranked.of_topology_eq before).without ht undeclared
  | unbind => apply ranked_dirty

theorem GraphStep.cycleKnown (step : GraphStep s c s') (bound : s.Bound) (known : s.CycleKnown)
    (keeps : ∀ names, c = .unregister names → s.ranksDirty = false → Cyclic s.below → Cyclic s'.below) :
  s'.CycleKnown
  := by
  cases step with
  | same topology => exact known.of_topology_eq topology
  | derived before topology =>
    have ht := bound.of_topology_eq before
    exact ((known.of_topology_eq before).recomputeRanks ht).of_topology_eq topology
  | bind h => exact (cycleKnown_dirty _).recomputeRanks (h bound).dirty
  | leave before =>
    intro hdirty hcycle
    have hdirty' := (ranksDirty_of_topology_eq before).symm.trans hdirty
    have hcycle' := (referenceCycle_of_topology_eq before).symm.trans hcycle
    exact keeps _ rfl hdirty' (known hdirty' hcycle')
  | unbind => apply cycleKnown_dirty

theorem undeclared_of_stillNeeded [ToString N] {group : List N}
    (h : group.findSome? (s.stillNeeded D group) = none) :
  s.Undeclared group
  := by
  intro r hr hgroup name hname
  rw [List.findSome?_eq_none_iff] at h
  have hneeded := h name hname
  unfold stillNeeded at hneeded
  simp only at hneeded
  split at hneeded
  case h_1 => simp at hneeded
  case h_2 hnone =>
  rw [List.find?_eq_none] at hnone
  by_contra hdeclares
  rw [Bool.not_eq_false] at hdeclares
  exact hnone r (List.mem_filter.mpr ⟨hr, hdeclares⟩) (by simpa using hgroup)

theorem unregister_graph [ToString N] (D : Dataplane N K V Staged Fn W) (s : TransactionEngine N K Fn W)
    (names : List N) :
  GraphStep s (.unregister names : Call N K V W) (s.unregister D names).1
  := by
  unfold unregister
  split
  case h_1 => exact .same rfl
  case h_2 =>
  split
  case h_1 => exact .same rfl
  case h_2 hneeded =>
  have hreclaim := topology_reclaimRetired D s
  simp only
  split
  case h_1 => exact .same hreclaim
  case h_2 =>
  set t := (s.reclaimRetired D).setWorld (D.reclaimReady (s.reclaimRetired D).world)
  have ht : t.topology = s.topology := hreclaim
  have hskel := skeletons_of_topology_eq ht
  have hwithout : t.setResources (t.resources.filter (fun r => r.name ∉ group names))
      = t.without names := by
    simp only [without, mem_group]
  rw [hwithout]
  refine .leave ht ?_
  have hundeclared : t.Undeclared (group names) := by
    refine forall_of_map_eq hskel ?_ (undeclared_of_stillNeeded hneeded)
    intro r r' heq hr
    have hdeclares : declares r' = declares r := by
      have := congrArg declares heq
      exact this
    rw [hdeclares, ← keepsLinks_skeleton.name r', heq]
    exact hr
  simpa only [Undeclared, mem_group] using hundeclared

section

variable [DecidableEq K] [ToString N]

theorem register_graph {emplace : Registration N K → List (Registration N K) → List (Registration N K)}
    (hemplace : ∀ r l, (emplace r l).Perm (r :: l)) (s : TransactionEngine N K Fn W)
    (resource : Resource N) :
  GraphStep s (.register emplace resource : Call N K V W) (s.register D emplace resource).1
  := by
  unfold register
  split
  case isTrue => exact .same rfl
  case isFalse fresh =>
  split
  case isTrue => exact .same rfl
  case isFalse =>
  split
  case isTrue => exact .same rfl
  case isFalse =>
  apply GraphStep.bind
  intro bound
  apply Bound.rebuildIncoming
  apply bound.emplaced (by simpa using fresh)
  exact hemplace _ _

theorem releaseForTeardown_graph (D : Dataplane N K V Staged Fn W)
    (s : TransactionEngine N K Fn W) (names : List N) :
  GraphStep s (.releaseForTeardown names : Call N K V W) (s.releaseForTeardown D names).1
  := by
  have hreclaim := topology_reclaimRetired D s
  unfold releaseForTeardown
  simp only
  split
  case h_1 => exact .same hreclaim
  case h_2 =>
  apply GraphStep.unbind
  intro bound
  apply Bound.rebuildIncoming
  apply Bound.unbound
  exact bound.of_topology_eq hreclaim

end

section

variable [LinearOrder K] [ToString N] [ToString K] {D : Dataplane N K V Staged Fn W}
  {admits : TransactionEngine N K Fn W → Call N K V W → Prop} {starts : W → Prop}

theorem exec_graph (s : TransactionEngine N K Fn W) (emplaces : c.Emplaces) :
  GraphStep s c (s.exec D c)
  := by
  cases c with
  | register emplace resource => exact register_graph emplaces s resource
  | unregister names => apply unregister_graph
  | releaseForTeardown names => apply releaseForTeardown_graph
  | apply ops expectedGeneration consistency owned =>
    exact .derived (topology_reclaimRetired D s) (topology_applyImpl D s _ _ _ _)
  | reclaimRetired => exact .same (topology_reclaimRetired D s)
  | _ => exact .same rfl

/-- In every state that calls lead to, what is bound is registered, and ranks that are up to date
descend along references. -/
theorem Run.ranked (emplaces : ∀ s c, admits s c → c.Emplaces) (run : Run D starts admits s) :
  s.Bound ∧ s.Ranked
  := by
  induction run with
  | create =>
    constructor
    · constructor <;> simp [TransactionEngine.create]
    intro _ _ v u hu
    simp [TransactionEngine.create, TransactionEngine.below, TransactionEngine.find] at hu
  | @call s c _ admitted ih =>
  have hstep := exec_graph (D := D) s (emplaces s c admitted)
  exact ⟨hstep.bound ih.1, hstep.ranked ih.1 ih.2⟩

theorem Run.cycleKnown (emplaces : ∀ s c, admits s c → c.Emplaces)
    (keeps : ∀ s c, admits s c → c.KeepsCycle D s) (run : Run D starts admits s) :
  s.CycleKnown
  := by
  induction run with
  | create =>
    intro _ hcycle
    simp [TransactionEngine.create] at hcycle
  | @call s c run admitted ih =>
  have hstep := exec_graph (D := D) s (emplaces s c admitted)
  apply hstep.cycleKnown (run.ranked emplaces).1 ih
  rintro names rfl
  exact keeps s _ admitted

/-! ### The next transaction -/

/-- If no `unregister` has taken out the last cycle, a transaction is refused for a cycle if and
only if there is one among the bound references and key holders, and otherwise each resource
ranks above those it may reference and their key holders. -/
theorem applyImpl_sees_current_graph {D : Dataplane N K V Staged Fn W}
    {s : TransactionEngine N K Fn W}
    (run : Run D (fun _ => True) (fun s c => c.Emplaces ∧ c.KeepsCycle D s) s)
    (ops : List (Op N K V)) (expectedGeneration : Option (BitVec 64))
    (consistency : Consistency) (owned : Option (List ℕ)) :
  (Cyclic s.below →
      applyImpl D s ops expectedGeneration consistency owned
        = (s.begin D, (s.begin D).refuseCycle ops.length))
    ∧ (¬ Cyclic s.below →
        applyImpl D s ops expectedGeneration consistency owned
            = (s.begin D).applyOrdered D ops expectedGeneration consistency owned
          ∧ ∀ name, ∀ other ∈ s.below name, (s.begin D).rank other < (s.begin D).rank name)
  := by
  obtain ⟨hbound, hranked⟩ := run.ranked (fun _ _ h => h.1)
  have hknown := run.cycleKnown (fun _ _ h => h.1) (fun _ _ h => h.2)
  obtain ⟨-, hbegin⟩ := begin_ranked D hbound hranked
  have hdirty : (s.begin D).ranksDirty = false := recomputeRanks_ranksDirty _
  have htopo := topology_reclaimRetired D s
  have hcycle : (s.begin D).referenceCycle = true → Cyclic s.below := by
    intro h
    have hreclaim := hbound.of_topology_eq htopo
    rw [← begin_below D s]
    exact (hknown.of_topology_eq htopo).recomputeRanks hreclaim hdirty h
  have happly : applyImpl D s ops expectedGeneration consistency owned
      = if (s.begin D).referenceCycle then (s.begin D, (s.begin D).refuseCycle ops.length)
        else (s.begin D).applyOrdered D ops expectedGeneration consistency owned := rfl
  rw [happly]
  rcases hflag : (s.begin D).referenceCycle with _ | _
  case false =>
    have hdescends := hbegin hdirty hflag
    rw [begin_below] at hdescends
    refine ⟨?_, fun _ => ⟨rfl, hdescends⟩⟩
    intro h
    exact absurd h (Relaxation.not_cyclic_of_lt hdescends)
  case true =>
  refine ⟨fun _ => rfl, ?_⟩
  intro h
  exact absurd (hcycle hflag) h

end

end

/-- Two resources that reference each other: transactions are refused. -/
theorem applyImpl_sees_current_graph_cyclic :
  let D := SlotConfig.plain.dataplane RcuDomain.noReaders
  let s := ((create SlotWorld.empty).exec D (.register List.cons ⟨1, [2], none, 1⟩)).exec D
    (.register List.cons ⟨2, [1], none, 2⟩)
  Cyclic s.below ∧ applyImpl D s [] none .referential none = (s.begin D, (s.begin D).refuseCycle 0)
  := by
  intro D s
  have hcyclic : Cyclic s.below := by
    have h₁ : 2 ∈ s.below 1 := by decide +kernel
    have h₂ : 1 ∈ s.below 2 := by decide +kernel
    exact ⟨1, .tail (.single h₁) h₂⟩
  refine ⟨hcyclic, (applyImpl_sees_current_graph ?_ [] none .referential none).1 hcyclic⟩
  apply Run.call
  · apply Run.call
    · exact Run.create trivial
    · exact ⟨fun _ _ => List.Perm.refl _, trivial⟩
  · exact ⟨fun _ _ => List.Perm.refl _, trivial⟩

theorem not_cyclic_of_deps [DecidableEq N] {s : TransactionEngine N K Fn W}
    (h : ∀ r ∈ s.resources, r.deps = []) :
  ¬ Cyclic s.below
  := by
  have hbelow : ∀ v, s.below v = [] := by
    intro v
    rcases hv : s.find v with _ | r
    case none => simp [below, hv]
    case some => simp [below, hv, h r (List.mem_of_find?_eq_some hv)]
  rintro ⟨v, hv⟩
  cases hv with
  | single hu | tail _ hu =>
  rw [hbelow] at hu
  exact absurd hu List.not_mem_nil

/-- Two resources that reference each other leave together, and transactions on a third are
refused for their cycle. -/
theorem unregister_leaves_refusal :
  let D := SlotConfig.plain.dataplane RcuDomain.noReaders
  let s := ((((create SlotWorld.empty).exec D (.register List.cons ⟨0, [], none, 0⟩)).exec D
    (.register List.cons ⟨1, [2], none, 1⟩)).exec D (.register List.cons ⟨2, [1], none, 2⟩)).exec D
    (.unregister [1, 2])
  ¬ Cyclic s.below
    ∧ (applyImpl D s [.upsert 0 1 []] none .referential none).2 = s.refuseCycle 1
  := by
  refine ⟨not_cyclic_of_deps ?_, by decide +kernel⟩
  decide +kernel

end TransactionEngine

end Engine
