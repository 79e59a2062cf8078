import Bess.Flow.Runs
import Bess.Napt.Book

/-!
# Tables of bindings

A binding is filed in a flow table with its internal endpoint as the primary key and its external
one as the alias. For such a table, what `Bess.Flow.Runs` proves of the calls is said again in
terms of the bindings that `Lookup` finds.
-/

namespace Napt

open Function Flow Expiry WorkerFlowTable

/-- A table of bindings, each under its two endpoints. -/
structure Filed (S : OwnedStore) (t : WorkerFlowTable Endpoint Binding) : Prop where
  wf : t.WF S.traits
  keys : ∀ {h f}, t.flows S.traits h = some f →
    f.primary = f.state.internal ∧ f.aliases = {f.state.external}

namespace Filed

variable {S : OwnedStore} {t : WorkerFlowTable Endpoint Binding} {h : FlowHandle} {b : Binding}
  {e : Endpoint}

theorem create {capacity : ℕ} (hcreate : create S.traits capacity = some t) :
  Filed S t ∧ t.capacity = capacity ∧ ∀ h, t.lookup h = none
  := by
  obtain ⟨wf, hcap⟩ := wf_create hcreate (.inl rfl)
  have hnone (h : FlowHandle) : t.flows S.traits h = none := by
    rw [WorkerFlowTable.create] at hcreate
    simp only [Option.ite_none_left_eq_some, Option.some_inj] at hcreate
    obtain ⟨_, rfl⟩ := hcreate
    rw [flows, slotOf]
    simp [SlotRecord.empty, SlotRecord.live]
  refine ⟨⟨wf, ?_⟩, hcap, ?_⟩
  · intro h f hflow
    rw [hnone] at hflow
    cases hflow
  intro h
  rw [lookup_eq wf, hnone, Option.map_none]

theorem lookup_eq_some (filed : Filed S t) :
  t.lookup h = some b ↔ t.flows S.traits h = some ⟨b.internal, {b.external}, b⟩
  := by
  rw [lookup_eq filed.wf, Option.map_eq_some_iff]
  constructor
  · rintro ⟨f, hflow, rfl⟩
    obtain ⟨hprim, haliases⟩ := filed.keys hflow
    rw [hflow, ← hprim, ← haliases]
  intro hflow
  exact ⟨_, hflow, rfl⟩

theorem names_iff :
  (⟨b.internal, {b.external}, b⟩ : FlowEntry Endpoint Binding).Names e ↔ b.Has e
  := by
  rw [FlowEntry.Names, Binding.Has, Finset.mem_singleton]

variable (filed : Filed S t) {s : ℕ}

include filed

/-- The binding of a flow, and the keys that name it. -/
theorem of_flow {f : FlowEntry Endpoint Binding}
    (hflow : t.flows S.traits h = some f) (e : Endpoint) :
  t.lookup h = some f.state ∧ (f.Names e ↔ f.state.Has e)
  := by
  obtain ⟨hprim, haliases⟩ := filed.keys hflow
  constructor
  · rw [lookup_eq filed.wf, hflow, Option.map_some]
  · rw [FlowEntry.Names, Binding.Has, hprim, haliases, Finset.mem_singleton]

theorem bound_iff :
  (t.flows S.traits).Bound e ↔ ∃ h b, t.lookup h = some b ∧ b.Has e
  := by
  constructor
  · rintro ⟨h, f, hflow, hnames⟩
    obtain ⟨hb, hhas⟩ := filed.of_flow hflow e
    exact ⟨h, f.state, hb, hhas.mp hnames⟩
  rintro ⟨h, b, hb, he⟩
  exact ⟨h, _, filed.lookup_eq_some.mp hb, names_iff.mpr he⟩

theorem findIn (inOld : Bool) (e : Endpoint) :
  (∃ h b, t.lookup h = some b ∧ b.Has e ∧ t.find S.traits e = some b
      ∧ BasicNat.findIn S t inOld e = some ⟨inOld, h⟩)
    ∨ (∀ h b, t.lookup h = some b → ¬ b.Has e) ∧ t.find S.traits e = none
      ∧ BasicNat.findIn S t inOld e = none
  := by
  rcases filed.wf.findRef e with ⟨h, f, hflow, hnames, hr⟩ | ⟨hbound, hr⟩
  · left
    obtain ⟨hb, hhas⟩ := filed.of_flow hflow e
    refine ⟨h, f.state, hb, hhas.mp hnames, ?_, ?_⟩
    · rw [find_eq, hr]
    rw [BasicNat.findIn, hr]
    rfl
  right
  rw [filed.bound_iff] at hbound
  refine ⟨?_, ?_, ?_⟩
  · intro h b hb he
    exact hbound ⟨h, b, hb, he⟩
  · rw [find_eq, hr]
  rw [BasicNat.findIn, hr]
  rfl

theorem of_flows {u : WorkerFlowTable Endpoint Binding} (wf : u.WF S.traits) {v : Option Binding}
    (hflows : u.flows S.traits = update (t.flows S.traits) h
      (v.map fun b => ⟨b.internal, {b.external}, b⟩)) :
  Filed S u ∧ u.lookup = update t.lookup h v
  := by
  refine ⟨⟨wf, ?_⟩, ?_⟩
  · intro h' f hflow
    rw [hflows, update_apply] at hflow
    split at hflow
    · obtain ⟨b, _, rfl⟩ := Option.map_eq_some_iff.mp hflow
      exact ⟨rfl, rfl⟩
    · exact filed.keys hflow
  funext h'
  rw [lookup_eq wf, hflows, update_apply, update_apply]
  split
  · cases v <;> rfl
  · rw [lookup_eq filed.wf]

theorem modify (h : FlowHandle) {g : Binding → Binding} (hg : ∀ b : Binding, b.Same (g b)) :
  Filed S (t.modify h g) ∧ (t.modify h g).capacity = t.capacity
    ∧ (t.modify h g).lookup = update t.lookup h ((t.lookup h).map g)
  := by
  have obeys := filed.wf.obeys_modify h g
  have hflows : (t.modify h g).flows S.traits = update (t.flows S.traits) h
      (((t.lookup h).map g).map fun b => ⟨b.internal, {b.external}, b⟩) := by
    have hspec : (t.modify h g).flows S.traits = update (t.flows S.traits) h
      ((t.flows S.traits h).map fun flow => { flow with state := g flow.state }) := obeys.spec
    rw [hspec, lookup_eq filed.wf]
    rcases hflow : t.flows S.traits h with _ | f
    · rfl
    obtain ⟨hprim, haliases⟩ := filed.keys hflow
    obtain ⟨hinternal, hext, _⟩ := hg f.state
    simp only [Option.map_some]
    rw [hinternal, hext, ← hprim, ← haliases]
  obtain ⟨filed', hlook⟩ := filed.of_flows obeys.wf hflows
  exact ⟨filed', obeys.capacity_eq, hlook⟩

theorem eraseHandle (h : FlowHandle) :
  Filed S (t.eraseHandle S.traits h).1 ∧ (t.eraseHandle S.traits h).1.capacity = t.capacity
    ∧ (t.eraseHandle S.traits h).1.lookup = update t.lookup h none
    ∧ (t.eraseHandle S.traits h).2 = (t.lookup h).isSome
  := by
  have obeys := filed.wf.obeys_eraseHandle h
  obtain ⟨hfound, hflows⟩ : (t.eraseHandle S.traits h).2 = (t.flows S.traits h).isSome
    ∧ (t.eraseHandle S.traits h).1.flows S.traits = update (t.flows S.traits) h none := obeys.spec
  obtain ⟨filed', hlook⟩ := filed.of_flows (v := none) obeys.wf hflows
  refine ⟨filed', obeys.capacity_eq, hlook, ?_⟩
  rw [hfound, lookup_eq filed.wf, Option.isSome_map]

theorem erase (e : Endpoint) :
  Filed S (t.erase S.traits e).1 ∧ (t.erase S.traits e).1.capacity = t.capacity
    ∧ ((∃ h b, t.lookup h = some b ∧ b.Has e
        ∧ (t.erase S.traits e).1.lookup = update t.lookup h none
        ∧ (t.erase S.traits e).2 = true)
      ∨ (∀ h b, t.lookup h = some b → ¬ b.Has e) ∧ (t.erase S.traits e).1.lookup = t.lookup
        ∧ (t.erase S.traits e).2 = false)
  := by
  have obeys := filed.wf.obeys_erase e
  have hspec := obeys.spec
  rcases hfound : (t.erase S.traits e).2 with _ | _
  · rw [exec, hfound] at hspec
    obtain ⟨hbound, hflows⟩ := hspec
    rw [filed.bound_iff] at hbound
    have hkeep : t.erase S.traits e = (t, false) := by
      rw [WorkerFlowTable.erase] at hfound ⊢
      split at hfound
      · rfl
      · cases hfound
    rw [hkeep]
    exact ⟨filed, rfl, .inr ⟨fun h b hb he => hbound ⟨h, b, hb, he⟩, rfl, rfl⟩⟩
  rw [exec, hfound] at hspec
  obtain ⟨h, f, hflow, hnames, hflows⟩ := hspec
  obtain ⟨hb, hhas⟩ := filed.of_flow hflow e
  obtain ⟨filed', hlook⟩ := filed.of_flows (v := none) obeys.wf hflows
  exact ⟨filed', obeys.capacity_eq, .inl ⟨h, f.state, hb, hhas.mp hnames, hlook, rfl⟩⟩

/-- A binding is filed under two endpoints that no binding has. -/
theorem emplace (b : Binding) :
  let r := t.createImpl S.traits b.internal (some b.external) b
  (r.2.status = .created ∧ Filed S r.1 ∧ r.1.capacity = t.capacity
      ∧ t.lookup r.2.handle = none ∧ r.1.lookup = update t.lookup r.2.handle (some b)
      ∧ b.internal ≠ b.external ∧ ∀ h b', t.lookup h = some b' →
        ¬ b'.Has b.internal ∧ ¬ b'.Has b.external)
    ∨ r.2.status ≠ .created ∧ r.1 = t
  := by
  intro r
  have obeys : Obeys S.traits t (.emplace b.internal (some b.external) b) :=
    filed.wf.obeys_emplace b.internal (fun _ => Nat.one_pos) b
  by_cases hcreated : r.2.status = .created
  case neg => exact .inr ⟨hcreated, obeys.refused (decide_eq_true hcreated)⟩
  case pos =>
  have hspec : EmplaceSpec (t.full = true) (t.flows S.traits) b.internal (some b.external) b r.2
    (r.1.flows S.traits) := obeys.spec
  rw [EmplaceSpec, hcreated] at hspec
  obtain ⟨hinternal, htaken, _, hnew, _, hflows⟩ := hspec
  rw [filed.bound_iff] at hinternal
  obtain ⟨filed', hlook⟩ := filed.of_flows (v := some b) obeys.wf hflows
  refine .inl ⟨hcreated, filed', obeys.capacity_eq, ?_, hlook, ?_, ?_⟩
  · rw [lookup_eq filed.wf, hnew, Option.map_none]
  · intro heq
    exact htaken ⟨_, rfl, .inl heq.symm⟩
  intro h b' hb'
  refine ⟨fun he => hinternal ⟨h, b', hb', he⟩, fun he => ?_⟩
  exact htaken ⟨_, rfl, .inr (filed.bound_iff.mpr ⟨h, b', hb', he⟩)⟩

/-- With room and under free endpoints a binding is filed, and takes one free slot. -/
theorem emplace_created (hproper : b.internal ≠ b.external)
    (hinternal : ∀ h b', t.lookup h = some b' → ¬ b'.Has b.internal)
    (hext : ∀ h b', t.lookup h = some b' → ¬ b'.Has b.external) (hroom : 0 < t.free.count) :
  (t.createImpl S.traits b.internal (some b.external) b).2.status = .created
    ∧ (t.createImpl S.traits b.internal (some b.external) b).1.free.count + 1 = t.free.count
  := by
  have hunbound {e : Endpoint} (hnone : ∀ h b', t.lookup h = some b' → ¬ b'.Has e) :
      ∀ kid, t.view S.traits kid ≠ some e := by
    intro kid hview
    obtain ⟨h, b', hb', he⟩ := filed.bound_iff.mp (filed.wf.bound_iff.mpr ⟨kid, hview⟩)
    exact hnone h b' hb' he
  have hkid {e : Endpoint} (hnone : ∀ h b', t.lookup h = some b' → ¬ b'.Has e) :
      t.findKid S.traits e = none := by
    rw [Option.eq_none_iff_forall_ne_some]
    intro kid h
    exact hunbound hnone kid (filed.wf.findKid_eq_some.mp h)
  have hsome : t.free.empty = false := by
    rw [FreeList.empty, decide_eq_false_iff_not]
    omega
  have hmade : t.createImpl S.traits b.internal (some b.external) b
      = (t.make S.traits b.internal (some b.external) b, ⟨some b,
        (t.make S.traits b.internal (some b.external) b).handleOf t.free.peek, .created⟩) := by
    rw [createImpl, hkid hinternal]
    simp only [Option.bind_some, hkid hext, Option.some_inj, hproper.symm, Option.isSome_none,
      Bool.false_eq_true, or_self, if_false, hsome]
  have halias : ∀ a, some b.external = some a → a ≠ b.internal
      ∧ ∀ kid, t.view S.traits kid ≠ some a := by
    rintro _ ⟨⟩
    exact ⟨hproper.symm, hunbound hext⟩
  obtain ⟨⟨index, heq⟩, _⟩ := filed.wf.make hsome (hunbound hinternal) halias
    (fun _ => Nat.one_pos) b
  rw [hmade]
  refine ⟨rfl, ?_⟩
  rw [heq]
  rw [FreeList.pop]
  split <;> exact Nat.sub_add_cancel hroom

theorem slot (hs : s < t.capacity) (hlive : (t.slots s).live = true) :
  ∃ b, t.lookup (t.handleOf s) = some b ∧ (t.slots s).keys 0 = some b.internal
    ∧ (t.slots s).keys 1 = some b.external ∧ (t.slots s).state = some b
  := by
  obtain ⟨f, hentry⟩ := (filed.wf.slot s hs).exists_entry hlive
  have hflow : t.flows S.traits (t.handleOf s) = some f :=
    (flows_eq_some filed.wf.capacity_lt).mpr ⟨s, hs, hlive, rfl, hentry⟩
  obtain ⟨hprim, haliases⟩ := filed.keys hflow
  obtain ⟨hkey, hstate, hset⟩ := SlotRecord.entry_eq_some.mp hentry
  have hmem : f.state.external ∈ f.aliases := by
    rw [haliases, Finset.mem_singleton]
  rw [hset, SlotRecord.mem_aliases] at hmem
  obtain ⟨j, hpos, hj, hext⟩ := hmem
  obtain rfl : j = 1 := by
    have : S.traits.kKeysPerSlot = 2 := rfl
    omega
  refine ⟨f.state, (filed.of_flow hflow f.state.internal).1, hprim ▸ hkey, ?_, hstate⟩
  rw [SlotRecord.keyIn, Option.ite_none_right_eq_some] at hext
  exact hext.2

theorem handleOf_id (hs : s < t.capacity) :
  ((t.handleOf s).id - 1).toNat = s
  := by
  have hsmall := filed.wf.capacity_lt
  exact ((eq_handleOf_iff (by omega)).mp rfl).1

end Filed

end Napt
