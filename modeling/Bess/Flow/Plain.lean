import Bess.Flow.Runs

/-!
# Tables without aliases

Where flows have no aliases, a table is a map from handles to keys and states in which each key
stands once. What `Bess.Flow.Runs` proves of the calls is said again in these terms.
-/

namespace Flow

open Function

variable {Key State : Type} [DecidableEq Key]

namespace WorkerFlowTable

/-- The flows of a table by their handles, with their keys. -/
def entries (T : FlowTableTraits Key) (t : WorkerFlowTable Key State) (h : FlowHandle) :
    Option (Key × State) :=
  (t.flows T h).map fun f => (f.primary, f.state)

variable {T : FlowTableTraits Key} {t : WorkerFlowTable Key State} {h : FlowHandle} {key : Key}
  {state : State}

theorem entries_create {capacity : ℕ} (hcreate : create T capacity = some t) (h : FlowHandle) :
  t.entries T h = none
  := by
  rw [create] at hcreate
  simp only [Option.ite_none_left_eq_some, Option.some_inj] at hcreate
  obtain ⟨_, rfl⟩ := hcreate
  rw [entries, flows, slotOf]
  simp [SlotRecord.empty, SlotRecord.live]

section

variable (wf : t.WF T)

include wf

/-- The entry of a flow, and the key that names it. -/
theorem WF.flow_alone (halone : T.kAliases = 0) {f : FlowEntry Key State}
    (hflow : t.flows T h = some f) :
  f.aliases = ∅ ∧ (f.Names key ↔ key = f.primary) ∧ t.entries T h = some (f.primary, f.state)
  := by
  obtain ⟨s, hs, _, _, hentry⟩ := (flows_eq_some wf.capacity_lt).mp hflow
  have hcard := (wf.card_aliases hs hentry).1
  rw [halone, Nat.le_zero, Finset.card_eq_zero] at hcard
  refine ⟨hcard, ?_, ?_⟩
  · rw [FlowEntry.Names, hcard]
    simp
  rw [entries, hflow]
  rfl

theorem WF.entries_eq_some (halone : T.kAliases = 0) :
  t.entries T h = some (key, state) ↔ t.flows T h = some ⟨key, ∅, state⟩
  := by
  rw [entries, Option.map_eq_some_iff]
  constructor
  · rintro ⟨f, hflow, heq⟩
    obtain ⟨rfl, rfl⟩ := Prod.mk.inj heq
    have hempty := (wf.flow_alone halone hflow : _ ∧ (f.Names f.primary ↔ _) ∧ _).1
    rw [hflow, ← hempty]
  intro hflow
  exact ⟨_, hflow, rfl⟩

theorem WF.lookup_eq_entries (h : FlowHandle) :
  t.lookup h = (t.entries T h).map Prod.snd
  := by
  rw [lookup_eq wf, entries, Option.map_map]
  rfl

theorem WF.entries_unique (halone : T.kAliases = 0) {h' : FlowHandle} {state' : State}
    (hentry : t.entries T h = some (key, state)) (hentry' : t.entries T h' = some (key, state')) :
  h = h'
  := wf.names_unique ((wf.entries_eq_some halone).mp hentry) ((wf.entries_eq_some halone).mp hentry')
    (.inl rfl) (.inl rfl)

theorem WF.bound_iff_entries (halone : T.kAliases = 0) :
  (t.flows T).Bound key ↔ ∃ h state, t.entries T h = some (key, state)
  := by
  constructor
  · rintro ⟨h, f, hflow, hnames⟩
    obtain ⟨_, hkey, hentry⟩ := wf.flow_alone halone hflow
    exact ⟨h, f.state, hkey.mp hnames ▸ hentry⟩
  rintro ⟨h, state, hentry⟩
  exact ⟨h, _, (wf.entries_eq_some halone).mp hentry, .inl rfl⟩

theorem WF.findRef_entries (halone : T.kAliases = 0) (key : Key) :
  (∃ h state, t.entries T h = some (key, state) ∧ t.findRef T key = ⟨some state, h, false⟩)
    ∨ (∀ h state, t.entries T h ≠ some (key, state)) ∧ t.findRef T key = ⟨none, kNoFlow, false⟩
  := by
  rcases wf.findRef key with ⟨h, f, hflow, hnames, hr⟩ | ⟨hbound, hr⟩
  · left
    obtain ⟨_, hkey, hentry⟩ := wf.flow_alone halone hflow
    obtain rfl := hkey.mp hnames
    refine ⟨h, _, hentry, ?_⟩
    rw [hr]
    simp
  right
  rw [wf.bound_iff_entries halone] at hbound
  refine ⟨?_, hr⟩
  intro h state hentry
  exact hbound ⟨h, state, hentry⟩

end

/-- The entries after a call that changes the map of flows at one handle. -/
theorem entries_of_flows {u : WorkerFlowTable Key State} {v : Option (FlowEntry Key State)}
    (hflows : u.flows T = update (t.flows T) h v) :
  u.entries T = update (t.entries T) h (v.map fun f => (f.primary, f.state))
  := by
  funext h'
  rw [entries, hflows, update_apply, update_apply]
  split <;> rfl

/-- `Emplace` finds the key, has no room, or makes a flow under a handle that named none. -/
theorem WF.emplace_entries (wf : t.WF T) (halone : T.kAliases = 0) (key : Key) (state : State) :
  (t.createImpl T key none state).1.WF T
    ∧ ((∃ h state', t.entries T h = some (key, state')
          ∧ t.createImpl T key none state = (t, ⟨some state', h, .exists⟩))
      ∨ ((∀ h state', t.entries T h ≠ some (key, state')) ∧ t.full = true
          ∧ t.createImpl T key none state = (t, ⟨none, kNoFlow, .full⟩))
      ∨ ((∀ h state', t.entries T h ≠ some (key, state')) ∧ t.full = false
        ∧ ∃ h u, t.createImpl T key none state = (u, ⟨some state, h, .created⟩)
          ∧ t.entries T h = none
          ∧ u.entries T = update (t.entries T) h (some (key, state))))
  := by
  have obeys := wf.obeys_emplace key (show (none : Option Key).isSome = true → _ from by rintro ⟨⟩) state
  have hspec : EmplaceSpec (t.full = true) (t.flows T) key none state
      (t.createImpl T key none state).2 ((t.createImpl T key none state).1.flows T) := obeys.spec
  have hrefused : (t.createImpl T key none state).2.status ≠ .created →
      (t.createImpl T key none state).1 = t := by
    intro hne
    apply obeys.refused
    simp [exec, Reply.refused, hne]
  refine ⟨obeys.wf, ?_⟩
  rcases hcreate : t.createImpl T key none state with ⟨u, r⟩
  rw [hcreate] at hspec hrefused
  have hfree (hbound : ¬ (t.flows T).Bound key) : ∀ h state', t.entries T h ≠ some (key, state') := by
    rw [wf.bound_iff_entries halone] at hbound
    intro h state' hentry
    exact hbound ⟨h, state', hentry⟩
  rw [EmplaceSpec] at hspec
  split at hspec
  case h_1 hstatus =>
    obtain ⟨⟨h, f, hflow, hnames, rfl⟩, _⟩ := hspec
    obtain ⟨_, hkey, hentry⟩ := wf.flow_alone halone hflow
    left
    exact ⟨h, f.state, hkey.mp hnames ▸ hentry, Prod.ext (hrefused (by rintro ⟨⟩)) rfl⟩
  case h_2 =>
    obtain ⟨_, ⟨a, ha, _⟩, _⟩ := hspec
    cases ha
  case h_3 =>
    obtain ⟨hbound, _, hfull, rfl, _⟩ := hspec
    right; left
    exact ⟨hfree hbound, hfull, Prod.ext (hrefused (by rintro ⟨⟩)) rfl⟩
  case h_4 hstatus =>
    obtain ⟨hbound, _, hfull, hfresh, hstate, hflows⟩ := hspec
    right; right
    obtain ⟨rstate, rhandle, rstatus⟩ := r
    subst hstatus hstate
    refine ⟨hfree hbound, Bool.eq_false_iff.mpr hfull, rhandle, u, rfl, ?_, entries_of_flows hflows⟩
    rw [entries, hfresh]
    rfl
  case h_5 => exact hspec.elim

theorem WF.eraseHandle_entries (wf : t.WF T) (h : FlowHandle) :
  (t.eraseHandle T h).1.WF T
    ∧ (t.eraseHandle T h).1.entries T = update (t.entries T) h none
    ∧ (t.eraseHandle T h).2 = (t.entries T h).isSome
  := by
  have obeys := wf.obeys_eraseHandle h
  obtain ⟨hfound, hflows⟩ : (t.eraseHandle T h).2 = (t.flows T h).isSome
    ∧ (t.eraseHandle T h).1.flows T = update (t.flows T) h none := obeys.spec
  refine ⟨obeys.wf, entries_of_flows hflows, ?_⟩
  rw [hfound, entries, Option.isSome_map]

theorem WF.modify_entries (wf : t.WF T) (h : FlowHandle) (g : State → State) :
  (t.modify h g).WF T
    ∧ (t.modify h g).entries T
      = update (t.entries T) h ((t.entries T h).map fun entry => (entry.1, g entry.2))
  := by
  have obeys := wf.obeys_modify h g
  have hflows : (t.modify h g).flows T = update (t.flows T) h
      ((t.flows T h).map fun flow => { flow with state := g flow.state }) := obeys.spec
  refine ⟨obeys.wf, ?_⟩
  rw [entries_of_flows hflows, entries, Option.map_map, Option.map_map]
  rfl

end WorkerFlowTable

end Flow
