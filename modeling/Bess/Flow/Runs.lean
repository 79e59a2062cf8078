import Bess.Flow.Refinement

/-!
# Runs of a flow table

The calls that change a table, what each should do to the map the table stands for, and the
refinement for every state that a sequence of calls reaches. The ring of a table that reuses slots
in the order of their release finds its tail by a 32-bit sum, so the refinement needs a capacity of
at most 2³¹ there; at the end a larger table is driven to a flow in the wrong slot.
-/

namespace Flow

open Function List Option SlotRecord

variable {Key State : Type} [DecidableEq Key]

/-- A call that may change a table. `Emplace` has no alias key, `EmplaceAliased` has one; `modify`
is a write through a state pointer that a lookup returned. -/
inductive Call (Key State : Type) : Type where
  | emplace (key : Key) (aliasKey : Option Key) (state : State)
  | addAlias (handle : FlowHandle) (key : Key)
  | removeAlias (key : Key)
  | erase (key : Key)
  | eraseHandle (handle : FlowHandle)
  | modify (handle : FlowHandle) (f : State → State)

/-- What a call answers. -/
inductive Reply (State : Type) : Type where
  | emplaced (result : EmplaceResult State)
  | aliased (status : AliasStatus)
  | removed (found : Bool)
  | modified

/-- The calls that name an alias exist only for a table with room for aliases. -/
def Call.Allowed (T : FlowTableTraits Key) : Call Key State → Prop
  | .emplace _ aliasKey _ => aliasKey.isSome = true → 0 < T.kAliases
  | .addAlias _ _ => 0 < T.kAliases
  | .removeAlias _ => 0 < T.kAliases
  | _ => True

/-- The answers `kExists`, `kAliasExists`, `kFull`, `kStale` and `kNoRoom`. -/
def Reply.refused : Reply State → Bool
  | .emplaced result => result.status ≠ .created
  | .aliased status => status ≠ .added
  | _ => false

def exec (T : FlowTableTraits Key) (t : WorkerFlowTable Key State) :
    Call Key State → WorkerFlowTable Key State × Reply State
  | .emplace key aliasKey state =>
      ((t.createImpl T key aliasKey state).1, .emplaced (t.createImpl T key aliasKey state).2)
  | .addAlias handle key => ((t.addAlias T handle key).1, .aliased (t.addAlias T handle key).2)
  | .removeAlias key => ((t.removeAlias T key).1, .removed (t.removeAlias T key).2)
  | .erase key => ((t.erase T key).1, .removed (t.erase T key).2)
  | .eraseHandle handle => ((t.eraseHandle T handle).1, .removed (t.eraseHandle T handle).2)
  | .modify handle f => (t.modify handle f, .modified)

/-! ### The specification -/

/-- What a creation answers and does to the map; `full` tells that no slot is free. -/
def EmplaceSpec (full : Prop) (m : FlowMap Key State) (key : Key) (aliasKey : Option Key)
    (state : State) (r : EmplaceResult State) (m' : FlowMap Key State) : Prop :=
  let taken := ∃ a, aliasKey = some a ∧ (a = key ∨ m.Bound a)
  match r.status with
  | .exists => (∃ h f, m h = some f ∧ f.Names key ∧ r = ⟨some f.state, h, .exists⟩) ∧ m' = m
  | .aliasExists => ¬ m.Bound key ∧ taken ∧ r = ⟨none, kNoFlow, .aliasExists⟩ ∧ m' = m
  | .full => ¬ m.Bound key ∧ ¬ taken ∧ full ∧ r = ⟨none, kNoFlow, .full⟩ ∧ m' = m
  | .created => ¬ m.Bound key ∧ ¬ taken ∧ ¬ full ∧ m r.handle = none ∧ r.state = some state
      ∧ m' = update m r.handle (some ⟨key, aliasKey.toFinset, state⟩)
  | .placementFailed => False

def AliasSpec (T : FlowTableTraits Key) (m : FlowMap Key State) (handle : FlowHandle) (key : Key) :
    AliasStatus → FlowMap Key State → Prop
  | .stale, m' => m handle = none ∧ m' = m
  | .exists, m' => (m handle).isSome = true ∧ m.Bound key ∧ m' = m
  | .noRoom, m' => ∃ f, m handle = some f ∧ ¬ m.Bound key ∧ f.aliases.card = T.kAliases ∧ m' = m
  | .added, m' => ∃ f, m handle = some f ∧ ¬ m.Bound key ∧ f.aliases.card < T.kAliases
      ∧ m' = update m handle (some { f with aliases := insert key f.aliases })
  | .placementFailed, _ => False

/-- What a call answers and does to the map. -/
def Spec (T : FlowTableTraits Key) (full : Prop) (m : FlowMap Key State) :
    Call Key State → Reply State → FlowMap Key State → Prop
  | .emplace key aliasKey state, .emplaced r, m' => EmplaceSpec full m key aliasKey state r m'
  | .addAlias handle key, .aliased status, m' => AliasSpec T m handle key status m'
  | .removeAlias key, .removed true, m' => ∃ h f, m h = some f ∧ key ∈ f.aliases
      ∧ m' = update m h (some { f with aliases := f.aliases.erase key })
  | .removeAlias key, .removed false, m' => (∀ h f, m h = some f → key ∉ f.aliases) ∧ m' = m
  | .erase key, .removed true, m' => ∃ h f, m h = some f ∧ f.Names key
      ∧ m' = update m h none
  | .erase key, .removed false, m' => ¬ m.Bound key ∧ m' = m
  | .eraseHandle handle, .removed found, m' => found = (m handle).isSome
      ∧ m' = update m handle none
  | .modify handle f, .modified, m' => m' = update m handle
      ((m handle).map fun flow => { flow with state := f flow.state })
  | _, _, _ => False

namespace WorkerFlowTable

variable {T : FlowTableTraits Key} {t u : WorkerFlowTable Key State} {call : Call Key State} {r : Reply State}

/-- A call kept the table well formed and did what it should. -/
structure Obeys (T : FlowTableTraits Key) (t : WorkerFlowTable Key State) (call : Call Key State) :
    Prop where
  wf : (exec T t call).1.WF T
  capacity_eq : (exec T t call).1.capacity = t.capacity
  spec : Spec T (t.full = true) (t.flows T) call (exec T t call).2 ((exec T t call).1.flows T)
  refused : (exec T t call).2.refused = true → (exec T t call).1 = t

theorem WF.obeys_same (wf : t.WF T)
    (hexec : exec T t call = (t, r)) (hspec : Spec T (t.full = true) (t.flows T) call r (t.flows T)) :
  Obeys T t call
  := by
  constructor <;> rw [hexec]
  · exact wf
  · exact hspec
  · exact fun _ => rfl

theorem WF.obeys_done (wf : u.WF T) (hexec : exec T t call = (u, r)) (hcap : u.capacity = t.capacity)
    (hspec : Spec T (t.full = true) (t.flows T) call r (u.flows T)) (hdone : r.refused = false) :
  Obeys T t call
  := by
  constructor <;> rw [hexec]
  · exact wf
  · exact hcap
  · exact hspec
  rw [hdone]
  intro h
  cases h

theorem WF.obeys_emplace (wf : t.WF T) (key : Key) {aliasKey : Option Key}
    (hroom : aliasKey.isSome = true → 0 < T.kAliases) (state : State) :
  Obeys T t (.emplace key aliasKey state)
  := by
  have htaken : aliasKey = some key ∨ (aliasKey.bind (t.findKid T)).isSome = true
      ↔ ∃ a, aliasKey = some a ∧ (a = key ∨ (t.flows T).Bound a) := by
    cases aliasKey with
    | none => simp
    | some a => simp [wf.findKid_isSome]
  rcases hcreate : t.createImpl T key aliasKey state with ⟨u, r⟩
  have hexec : exec T t (.emplace key aliasKey state) = (u, .emplaced r) := by
    rw [exec, hcreate]
  rw [createImpl] at hcreate
  split at hcreate
  case h_1 kid hkid =>
    obtain ⟨rfl, rfl⟩ := Prod.mk.inj hcreate
    obtain ⟨f, hentry, hflow, hnames⟩ := wf.entry_of_view (wf.findKid_eq_some.mp hkid)
    refine wf.obeys_same hexec ⟨⟨_, f, hflow, hnames, ?_⟩, rfl⟩
    rw [(entry_eq_some.mp hentry).2.1]
  case h_2 hnone =>
  have hfree : ¬ (t.flows T).Bound key := by
    rw [← wf.findKid_isSome, hnone]
    simp
  split at hcreate
  case isTrue h =>
    obtain ⟨rfl, rfl⟩ := Prod.mk.inj hcreate
    exact wf.obeys_same hexec ⟨hfree, htaken.mp h, rfl, rfl⟩
  case isFalse h =>
  rw [htaken] at h
  split at hcreate
  case isTrue hempty =>
    obtain ⟨rfl, rfl⟩ := Prod.mk.inj hcreate
    exact wf.obeys_same hexec ⟨hfree, h, hempty, rfl, rfl⟩
  case isFalse hsome =>
  obtain ⟨rfl, rfl⟩ := Prod.mk.inj hcreate
  obtain ⟨hwf, hcap, hnew, hflows⟩ := wf.flows_make (Bool.eq_false_of_not_eq_true hsome)
    hfree (fun a ha => ⟨fun hk => h ⟨a, ha, .inl hk⟩, fun hb => h ⟨a, ha, .inr hb⟩⟩) hroom state
  exact hwf.obeys_done hexec hcap ⟨hfree, h, hsome, hnew, rfl, hflows⟩
    (by simp [Reply.refused])

variable {h : FlowHandle} {key : Key} {f : FlowEntry Key State} {s : ℕ}

/-- The slot of a handle holds the flow of the map. -/
theorem WF.slotOf_flow (wf : t.WF T) (hslot : t.slotOf h = some s) :
  s < t.capacity ∧ (t.slots s).live = true ∧ h = t.handleOf s
    ∧ ∃ f, t.flows T h = some f ∧ (t.slots s).entry T = some f
  := by
  obtain ⟨hs, hlive, hh⟩ := (slotOf_eq_some wf.capacity_lt).mp hslot
  obtain ⟨f, hentry⟩ := (wf.slot s hs).exists_entry hlive
  exact ⟨hs, hlive, hh, f, (flows_eq_some wf.capacity_lt).mpr ⟨s, hs, hlive, hh, hentry⟩, hentry⟩

theorem flows_of_slotOf_none (hslot : t.slotOf h = none) :
  t.flows T h = none
  := by
  rw [flows, hslot, bind_none]

section

variable (wf : t.WF T)

include wf

theorem WF.obeys_addAlias (h : FlowHandle) (key : Key) :
  Obeys T t (.addAlias h key)
  := by
  rcases hadd : t.addAlias T h key with ⟨u, status⟩
  have hexec : exec T t (.addAlias h key) = (u, .aliased status) := by
    rw [exec, hadd]
  rw [addAlias] at hadd
  split at hadd
  case h_1 hslot =>
    obtain ⟨rfl, rfl⟩ := Prod.mk.inj hadd
    exact wf.obeys_same hexec ⟨flows_of_slotOf_none hslot, rfl⟩
  case h_2 s hslot =>
  obtain ⟨hs, hlive, rfl, f, hflow, hentry⟩ := wf.slotOf_flow hslot
  split at hadd
  case isTrue hbound =>
    obtain ⟨rfl, rfl⟩ := Prod.mk.inj hadd
    exact wf.obeys_same hexec ⟨by rw [hflow, isSome_some], wf.findKid_isSome.mp hbound, rfl⟩
  case isFalse hbound =>
  rw [wf.findKid_isSome] at hbound
  obtain ⟨hcard, hcard'⟩ := wf.card_aliases hs hentry
  split at hadd
  case h_1 hnone =>
    obtain ⟨rfl, rfl⟩ := Prod.mk.inj hadd
    refine wf.obeys_same hexec ⟨f, hflow, hbound, hcard'.mpr ?_, rfl⟩
    simpa [find?_eq_none] using hnone
  case h_2 j hj =>
  obtain ⟨rfl, rfl⟩ := Prod.mk.inj hadd
  have hunmarked : (t.slots s).keyMask j = false := by
    simpa using find?_some hj
  have hmem := mem_of_find?_eq_some hj
  obtain ⟨hpos, hlt⟩ := mem_range'_1.mp hmem
  obtain ⟨index, heq, keyed, _⟩ := wf.toKeyed.addKey hs hlt hunmarked (wf.not_bound hbound)
  obtain ⟨hwf, hcap, hflows⟩ := wf.retouch heq keyed hs
    ((wf.slot s hs).store hlive hlt key) rfl hlive
  refine hwf.obeys_done hexec hcap ⟨f, hflow, hbound, ?_, ?_⟩ (by simp [Reply.refused])
  · apply lt_of_le_of_ne hcard
    intro hfull
    rw [hcard'.mp hfull j hmem] at hunmarked
    cases hunmarked
  · rw [hflows, entry_store hentry hpos hlt hunmarked]

/-- A key is an alias of no flow when it is bound as a primary key. -/
theorem WF.not_alias {kid : ℕ} (hview : t.view T kid = some key)
    (hmod : kid % T.kKeysPerSlot = 0) (hflow : t.flows T h = some f) :
  key ∉ f.aliases
  := by
  intro hmem
  obtain ⟨s, hs, _, _, hentry⟩ := (flows_eq_some wf.capacity_lt).mp hflow
  rw [(entry_eq_some.mp hentry).2.2, mem_aliases] at hmem
  obtain ⟨j, hpos, hj, hkey⟩ := hmem
  have hkids := wf.directory.distinct hview ((view_kid hs hj).trans hkey)
  rw [hkids, kid_mod hj] at hmod
  omega

theorem WF.obeys_removeAlias (key : Key) :
  Obeys T t (.removeAlias key)
  := by
  rcases hremove : t.removeAlias T key with ⟨u, found⟩
  have hexec : exec T t (.removeAlias key) = (u, .removed found) := by
    rw [exec, hremove]
  rw [removeAlias] at hremove
  split at hremove
  case h_1 hnone =>
    obtain ⟨rfl, rfl⟩ := Prod.mk.inj hremove
    refine wf.obeys_same hexec ⟨?_, rfl⟩
    intro h f hflow hmem
    have hbound : (t.flows T).Bound key := ⟨h, f, hflow, .inr hmem⟩
    rw [← wf.findKid_isSome, hnone] at hbound
    cases hbound
  case h_2 kid hkid =>
  have hview := wf.findKid_eq_some.mp hkid
  simp only at hremove
  split at hremove
  case isTrue hmod =>
    obtain ⟨rfl, rfl⟩ := Prod.mk.inj hremove
    exact wf.obeys_same hexec ⟨fun h f hflow => wf.not_alias hview hmod hflow, rfl⟩
  case isFalse hmod =>
  have hs := div_lt_of_view hview
  have hj := Nat.mod_lt kid (kKeysPerSlot_pos T)
  have hlive := wf.live_of_view hview
  have hkey := keyIn_of_view hview
  obtain ⟨f, hentry, hflow, hnames⟩ := wf.entry_of_view hview
  obtain ⟨index, herase, dir⟩ := Keyed.eraseKey wf.directory hview
  rw [herase] at hremove
  obtain ⟨rfl, rfl⟩ := Prod.mk.inj hremove
  generalize hslot : kid / T.kKeysPerSlot = s at *
  generalize hplace : kid % T.kKeysPerSlot = j at *
  generalize hu : WorkerFlowTable.setSlot { t with index := index } s
    ((t.slots s).mark j false) = u at *
  have hkeyed : u.Keyed T := by
    have hslot' : u.slots s = (t.slots s).mark j false := by
      rw [← hu]
      exact slots_setSlot_self ..
    have hcap : u.capacity = t.capacity := by
      rw [← hu]
      rfl
    have hupd := view_update hs hj hcap
      (fun s' hne => by rw [← hu]; exact slots_setSlot_of_ne hne _)
      (fun j' hne => by rw [hslot', keyIn_mark_false, if_neg hne])
    have hkid' : s * T.kKeysPerSlot + j = kid := by
      rw [← hslot, ← hplace, kid_eq]
    rw [hslot', keyIn_mark_false, if_pos rfl, hkid'] at hupd
    refine ⟨?_, by rw [← hu]; exact wf.fatal_eq⟩
    rw [hupd, ← hu]
    exact dir
  obtain ⟨hwf, hcap, hflows⟩ := wf.retouch hu.symm hkeyed hs
    ((wf.slot s hs).unmark hmod) rfl hlive
  refine hwf.obeys_done hexec hcap ⟨t.handleOf s, f, hflow, ?_, ?_⟩ rfl
  · rw [(entry_eq_some.mp hentry).2.2, mem_aliases]
    exact ⟨j, by omega, hj, hkey⟩
  rw [hflows, entry_unmark hentry (by omega) hkey
    (fun j' hj' hkey' => wf.keyIn_inj hs hj hj' hkey hkey')]

theorem WF.obeys_erase (key : Key) :
  Obeys T t (.erase key)
  := by
  rcases herase : t.erase T key with ⟨u, found⟩
  have hexec : exec T t (.erase key) = (u, .removed found) := by
    rw [exec, herase]
  rw [erase] at herase
  split at herase
  case h_1 hnone =>
    obtain ⟨rfl, rfl⟩ := Prod.mk.inj herase
    refine wf.obeys_same hexec ⟨?_, rfl⟩
    rw [← wf.findKid_isSome, hnone]
    simp
  case h_2 kid hkid =>
  obtain ⟨rfl, rfl⟩ := Prod.mk.inj herase
  have hview := wf.findKid_eq_some.mp hkid
  obtain ⟨f, _, hflow, hnames⟩ := wf.entry_of_view hview
  obtain ⟨hwf, hcap, hflows⟩ := wf.flows_eraseSlot (div_lt_of_view hview)
    (wf.live_of_view hview)
  exact hwf.obeys_done hexec hcap ⟨_, f, hflow, hnames, hflows⟩ rfl

theorem WF.obeys_eraseHandle (h : FlowHandle) :
  Obeys T t (.eraseHandle h)
  := by
  rcases herase : t.eraseHandle T h with ⟨u, found⟩
  have hexec : exec T t (.eraseHandle h) = (u, .removed found) := by
    rw [exec, herase]
  rw [eraseHandle] at herase
  split at herase
  case h_1 hslot =>
    obtain ⟨rfl, rfl⟩ := Prod.mk.inj herase
    have hnone := flows_of_slotOf_none (T := T) hslot
    refine wf.obeys_same hexec ⟨by rw [hnone]; rfl, ?_⟩
    rw [← hnone, update_eq_self]
  case h_2 s hslot =>
  obtain ⟨rfl, rfl⟩ := Prod.mk.inj herase
  obtain ⟨hs, hlive, rfl, f, hflow, _⟩ := wf.slotOf_flow hslot
  obtain ⟨hwf, hcap, hflows⟩ := wf.flows_eraseSlot hs hlive
  exact hwf.obeys_done hexec hcap ⟨by rw [hflow]; rfl, hflows⟩ rfl

theorem WF.obeys_modify (h : FlowHandle) (g : State → State) :
  Obeys T t (.modify h g)
  := by
  rcases hslot : t.slotOf h with _ | s
  case none =>
    have hnone := flows_of_slotOf_none (T := T) hslot
    have hexec : exec T t (.modify h g) = (t, .modified) := by
      rw [exec, modify, hslot]
    refine wf.obeys_same hexec (?_ : t.flows T = _)
    rw [hnone, map_none, ← hnone, update_eq_self]
  case some =>
  obtain ⟨hs, hlive, rfl, f, hflow, hentry⟩ := wf.slotOf_flow hslot
  obtain ⟨slot, hnew⟩ : ∃ slot, slot = { t.slots s with state := (t.slots s).state.map g } :=
    ⟨_, rfl⟩
  have hexec : exec T t (.modify (t.handleOf s) g) = (t.setSlot s slot, .modified) := by
    rw [exec, modify, hslot, hnew]
  have hkeyed : (t.setSlot s slot).Keyed T := by
    refine wf.toKeyed.congr rfl rfl rfl ?_
    intro s'
    by_cases hne : s' = s
    · rw [hne, slots_setSlot_self, hnew]
      rfl
    · rw [slots_setSlot_of_ne hne]
  have hslot' : slot.WF T.kKeysPerSlot := by
    rw [hnew]
    refine ⟨(wf.slot s hs).marked, fun hlive => ?_⟩
    obtain ⟨hmask, hstate⟩ := (wf.slot s hs).primary hlive
    exact ⟨hmask, by rw [isSome_map, hstate]⟩
  obtain ⟨hwf, hcap, hflows⟩ := wf.retouch rfl hkeyed hs hslot' (by rw [hnew]) hlive
  refine hwf.obeys_done hexec hcap (?_ : _ = _) rfl
  obtain ⟨hprim, hstate, haliases⟩ := entry_eq_some.mp hentry
  rw [hflows, hflow, map_some]
  congr 1
  rw [entry_eq_some, hnew]
  exact ⟨hprim, by rw [hstate, map_some], haliases⟩

theorem WF.obeys (allowed : call.Allowed T) :
  Obeys T t call
  := by
  cases call with
  | emplace key aliasKey state => exact wf.obeys_emplace key allowed state
  | addAlias h key => exact wf.obeys_addAlias h key
  | removeAlias key => exact wf.obeys_removeAlias key
  | erase key => exact wf.obeys_erase key
  | eraseHandle h => exact wf.obeys_eraseHandle h
  | modify h g => exact wf.obeys_modify h g

end

/-! ### Lookups -/

/-- The loop of `FindBatch`, with the states of the keys seen so far and their bits. -/
theorem findBatch_loop (keys : List Key) (n : ℕ) (acc : List (Option State)) (bits : BitVec 64) :
  let r := (keys.zipIdx n).foldl
    (fun acc p => match t.findKid T p.1 with
      | none => (acc.1 ++ [none], acc.2)
      | some kid =>
        (acc.1 ++ [(t.slots (kid / T.kKeysPerSlot)).state], acc.2 ||| (1#64 <<< p.2)))
    (acc, bits)
  r.1 = acc ++ keys.map (t.find T)
    ∧ ∀ i < 64, r.2.getLsbD i
      = (bits.getLsbD i || decide (n ≤ i) && ((keys[i - n]?).bind (t.findKid T)).isSome)
  := by
  induction keys generalizing n acc bits with
  | nil => simp
  | cons key keys ih =>
  rw [zipIdx_cons, foldl_cons]
  rcases hkid : t.findKid T key with _ | kid
  · obtain ⟨hstates, hbits⟩ := ih (n + 1) (acc ++ [none]) bits
    refine ⟨?_, ?_⟩
    · simp only [hkid, hstates, map_cons, find, bind_none, append_assoc, singleton_append]
    intro i hi
    simp only [hbits i hi]
    congr 1
    rcases Nat.lt_trichotomy n i with h | rfl | h
    · obtain ⟨d, rfl⟩ := Nat.exists_eq_add_of_lt h
      simp [show n + d + 1 - n = d + 1 by omega]
      omega
    · simp [hkid]
    · simp [show ¬ n ≤ i by omega, show ¬ n + 1 ≤ i by omega]
  obtain ⟨hstates, hbits⟩ := ih (n + 1) (acc ++ [(t.slots (kid / T.kKeysPerSlot)).state])
    (bits ||| (1#64 <<< n))
  refine ⟨?_, ?_⟩
  · simp only [hkid, hstates, map_cons, find, bind_some, append_assoc, singleton_append]
  intro i hi
  simp only [hbits i hi]
  rcases Nat.lt_trichotomy n i with h | rfl | h
  · obtain ⟨d, rfl⟩ := Nat.exists_eq_add_of_lt h
    simp [show n + d + 1 - n = d + 1 by omega, show n + d + 1 - (n + 1) = d by omega,
      show n ≤ n + d + 1 by omega]
  · simp [hkid, hi]
  · simp [show ¬ n ≤ i by omega, show ¬ n + 1 ≤ i by omega]

theorem WF.find_isSome (wf : t.WF T) (key : Key) :
  (t.find T key).isSome = (t.findKid T key).isSome
  := by
  rw [find]
  rcases hkid : t.findKid T key with _ | kid
  · rfl
  obtain ⟨f, hentry, _⟩ := wf.entry_of_view (wf.findKid_eq_some.mp hkid)
  rw [bind_some, (entry_eq_some.mp hentry).2.1]
  rfl

theorem WF.findBatch (wf : t.WF T) (keys : List Key) :
  (t.findBatch T keys).1 = keys.map (t.find T)
    ∧ ∀ i < 64, (t.findBatch T keys).2.getLsbD i = ((keys[i]?).bind (t.find T)).isSome
  := by
  obtain ⟨hstates, hbits⟩ := findBatch_loop keys 0 [] 0
  refine ⟨hstates, ?_⟩
  intro i hi
  refine (hbits i hi).trans ?_
  rcases hkey : keys[i]? with _ | key
  · simp
  · simp [wf.find_isSome]

theorem WF.names_unique (wf : t.WF T) {h' : FlowHandle} {f' : FlowEntry Key State}
    (hflow : t.flows T h = some f) (hflow' : t.flows T h' = some f')
    (hnames : f.Names key) (hnames' : f'.Names key) :
  h = h'
  := by
  obtain ⟨s, hs, hlive, rfl, hentry⟩ := (flows_eq_some wf.capacity_lt).mp hflow
  obtain ⟨s', hs', hlive', rfl, hentry'⟩ := (flows_eq_some wf.capacity_lt).mp hflow'
  obtain ⟨j, hj, hkey⟩ := ((wf.slot s hs).names_iff hlive hentry).mp hnames
  obtain ⟨j', hj', hkey'⟩ := ((wf.slot s' hs').names_iff hlive' hentry').mp hnames'
  have hkids := wf.directory.distinct ((view_kid hs hj).trans hkey) ((view_kid hs' hj').trans hkey')
  rw [← kid_div (s := s) hj, hkids, kid_div hj']

theorem WF.size_eq (wf : t.WF T) :
  t.size = {h | (t.flows T h).isSome = true}.ncard
  := by
  have hset : {h | (t.flows T h).isSome = true}
      = (((Finset.range t.capacity).filter fun s => (t.slots s).live = true).image t.handleOf
        : Finset FlowHandle) := by
    ext h
    rw [Set.mem_ofPred_eq, Finset.mem_coe, Finset.mem_image, isSome_iff_exists]
    constructor
    · rintro ⟨f, hflow⟩
      obtain ⟨s, hs, hlive, rfl, _⟩ := (flows_eq_some wf.capacity_lt).mp hflow
      exact ⟨s, Finset.mem_filter.mpr ⟨Finset.mem_range.mpr hs, hlive⟩, rfl⟩
    rintro ⟨s, hmem, rfl⟩
    obtain ⟨hs, hlive⟩ := Finset.mem_filter.mp hmem
    rw [Finset.mem_range] at hs
    obtain ⟨f, hentry⟩ := (wf.slot s hs).exists_entry hlive
    exact ⟨f, (flows_eq_some wf.capacity_lt).mpr ⟨s, hs, hlive, rfl, hentry⟩⟩
  have hinj : Set.InjOn t.handleOf
      ((Finset.range t.capacity).filter fun s => (t.slots s).live = true) := by
    intro s hs s' hs' heq
    have hs := Finset.mem_range.mp (Finset.mem_filter.mp hs).1
    have hs' := Finset.mem_range.mp (Finset.mem_filter.mp hs').1
    have hsmall := wf.capacity_lt
    have h := ((eq_handleOf_iff (by omega)).mp (rfl : t.handleOf s = ⟨_, (t.slots s).generation⟩)).1
    have h' := ((eq_handleOf_iff (by omega)).mp heq).1
    exact h.symm.trans h'
  rw [hset, Set.ncard_coe_finset, Finset.card_image_of_injOn hinj]
  exact wf.room.size_eq

omit [DecidableEq Key] in
theorem WF.full_iff (wf : t.WF T) :
  t.full = true ↔ t.size + t.quarantined = t.capacity
  := by
  have hsum := wf.room.card_add
  rw [full, FreeList.empty, decide_eq_true_iff]
  omega

/-! ### Runs -/

/-- The states a table comes to: a new table of `capacity` flows, and then any calls. -/
inductive Reached (T : FlowTableTraits Key) (capacity : ℕ) : WorkerFlowTable Key State → Prop where
  | create {t : WorkerFlowTable Key State} (h : create T capacity = some t) : Reached T capacity t
  | call {t : WorkerFlowTable Key State} (reached : Reached T capacity t) (call : Call Key State)
      (allowed : call.Allowed T) :
      Reached T capacity (exec T t call).1

theorem Reached.wf {capacity : ℕ} (narrow : T.kReuse = .lifo ∨ capacity ≤ 2 ^ 31)
    (reached : Reached T capacity t) :
  t.WF T
  := by
  induction reached with
  | create h => exact (wf_create h narrow).1
  | call _ call allowed ih => exact (ih.obeys allowed).wf

/-- A table is the map of its flows in every state it comes to: no check fails, the size is the
number of flows, the lookups find what a key or a handle names, and each call obeys its
specification, a refused one without any change. -/
theorem flow_table_refines_map {capacity : ℕ} (narrow : T.kReuse = .lifo ∨ capacity ≤ 2 ^ 31)
    (reached : Reached T capacity t) :
  t.fatal = false
    ∧ t.size = {h | (t.flows T h).isSome = true}.ncard
    ∧ (t.full = true ↔ t.size + t.quarantined = t.capacity)
    ∧ (∀ h h' f f' key, t.flows T h = some f → t.flows T h' = some f' → f.Names key →
      f'.Names key → h = h')
    ∧ (∀ key, Found (t.flows T) key (t.findRef T key)
      ∧ t.find T key = (t.findRef T key).state)
    ∧ (∀ keys : List Key, (t.findBatch T keys).1 = keys.map (t.find T)
      ∧ ∀ i < 64, (t.findBatch T keys).2.getLsbD i = ((keys[i]?).bind (t.find T)).isSome)
    ∧ (∀ h, t.lookup h = (t.flows T h).map FlowEntry.state)
    ∧ ∀ call : Call Key State, call.Allowed T →
      Spec T (t.full = true) (t.flows T) call (exec T t call).2 ((exec T t call).1.flows T)
        ∧ ((exec T t call).2.refused = true → (exec T t call).1 = t)
  := by
  have wf := reached.wf narrow
  refine ⟨wf.fatal_eq, wf.size_eq, wf.full_iff, ?_, ?_, wf.findBatch, lookup_eq wf, ?_⟩
  · intro h h' f f' key hflow hflow' hnames hnames'
    exact wf.names_unique hflow hflow' hnames hnames'
  · intro key
    exact ⟨wf.findRef key, find_eq key⟩
  intro call allowed
  have obeys := wf.obeys allowed
  exact ⟨obeys.spec, obeys.refused⟩

/-- Two flows with room for one alias each. -/
def pairTraits : FlowTableTraits ℕ :=
  ⟨1, .lifo, BitVec.ofNat 64, oneAlias_le⟩

def pairTable : WorkerFlowTable ℕ ℕ :=
  (create pairTraits 2).getD ⟨.create 0, fun _ => .empty, .init 0 .lifo, 0, 0, 0, false⟩

theorem flow_table_refines_map_pair :
  let t := (exec pairTraits pairTable (.emplace 5 (some 9) 70)).1
  t.findRef pairTraits 9 = ⟨some 70, ⟨1, 1⟩, true⟩ ∧ t.size = 1
    ∧ t.size = {h | (t.flows pairTraits h).isSome = true}.ncard
    ∧ Found (t.flows pairTraits) 9 (t.findRef pairTraits 9)
  := by
  have reached : Reached pairTraits 2 (exec pairTraits pairTable (.emplace 5 (some 9) 70)).1 :=
    .call (.create rfl) _ (fun _ => by decide)
  have h := flow_table_refines_map (.inl rfl) reached
  refine ⟨by decide +kernel, by decide +kernel, h.2.1, (h.2.2.2.2.1 9).1⟩

/-! ### A ring of more than 2³¹ slots

The 32-bit sum wraps in a table of 2³² - 2 flows. Keys 0, 1 and 2 come and go; the third push
lands on the first, so slot 0 is out of the ring and slot 2 is in it twice. When every key from 3 on
has come as well, and 2 and 1 again, the next flow takes the slot of a live one. -/

omit [DecidableEq Key] in
theorem slots_insertKey (t : WorkerFlowTable Key State) (hashed : Hashed) (kid : ℕ) :
  (t.insertKey hashed kid).slots = t.slots
  := by
  rw [insertKey]
  split <;> rfl

omit [DecidableEq Key] in
theorem slots_dropKeys (s : ℕ) (js : List ℕ) (t : WorkerFlowTable Key State) :
  (js.foldl (dropKey T s) t).slots = t.slots
  := by
  induction js generalizing t with
  | nil => rfl
  | cons j js ih =>
  rw [foldl_cons, ih, dropKey]
  split
  case isTrue =>
    split
    case h_1 =>
      rw [eraseKey]
      split <;> rfl
    case h_2 => rfl
  case isFalse => rfl

omit [DecidableEq Key] in
theorem slots_make (t : WorkerFlowTable Key State) (key : Key) (state : State) :
  (t.make T key none state).slots
    = update t.slots t.free.peek (madeSlot (t.slots t.free.peek) key none state)
  := by
  simp only [make, claim, setSlot, slots_insertKey, update_self, update_idem, madeSlot]

omit [DecidableEq Key] in
theorem slots_eraseSlot (t : WorkerFlowTable Key State) (s : ℕ) :
  (t.eraseSlot T s).slots = update t.slots s (t.slots s).vacate
  := by
  have hdrop := slots_dropKeys (T := T) s (List.range T.kKeysPerSlot) t
  rw [eraseSlot]
  split <;> simp only [setSlot, hdrop]

/-- An `Emplace` into a dead slot, whatever else the free ring holds. -/
theorem Keyed.exec_emplace (keyed : t.Keyed T) (hsome : t.free.empty = false)
    (hs : t.free.peek < t.capacity) (hunmarked : ∀ j, (t.slots t.free.peek).keyMask j = false)
    (hkey : ∀ kid, t.view T kid ≠ some key) (state : State) :
  let u := (exec T t (.emplace key none state)).1
  u.Keyed T ∧ u.capacity = t.capacity ∧ u.free = t.free.pop
    ∧ u.slots = update t.slots t.free.peek (madeSlot (t.slots t.free.peek) key none state)
  := by
  have hexec : (exec T t (.emplace key none state)).1 = t.make T key none state := by
    rw [exec, createImpl, keyed.findKid_eq_none.mpr hkey]
    simp [hsome]
  have halias : ∀ a, (none : Option Key) = some a → a ≠ key ∧ ∀ kid, t.view T kid ≠ some a := by
    simp
  obtain ⟨index, hmake, keyed'⟩ := keyed.make hs hunmarked hkey halias (by simp) state
  rw [hexec]
  refine ⟨keyed', ?_⟩
  rw [hmake]
  exact ⟨rfl, rfl, rfl⟩

theorem Keyed.exec_erase (keyed : t.Keyed T) (hs : s < t.capacity)
    (hslot : (t.slots s).WF T.kKeysPerSlot) (hgen : (t.slots s).vacate.generation ≠ 0)
    (hkey : (t.slots s).keyIn 0 = some key) :
  let u := (exec T t (.erase key)).1
  u.Keyed T ∧ u.capacity = t.capacity ∧ u.free = t.free.push s
    ∧ u.slots = update t.slots s (t.slots s).vacate
  := by
  have hview := (view_kid hs (kKeysPerSlot_pos T)).trans hkey
  have hexec : (exec T t (.erase key)).1 = t.eraseSlot T s := by
    rw [exec, erase, keyed.findKid_eq_some.mpr hview]
    simp only [kid_div (kKeysPerSlot_pos T)]
  obtain ⟨keyed', hcap, hslots, _, hfree⟩ := keyed.eraseSlot hs hslot
  rw [if_neg hgen] at hfree
  rw [hexec]
  exact ⟨keyed', hcap, hfree.1, hslots⟩

def wideTraits : FlowTableTraits ℕ :=
  ⟨0, .fifo, fun _ => 0, noAlias_le⟩

def wide : ℕ := 2 ^ 32 - 2

/-- A state of the wide table, by its ring and its records. -/
def Stage (free : FreeList) (slots : ℕ → SlotRecord ℕ Unit) : Prop :=
  ∃ t : WorkerFlowTable ℕ Unit, Reached wideTraits wide t ∧ t.Keyed wideTraits
    ∧ t.capacity = wide ∧ t.free = free ∧ t.slots = slots

theorem stage_create :
  Stage (.init wide .fifo) (fun _ => .empty)
  := by
  have hsmall : ¬ (wide = 0 ∨ 2 ^ 32 - 1 ≤ wide * wideTraits.kKeysPerSlot) := by decide
  have hcreate : (create wideTraits wide : Option (WorkerFlowTable ℕ Unit)) = some _ :=
    if_neg (t := none) hsmall
  exact ⟨_, .create hcreate, keyed_create hcreate, rfl, rfl, rfl⟩

section

variable {free : FreeList} {slots : ℕ → SlotRecord ℕ Unit}

theorem Stage.emplace (stage : Stage free slots) (key : ℕ) (hsome : free.empty = false)
    (hs : free.peek < wide) (hunmarked : ∀ j, (slots free.peek).keyMask j = false)
    (hkey : ∀ s, (slots s).keyIn 0 ≠ some key) :
  Stage free.pop (update slots free.peek (madeSlot (slots free.peek) key none ()))
  := by
  obtain ⟨t, reached, keyed, hcap, rfl, rfl⟩ := stage
  have hfresh : ∀ kid, t.view wideTraits kid ≠ some key := by
    intro kid hview
    have := keyIn_of_view hview
    rw [show kid % wideTraits.kKeysPerSlot = 0 from Nat.mod_one kid] at this
    exact hkey _ this
  obtain ⟨keyed', hcap', hfree, hslots⟩ := keyed.exec_emplace hsome (hcap ▸ hs) hunmarked
    hfresh ()
  have allowed : (Call.emplace key none ()).Allowed wideTraits := fun h => by simp at h
  exact ⟨_, reached.call _ allowed, keyed', hcap'.trans hcap, hfree, hslots⟩

theorem Stage.erase (stage : Stage free slots) {key : ℕ} (hs : s < wide)
    (hslot : (slots s).WF wideTraits.kKeysPerSlot) (hgen : (slots s).vacate.generation ≠ 0)
    (hkey : (slots s).keyIn 0 = some key) :
  Stage (free.push s) (update slots s (slots s).vacate)
  := by
  obtain ⟨t, reached, keyed, hcap, rfl, rfl⟩ := stage
  obtain ⟨keyed', hcap', hfree, hslots⟩ := keyed.exec_erase (hcap ▸ hs) hslot hgen
    hkey
  exact ⟨_, reached.call (.erase key) trivial, keyed', hcap'.trans hcap, hfree, hslots⟩

end

/-- The record of the only flow a slot has had, and what it leaves. -/
def held (s : ℕ) : SlotRecord ℕ Unit :=
  madeSlot .empty s none ()

def gone (s : ℕ) : SlotRecord ℕ Unit :=
  (held s).vacate

theorem wf_held (s : ℕ) :
  (held s).WF wideTraits.kKeysPerSlot
  := wf_madeSlot rfl s (by simp) ()

/-- A key comes into each slot from `m` on, in the order of an undisturbed part of the ring. -/
theorem Stage.sweep {items : ℕ → ℕ} {slots : ℕ → SlotRecord ℕ Unit} {m count : ℕ}
    (stage : Stage ⟨items, wide, m, count, .fifo⟩ slots)
    (hitems : ∀ i, m ≤ i → items i = i) (hempty : ∀ s, m ≤ s → slots s = .empty)
    (hkeys : ∀ s key, (slots s).keyIn 0 = some key → key < m) (n : ℕ) (hn : m + n < wide)
    (hcount : n ≤ count) :
  Stage ⟨items, wide, m + n, count - n, .fifo⟩
    fun s => if m ≤ s ∧ s < m + n then held s else slots s
  := by
  induction n with
  | zero =>
    have hslots : (fun s => if m ≤ s ∧ s < m + 0 then held s else slots s) = slots := by
      funext s
      rw [if_neg (by omega)]
    rw [hslots]
    exact stage
  | succ n ih =>
  specialize ih (by omega) (by omega)
  have hpeek : (⟨items, wide, m + n, count - n, .fifo⟩ : FreeList).peek = m + n :=
    hitems (m + n) (by omega)
  have hslot : (if m ≤ m + n ∧ m + n < m + n then held (m + n) else slots (m + n)) = .empty := by
    rw [if_neg (by omega), hempty _ (by omega)]
  have h := ih.emplace (m + n) (decide_eq_false (by simp only; omega)) (by rw [hpeek]; omega)
    (by rw [hpeek, hslot]; exact fun _ => rfl) (by
      intro s
      split
      case isTrue h =>
        intro heq
        have : s = m + n := Option.some.inj heq
        omega
      case isFalse h =>
      intro heq
      have := hkeys s _ heq
      omega)
  rw [hpeek, hslot] at h
  have hfree : (⟨items, wide, m + n, count - n, .fifo⟩ : FreeList).pop
      = ⟨items, wide, m + (n + 1), count - (n + 1), .fifo⟩ := by
    simp only [FreeList.pop]
    rw [if_neg (by omega)]
    congr 1
  have hslots : update (fun s => if m ≤ s ∧ s < m + n then held s else slots s) (m + n)
      (held (m + n)) = fun s => if m ≤ s ∧ s < m + (n + 1) then held s else slots s := by
    funext s
    by_cases hs : s = m + n
    · rw [hs, update_self, if_pos (by omega)]
    rw [update_of_ne hs]
    have hiff : m ≤ s ∧ s < m + (n + 1) ↔ m ≤ s ∧ s < m + n := by omega
    simp only [hiff]
  rw [hfree] at h
  exact hslots ▸ h

/-- The ring after three flows have come and gone. -/
def spoilt (head count : ℕ) : FreeList :=
  ⟨fun i => if i = 0 then 2 else i, wide, head, count, .fifo⟩

theorem stage_spoilt :
  Stage (spoilt 3 wide) fun s => if s < 3 then gone s else .empty
  := by
  have h₃ := Stage.sweep stage_create (fun _ _ => rfl) (fun _ _ => rfl) (fun _ _ h => by
    simp [keyIn, empty] at h) 3 (by decide) (by decide)
  have h₂ := h₃.erase (s := 0) (by decide) (wf_held 0) (by decide) (rfl : (held 0).keyIn 0 = some 0)
  have h₁ := h₂.erase (s := 1) (by decide) (wf_held 1) (by decide) (rfl : (held 1).keyIn 0 = some 1)
  have h₀ := h₁.erase (s := 2) (by decide) (wf_held 2) (by decide) (rfl : (held 2).keyIn 0 = some 2)
  have hpush (items : ℕ → ℕ) (count tail slot : ℕ)
      (htail : (if wide ≤ (3 + count) % 2 ^ 32 then (3 + count) % 2 ^ 32 - wide
        else (3 + count) % 2 ^ 32) = tail) :
      (⟨items, wide, 3, count, .fifo⟩ : FreeList).push slot
        = ⟨update items tail slot, wide, 3, count + 1, .fifo⟩ := by
    rw [← htail]
    rfl
  have hitems : update (update (update id 0 0) 1 1) 0 2
      = fun i : ℕ => if i = 0 then 2 else i := by
    funext i
    by_cases h : i = 0
    · simp [h]
    · by_cases h' : i = 1 <;> simp [h, h']
  -- The third sum is 2³², so the third push writes where the first one did.
  have hfree : (((⟨id, wide, 3, wide - 3, .fifo⟩ : FreeList).push 0).push 1).push 2
      = spoilt 3 wide := by
    rw [hpush _ _ 0 0 (by decide), hpush _ _ 1 1 (by decide), hpush _ _ 0 2 (by decide), hitems,
      show wide - 3 + 1 + 1 + 1 = wide by decide, spoilt]
  have hslots : update (update (update
      (fun s => if 0 ≤ s ∧ s < 0 + 3 then held s else .empty) 0 (gone 0)) 1 (gone 1)) 2 (gone 2)
      = fun s => if s < 3 then gone s else .empty := by
    funext s
    rcases s with _ | _ | _ | s
    · rfl
    · rfl
    · rfl
    rw [update_of_ne (by omega), update_of_ne (by omega),
      update_of_ne (by omega), if_neg (by omega), if_neg (by omega)]
  rw [← hfree, ← hslots]
  exact h₀

theorem peek_spoilt (head count : ℕ) :
  (spoilt head count).peek = if head = 0 then 2 else head
  := rfl

theorem pop_spoilt (head count : ℕ) :
  (spoilt head count).pop = spoilt (if head + 1 = wide then 0 else head + 1) (count - 1)
  := rfl

/-- The table when every slot from 3 on has a flow. -/
theorem stage_wrapped :
  ∃ slots, Stage (spoilt 0 3) slots ∧ (∀ s < 3, slots s = gone s)
    ∧ ∀ s key, (slots s).keyIn 0 = some key → key = s ∧ 3 ≤ s
  := by
  have hswept := Stage.sweep stage_spoilt (fun i hi => if_neg (by omega))
    (fun s hs => if_neg (by omega)) (by
      intro s key h
      split at h
      · cases h
      · simp [keyIn, empty] at h) (wide - 4) (by decide) (by decide)
  generalize hslots : (fun s => if 3 ≤ s ∧ s < 3 + (wide - 4) then held s
    else if s < 3 then gone s else .empty) = slots at hswept
  have hkeys : ∀ s key, (slots s).keyIn 0 = some key → key = s ∧ 3 ≤ s ∧ s < 3 + (wide - 4) := by
    intro s key h
    rw [← hslots] at h
    simp only at h
    split at h
    case isTrue hs =>
      cases h
      exact ⟨rfl, hs⟩
    case isFalse =>
    split at h
    · cases h
    · simp [keyIn, empty] at h
  have hlast : slots (wide - 1) = .empty := by
    rw [← hslots]
    exact (if_neg (by decide)).trans (if_neg (by decide))
  have hfree : (⟨fun i => if i = 0 then 2 else i, wide, 3 + (wide - 4), wide - (wide - 4), .fifo⟩
      : FreeList) = spoilt (wide - 1) 4 := by
    rw [spoilt, show 3 + (wide - 4) = wide - 1 by decide, show wide - (wide - 4) = 4 by decide]
  have hpeek : (spoilt (wide - 1) 4).peek = wide - 1 := by
    rw [peek_spoilt, if_neg (by decide)]
  rw [hfree] at hswept
  have hwide : 3 + (wide - 4) = wide - 1 ∧ 3 < wide - 1 := by decide
  have h := hswept.emplace (wide - 1) rfl (by rw [hpeek]; decide)
    (by rw [hpeek, hlast]; exact fun _ => rfl) (fun s h => by have := hkeys s _ h; omega)
  refine ⟨_, h, ?_, ?_⟩
  · intro s hs
    rw [update_of_ne (by omega), ← hslots]
    simp only
    rw [if_neg (by omega), if_pos hs]
  intro s key hkey
  rw [update_apply] at hkey
  split at hkey
  case isTrue hs =>
    cases hkey
    exact ⟨hs.symm, by omega⟩
  case isFalse => exact ⟨(hkeys s key hkey).1, (hkeys s key hkey).2.1⟩

/-- The table when slots 2 and 1 have a flow again, and slot 2 is next. -/
theorem stage_full :
  ∃ slots, Stage (spoilt 2 1) slots ∧ (slots 2).generation = 3 ∧ ∀ s, (slots s).keyIn 0 ≠ some 0
  := by
  obtain ⟨slots, stage, hgone, hkeys⟩ := stage_wrapped
  have h₂ := stage.emplace 2 rfl (by decide)
    (by rw [peek_spoilt, if_pos rfl, hgone 2 (by omega)]; exact fun _ => rfl)
    (fun s h => by have := hkeys s _ h; omega)
  rw [peek_spoilt, if_pos rfl, pop_spoilt, if_neg (by decide), hgone 2 (by omega)] at h₂
  have hkeys₂ : ∀ s key, (update slots 2 (madeSlot (gone 2) 2 none ()) s).keyIn 0 = some key →
      key = s ∧ 2 ≤ s := by
    intro s key hkey
    rw [update_apply] at hkey
    split at hkey
    case isTrue hs =>
      cases hkey
      omega
    case isFalse =>
    have := hkeys s key hkey
    omega
  have hpeek : (spoilt 1 2).peek = 1 := rfl
  have hslot : update slots 2 (madeSlot (gone 2) 2 none ()) 1 = gone 1 := by
    rw [update_of_ne (by decide), hgone 1 (by omega)]
  have h₁ := Stage.emplace h₂ 1 rfl (by decide) (by rw [hpeek, hslot]; exact fun _ => rfl)
    (fun s h => by have := hkeys₂ s _ h; omega)
  refine ⟨_, h₁, rfl, ?_⟩
  intro s hkey
  rw [update_apply] at hkey
  split at hkey
  case isTrue => cases hkey
  case isFalse =>
  have := hkeys₂ s 0 hkey
  omega

/-- The next flow takes slot 2, which has a live one. -/
theorem wide_create :
  ∃ t : WorkerFlowTable ℕ Unit, Reached wideTraits wide t ∧ t.capacity = wide ∧ t.free.peek = 2
    ∧ (t.slots 2).generation = 3 ∧ t.createImpl wideTraits 0 none ()
      = (t.make wideTraits 0 none (),
        ⟨some (), (t.make wideTraits 0 none ()).handleOf 2, .created⟩)
  := by
  obtain ⟨slots, ⟨t, reached, keyed, hcap, hfree, hslots⟩, hgen, hkeys⟩ := stage_full
  have hfind : t.findKid wideTraits 0 = none := by
    rw [keyed.findKid_eq_none]
    intro kid hview
    have hkey := keyIn_of_view hview
    rw [show kid % wideTraits.kKeysPerSlot = 0 from Nat.mod_one kid, hslots] at hkey
    exact hkeys _ hkey
  have hpeek : t.free.peek = 2 := by
    rw [hfree]
    rfl
  refine ⟨t, reached, hcap, hpeek, by rw [hslots, hgen], ?_⟩
  rw [createImpl, hfind, hpeek]
  simp [hfree, spoilt, FreeList.empty]

/-- `Emplace` reports a new flow, and its handle finds nothing. -/
theorem wide_table_loses_flow :
  ∃ t : WorkerFlowTable ℕ Unit, Reached wideTraits wide t
    ∧ (t.createImpl wideTraits 0 none ()).2.status = .created
    ∧ (t.createImpl wideTraits 0 none ()).1.lookup (t.createImpl wideTraits 0 none ()).2.handle = none
  := by
  obtain ⟨t, reached, -, hpeek, hgen, hcreate⟩ := wide_create
  have hdead : ((t.make wideTraits 0 none ()).slots 2).live = false := by
    rw [slots_make, hpeek, update_self, live_madeSlot, live, hgen]
    rfl
  refine ⟨t, reached, ?_, ?_⟩
  · rw [hcreate]
  rw [hcreate, lookup]
  have hslotOf : (t.make wideTraits 0 none ()).slotOf
      ((t.make wideTraits 0 none ()).handleOf 2) = none := by
    have hid : (((t.make wideTraits 0 none ()).handleOf 2).id - 1).toNat = 2 :=
      ((eq_handleOf_iff (by decide)).mp rfl).1
    rw [slotOf, hid]
    simp only [hdead, Bool.false_eq_true, and_false, if_false, ite_self]
  rw [hslotOf, bind_none]

end WorkerFlowTable

end Flow
