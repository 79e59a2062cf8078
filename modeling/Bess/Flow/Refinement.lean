import Bess.Flow.Invariant
import Mathlib.Data.Set.Card

/-!
# A flow table is a finite map with aliases

A table stands for the map that sends the handle of each live flow to the flow's primary key, its
aliases and its state. In every state that calls can reach, a lookup finds the flow that a key
names, and each call changes the map and answers as the specification says.
-/

namespace Flow

open Function List SlotRecord

variable {Key State : Type} [DecidableEq Key]

/-- A flow: the keys that name it and its state. -/
structure FlowEntry (Key State : Type) : Type where
  primary : Key
  aliases : Finset Key
  state : State

/-- The key is the flow's primary key or one of its aliases. -/
def FlowEntry.Names (f : FlowEntry Key State) (key : Key) : Prop :=
  key = f.primary ∨ key ∈ f.aliases

/-- The live flows by their handles. -/
abbrev FlowMap (Key State : Type) : Type :=
  FlowHandle → Option (FlowEntry Key State)

/-- Some flow of the map has the key. -/
def FlowMap.Bound (m : FlowMap Key State) (key : Key) : Prop :=
  ∃ h f, m h = some f ∧ f.Names key

/-! ### The map of a table -/

/-- The flow of a slot record. -/
def SlotRecord.entry (T : FlowTableTraits Key) (slot : SlotRecord Key State) :
    Option (FlowEntry Key State) :=
  (slot.keys 0).bind fun primary => slot.state.map fun state =>
    ⟨primary, ((List.range' 1 T.kAliases).filterMap slot.keyIn).toFinset, state⟩

variable {T : FlowTableTraits Key} {aliasKey : Option Key}

namespace SlotRecord

variable {slot : SlotRecord Key State} {f : FlowEntry Key State} {key : Key} {j : ℕ}

theorem mem_aliases :
  key ∈ ((List.range' 1 T.kAliases).filterMap slot.keyIn).toFinset
    ↔ ∃ j, 1 ≤ j ∧ j < T.kKeysPerSlot ∧ slot.keyIn j = some key
  := by
  rw [mem_toFinset, mem_filterMap, FlowTableTraits.kKeysPerSlot]
  simp only [mem_range'_1, and_assoc]

theorem entry_eq_some :
  slot.entry T = some f ↔ slot.keys 0 = some f.primary ∧ slot.state = some f.state
    ∧ f.aliases = ((List.range' 1 T.kAliases).filterMap slot.keyIn).toFinset
  := by
  rw [entry, Option.bind_eq_some_iff]
  constructor
  · rintro ⟨primary, hprim, hmap⟩
    obtain ⟨state, hstate, rfl⟩ := Option.map_eq_some_iff.mp hmap
    exact ⟨hprim, hstate, rfl⟩
  rintro ⟨hprim, hstate, haliases⟩
  refine ⟨f.primary, hprim, ?_⟩
  rw [hstate, Option.map_some, ← haliases]

section

variable (wf : slot.WF T.kKeysPerSlot)

include wf

variable (hlive : slot.live = true)

include hlive

theorem WF.exists_entry :
  ∃ f, slot.entry T = some f
  := by
  obtain ⟨hmask, hstate⟩ := wf.primary hlive
  obtain ⟨primary, hprim⟩ := Option.isSome_iff_exists.mp (wf.marked hmask).2.2
  obtain ⟨state, hstate⟩ := Option.isSome_iff_exists.mp hstate
  exact ⟨⟨primary, _, state⟩, entry_eq_some.mpr ⟨hprim, hstate, rfl⟩⟩

theorem WF.keyIn_zero (hentry : slot.entry T = some f) :
  slot.keyIn 0 = some f.primary
  := by
  rw [keyIn, if_pos (wf.primary hlive).1, (entry_eq_some.mp hentry).1]

theorem WF.names_iff (hentry : slot.entry T = some f) :
  f.Names key ↔ ∃ j < T.kKeysPerSlot, slot.keyIn j = some key
  := by
  have hzero := wf.keyIn_zero hlive hentry
  rw [FlowEntry.Names, (entry_eq_some.mp hentry).2.2, mem_aliases]
  constructor
  · rintro (rfl | ⟨j, _, hj, hkey⟩)
    · exact ⟨0, WorkerFlowTable.kKeysPerSlot_pos T, hzero⟩
    · exact ⟨j, hj, hkey⟩
  rintro ⟨j, hj, hkey⟩
  rcases Nat.eq_zero_or_pos j with rfl | hpos
  · left
    rw [hzero] at hkey
    exact (Option.some.inj hkey).symm
  · exact .inr ⟨j, hpos, hj, hkey⟩

end

theorem entry_madeSlot (key : Key) (hroom : aliasKey.isSome = true → 0 < T.kAliases) (state : State) :
  (WorkerFlowTable.madeSlot slot key aliasKey state).entry T
    = some ⟨key, aliasKey.toFinset, state⟩
  := by
  rw [entry_eq_some]
  cases aliasKey with
  | none =>
    refine ⟨rfl, rfl, ?_⟩
    ext k
    rw [mem_aliases]
    simp only [WorkerFlowTable.madeSlot, keyIn_advance, keyIn_claim]
    constructor
    · simp
    rintro ⟨j, hj, _, hkey⟩
    rw [if_neg (by omega)] at hkey
    cases hkey
  | some a =>
  refine ⟨rfl, rfl, ?_⟩
  have hone := hroom rfl
  ext k
  rw [mem_aliases]
  simp only [WorkerFlowTable.madeSlot, keyIn_advance, keyIn_store, keyIn_claim]
  constructor
  · intro hk
    rw [Option.mem_toFinset] at hk
    refine ⟨1, le_refl 1, ?_, by rw [if_pos rfl, hk]⟩
    rw [FlowTableTraits.kKeysPerSlot]
    omega
  rintro ⟨j, hj, _, hkey⟩
  by_cases h : j = 1
  · rw [if_pos h] at hkey
    exact Option.mem_toFinset.mpr hkey
  rw [if_neg h, if_neg (by omega)] at hkey
  cases hkey

theorem entry_store (hentry : slot.entry T = some f) (hpos : 1 ≤ j)
    (hj : j < T.kKeysPerSlot) (hfree : slot.keyMask j = false) (key : Key) :
  ((slot.storeKey j key).mark j true).entry T = some { f with aliases := insert key f.aliases }
  := by
  obtain ⟨hprim, hstate, haliases⟩ := entry_eq_some.mp hentry
  rw [entry_eq_some]
  refine ⟨?_, hstate, ?_⟩
  · change update slot.keys j (some key) 0 = _
    rw [update_of_ne (by omega), hprim]
  ext k
  rw [mem_aliases, Finset.mem_insert, haliases, mem_aliases]
  simp only [keyIn_store]
  constructor
  · rintro (rfl | ⟨j', hpos', hj', hkey⟩)
    · exact ⟨j, hpos, hj, if_pos rfl⟩
    refine ⟨j', hpos', hj', ?_⟩
    rw [if_neg, hkey]
    rintro rfl
    rw [keyIn_of_unmarked hfree] at hkey
    cases hkey
  rintro ⟨j', hpos', hj', hkey⟩
  by_cases h : j' = j
  · rw [if_pos h] at hkey
    exact .inl (Option.some.inj hkey).symm
  rw [if_neg h] at hkey
  exact .inr ⟨j', hpos', hj', hkey⟩

/-- An alias taken out, when no other place of the slot has its key. -/
theorem entry_unmark (hentry : slot.entry T = some f) (hpos : 1 ≤ j) (hkey : slot.keyIn j = some key)
    (honly : ∀ j' < T.kKeysPerSlot, slot.keyIn j' = some key → j' = j) :
  (slot.mark j false).entry T = some { f with aliases := f.aliases.erase key }
  := by
  obtain ⟨hprim, hstate, haliases⟩ := entry_eq_some.mp hentry
  rw [entry_eq_some]
  refine ⟨hprim, hstate, ?_⟩
  ext k
  rw [mem_aliases, Finset.mem_erase, haliases, mem_aliases]
  simp only [keyIn_mark_false]
  constructor
  · rintro ⟨hne, j', hpos', hj', hkey'⟩
    refine ⟨j', hpos', hj', ?_⟩
    rw [if_neg, hkey']
    rintro rfl
    rw [hkey] at hkey'
    exact hne (Option.some.inj hkey').symm
  rintro ⟨j', hpos', hj', hkey'⟩
  rw [Option.ite_none_left_eq_some] at hkey'
  refine ⟨?_, j', hpos', hj', hkey'.2⟩
  rintro rfl
  exact hkey'.1 (honly j' hj' hkey'.2)

end SlotRecord

namespace WorkerFlowTable

variable {t u : WorkerFlowTable Key State}

/-- The map a table stands for. -/
def flows (T : FlowTableTraits Key) (t : WorkerFlowTable Key State) : FlowMap Key State :=
  fun h => (t.slotOf h).bind fun s => (t.slots s).entry T

variable {h : FlowHandle} {s : ℕ} {f : FlowEntry Key State} {g : BitVec 32}

omit [DecidableEq Key] in
theorem eq_handleOf_iff (hs : s < 2 ^ 32 - 1) :
  h = ⟨BitVec.ofNat 32 (s + 1), g⟩ ↔ (h.id - 1).toNat = s ∧ h.generation = g
  := by
  have hid : h.id = BitVec.ofNat 32 (s + 1) ↔ (h.id - 1).toNat = s := by
    rw [← BitVec.toNat_inj, BitVec.toNat_ofNat, BitVec.toNat_sub,
      show (1 : BitVec 32).toNat = 1 from rfl]
    omega
  rw [← hid]
  constructor
  · rintro rfl
    exact ⟨rfl, rfl⟩
  rintro ⟨h₁, h₂⟩
  cases h
  subst h₁ h₂
  rfl

omit [DecidableEq Key] in
theorem slotOf_eq_some (hcap : t.capacity < 2 ^ 32 - 1) :
  t.slotOf h = some s ↔ s < t.capacity ∧ (t.slots s).live = true ∧ h = t.handleOf s
  := by
  rw [slotOf]
  constructor
  · intro hslot
    split at hslot
    case isTrue => simp at hslot
    case isFalse hlt =>
    split at hslot
    case isFalse => simp at hslot
    case isTrue hlive =>
    obtain rfl := Option.some.inj hslot
    refine ⟨by omega, hlive.2, ?_⟩
    rw [handleOf, eq_handleOf_iff (by omega)]
    exact ⟨rfl, hlive.1.symm⟩
  rintro ⟨hs, hlive, rfl⟩
  obtain ⟨hid, hg⟩ := (eq_handleOf_iff (by omega)).mp
    (show t.handleOf s = ⟨BitVec.ofNat 32 (s + 1), (t.slots s).generation⟩ from rfl)
  rw [hid, if_neg (by omega), if_pos ⟨hg.symm, hlive⟩]

theorem flows_eq_some (hcap : t.capacity < 2 ^ 32 - 1) :
  t.flows T h = some f
    ↔ ∃ s < t.capacity, (t.slots s).live = true ∧ h = t.handleOf s ∧ (t.slots s).entry T = some f
  := by
  rw [flows, Option.bind_eq_some_iff]
  simp only [slotOf_eq_some hcap]
  constructor
  · rintro ⟨s, ⟨hs, hlive, hh⟩, hentry⟩
    exact ⟨s, hs, hlive, hh, hentry⟩
  rintro ⟨s, hs, hlive, hh, hentry⟩
  exact ⟨s, ⟨hs, hlive, hh⟩, hentry⟩

/-- A change of one record changes the map at one handle. -/
theorem flows_update (hcap : u.capacity = t.capacity) (hs : s < t.capacity)
    (hsmall : t.capacity < 2 ^ 32 - 1) (hother : ∀ s' ≠ s, u.slots s' = t.slots s')
    (hbefore : (t.slots s).live = true → (t.slots s).generation = g)
    (hafter : (u.slots s).live = true → (u.slots s).generation = g) :
  u.flows T = update (t.flows T) ⟨BitVec.ofNat 32 (s + 1), g⟩
    (if (u.slots s).live then (u.slots s).entry T else none)
  := by
  funext h
  by_cases hh : h = ⟨BitVec.ofNat 32 (s + 1), g⟩
  case pos =>
    rw [hh, update_self, ← hh]
    obtain ⟨hid, hg⟩ := (eq_handleOf_iff (by omega)).mp hh
    rw [flows, slotOf]
    simp only [hid, hcap, if_neg (Nat.not_le.mpr hs)]
    by_cases hlive : (u.slots s).live = true
    case pos => rw [if_pos ⟨(hafter hlive).trans hg.symm, hlive⟩, if_pos hlive, Option.bind_some]
    case neg => rw [if_neg (fun h => hlive h.2), if_neg hlive, Option.bind_none]
  case neg =>
  rw [update_of_ne hh, flows, flows, slotOf, slotOf]
  rw [eq_handleOf_iff (by omega)] at hh
  by_cases hid : (h.id - 1).toNat = s
  case neg =>
    simp only [hcap, hother _ hid]
    split
    · rfl
    split
    · rw [Option.bind_some, Option.bind_some, hother _ hid]
    · rfl
  case pos =>
  have hg : h.generation ≠ g := fun hg => hh ⟨hid, hg⟩
  have ht : ¬ ((t.slots s).generation = h.generation ∧ (t.slots s).live = true) := by
    rintro ⟨hg', hlive⟩
    exact hg (hg'.symm.trans (hbefore hlive))
  have hu : ¬ ((u.slots s).generation = h.generation ∧ (u.slots s).live = true) := by
    rintro ⟨hg', hlive⟩
    exact hg (hg'.symm.trans (hafter hlive))
  simp only [hid, hcap, if_neg (Nat.not_le.mpr hs), if_neg ht, if_neg hu]
  rfl

variable {key : Key}

theorem WF.entry_of_view (wf : t.WF T) {kid : ℕ} (h : t.view T kid = some key) :
  ∃ f, (t.slots (kid / T.kKeysPerSlot)).entry T = some f
    ∧ t.flows T (t.handleOf (kid / T.kKeysPerSlot)) = some f ∧ f.Names key
  := by
  have hlt := div_lt_of_view h
  have hlive := wf.live_of_view h
  obtain ⟨f, hentry⟩ := (wf.slot _ hlt).exists_entry hlive
  refine ⟨f, hentry, ?_, ?_⟩
  · exact (flows_eq_some wf.capacity_lt).mpr ⟨_, hlt, hlive, rfl, hentry⟩
  exact ((wf.slot _ hlt).names_iff hlive hentry).mpr
    ⟨_, Nat.mod_lt _ (kKeysPerSlot_pos T), keyIn_of_view h⟩

theorem WF.bound_iff (wf : t.WF T) :
  (t.flows T).Bound key ↔ ∃ kid, t.view T kid = some key
  := by
  constructor
  · rintro ⟨h, f, hflow, hnames⟩
    obtain ⟨s, hs, hlive, rfl, hentry⟩ := (flows_eq_some wf.capacity_lt).mp hflow
    obtain ⟨j, hj, hkey⟩ := ((wf.slot s hs).names_iff hlive hentry).mp hnames
    exact ⟨_, (view_kid hs hj).trans hkey⟩
  rintro ⟨kid, hview⟩
  obtain ⟨f, _, hflow, hnames⟩ := wf.entry_of_view hview
  exact ⟨_, f, hflow, hnames⟩

theorem WF.findKid_isSome (wf : t.WF T) :
  (t.findKid T key).isSome = true ↔ (t.flows T).Bound key
  := by
  rw [wf.bound_iff, Option.isSome_iff_exists]
  simp only [wf.findKid_eq_some]

theorem WF.not_bound (wf : t.WF T) (h : ¬ (t.flows T).Bound key) (kid : ℕ) :
  t.view T kid ≠ some key
  := by
  intro hview
  exact h (wf.bound_iff.mpr ⟨kid, hview⟩)

/-- What a lookup says about the map. -/
def Found (m : FlowMap Key State) (key : Key) (r : FlowRef State) : Prop :=
  (∃ h f, m h = some f ∧ f.Names key ∧ r = ⟨some f.state, h, key ≠ f.primary⟩)
    ∨ ¬ m.Bound key ∧ r = ⟨none, kNoFlow, false⟩

theorem WF.findRef (wf : t.WF T) (key : Key) :
  Found (t.flows T) key (t.findRef T key)
  := by
  rw [WorkerFlowTable.findRef]
  split
  case h_1 hnone =>
    right
    rw [← wf.findKid_isSome, hnone]
    simp
  case h_2 kid hkid =>
  left
  have hview := wf.findKid_eq_some.mp hkid
  obtain ⟨f, hentry, hflow, hnames⟩ := wf.entry_of_view hview
  have hlt := div_lt_of_view hview
  have hlive := wf.live_of_view hview
  refine ⟨_, f, hflow, hnames, ?_⟩
  simp only [(entry_eq_some.mp hentry).2.1]
  congr 1
  rw [decide_eq_decide]
  -- The key at position 0 is the primary key, and no key has two positions.
  have hzero := (wf.slot _ hlt).keyIn_zero hlive hentry
  constructor
  · rintro hmod rfl
    apply hmod
    have hprim := (view_kid hlt (kKeysPerSlot_pos T)).trans hzero
    have hkids := wf.directory.distinct hview hprim
    rw [hkids, kid_mod (kKeysPerSlot_pos T)]
  rintro hne hmod
  have hkey := keyIn_of_view hview
  rw [hmod, hzero] at hkey
  exact hne (Option.some.inj hkey).symm

theorem find_eq (key : Key) :
  t.find T key = (t.findRef T key).state
  := by
  rw [find, findRef]
  cases t.findKid T key <;> rfl

variable (wf : t.WF T)

include wf

theorem lookup_eq (h : FlowHandle) :
  t.lookup h = (t.flows T h).map FlowEntry.state
  := by
  rw [lookup, flows]
  rcases hslot : t.slotOf h with _ | s
  case none => rfl
  case some =>
  obtain ⟨hs, hlive, _⟩ := (slotOf_eq_some wf.capacity_lt).mp hslot
  obtain ⟨f, hentry⟩ := (wf.slot s hs).exists_entry hlive
  rw [Option.bind_some, Option.bind_some, hentry, Option.map_some, (entry_eq_some.mp hentry).2.1]

/-! ### What each call does -/

/-- The number of aliases of a flow, and when there is place for one more. -/
theorem WF.card_aliases (hs : s < t.capacity) (hentry : (t.slots s).entry T = some f) :
  f.aliases.card ≤ T.kAliases ∧ (f.aliases.card = T.kAliases
    ↔ ∀ j ∈ List.range' 1 T.kAliases, (t.slots s).keyMask j = true)
  := by
  have hnodup : ((List.range' 1 T.kAliases).filterMap (t.slots s).keyIn).Nodup := by
    rw [List.Nodup, pairwise_filterMap]
    have hrange : (List.range' 1 T.kAliases).Nodup := nodup_range'
    apply List.Pairwise.imp_of_mem _ hrange
    intro j j' hj hj' hne b hb b' hb' hbb'
    rw [mem_range'_1] at hj hj'
    apply hne
    exact wf.keyIn_inj hs (by rw [FlowTableTraits.kKeysPerSlot]; omega)
      (by rw [FlowTableTraits.kKeysPerSlot]; omega) hb' (hbb' ▸ hb)
  have hcard : f.aliases.card
      = (List.range' 1 T.kAliases).countP fun j => ((t.slots s).keyIn j).isSome := by
    rw [(entry_eq_some.mp hentry).2.2, toFinset_card_of_nodup hnodup, length_filterMap_eq_countP]
  have hlen : (List.range' 1 T.kAliases).length = T.kAliases := length_range'
  constructor
  · rw [hcard]
    exact le_of_le_of_eq countP_le_length hlen
  have hiff : f.aliases.card = T.kAliases
      ↔ ∀ j ∈ List.range' 1 T.kAliases, ((t.slots s).keyIn j).isSome = true := by
    rw [hcard, ← countP_eq_length, hlen]
  rw [hiff]
  constructor
  · intro h j hj
    by_contra hmask
    rw [Bool.not_eq_true] at hmask
    have := h j hj
    rw [keyIn_of_unmarked hmask] at this
    cases this
  intro h j hj
  have hmask := h j hj
  rw [keyIn, if_pos hmask]
  exact ((wf.slot s hs).marked hmask).2.2

theorem WF.flows_dead (hs : s < t.capacity) (hdead : (t.slots s).live = false) (g : BitVec 32) :
  t.flows T ⟨BitVec.ofNat 32 (s + 1), g⟩ = none
  := by
  have hsmall := wf.capacity_lt
  rw [Option.eq_none_iff_forall_ne_some]
  intro f hflow
  obtain ⟨s', hs', hlive, hhandle, _⟩ := (flows_eq_some hsmall).mp hflow
  have hid : ((⟨BitVec.ofNat 32 (s + 1), g⟩ : FlowHandle).id - 1).toNat = s :=
    ((eq_handleOf_iff (by omega)).mp rfl).1
  obtain rfl : s = s' := hid.symm.trans ((eq_handleOf_iff (by omega)).mp hhandle).1
  rw [hdead] at hlive
  cases hlive

/-- A live flow's record changes in place, and the index with it: no flow begins or ends. -/
theorem WF.retouch {index : FlowIndex} {slot : SlotRecord Key State}
    (hu : u = { t.setSlot s slot with index := index }) (keyed : u.Keyed T) (hs : s < t.capacity)
    (hslot : slot.WF T.kKeysPerSlot) (hgen : slot.generation = (t.slots s).generation)
    (hlive : (t.slots s).live = true) :
  u.WF T ∧ u.capacity = t.capacity
    ∧ u.flows T = update (t.flows T) (t.handleOf s) (slot.entry T)
  := by
  have hlive' : slot.live = true := by
    rw [live, hgen]
    exact hlive
  have hslots : u.slots = update t.slots s slot := by rw [hu, setSlot]
  have hself : u.slots s = slot := by rw [hslots, update_self]
  have hother : ∀ s' ≠ s, u.slots s' = t.slots s' := by
    intro s' hne
    rw [hslots, update_of_ne hne]
  have hcap : u.capacity = t.capacity := by rw [hu, setSlot]
  refine ⟨⟨keyed, ?_, ?_, ?_⟩, hcap, ?_⟩
  · rw [hcap]
    exact wf.keys_lt
  · intro s' hs'
    by_cases h : s' = s
    · rw [h, hself]
      exact hslot
    rw [hother s' h]
    exact wf.slot s' (hcap ▸ hs')
  · have hsame : (fun s => (u.slots s).live) = fun s => (t.slots s).live := by
      funext s'
      by_cases h : s' = s
      · rw [h, hself, hlive, hlive']
      · rw [hother s' h]
    rw [hsame, hu]
    exact wf.room
  rw [flows_update hcap hs wf.capacity_lt hother
    (fun _ => rfl) (fun _ => by rw [hself, hgen]), hself, if_pos hlive', handleOf]

theorem WF.flows_make (hsome : t.free.empty = false) (hkey : ¬ (t.flows T).Bound key)
    (halias : ∀ a, aliasKey = some a → a ≠ key ∧ ¬ (t.flows T).Bound a)
    (hroom : aliasKey.isSome = true → 0 < T.kAliases) (state : State) :
  (t.make T key aliasKey state).WF T ∧ (t.make T key aliasKey state).capacity = t.capacity
    ∧ t.flows T ((t.make T key aliasKey state).handleOf t.free.peek) = none
    ∧ (t.make T key aliasKey state).flows T
      = update (t.flows T) ((t.make T key aliasKey state).handleOf t.free.peek)
        (some ⟨key, aliasKey.toFinset, state⟩)
  := by
  obtain ⟨hs, hdead⟩ := wf.room.peek hsome
  obtain ⟨⟨index, hmake⟩, hwf⟩ := wf.make hsome (wf.not_bound hkey)
    (fun a ha => ⟨(halias a ha).1, wf.not_bound (halias a ha).2⟩) hroom state
  refine ⟨hwf, by rw [hmake]; rfl, wf.flows_dead hs hdead _, ?_⟩
  have hslot : (t.make T key aliasKey state).slots t.free.peek
      = madeSlot (t.slots t.free.peek) key aliasKey state := by
    rw [hmake]
    exact slots_setSlot_self ..
  have hother : ∀ s' ≠ t.free.peek,
      (t.make T key aliasKey state).slots s' = t.slots s' := by
    intro s' hne
    rw [hmake]
    exact slots_setSlot_of_ne hne _
  rw [flows_update (by rw [hmake]; rfl) hs wf.capacity_lt hother (fun h => by simp [hdead] at h)
    (fun _ => rfl), hslot, live_madeSlot, hdead, Bool.not_false, if_pos rfl,
    entry_madeSlot key hroom, handleOf, hslot]

theorem WF.flows_eraseSlot (hs : s < t.capacity) (hlive : (t.slots s).live = true) :
  (t.eraseSlot T s).WF T ∧ (t.eraseSlot T s).capacity = t.capacity
    ∧ (t.eraseSlot T s).flows T = update (t.flows T) (t.handleOf s) none
  := by
  obtain ⟨hwf, hcap, hslots⟩ := wf.eraseSlot hs hlive
  refine ⟨hwf, hcap, ?_⟩
  have hdead : ((t.eraseSlot T s).slots s).live = false := by
    rw [hslots, update_self, live_vacate, hlive, Bool.not_true]
  rw [flows_update hcap hs wf.capacity_lt _ (fun _ => rfl) (fun h => by simp [hdead] at h),
    hdead, if_neg (by simp), handleOf]
  intro s' hne
  rw [hslots, update_of_ne hne]

end WorkerFlowTable

end Flow
