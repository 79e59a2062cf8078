import Bess.Flow.Table

/-!
# What a flow table keeps

The directory holds the keys that the slot records mark, every slot is live, free or quarantined,
and the size counts the live ones. Each call keeps this, as long as the sum by which a ring of free
slots finds its tail does not pass 2³².
-/

namespace Flow

open Function List FreeList

/-! ### Free slots -/

namespace FreeList

/-- The free slots, the next one to be taken first. -/
def contents (f : FreeList) : List ℕ :=
  match f.reuse with
  | .lifo => (List.range f.count).reverse.map f.items
  | .fifo => (List.range f.count).map fun k => f.items (Probe.place f.capacity f.head k)

/-- The ring is in range, and its tail is found without wrapping. -/
structure WF (f : FreeList) : Prop where
  head_lt : f.head < f.capacity
  count_le : f.count ≤ f.capacity
  narrow : f.reuse = .lifo ∨ f.capacity ≤ 2 ^ 31

theorem length_contents (f : FreeList) :
  f.contents.length = f.count
  := by
  rw [contents]
  split <;> simp

theorem contents_init (capacity : ℕ) (reuse : SlotReuse) :
  (init capacity reuse).contents.Perm (List.range capacity)
  := by
  cases reuse with
  | lifo =>
    have hmap : (init capacity .lifo).contents = List.range capacity := by
      apply ext_getElem
      · simp [contents, init]
      intro i h₁ h₂
      simp only [length_range] at h₂
      simp only [contents, init, getElem_map, getElem_reverse, getElem_range, length_range]
      omega
    rw [hmap]
  | fifo =>
  have hmap : (init capacity .fifo).contents = List.range capacity := by
    apply ext_getElem
    · simp [contents, init]
    intro i h₁ h₂
    simp only [length_range] at h₂
    simp only [contents, init, getElem_map, getElem_range, Probe.place]
    rw [Nat.zero_add, Nat.mod_eq_of_lt h₂]
  rw [hmap]

section

variable {f : FreeList} {slot : ℕ}

@[simp] theorem pop_capacity :
  f.pop.capacity = f.capacity
  := by
  rw [pop]
  split <;> rfl

@[simp] theorem pop_reuse :
  f.pop.reuse = f.reuse
  := by
  rw [pop]
  split <;> simp [*]

@[simp] theorem push_capacity :
  (f.push slot).capacity = f.capacity
  := by
  rw [push]
  split <;> rfl

@[simp] theorem push_reuse :
  (f.push slot).reuse = f.reuse
  := by
  rw [push]
  split <;> simp [*]

theorem WF.pop (wf : f.WF) :
  f.pop.WF
  := by
  have hhead := wf.head_lt
  have hcount := wf.count_le
  constructor
  · rw [FreeList.pop]
    split
    · exact hhead
    simp only
    split <;> omega
  · rw [FreeList.pop]
    split
    · simp only
      omega
    simp only
    omega
  rw [pop_reuse, pop_capacity]
  exact wf.narrow

theorem contents_pop (wf : f.WF) (hsome : f.empty = false) :
  f.contents = f.peek :: f.pop.contents
  := by
  have hcount : f.count ≠ 0 := by
    intro h
    rw [empty, h] at hsome
    simp at hsome
  obtain ⟨n, hn⟩ := Nat.exists_eq_succ_of_ne_zero hcount
  have hhead := wf.head_lt
  cases hreuse : f.reuse with
  | lifo =>
    simp only [contents, peek, pop, hreuse, hn]
    rw [range_succ, reverse_append]
    rfl
  | fifo =>
  have hnext : (if f.head + 1 = f.capacity then 0 else f.head + 1)
      = Probe.place f.capacity f.head 1 := by
    rw [← Probe.next_place (by omega), Probe.place_zero hhead, Probe.next]
  simp only [contents, peek, pop, hreuse, hn, hnext]
  rw [range_succ_eq_map, map_cons, map_map, Probe.place_zero hhead]
  congr 1
  apply map_congr_left
  intro k _
  rw [Function.comp_apply, Probe.place_place, Nat.succ_eq_add_one, Nat.add_comm k 1]

theorem WF.push (wf : f.WF) (hroom : f.count < f.capacity) (slot : ℕ) :
  (f.push slot).WF
  := by
  have hhead := wf.head_lt
  constructor
  · rw [FreeList.push]
    split <;> exact hhead
  · rw [FreeList.push]
    split
    · exact hroom
    · exact hroom
  rw [push_reuse, push_capacity]
  exact wf.narrow

theorem contents_push (wf : f.WF) (hroom : f.count < f.capacity) (slot : ℕ) :
  (f.push slot).contents.Perm (slot :: f.contents)
  := by
  have hhead := wf.head_lt
  cases hreuse : f.reuse with
  | lifo =>
    simp only [contents, push, hreuse]
    rw [range_succ, reverse_append, reverse_singleton, singleton_append, map_cons, update_self]
    apply List.Perm.of_eq
    congr 1
    apply map_congr_left
    intro k hk
    rw [mem_reverse, mem_range] at hk
    rw [update_of_ne (by omega)]
  | fifo =>
  have hnarrow : f.capacity ≤ 2 ^ 31 := wf.narrow.resolve_left (by simp [hreuse])
  have hsum : (f.head + f.count) % 2 ^ 32 = f.head + f.count := by
    omega
  have htail : (if f.capacity ≤ f.head + f.count then f.head + f.count - f.capacity
      else f.head + f.count) = Probe.place f.capacity f.head f.count := by
    rw [Probe.place]
    split
    case isTrue h =>
      rw [Nat.mod_eq_sub_mod h, Nat.mod_eq_of_lt (by omega)]
    case isFalse h => rw [Nat.mod_eq_of_lt (by omega)]
  simp only [contents, push, hreuse, hsum, htail]
  rw [range_succ, map_append, map_singleton, update_self]
  apply List.Perm.trans _ (perm_append_singleton _ _)
  apply List.Perm.of_eq
  congr 1
  apply map_congr_left
  intro k hk
  rw [mem_range] at hk
  rw [update_of_ne]
  intro h
  have := Probe.place_inj (by omega) hroom h
  omega

end

end FreeList

/-! ### Live, free and quarantined slots -/

/-- Every slot below `capacity` is live, free or quarantined, and is so once. -/
structure Room (capacity : ℕ) (live : ℕ → Bool) (free : FreeList) (quarantined size : ℕ) : Prop
    where
  wf : free.WF
  capacity_eq : free.capacity = capacity
  partition : ∃ Q : List ℕ, (free.contents ++ Q).Nodup ∧ Q.length = quarantined
    ∧ ∀ s, s ∈ free.contents ++ Q ↔ s < capacity ∧ live s = false
  size_eq : size = ((Finset.range capacity).filter fun s => live s = true).card

namespace Room

variable {capacity quarantined size : ℕ} {live : ℕ → Bool} {free : FreeList}

theorem init {reuse : SlotReuse} (hcap : 0 < capacity) (narrow : reuse = .lifo ∨ capacity ≤ 2 ^ 31) :
  Room capacity (fun _ => false) (.init capacity reuse) 0 0
  := by
  have hperm := contents_init capacity reuse
  refine ⟨⟨hcap, le_refl _, narrow⟩, rfl, ⟨[], ?_, rfl, ?_⟩, ?_⟩
  · rw [append_nil, hperm.nodup_iff]
    exact nodup_range
  · intro s
    rw [append_nil, hperm.mem_iff]
    simp
  · simp

variable (room : Room capacity live free quarantined size)

include room

theorem card_add :
  size + free.count + quarantined = capacity
  := by
  obtain ⟨Q, hnodup, hQ, hmem⟩ := room.partition
  have hset : (free.contents ++ Q).toFinset
      = (Finset.range capacity).filter fun s => ¬ live s = true := by
    ext s
    rw [mem_toFinset, hmem, Finset.mem_filter, Finset.mem_range, Bool.not_eq_true]
  have hcard := congrArg Finset.card hset
  rw [toFinset_card_of_nodup hnodup, length_append, length_contents] at hcard
  have hsum := (Finset.range capacity).card_filter_add_card_filter_not fun s => live s = true
  rw [← room.size_eq, Finset.card_range] at hsum
  omega

theorem peek (hsome : free.empty = false) :
  free.peek < capacity ∧ live free.peek = false
  := by
  obtain ⟨Q, _, _, hmem⟩ := room.partition
  rw [← hmem, contents_pop room.wf hsome]
  exact mem_cons_self

theorem take (hsome : free.empty = false) :
  Room capacity (update live free.peek true) free.pop quarantined (size + 1)
  := by
  obtain ⟨hlt, hdead⟩ := room.peek hsome
  obtain ⟨Q, hnodup, hQ, hmem⟩ := room.partition
  have hcontents := contents_pop room.wf hsome
  rw [hcontents, cons_append, nodup_cons] at hnodup
  refine ⟨room.wf.pop, ?_, ⟨Q, hnodup.2, hQ, ?_⟩, ?_⟩
  · rw [pop_capacity, room.capacity_eq]
  · intro s
    by_cases hs : s = free.peek
    case pos =>
      rw [hs]
      exact iff_of_false hnodup.1 (by simp)
    case neg =>
    rw [update_of_ne hs, ← hmem, hcontents, cons_append, mem_cons]
    exact (or_iff_right hs).symm
  have hset : (Finset.range capacity).filter (fun s => update live free.peek true s = true)
      = insert free.peek ((Finset.range capacity).filter fun s => live s = true) := by
    ext s
    by_cases hs : s = free.peek
    case pos => simp [hs, hlt]
    case neg => simp [hs]
  rw [hset, Finset.card_insert_of_notMem, room.size_eq]
  rw [Finset.mem_filter, hdead]
  simp

variable {s : ℕ}

section

variable (hs : s < capacity) (hlive : live s = true)

include hs hlive

theorem card_erase :
  size - 1 = ((Finset.range capacity).filter fun s' => update live s false s' = true).card
    ∧ 0 < size
  := by
  have hset : (Finset.range capacity).filter (fun s' => update live s false s' = true)
      = ((Finset.range capacity).filter fun s' => live s' = true).erase s := by
    ext s'
    by_cases h : s' = s
    case pos | neg => simp [h]
  have hmem : s ∈ (Finset.range capacity).filter fun s' => live s' = true := by
    simp [hs, hlive]
  rw [hset, Finset.card_erase_of_mem hmem, ← room.size_eq]
  refine ⟨rfl, ?_⟩
  rw [room.size_eq]
  exact Finset.card_pos.mpr ⟨s, hmem⟩

theorem release :
  Room capacity (update live s false) (free.push s) quarantined (size - 1)
  := by
  obtain ⟨Q, hnodup, hQ, hmem⟩ := room.partition
  obtain ⟨hsize, hpos⟩ := room.card_erase hs hlive
  have hroom : free.count < free.capacity := by
    have := room.card_add
    rw [room.capacity_eq]
    omega
  have hperm : (free.push s).contents ++ Q |>.Perm (s :: (free.contents ++ Q)) :=
    (contents_push room.wf hroom s).append_right Q
  have hnew : s ∉ free.contents ++ Q := by
    rw [hmem]
    simp [hlive]
  refine ⟨room.wf.push hroom s, ?_, ⟨Q, ?_, hQ, ?_⟩, hsize⟩
  · rw [push_capacity, room.capacity_eq]
  · rw [hperm.nodup_iff]
    exact nodup_cons.mpr ⟨hnew, hnodup⟩
  intro s'
  rw [hperm.mem_iff, mem_cons]
  by_cases h : s' = s
  case pos => simp [h, hs]
  case neg => rw [update_of_ne h, ← hmem, or_iff_right h]

theorem quarantine :
  Room capacity (update live s false) free (quarantined + 1) (size - 1)
  := by
  obtain ⟨Q, hnodup, hQ, hmem⟩ := room.partition
  have hnew : s ∉ free.contents ++ Q := by
    rw [hmem]
    simp [hlive]
  have hperm : (free.contents ++ s :: Q).Perm (s :: (free.contents ++ Q)) := perm_middle
  refine ⟨room.wf, room.capacity_eq, ⟨s :: Q, ?_, ?_, ?_⟩, (room.card_erase hs hlive).1⟩
  · rw [hperm.nodup_iff]
    exact nodup_cons.mpr ⟨hnew, hnodup⟩
  · rw [length_cons, hQ]
  intro s'
  rw [hperm.mem_iff, mem_cons]
  by_cases h : s' = s
  case pos => simp [h, hs]
  case neg => rw [update_of_ne h, ← hmem, or_iff_right h]

end

end Room

variable {Key State : Type} {slot : SlotRecord Key State} {T : FlowTableTraits Key}
  {t : WorkerFlowTable Key State} {s j capacity : ℕ}

/-! ### Slot records -/

namespace SlotRecord

/-- Only keys of a live flow are marked, and a live flow has its primary key and a state. -/
structure WF (slot : SlotRecord Key State) (keysPerSlot : ℕ) : Prop where
  marked : ∀ {j}, slot.keyMask j = true →
    slot.live = true ∧ j < keysPerSlot ∧ (slot.keys j).isSome = true
  primary : slot.live = true → slot.keyMask 0 = true ∧ slot.state.isSome = true

theorem wf_empty (keysPerSlot : ℕ) :
  (empty : SlotRecord Key State).WF keysPerSlot
  := by
  constructor
  · intro j h
    simp [empty] at h
  intro h
  simp [empty, live] at h

variable {keysPerSlot : ℕ}

theorem WF.unmarked (wf : slot.WF keysPerSlot) (hdead : slot.live = false) (j : ℕ) :
  slot.keyMask j = false
  := by
  by_contra h
  rw [Bool.not_eq_false] at h
  rw [(wf.marked h).1] at hdead
  exact absurd hdead (by simp)

theorem WF.store (wf : slot.WF keysPerSlot) (hlive : slot.live = true)
    (hj : j < keysPerSlot) (key : Key) :
  ((slot.storeKey j key).mark j true).WF keysPerSlot
  := by
  constructor
  · intro j' hmask
    by_cases h : j' = j
    · refine ⟨hlive, h ▸ hj, ?_⟩
      rw [h]
      change (update slot.keys j (some key) j).isSome = true
      rw [update_self, Option.isSome_some]
    change update slot.keyMask j true j' = true at hmask
    rw [update_of_ne h] at hmask
    obtain ⟨_, hlt, hkey⟩ := wf.marked hmask
    refine ⟨hlive, hlt, ?_⟩
    change (update slot.keys j (some key) j').isSome = true
    rw [update_of_ne h]
    exact hkey
  intro _
  obtain ⟨hmask, hstate⟩ := wf.primary hlive
  refine ⟨?_, hstate⟩
  change update slot.keyMask j true 0 = true
  rw [update_apply, hmask, ite_self]

theorem WF.unmark (wf : slot.WF keysPerSlot) (hj : j ≠ 0) :
  (slot.mark j false).WF keysPerSlot
  := by
  constructor
  · intro j' hmask
    change update slot.keyMask j false j' = true at hmask
    by_cases h : j' = j
    · rw [h, update_self] at hmask
      cases hmask
    rw [update_of_ne h] at hmask
    exact wf.marked hmask
  intro hlive
  obtain ⟨hmask, hstate⟩ := wf.primary hlive
  refine ⟨?_, hstate⟩
  change update slot.keyMask j false 0 = true
  rw [update_of_ne hj.symm, hmask]

theorem live_succ (g : BitVec 32) :
  decide ((g + 1).toNat % 2 = 1) = !decide (g.toNat % 2 = 1)
  := by
  rw [BitVec.toNat_add, show (1 : BitVec 32).toNat = 1 from rfl]
  by_cases h : g.toNat % 2 = 1
  · rw [decide_eq_true h, decide_eq_false (by omega), Bool.not_true]
  · rw [decide_eq_false h, decide_eq_true (by omega), Bool.not_false]

@[simp] theorem live_advance :
  slot.advance.live = !slot.live
  := live_succ slot.generation

@[simp] theorem live_vacate :
  slot.vacate.live = !slot.live
  := live_succ slot.generation

end SlotRecord

/-! ### Tables -/

namespace WorkerFlowTable

theorem kKeysPerSlot_pos (T : FlowTableTraits Key) :
  0 < T.kKeysPerSlot
  := by
  rw [FlowTableTraits.kKeysPerSlot]
  omega

theorem kid_div (hj : j < T.kKeysPerSlot) :
  (s * T.kKeysPerSlot + j) / T.kKeysPerSlot = s
  := by
  rw [Nat.mul_comm, Nat.mul_add_div (kKeysPerSlot_pos T), Nat.div_eq_of_lt hj, Nat.add_zero]

theorem kid_mod (hj : j < T.kKeysPerSlot) :
  (s * T.kKeysPerSlot + j) % T.kKeysPerSlot = j
  := by
  rw [Nat.mul_comm, Nat.mul_add_mod, Nat.mod_eq_of_lt hj]

theorem kid_eq (kid : ℕ) :
  kid / T.kKeysPerSlot * T.kKeysPerSlot + kid % T.kKeysPerSlot = kid
  := by
  rw [Nat.mul_comm]
  exact Nat.div_add_mod ..

theorem kid_lt (hs : s < capacity) (hj : j < T.kKeysPerSlot) :
  s * T.kKeysPerSlot + j < capacity * T.kKeysPerSlot
  := by
  calc s * T.kKeysPerSlot + j < s * T.kKeysPerSlot + T.kKeysPerSlot := by omega
    _ = (s + 1) * T.kKeysPerSlot := (Nat.succ_mul ..).symm
    _ ≤ capacity * T.kKeysPerSlot := Nat.mul_le_mul_right _ hs

end WorkerFlowTable

/-- The key that a record has in the directory as its key `j`. -/
def SlotRecord.keyIn {Key State : Type} (slot : SlotRecord Key State) (j : ℕ) : Option Key :=
  if slot.keyMask j then slot.keys j else none

namespace SlotRecord

theorem keyIn_store (j : ℕ) (key : Key) (j' : ℕ) :
  ((slot.storeKey j key).mark j true).keyIn j' = if j' = j then some key else slot.keyIn j'
  := by
  by_cases h : j' = j
  case pos | neg => simp [keyIn, mark, storeKey, h]

theorem keyIn_mark_false (j j' : ℕ) :
  (slot.mark j false).keyIn j' = if j' = j then none else slot.keyIn j'
  := by
  by_cases h : j' = j
  case pos | neg => simp [keyIn, mark, h]

theorem keyIn_of_unmarked (h : slot.keyMask j = false) :
  slot.keyIn j = none
  := by
  simp [keyIn, h]

theorem keyIn_claim (key : Key) (state : State) (j : ℕ) :
  (slot.claim key state).keyIn j = if j = 0 then some key else none
  := by
  by_cases h : j = 0
  case pos => simp [keyIn, claim, storeKey, h]
  case neg => simp [keyIn, claim, h]

theorem keyIn_advance :
  slot.advance.keyIn = slot.keyIn
  := rfl

end SlotRecord

namespace WorkerFlowTable

/-- The key of every id that the records have in the directory. -/
def view (T : FlowTableTraits Key) (t : WorkerFlowTable Key State) (kid : ℕ) : Option Key :=
  if kid < t.capacity * T.kKeysPerSlot then
    (t.slots (kid / T.kKeysPerSlot)).keyIn (kid % T.kKeysPerSlot)
  else none

variable {aliasKey : Option Key} {j kid s : ℕ} {key : Key} {u : WorkerFlowTable Key State}

theorem keyAt_of_view (h : t.view T kid = some key) :
  t.keyAt T kid = some key
  := by
  rw [view, Option.ite_none_right_eq_some, SlotRecord.keyIn, Option.ite_none_right_eq_some] at h
  exact h.2.2

/-- A table and its directory agree on the keys, and no check has failed. -/
structure Keyed (T : FlowTableTraits Key) (t : WorkerFlowTable Key State) : Prop where
  directory : Directory T.hash t.index (t.capacity * T.kKeysPerSlot) (t.view T)
  fatal_eq : t.fatal = false

structure WF (T : FlowTableTraits Key) (t : WorkerFlowTable Key State) : Prop extends Keyed T t
    where
  keys_lt : t.capacity * T.kKeysPerSlot < 2 ^ 32 - 1
  slot : ∀ s < t.capacity, (t.slots s).WF T.kKeysPerSlot
  room : Room t.capacity (fun s => (t.slots s).live) t.free t.quarantined t.size

theorem WF.capacity_lt (wf : t.WF T) :
  t.capacity < 2 ^ 32 - 1
  := by
  have hle : t.capacity * 1 ≤ t.capacity * T.kKeysPerSlot :=
    Nat.mul_le_mul_left _ (kKeysPerSlot_pos T)
  have := wf.keys_lt
  omega

theorem view_empty (h : ∀ s, t.slots s = .empty) :
  t.view T = fun _ => none
  := by
  funext kid
  rw [view, h]
  simp [SlotRecord.keyIn, SlotRecord.empty]

theorem keyed_create (h : create T capacity = some t) :
  t.Keyed T
  := by
  rw [create] at h
  simp only [Option.ite_none_left_eq_some, Option.some_inj] at h
  obtain ⟨_, rfl⟩ := h
  refine ⟨?_, rfl⟩
  rw [view_empty (fun _ => rfl)]
  exact Directory.create _ _

theorem wf_create [DecidableEq Key] (h : create T capacity = some t)
    (narrow : T.kReuse = .lifo ∨ capacity ≤ 2 ^ 31) :
  t.WF T ∧ t.capacity = capacity
  := by
  have keyed := keyed_create h
  rw [create] at h
  simp only [Option.ite_none_left_eq_some, Option.some_inj, not_or, Nat.not_le] at h
  obtain ⟨⟨hpos, hkeys⟩, rfl⟩ := h
  refine ⟨⟨keyed, hkeys, ?_, ?_⟩, rfl⟩
  · intro s _
    exact SlotRecord.wf_empty _
  · exact Room.init (Nat.pos_of_ne_zero hpos) narrow

section

variable [DecidableEq Key]

theorem Keyed.findKid_eq_some (keyed : t.Keyed T) :
  t.findKid T key = some kid ↔ t.view T kid = some key
  := keyed.directory.find_eq_some keyAt_of_view

theorem Keyed.findKid_eq_none (keyed : t.Keyed T) :
  t.findKid T key = none ↔ ∀ kid, t.view T kid ≠ some key
  := by
  rw [Option.eq_none_iff_forall_ne_some]
  simp only [ne_eq, keyed.findKid_eq_some]

end

/-! ### One key more, one key less -/

theorem div_lt_of_view (h : t.view T kid = some key) :
  kid / T.kKeysPerSlot < t.capacity
  := by
  rw [view, Option.ite_none_right_eq_some] at h
  rw [Nat.div_lt_iff_lt_mul (kKeysPerSlot_pos T)]
  exact h.1

theorem view_kid (hs : s < t.capacity) (hj : j < T.kKeysPerSlot) :
  t.view T (s * T.kKeysPerSlot + j) = (t.slots s).keyIn j
  := by
  rw [view, if_pos (kid_lt hs hj), kid_div hj, kid_mod hj]

/-- What a change of one record does to the view, when it changes at most its key `j`. -/
theorem view_update (hs : s < t.capacity) (hj : j < T.kKeysPerSlot) (hcap : u.capacity = t.capacity)
    (hother : ∀ s' ≠ s, u.slots s' = t.slots s')
    (hslot : ∀ j' ≠ j, (u.slots s).keyIn j' = (t.slots s).keyIn j') :
  u.view T = update (t.view T) (s * T.kKeysPerSlot + j) ((u.slots s).keyIn j)
  := by
  funext kid
  by_cases hkid : kid = s * T.kKeysPerSlot + j
  case pos =>
    rw [hkid, update_self, view_kid (hcap ▸ hs) hj]
  case neg =>
  rw [update_of_ne hkid, view, view, hcap]
  by_cases hdiv : kid / T.kKeysPerSlot = s
  case neg => rw [hother _ hdiv]
  case pos =>
  have hmod : kid % T.kKeysPerSlot ≠ j := by
    intro hmod
    apply hkid
    rw [← hdiv, ← hmod]
    exact (kid_eq kid).symm
  rw [hdiv, hslot _ hmod]

/-- The view does not see generations, states, free slots and counts. -/
theorem view_congr (hcap : u.capacity = t.capacity)
    (hslots : ∀ s, (u.slots s).keyIn = (t.slots s).keyIn) :
  u.view T = t.view T
  := by
  funext kid
  rw [view, view, hcap, hslots]

variable {u : WorkerFlowTable Key State} {n : ℕ}

theorem Keyed.congr (keyed : t.Keyed T) (hindex : u.index = t.index) (hcap : u.capacity = t.capacity)
    (hfatal : u.fatal = t.fatal) (hslots : ∀ s, (u.slots s).keyIn = (t.slots s).keyIn) :
  u.Keyed T
  := by
  constructor
  · rw [hindex, hcap, view_congr hcap hslots]
    exact keyed.directory
  · exact hfatal.trans keyed.fatal_eq

@[simp] theorem slots_setSlot_self (s : ℕ) (slot : SlotRecord Key State) :
  (t.setSlot s slot).slots s = slot
  := update_self ..

theorem slots_setSlot_of_ne {s' : ℕ} (h : s' ≠ s) (slot : SlotRecord Key State) :
  (t.setSlot s slot).slots s' = t.slots s'
  := update_of_ne h ..

section

variable (keyed : t.Keyed T)

include keyed

theorem Keyed.advance (s n : ℕ) :
  Keyed T { t.setSlot s (t.slots s).advance with size := n }
  := by
  refine keyed.congr rfl rfl rfl ?_
  intro s'
  by_cases h : s' = s
  · rw [h]
    rw [slots_setSlot_self, SlotRecord.keyIn_advance]
  change ((t.setSlot s (t.slots s).advance).slots s').keyIn = _
  rw [slots_setSlot_of_ne h]

/-- A key that is in no record goes into the directory together with the record that has it. -/
theorem Keyed.insertKey (hindex : u.index = t.index) (hcap : u.capacity = t.capacity)
    (hfatal : u.fatal = t.fatal) (hkid : kid < t.capacity * T.kKeysPerSlot)
    (absent : t.view T kid = none) (fresh : ∀ kid, t.view T kid ≠ some key)
    (hview : u.view T = update (t.view T) kid (some key)) :
  ∃ index, u.insertKey (t.locate T key) kid = { u with index := index }
    ∧ Keyed T { u with index := index }
  := by
  obtain ⟨index, hinsert, dir, _⟩ := keyed.directory.insert hkid absent fresh
  refine ⟨index, ?_, ?_, hfatal.trans keyed.fatal_eq⟩
  · rw [WorkerFlowTable.insertKey, locate, hindex, hinsert]
  change Directory T.hash index (u.capacity * T.kKeysPerSlot) (u.view T)
  rw [hview, hcap]
  exact dir

theorem Keyed.addKey (hs : s < t.capacity) (hj : j < T.kKeysPerSlot)
    (unmarked : (t.slots s).keyMask j = false) (fresh : ∀ kid, t.view T kid ≠ some key) :
  ∃ index, t.addKey T s j key
      = { t.setSlot s (((t.slots s).storeKey j key).mark j true) with index := index }
    ∧ Keyed T (t.addKey T s j key)
    ∧ (t.addKey T s j key).view T
      = update (t.view T) (s * T.kKeysPerSlot + j) (some key)
  := by
  have hview : (t.setSlot s (((t.slots s).storeKey j key).mark j true)).view T
      = update (t.view T) (s * T.kKeysPerSlot + j) (some key) := by
    refine (view_update (u := t.setSlot s _) hs hj rfl ?_ ?_).trans ?_
    · intro s' hs'
      exact slots_setSlot_of_ne hs' _
    · intro j' hj'
      rw [slots_setSlot_self, SlotRecord.keyIn_store, if_neg hj']
    · rw [slots_setSlot_self, SlotRecord.keyIn_store, if_pos rfl]
  obtain ⟨index, hinsert, keyed'⟩ := keyed.insertKey (u := t.setSlot s _) rfl rfl rfl (kid_lt hs hj)
    (by rw [view_kid hs hj, SlotRecord.keyIn_of_unmarked unmarked]) fresh hview
  refine ⟨index, hinsert, ?_⟩
  rw [WorkerFlowTable.addKey, hinsert]
  exact ⟨keyed', hview⟩

theorem Keyed.claim (hs : t.free.peek < t.capacity)
    (unmarked : ∀ j, (t.slots t.free.peek).keyMask j = false)
    (fresh : ∀ kid, t.view T kid ≠ some key) (state : State) :
  ∃ index, t.claim T key state
      = { t.setSlot t.free.peek ((t.slots t.free.peek).claim key state) with
          index := index
          free := t.free.pop }
    ∧ Keyed T (t.claim T key state)
    ∧ (t.claim T key state).view T
      = update (t.view T) (t.free.peek * T.kKeysPerSlot) (some key)
  := by
  have hzero := kKeysPerSlot_pos T
  have hview : ({ t with free := t.free.pop }.setSlot t.free.peek
        ((t.slots t.free.peek).claim key state)).view T
      = update (t.view T) (t.free.peek * T.kKeysPerSlot) (some key) := by
    refine (view_update (u := { t with free := t.free.pop }.setSlot t.free.peek _) hs hzero rfl
      ?_ ?_).trans ?_
    · intro s' hs'
      exact slots_setSlot_of_ne hs' _
    · intro j' hj'
      rw [slots_setSlot_self, SlotRecord.keyIn_claim, if_neg hj',
        SlotRecord.keyIn_of_unmarked (unmarked j')]
    · rw [slots_setSlot_self, SlotRecord.keyIn_claim, if_pos rfl, Nat.add_zero]
  have hview₀ := view_kid hs hzero
  have hkid₀ := kid_lt hs hzero
  rw [Nat.add_zero] at hview₀ hkid₀
  obtain ⟨index, hinsert, keyed'⟩ := keyed.insertKey
    (u := { t with free := t.free.pop }.setSlot t.free.peek _) rfl rfl rfl hkid₀
    (by rw [hview₀, SlotRecord.keyIn_of_unmarked (unmarked 0)]) fresh hview
  refine ⟨index, hinsert, ?_⟩
  rw [WorkerFlowTable.claim, hinsert]
  exact ⟨keyed', hview⟩

end

theorem Keyed.eraseKey {view : ℕ → Option Key}
    (dir : Directory T.hash u.index (u.capacity * T.kKeysPerSlot) view) (hkey : view kid = some key) :
  ∃ index, u.eraseKey (u.locate T key) kid = { u with index := index }
    ∧ Directory T.hash index (u.capacity * T.kKeysPerSlot) (update view kid none)
  := by
  obtain ⟨index, herase, dir', _⟩ := dir.erase hkey
  refine ⟨index, ?_, dir'⟩
  rw [WorkerFlowTable.eraseKey, locate, herase]

/-! ### Calls -/

/-- The record of a flow that was just made. -/
def madeSlot (slot : SlotRecord Key State) (key : Key) (aliasKey : Option Key) (state : State) :
    SlotRecord Key State :=
  match aliasKey with
  | some aliasKey => (((slot.claim key state).storeKey 1 aliasKey).mark 1 true).advance
  | none => (slot.claim key state).advance

theorem live_madeSlot (slot : SlotRecord Key State) (key : Key) (aliasKey : Option Key)
    (state : State) :
  (madeSlot slot key aliasKey state).live = !slot.live
  := by
  cases aliasKey <;> exact slot.live_advance

theorem wf_madeSlot (hdead : slot.live = false) (key : Key)
    (hroom : aliasKey.isSome = true → 0 < T.kAliases) (state : State) :
  (madeSlot slot key aliasKey state).WF T.kKeysPerSlot
  := by
  have hlive : (madeSlot slot key aliasKey state).live = true := by
    rw [live_madeSlot, hdead, Bool.not_false]
  cases aliasKey with
  | none =>
    constructor
    · intro j hj
      have hj : j = 0 := by simpa [madeSlot, SlotRecord.advance, SlotRecord.claim] using hj
      refine ⟨hlive, hj ▸ kKeysPerSlot_pos T, ?_⟩
      simp [madeSlot, SlotRecord.advance, SlotRecord.claim, SlotRecord.storeKey, hj]
    intro _
    constructor <;> rfl
  | some aliasKey =>
  have hpos := hroom rfl
  constructor
  · intro j hj
    have hj : j = 1 ∨ j = 0 := by
      by_cases h : j = 1
      · exact .inl h
      right
      simpa [madeSlot, SlotRecord.advance, SlotRecord.mark, SlotRecord.storeKey,
        SlotRecord.claim, h] using hj
    refine ⟨hlive, ?_, ?_⟩
    · rw [FlowTableTraits.kKeysPerSlot]
      omega
    obtain rfl | rfl := hj <;>
    simp [madeSlot, SlotRecord.advance, SlotRecord.mark, SlotRecord.storeKey, SlotRecord.claim]
  intro _
  constructor <;> rfl

/-- A new flow takes the first free slot and nothing else changes. -/
theorem Keyed.make (keyed : t.Keyed T) (hs : t.free.peek < t.capacity)
    (hunmarked : ∀ j, (t.slots t.free.peek).keyMask j = false)
    (hkey : ∀ kid, t.view T kid ≠ some key)
    (halias : ∀ a, aliasKey = some a → a ≠ key ∧ ∀ kid, t.view T kid ≠ some a)
    (hroom : aliasKey.isSome = true → 0 < T.kAliases) (state : State) :
  ∃ index, t.make T key aliasKey state
      = { t.setSlot t.free.peek (madeSlot (t.slots t.free.peek) key aliasKey state) with
          index := index
          free := t.free.pop
          size := t.size + 1 }
    ∧ (t.make T key aliasKey state).Keyed T
  := by
  obtain ⟨index, hclaim, keyed, hview⟩ := keyed.claim hs hunmarked hkey state
  cases aliasKey with
  | none =>
    refine ⟨index, ?_, ?_⟩
    · simp only [WorkerFlowTable.make, hclaim, setSlot, update_self, update_idem, madeSlot]
    · exact keyed.advance ..
  | some a =>
  obtain ⟨hne, hfresh⟩ := halias a rfl
  have hone : 1 < T.kKeysPerSlot := by
    have := hroom rfl
    rw [FlowTableTraits.kKeysPerSlot]
    omega
  have hslot : (t.claim T key state).slots t.free.peek
      = (t.slots t.free.peek).claim key state := by
    rw [hclaim]
    exact slots_setSlot_self ..
  have hfresh' : ∀ kid, (t.claim T key state).view T kid ≠ some a := by
    intro kid
    rw [hview, update_apply]
    split
    · simpa using hne.symm
    · exact hfresh kid
  obtain ⟨index', hadd, keyed', hview'⟩ := keyed.addKey
    (by rw [hclaim]; exact hs) hone (by rw [hslot]; rfl) hfresh'
  refine ⟨index', ?_, keyed'.advance ..⟩
  simp only [WorkerFlowTable.make]
  rw [hadd]
  simp only [hclaim, setSlot, update_self, update_idem, madeSlot]

theorem WF.make (wf : t.WF T) (hsome : t.free.empty = false) (hkey : ∀ kid, t.view T kid ≠ some key)
    (halias : ∀ a, aliasKey = some a → a ≠ key ∧ ∀ kid, t.view T kid ≠ some a)
    (hroom : aliasKey.isSome = true → 0 < T.kAliases) (state : State) :
  (∃ index, t.make T key aliasKey state
      = { t.setSlot t.free.peek (madeSlot (t.slots t.free.peek) key aliasKey state) with
          index := index
          free := t.free.pop
          size := t.size + 1 })
    ∧ (t.make T key aliasKey state).WF T
  := by
  obtain ⟨hs, hdead⟩ := wf.room.peek hsome
  obtain ⟨index, heq, hkeyed⟩ := wf.toKeyed.make hs ((wf.slot _ hs).unmarked hdead) hkey halias hroom
    state
  refine ⟨⟨index, heq⟩, hkeyed, ?_, ?_, ?_⟩
  · rw [heq]
    exact wf.keys_lt
  · intro s' hs'
    rw [heq] at hs' ⊢
    by_cases h : s' = t.free.peek
    · rw [h]
      rw [slots_setSlot_self]
      exact wf_madeSlot hdead key hroom state
    change ((t.setSlot t.free.peek _).slots s').WF _
    rw [slots_setSlot_of_ne h]
    exact wf.slot s' hs'
  have hlive : (fun s => ((t.make T key aliasKey state).slots s).live)
      = update (fun s => (t.slots s).live) t.free.peek true := by
    funext s'
    rw [heq]
    by_cases h : s' = t.free.peek
    · rw [h, update_self]
      rw [slots_setSlot_self, live_madeSlot, hdead, Bool.not_false]
    rw [update_of_ne h]
    rw [slots_setSlot_of_ne h]
  rw [hlive, heq]
  exact wf.room.take hsome

/-- The view without the first `n` keys of slot `s`. -/
def viewLess (T : FlowTableTraits Key) (t : WorkerFlowTable Key State) (s n kid : ℕ) :
    Option Key :=
  if kid / T.kKeysPerSlot = s ∧ kid % T.kKeysPerSlot < n then none else t.view T kid

theorem viewLess_succ (hn : n < T.kKeysPerSlot) :
  t.viewLess T s (n + 1) = update (t.viewLess T s n) (s * T.kKeysPerSlot + n) none
  := by
  funext kid
  by_cases h : kid = s * T.kKeysPerSlot + n
  case pos =>
    rw [h, update_self, viewLess, kid_div hn, kid_mod hn, if_pos ⟨rfl, by omega⟩]
  case neg =>
  have hiff : (kid / T.kKeysPerSlot = s ∧ kid % T.kKeysPerSlot < n + 1)
      ↔ kid / T.kKeysPerSlot = s ∧ kid % T.kKeysPerSlot < n := by
    constructor
    · rintro ⟨hdiv, hmod⟩
      by_contra hge
      apply h
      rw [← hdiv, show n = kid % T.kKeysPerSlot by omega]
      exact (kid_eq kid).symm
    rintro ⟨hdiv, hmod⟩
    exact ⟨hdiv, by omega⟩
  rw [update_of_ne h, viewLess, viewLess]
  simp only [hiff]

/-- The keys of a slot leave the directory one after the other. -/
theorem Keyed.dropKeys (keyed : t.Keyed T) (hs : s < t.capacity)
    (hslot : (t.slots s).WF T.kKeysPerSlot) (hn : n ≤ T.kKeysPerSlot) :
  ∃ index, (List.range n).foldl (dropKey T s) t = { t with index := index }
    ∧ Directory T.hash index (t.capacity * T.kKeysPerSlot) (t.viewLess T s n)
  := by
  induction n with
  | zero =>
    have hview : t.viewLess T s 0 = t.view T := by
      funext kid
      rw [viewLess, if_neg (by omega)]
    exact ⟨t.index, rfl, hview ▸ keyed.directory⟩
  | succ n ih =>
  obtain ⟨index, hfold, dir⟩ := ih (by omega)
  rw [range_succ, foldl_append, hfold, foldl_cons, viewLess_succ hn]
  have hkept : t.viewLess T s n (s * T.kKeysPerSlot + n) = (t.slots s).keyIn n := by
    rw [viewLess, kid_mod hn, if_neg (by omega), view_kid hs hn]
  cases hmask : (t.slots s).keyMask n with
  | true =>
    obtain ⟨key, hkey⟩ := Option.isSome_iff_exists.mp (hslot.marked hmask).2.2
    have hin : (t.slots s).keyIn n = some key := by
      rw [SlotRecord.keyIn, if_pos hmask, hkey]
    rw [dropKey, if_pos hmask, hkey]
    exact Keyed.eraseKey dir (hkept.trans hin)
  | false =>
  rw [dropKey, if_neg (by simp [hmask])]
  refine ⟨index, rfl, ?_⟩
  rw [update_eq_self_iff.mpr]
  · exact dir
  · rw [hkept, SlotRecord.keyIn_of_unmarked hmask]

theorem wf_vacate (hlive : slot.live = true) :
  slot.vacate.WF T.kKeysPerSlot
  := by
  constructor
  · intro j hj
    exact absurd hj (by simp [SlotRecord.vacate])
  intro h
  rw [SlotRecord.live_vacate, hlive] at h
  exact absurd h (by simp)

/-- The keys of a flow and its record go, and its slot is free or, when its generations are used up,
set aside. -/
theorem Keyed.eraseSlot (keyed : t.Keyed T) (hs : s < t.capacity)
    (hslot : (t.slots s).WF T.kKeysPerSlot) :
  (t.eraseSlot T s).Keyed T ∧ (t.eraseSlot T s).capacity = t.capacity
    ∧ (t.eraseSlot T s).slots = update t.slots s (t.slots s).vacate
    ∧ (t.eraseSlot T s).size = t.size - 1
    ∧ if (t.slots s).vacate.generation = 0 then
        (t.eraseSlot T s).free = t.free ∧ (t.eraseSlot T s).quarantined = t.quarantined + 1
      else (t.eraseSlot T s).free = t.free.push s ∧ (t.eraseSlot T s).quarantined = t.quarantined
  := by
  obtain ⟨index, hfold, dir⟩ := keyed.dropKeys hs hslot (le_refl T.kKeysPerSlot)
  -- Both endings leave the same records and directory.
  have hends {u : WorkerFlowTable Key State} (hindex : u.index = index)
      (hcap : u.capacity = t.capacity) (hfatal : u.fatal = t.fatal)
      (hslots : u.slots = update t.slots s (t.slots s).vacate) :
      u.Keyed T := by
    have hview : u.view T = t.viewLess T s T.kKeysPerSlot := by
      funext kid
      have hmod := Nat.mod_lt kid (kKeysPerSlot_pos T)
      rw [view, hcap, hslots]
      by_cases h : kid / T.kKeysPerSlot = s
      case pos =>
        have hless : t.viewLess T s T.kKeysPerSlot kid = none := if_pos ⟨h, hmod⟩
        rw [hless, h, update_self]
        exact ite_self none
      case neg =>
      have hless : t.viewLess T s T.kKeysPerSlot kid = t.view T kid := if_neg (fun h' => h h'.1)
      rw [hless, update_of_ne h, view]
    refine ⟨?_, by rw [hfatal, keyed.fatal_eq]⟩
    rw [hview, hindex, hcap]
    exact dir
  have hvacated : ((WorkerFlowTable.setSlot { t with index := index } s (t.slots s).vacate).slots
      s).generation = (t.slots s).vacate.generation := by
    rw [slots_setSlot_self]
  rw [WorkerFlowTable.eraseSlot, hfold]
  by_cases hwrapped : (t.slots s).vacate.generation = 0
  case pos =>
    simp only [if_pos hwrapped, if_pos (hvacated.trans hwrapped)]
    exact ⟨hends rfl rfl rfl rfl, rfl, rfl, trivial, rfl, rfl⟩
  case neg =>
  have hvacated' := hvacated ▸ hwrapped
  simp only [if_neg hwrapped, if_neg hvacated']
  exact ⟨hends rfl rfl rfl rfl, rfl, rfl, trivial, rfl, rfl⟩

theorem WF.eraseSlot (wf : t.WF T) (hs : s < t.capacity) (hlive : (t.slots s).live = true) :
  (t.eraseSlot T s).WF T ∧ (t.eraseSlot T s).capacity = t.capacity
    ∧ (t.eraseSlot T s).slots = update t.slots s (t.slots s).vacate
  := by
  obtain ⟨keyed, hcap, hslots, hsize, hfree⟩ := wf.toKeyed.eraseSlot hs (wf.slot s hs)
  refine ⟨⟨keyed, ?_, ?_, ?_⟩, hcap, hslots⟩
  · rw [hcap]
    exact wf.keys_lt
  · intro s' hs'
    rw [hslots, update_apply]
    split
    · exact wf_vacate hlive
    · exact wf.slot s' (hcap ▸ hs')
  have hlive' : (fun s' => ((t.eraseSlot T s).slots s').live)
      = update (fun s' => (t.slots s').live) s false := by
    funext s'
    rw [hslots, update_apply, update_apply]
    split
    · rw [SlotRecord.live_vacate, hlive, Bool.not_true]
    · rfl
  rw [hlive', hcap, hsize]
  split at hfree
  · rw [hfree.1, hfree.2]
    exact wf.room.quarantine hs hlive
  rw [hfree.1, hfree.2]
  exact wf.room.release hs hlive

theorem keyIn_of_view (h : t.view T kid = some key) :
  (t.slots (kid / T.kKeysPerSlot)).keyIn (kid % T.kKeysPerSlot) = some key
  := by
  rw [view, Option.ite_none_right_eq_some] at h
  exact h.2

/-- A key in the directory belongs to a live flow. -/
theorem WF.live_of_view (wf : t.WF T) (h : t.view T kid = some key) :
  (t.slots (kid / T.kKeysPerSlot)).live = true
  := by
  have hkey := keyIn_of_view h
  rw [SlotRecord.keyIn, Option.ite_none_right_eq_some] at hkey
  exact ((wf.slot _ (div_lt_of_view h)).marked hkey.1).1

theorem WF.keyIn_inj (wf : t.WF T) {j' : ℕ} (hs : s < t.capacity) (hj : j < T.kKeysPerSlot)
    (hj' : j' < T.kKeysPerSlot) (h : (t.slots s).keyIn j = some key)
    (h' : (t.slots s).keyIn j' = some key) :
  j' = j
  := by
  have hkids := wf.directory.distinct ((view_kid hs hj').trans h') ((view_kid hs hj).trans h)
  rw [← kid_mod hj', hkids, kid_mod hj]

end WorkerFlowTable

end Flow
