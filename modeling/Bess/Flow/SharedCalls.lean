import Bess.Flow.SharedInvariant
import Bess.Flow.Refinement

/-!
# The calls of a shared flow table

What the writes of each call do. The last write of a call leaves the table at rest: a created flow
takes the first free slot, an abandoned create moves that slot on by one generation, an erased slot
joins the pending ones, and an alias is one more key of its flow.
-/

open Option

namespace Flow

open Function List SlotRecord WorkerFlowTable

namespace SharedFlowTable

variable {Key State : Type} {T : FlowTableTraits Key} {t u : SharedFlowTable Key State}
  {erasedAt : ℕ → ℕ} {slots : List ℕ} {s s' : ℕ} {h : FlowHandle}

/-! ### Handles -/

section

variable (hcap : t.capacity < 2 ^ 30)

include hcap

theorem slotOf_eq_some :
  t.slotOf h = some s ↔ s < t.capacity ∧ (t.slots s).live = true ∧ h = t.handleOf s
  := by
  have hindex (hs : s < t.capacity) :
      h = t.handleOf s ↔ (h.id - 1).toNat = s ∧ h.generation = (t.slots s).generation :=
    eq_handleOf_iff (by omega)
  rw [slotOf]
  simp only [ite_none_left_eq_some, ite_none_right_eq_some, some_inj]
  constructor
  · rintro ⟨hle, ⟨hgen, hlive⟩, rfl⟩
    have hs : (h.id - 1).toNat < t.capacity := Nat.lt_of_not_le hle
    exact ⟨hs, hlive, (hindex hs).mpr ⟨rfl, hgen.symm⟩⟩
  rintro ⟨hs, hlive, hh⟩
  obtain ⟨hid, hgen⟩ := (hindex hs).mp hh
  rw [hid]
  exact ⟨Nat.not_le_of_lt hs, ⟨hgen.symm, hlive⟩, rfl⟩

theorem alive_iff :
  t.alive h = true ↔ ∃ s < t.capacity, (t.slots s).live = true ∧ h = t.handleOf s
  := by
  rw [alive, isSome_iff_exists]
  simp only [slotOf_eq_some hcap]

theorem handleOf_inj (hs : s < t.capacity) (hs' : s' < t.capacity) {g g' : BitVec 32}
    (heq : (⟨BitVec.ofNat 32 (s + 1), g⟩ : FlowHandle) = ⟨BitVec.ofNat 32 (s' + 1), g'⟩) :
  s = s'
  := by
  have hid := (eq_handleOf_iff (by omega)).mp
    (show (⟨BitVec.ofNat 32 (s + 1), g⟩ : FlowHandle) = ⟨BitVec.ofNat 32 (s + 1), g⟩ from rfl)
  have hid' := (eq_handleOf_iff (by omega)).mp heq
  exact hid.1.symm.trans hid'.1

end

theorem Keyed.live_of_names (keyed : Keyed T t) (hs : s < t.capacity) {key : Key}
    (hnames : t.Names s key) :
  (t.slots s).live = true
  := by
  obtain ⟨j, hkey⟩ := hnames
  rw [keyIn, ite_none_right_eq_some] at hkey
  exact ((keyed.slot s hs).marked hkey.1).1

/-- Between calls, the directory's values all resolve. -/
theorem AtRest.resolve_eq (rest : AtRest T erasedAt t slots) (key : Key) :
  t.resolve key = t.directory key
  := by
  rw [resolve]
  rcases hdir : t.directory key with _ | h
  · rfl
  obtain ⟨s, hs, hh, hnames⟩ := rest.directory.mp hdir
  rw [filter_some, if_pos]
  exact (alive_iff rest.capacity_lt).mpr ⟨s, hs, rest.live_of_names hs hnames, hh⟩

/-! ### Changing one slot -/

/-- The table with another record for one slot. -/
def put (t : SharedFlowTable Key State) (s : ℕ) (slot : SlotRecord Key State)
    (directory : Key → Option FlowHandle) (free : FreeList) (size quarantined : ℕ) :
    SharedFlowTable Key State :=
  { t with
    slots := update t.slots s slot
    directory := directory
    free := free
    size := size
    quarantined := quarantined }

variable {directory : Key → Option FlowHandle}

section Put

variable {slot : SlotRecord Key State} {free : FreeList} {size quarantined : ℕ}

theorem put_slots_self :
  (t.put s slot directory free size quarantined).slots s = slot
  := update_self ..

theorem put_slots_of_ne (hne : s' ≠ s) :
  (t.put s slot directory free size quarantined).slots s' = t.slots s'
  := update_of_ne hne ..

/-- The keys after the record of one slot is replaced. -/
theorem Keyed.put (keyed : Keyed T t) (hcap : t.capacity < 2 ^ 30) (hs : s < t.capacity)
    (hwf : slot.WF T.kKeysPerSlot)
    (honce : ∀ {j j' : ℕ} {key : Key}, slot.keyIn j = some key → slot.keyIn j' = some key → j = j')
    (hdir : ∀ {key : Key} {h : FlowHandle}, directory key = some h ↔
      (h = ⟨BitVec.ofNat 32 (s + 1), slot.generation⟩ ∧ ∃ j, slot.keyIn j = some key)
        ∨ (t.directory key = some h ∧ ¬ t.Names s key)) :
  Keyed T (t.put s slot directory free size quarantined)
  := by
  constructor
  case keys_lt => exact keyed.keys_lt
  case slot =>
    intro s' hs'
    rcases eq_or_ne s' s with rfl | hne
    · rw [put_slots_self]
      exact hwf
    rw [put_slots_of_ne hne]
    exact keyed.slot s' hs'
  case once =>
    intro s' j j' key hs'
    rcases eq_or_ne s' s with rfl | hne
    · rw [put_slots_self]
      exact honce
    rw [put_slots_of_ne hne]
    exact keyed.once hs'
  case directory =>
    intro key h
    change directory key = some h ↔ _
    rw [hdir, keyed.directory]
    constructor
    · rintro (⟨hh, hkey⟩ | ⟨⟨s', hs', hh, hnames⟩, hunnamed⟩)
      · refine ⟨s, hs, ?_, ?_⟩
        · rw [handleOf, put_slots_self]
          exact hh
        rw [Names, put_slots_self]
        exact hkey
      have hne : s' ≠ s := by
        rintro rfl
        exact hunnamed hnames
      refine ⟨s', hs', ?_, ?_⟩
      · rw [handleOf, put_slots_of_ne hne]
        exact hh
      rw [Names, put_slots_of_ne hne]
      exact hnames
    rintro ⟨s', hs', hh, hnames⟩
    rcases eq_or_ne s' s with rfl | hne
    · left
      rw [handleOf, put_slots_self] at hh
      rw [Names, put_slots_self] at hnames
      exact ⟨hh, hnames⟩
    right
    rw [handleOf, put_slots_of_ne hne] at hh
    rw [Names, put_slots_of_ne hne] at hnames
    refine ⟨⟨s', hs', hh, hnames⟩, ?_⟩
    intro hnamed
    -- The directory has one value for the key.
    have hvalue := keyed.directory.mpr ⟨s, hs, rfl, hnamed⟩
    rw [keyed.directory.mpr ⟨s', hs', rfl, hnames⟩] at hvalue
    exact hne (handleOf_inj hcap hs' hs (some.inj hvalue))
  case calm => exact keyed.calm

theorem occupied_put (hout : s ∉ slots) (slot : SlotRecord Key State) :
  (fun s' => (update t.slots s slot s').live || decide (s' ∈ slots))
    = update (fun s' => (t.slots s').live || decide (s' ∈ slots)) s slot.live
  := by
  funext s'
  rcases eq_or_ne s' s with rfl | hne
  · rw [update_self, update_self, decide_eq_false hout, Bool.or_false]
  · rw [update_of_ne hne, update_of_ne hne]

/-- A table at rest after the record of a slot that is not pending is replaced. -/
theorem AtRest.put (rest : AtRest T erasedAt t slots) (hout : s ∉ slots)
    (keyed : Keyed T (t.put s slot directory free size quarantined))
    (room : Room t.capacity
      (update (fun s' => (t.slots s').live || decide (s' ∈ slots)) s slot.live) free
      quarantined (size + slots.length))
    (hfree : ∀ s' ≠ s, s' ∈ t.free.contents → s' ∈ free.contents)
    (hspent : slot.live = false → s ∉ free.contents → slot.generation = 0) :
  AtRest T erasedAt (t.put s slot directory free size quarantined) slots
  := by
  have hslots : ∀ s' ∈ slots,
      (t.put s slot directory free size quarantined).slots s' = t.slots s' := by
    intro s' hs'
    apply put_slots_of_ne
    rintro rfl
    exact hout hs'
  have pool : Pool (t.put s slot directory free size quarantined) slots := by
    refine { rest with entries := ?entries, dead := ?dead, room := ?room }
    case entries =>
      refine rest.entries.trans (map_congr_left ?_)
      intro s' hs'
      rw [hslots s' hs']
    case dead =>
      intro s' hs'
      rw [hslots s' hs']
      exact rest.dead s' hs'
    case room =>
    rw [← occupied_put hout] at room
    exact room
  refine ⟨pool, { rest with }, keyed, rest.published, ?kept, ?spent⟩
  case kept =>
    intro s' hs'
    rw [hslots s' hs']
    exact rest.kept s' hs'
  case spent =>
  intro s' hs' hlive hout' hunlisted
  rcases eq_or_ne s' s with rfl | hne
  · rw [put_slots_self] at hlive ⊢
    exact hspent hlive hunlisted
  rw [put_slots_of_ne hne] at hlive ⊢
  exact rest.spent s' hs' hlive hout' fun hlisted => hunlisted (hfree s' hne hlisted)

end Put

/-! ### The first free slot -/

/-- The handle that the next flow is offered. -/
def offer (t : SharedFlowTable Key State) : FlowHandle :=
  ⟨BitVec.ofNat 32 (t.free.peek + 1), (t.slots t.free.peek).generation + 1⟩

/-- The first free slot holds no flow and is not pending. -/
theorem Pool.peek (pool : Pool t slots) (hsome : t.free.empty = false) :
  t.free.peek < t.capacity ∧ (t.slots t.free.peek).live = false ∧ t.free.peek ∉ slots
    ∧ t.free.peek ∈ t.free.contents
  := by
  obtain ⟨hlt, hocc⟩ := pool.room.peek hsome
  rw [Bool.or_eq_false_iff, decide_eq_false_iff_not] at hocc
  refine ⟨hlt, hocc.1, hocc.2, ?_⟩
  rw [FreeList.contents_pop pool.room.wf hsome]
  exact mem_cons_self

/-- The first free slot goes to the other end of the list. -/
theorem Pool.contents_recycle (pool : Pool t slots) (hsome : t.free.empty = false) :
  (t.free.pop.push t.free.peek).contents.Perm (t.free.peek :: t.free.pop.contents)
  := by
  have room := pool.room.take hsome
  apply FreeList.contents_push room.wf
  have hcard := room.card_add
  rw [room.capacity_eq]
  omega

theorem Pool.dead_of_free (pool : Pool t slots) (hfree : s ∈ t.free.contents) :
  s < t.capacity ∧ (t.slots s).live = false ∧ s ∉ slots
  := by
  obtain ⟨Q, _, _, hmem⟩ := pool.room.partition
  obtain ⟨hlt, hocc⟩ := (hmem s).mp (mem_append_left _ hfree)
  rw [Bool.or_eq_false_iff, decide_eq_false_iff_not] at hocc
  exact ⟨hlt, hocc⟩

/-! ### A created flow -/

section Create

variable {key : Key} {aliasKey : Option Key}

/-- The published record is that of a flow just made. -/
theorem published_eq (slot : SlotRecord Key State) (key : Key) (aliasKey : Option Key)
    (state : State) :
  published { slot with state := some state } key aliasKey
    = madeSlot slot key aliasKey state
  := by
  cases aliasKey with
  | none => rfl
  | some a =>
  rw [published, madeSlot, advance, mark]
  dsimp only
  congr 1
  funext j
  rw [update_apply]
  change decide (j = 0 ∨ j = 1) = if j = 1 then true else decide (j = 0)
  split
  case isTrue h => rw [h]; rfl
  case isFalse h => simp only [h, or_false]

theorem keyIn_madeSlot (slot : SlotRecord Key State) (key : Key) (aliasKey : Option Key)
    (state : State) (j : ℕ) :
  (madeSlot slot key aliasKey state).keyIn j
    = if j = 1 ∧ aliasKey.isSome = true then aliasKey else if j = 0 then some key else none
  := by
  cases aliasKey with
  | none =>
    rw [madeSlot, keyIn_advance, keyIn_claim]
    simp
  | some a =>
  rw [madeSlot, keyIn_advance, keyIn_store, keyIn_claim]
  simp

theorem exists_keyIn_madeSlot {slot : SlotRecord Key State} {state : State} {k : Key} :
  (∃ j, (madeSlot slot key aliasKey state).keyIn j = some k)
    ↔ k ∈ aliasKey.toList ++ [key]
  := by
  simp only [keyIn_madeSlot]
  rw [mem_append, mem_singleton, mem_toList]
  constructor
  · rintro ⟨j, hj⟩
    split at hj
    · exact .inl hj
    split at hj
    · exact .inr (some.inj hj).symm
    · cases hj
  rintro (h | rfl)
  · refine ⟨1, ?_⟩
    rw [mem_def.mp h]
    simp
  · exact ⟨0, by simp⟩

theorem AtRest.publish (rest : AtRest T erasedAt t slots) (hsome : t.free.empty = false)
    (hroom : aliasKey.isSome = true → 0 < T.kAliases) (halone : aliasKey ≠ some key)
    (hfresh : ∀ k ∈ aliasKey.toList ++ [key], t.directory k = none) (state : State)
    (hnew : ∀ k ∈ aliasKey.toList ++ [key], directory k = some t.offer)
    (hold : ∀ k ∉ aliasKey.toList ++ [key], directory k = t.directory k) :
  AtRest T erasedAt (t.put t.free.peek
    (madeSlot (t.slots t.free.peek) key aliasKey state) directory t.free.pop
    (t.size + 1) t.quarantined) slots
  := by
  obtain ⟨hlt, hdead, hout, _⟩ := rest.peek hsome
  have hlive : (madeSlot (t.slots t.free.peek) key aliasKey state).live = true := by
    rw [live_madeSlot, hdead, Bool.not_false]
  have hunnamed (k : Key) : ¬ t.Names t.free.peek k := by
    intro hnames
    rw [rest.live_of_names hlt hnames] at hdead
    cases hdead
  have hgen : (madeSlot (t.slots t.free.peek) key aliasKey state).generation
      = (t.slots t.free.peek).generation + 1 := by
    cases aliasKey <;> rfl
  apply rest.put hout
  case keyed =>
    apply rest.toKeyed.put rest.capacity_lt hlt (wf_madeSlot hdead key hroom state)
    case honce =>
      intro j j' k hj hj'
      rw [keyIn_madeSlot] at hj hj'
      split_ifs at hj hj' with hone hone' hzero' hzero hone' hzero'
      · rw [hone.1, hone'.1]
      · exact absurd (hj.trans hj'.symm) halone
      · exact absurd (hj'.trans hj.symm) halone
      · rw [hzero, hzero']
    case hdir =>
    intro k h
    rw [exists_keyIn_madeSlot, hgen]
    by_cases hk : k ∈ aliasKey.toList ++ [key]
    · rw [hnew k hk, hfresh k hk, some_inj]
      simp only [hk, and_true, reduceCtorEq, false_and, or_false]
      exact eq_comm
    rw [hold k hk]
    simp only [hk, and_false, false_or, hunnamed, not_false_eq_true, and_true]
  case room =>
    rw [hlive, Nat.add_right_comm]
    exact rest.room.take hsome
  case hfree =>
    intro s' hne hfree
    rw [FreeList.contents_pop rest.room.wf hsome] at hfree
    exact (mem_cons.mp hfree).resolve_left hne
  case hspent =>
  intro hdead'
  rw [hlive] at hdead'
  cases hdead'

end Create

/-! ### An abandoned slot -/

/-- A slot with a generation moved on by two. -/
def moveOn (slot : SlotRecord Key State) : SlotRecord Key State :=
  { slot with generation := slot.generation + 2 }

theorem live_moveOn (slot : SlotRecord Key State) :
  (moveOn slot).live = slot.live
  := by
  have hparity : (slot.generation + 2).toNat % 2 = slot.generation.toNat % 2 := by
    rw [BitVec.toNat_add, show (2 : BitVec 32).toNat = 2 from rfl]
    omega
  rw [live, live, moveOn]
  rw [hparity]

theorem Keyed.unnamed (keyed : Keyed T t) (hs : s < t.capacity) (hdead : (t.slots s).live = false)
    (key : Key) :
  ¬ t.Names s key
  := by
  intro hnames
  rw [keyed.live_of_names hs hnames] at hdead
  cases hdead

theorem abandonSlot_eq (t : SharedFlowTable Key State) (s : ℕ) :
  t.abandonSlot s = if (t.slots s).generation + 2 = 0 then
      t.put s (moveOn (t.slots s)) t.directory t.free.pop t.size (t.quarantined + 1)
    else t.put s (moveOn (t.slots s)) t.directory (t.free.pop.push s) t.size t.quarantined
  := by
  rw [abandonSlot]
  split <;> rfl

theorem AtRest.abandonSlot (rest : AtRest T erasedAt t slots) (hsome : t.free.empty = false) :
  AtRest T erasedAt (t.abandonSlot t.free.peek) slots
  := by
  obtain ⟨hlt, hdead, hout, _⟩ := rest.peek hsome
  have hlive : (moveOn (t.slots t.free.peek)).live = false := by
    rw [live_moveOn, hdead]
  have hkeyIn (j : ℕ) : (moveOn (t.slots t.free.peek)).keyIn j = none :=
    keyIn_of_unmarked ((rest.slot _ hlt).unmarked hdead j)
  have keyed {free : FreeList} {quarantined : ℕ} :
      Keyed T (t.put t.free.peek (moveOn (t.slots t.free.peek)) t.directory free t.size
        quarantined) := by
    apply rest.toKeyed.put rest.capacity_lt hlt
    case honce =>
      intro j j' key hj
      rw [hkeyIn] at hj
      cases hj
    case hdir =>
      intro key h
      simp only [hkeyIn, reduceCtorEq, exists_false, and_false, false_or,
        rest.unnamed hlt hdead, not_false_eq_true, and_true]
    case hwf =>
    constructor
    · intro j hmask
      rw [show (moveOn (t.slots t.free.peek)).keyMask j = false from
        (rest.slot _ hlt).unmarked hdead j] at hmask
      cases hmask
    intro halive
    rw [hlive] at halive
    cases halive
  have hpopped : ∀ s' ≠ t.free.peek, s' ∈ t.free.contents → s' ∈ t.free.pop.contents := by
    intro s' hne hfree
    rw [FreeList.contents_pop rest.room.wf hsome] at hfree
    exact (mem_cons.mp hfree).resolve_left hne
  have room := rest.room.take hsome
  have hocc : update (fun s' => (t.slots s').live || decide (s' ∈ slots)) t.free.peek
      true t.free.peek = true := update_self ..
  rw [abandonSlot_eq]
  split
  case isTrue hwrapped =>
    have room' := room.quarantine hlt hocc
    rw [update_idem] at room'
    apply rest.put hout keyed _ hpopped
    · intro _ _
      exact hwrapped
    rw [hlive]
    exact room'
  case isFalse =>
  have room' := room.release hlt hocc
  rw [update_idem] at room'
  have hpushed := rest.contents_recycle hsome
  apply rest.put hout keyed
  · rw [hlive]
    exact room'
  · intro s' hne hfree
    rw [hpushed.mem_iff]
    exact mem_cons_of_mem _ (hpopped s' hne hfree)
  intro _ hunlisted
  rw [hpushed.mem_iff] at hunlisted
  exact absurd mem_cons_self hunlisted

/-! ### An alias -/

theorem AtRest.addAlias (rest : AtRest T erasedAt t slots) (hs : s < t.capacity)
    (hlive : (t.slots s).live = true) {j : ℕ} (hj : j < T.kKeysPerSlot)
    (hmask : (t.slots s).keyMask j = false) {aliasKey : Key}
    (hfresh : t.directory aliasKey = none)
    (hnew : directory aliasKey = some (t.handleOf s))
    (hold : ∀ k ≠ aliasKey, directory k = t.directory k) :
  AtRest T erasedAt (t.put s (((t.slots s).storeKey j aliasKey).mark j true) directory t.free t.size
    t.quarantined) slots
  := by
  have hout : s ∉ slots := by
    intro hs'
    rw [(rest.dead s hs').2] at hlive
    cases hlive
  have hunnamed : ¬ t.Names s aliasKey := by
    intro hnames
    rw [rest.directory.mpr ⟨s, hs, rfl, hnames⟩] at hfresh
    cases hfresh
  have hlive' : (((t.slots s).storeKey j aliasKey).mark j true).live = true := hlive
  apply rest.put hout
  case keyed =>
    apply rest.toKeyed.put rest.capacity_lt hs ((rest.slot s hs).store hlive hj aliasKey)
    case honce =>
      intro i i' k hi hi'
      rw [keyIn_store] at hi hi'
      split_ifs at hi hi' with h h' h'
      · rw [h, h']
      · cases hi
        exact absurd ⟨i', hi'⟩ hunnamed
      · cases hi'
        exact absurd ⟨i, hi⟩ hunnamed
      · exact rest.once hs hi hi'
    case hdir =>
    intro k h
    have hkeys : (∃ i, (((t.slots s).storeKey j aliasKey).mark j true).keyIn i = some k)
        ↔ k = aliasKey ∨ t.Names s k := by
      simp only [keyIn_store]
      constructor
      · rintro ⟨i, hi⟩
        split at hi
        · exact .inl (some.inj hi).symm
        · exact .inr ⟨i, hi⟩
      rintro (rfl | ⟨i, hi⟩)
      · exact ⟨j, if_pos rfl⟩
      refine ⟨i, ?_⟩
      rw [if_neg, hi]
      rintro rfl
      rw [keyIn_of_unmarked hmask] at hi
      cases hi
    rw [hkeys]
    rcases eq_or_ne k aliasKey with rfl | hne
    · rw [hnew, hfresh, some_inj]
      simp only [true_or, and_true, reduceCtorEq, false_and, or_false]
      exact eq_comm
    rw [hold k hne]
    by_cases hnames : t.Names s k
    · rw [rest.directory.mpr ⟨s, hs, rfl, hnames⟩, some_inj]
      simp only [hnames, or_true, and_true, not_true_eq_false, and_false, or_false]
      exact eq_comm
    · simp only [hne, hnames, and_false, false_or, not_false_eq_true, and_true]
  case room =>
    rw [hlive', update_eq_self_iff.mpr]
    · exact rest.room
    · rw [hlive, Bool.true_or]
  case hfree => exact fun _ _ hfree => hfree
  case hspent =>
  intro hdead
  rw [hlive'] at hdead
  cases hdead

/-! ### An erased slot -/

/-- The record of an erased slot. -/
def erased (slot : SlotRecord Key State) : SlotRecord Key State :=
  { slot.advance with keyMask := fun _ => false }

theorem Tokened.erased {started untokened : ℕ} {bs : List Batch} (hout : s ∉ slots)
    (h : Tokened erasedAt started bs slots untokened) :
  Tokened (update erasedAt s started) started bs (slots ++ [s]) (untokened + 1)
  := by
  apply Tokened.append
  · rw [update_self]
  apply Tokened.congr _ h
  intro s' hs'
  apply update_of_ne
  rintro rfl
  exact hout hs'

/-- An erased flow's slot is pending, and none of its keys is in the directory. -/
theorem AtRest.retire (rest : AtRest T erasedAt t slots) (hs : s < t.capacity)
    (hlive : (t.slots s).live = true)
    (hgone : ∀ k, t.Names s k → directory k = none)
    (hold : ∀ k, ¬ t.Names s k → directory k = t.directory k) :
  AtRest T (update erasedAt s t.domain.started)
    { t.put s (erased (t.slots s)) directory t.free (t.size - 1) t.quarantined with
      pending := update t.pending ((t.pendingHead + t.pendingCount) % t.capacity)
        (pendingEntry s ((t.slots s).generation + 1))
      pendingCount := t.pendingCount + 1
      untokened := t.untokened + 1
      pendingPublished := t.pendingCount + 1 }
    (slots ++ [s])
  := by
  have hout : s ∉ slots := by
    intro hs'
    rw [(rest.dead s hs').2] at hlive
    cases hlive
  have hpos : 0 < t.size := by
    rw [rest.size_eq]
    exact Finset.card_pos.mpr ⟨s, Finset.mem_filter.mpr ⟨Finset.mem_range.mpr hs, hlive⟩⟩
  have hcount := rest.count_eq
  have hroom : t.pendingCount < t.capacity := by
    have := rest.room.card_add
    omega
  have hdead : (erased (t.slots s)).live = false := by
    change (t.slots s).advance.live = false
    rw [live_advance, hlive, Bool.not_true]
  have hkeyIn (j : ℕ) : (erased (t.slots s)).keyIn j = none := rfl
  set slots' := update t.slots s (erased (t.slots s))
  have hself : slots' s = erased (t.slots s) := update_self ..
  have hother : ∀ s' ≠ s, slots' s' = t.slots s' := fun s' hne => update_of_ne hne ..
  have hslots : ∀ s' ∈ slots, slots' s' = t.slots s' :=
    fun s' hs' => hother s' (ne_of_mem_of_not_mem hs' hout)
  have keyed : Keyed T (t.put s (erased (t.slots s)) directory t.free (t.size - 1)
      t.quarantined) := by
    apply rest.toKeyed.put rest.capacity_lt hs
    case hwf =>
      constructor
      · intro j hmask
        cases hmask
      intro hlive'
      rw [hdead] at hlive'
      cases hlive'
    case honce =>
      intro j j' key hj
      cases hj
    case hdir =>
    intro key h
    simp only [hkeyIn, reduceCtorEq, exists_false, and_false, false_or]
    by_cases hnames : t.Names s key
    · rw [hgone key hnames]
      simp only [hnames, reduceCtorEq, not_true_eq_false, and_false]
    rw [hold key hnames]
    simp only [hnames, not_false_eq_true, and_true]
  refine ⟨?pool, { rest with tokened := rest.tokened.erased hout },
    { keyed with }, rfl, ?kept, ?spent⟩
  case pool =>
    constructor
    case capacity_lt => exact rest.capacity_lt
    case head_lt => exact rest.head_lt
    case entries =>
      refine (Ring.contents_push hroom _).trans ?_
      rw [rest.entries, map_append]
      congr 1
      · apply map_congr_left
        intro s' hs'
        exact (congrArg (fun slot => pendingEntry s' slot.generation) (hslots s' hs')).symm
      rw [map_singleton]
      exact congrArg (fun slot => [pendingEntry s slot.generation]) hself.symm
    case nodup =>
      apply rest.nodup.append (nodup_singleton s)
      rw [disjoint_singleton]
      exact hout
    case dead =>
      intro s' hs'
      rcases mem_append.mp hs' with hs' | hs'
      · have := rest.dead s' hs'
        rw [← hslots s' hs'] at this
        exact this
      rw [mem_singleton.mp hs']
      refine ⟨hs, ?_⟩
      change (slots' s).live = false
      rw [hself, hdead]
    case room =>
    have hocc : (fun s' => (slots' s').live || decide (s' ∈ slots ++ [s]))
        = fun s' => (t.slots s').live || decide (s' ∈ slots) := by
      funext s'
      rcases eq_or_ne s' s with rfl | hne
      · rw [hself, hdead, hlive, decide_eq_true (mem_append_right _ mem_cons_self)]
        rfl
      rw [hother s' hne]
      simp only [mem_append, mem_singleton, hne, or_false]
    have hsize : t.size - 1 + (slots ++ [s]).length = t.size + slots.length := by
      rw [length_append, length_singleton]
      omega
    have room := rest.room
    rw [← hocc, ← hsize] at room
    exact room
  case kept =>
    intro s' hs'
    change (slots' s').state.isSome = true
    rcases mem_append.mp hs' with hs' | hs'
    · rw [hslots s' hs']
      exact rest.kept s' hs'
    rw [mem_singleton.mp hs', hself]
    exact ((rest.slot s hs).primary hlive).2
  case spent =>
  intro s' hs' hdead' hout' hunlisted
  rw [mem_append, not_or, mem_singleton] at hout'
  change (slots' s').live = false at hdead'
  change (slots' s').generation = 0
  rw [hother s' hout'.2] at hdead' ⊢
  exact rest.spent s' hs' hdead' hout'.1 hunlisted

/-- Grace periods that start or complete do not touch the table. -/
theorem AtRest.rcu (rest : AtRest T erasedAt t slots) {domain : RcuDomain}
    (hstarted : t.domain.started ≤ domain.started) :
  AtRest T erasedAt { t with domain := domain } slots
  := by
  refine ⟨{ rest with },
    ⟨rest.batchHead_lt, rest.batchCount_le, ?_⟩,
    { rest with }, rest.published, rest.kept,
    rest.spent⟩
  exact rest.tokened.mono hstarted

end SharedFlowTable

end Flow
