import Bess.Flow.Reclamation

/-!
# The generations of a shared flow table

Every write, and every reclaim, leaves the generation of a slot alone or moves it on for good, and a
flow keeps its keys and its state as long as its generation stays.
-/

namespace Flow

open Function List

variable {Key State : Type}

namespace SharedFlowTable

variable {T : FlowTableTraits Key} {t t' t'' : SharedFlowTable Key State} {erasedAt : ℕ → ℕ}
  {slots : List ℕ} {s : ℕ} {h : FlowHandle}

/-! ### Generations do not come back -/

/-- A slot has moved past a generation for good: to a later one, or to the end of them all. -/
def Past (t : SharedFlowTable Key State) (s : ℕ) (g : BitVec 32) : Prop :=
  g.toNat < (t.slots s).generation.toNat ∨ (t.slots s).generation = 0 ∧ s ∉ t.free.contents

/-- A handle whose slot has moved past it. -/
def Spent (t : SharedFlowTable Key State) (h : FlowHandle) : Prop :=
  ∃ s < t.capacity, h.id = BitVec.ofNat 32 (s + 1) ∧ t.Past s h.generation

theorem id_inj {s' : ℕ} (hcap : t.capacity < 2 ^ 30) (hs : s < t.capacity)
    (hs' : s' < t.capacity) (hid : BitVec.ofNat 32 (s + 1) = BitVec.ofNat 32 (s' + 1)) :
  s = s'
  := handleOf_inj hcap hs hs' (congrArg (FlowHandle.mk · 0) hid)

theorem Spent.not_alive (hcap : t.capacity < 2 ^ 30) (spent : t.Spent h) :
  t.alive h = false
  := by
  obtain ⟨s, hs, hid, hpast⟩ := spent
  rw [← Bool.not_eq_true, alive_iff hcap]
  rintro ⟨s', hs', hlive, rfl⟩
  obtain rfl : s' = s := id_inj hcap hs' hs hid
  rcases hpast with hlt | ⟨hzero, _⟩
  · exact lt_irrefl _ hlt
  rw [SlotRecord.live, hzero] at hlive
  cases hlive

/-- `t'` may come after `t` in a run. -/
structure Later (t t' : SharedFlowTable Key State) : Prop where
  capacity : t'.capacity = t.capacity
  past : ∀ {s g}, s < t.capacity → t.Past s g → t'.Past s g
  kept : ∀ {s}, s < t.capacity → (t.slots s).live = true →
    t'.Past s (t.slots s).generation
      ∨ (t'.slots s).generation = (t.slots s).generation ∧ (t'.slots s).state = (t.slots s).state
        ∧ ∀ k, t.Names s k → t'.Names s k

theorem Later.trans (h : Later t t') (h' : Later t' t'') :
  Later t t''
  := by
  constructor
  case capacity => rw [h'.capacity, h.capacity]
  case past =>
    intro s g hs hpast
    apply h'.past _ (h.past hs hpast)
    rw [h.capacity]
    exact hs
  case kept =>
  intro s hs hlive
  have hs' : s < t'.capacity := by
    rw [h.capacity]
    exact hs
  rcases h.kept hs hlive with hpast | ⟨hgen, hstate, hnames⟩
  · exact .inl (h'.past hs' hpast)
  have hlive' : (t'.slots s).live = true := by
    rw [SlotRecord.live, hgen]
    exact hlive
  rcases h'.kept hs' hlive' with hpast | ⟨hgen', hstate', hnames'⟩
  · left
    rw [← hgen]
    exact hpast
  right
  exact ⟨hgen'.trans hgen, hstate'.trans hstate,
    fun k hk => hnames' k (hnames k hk)⟩

theorem Names.congr {k : Key} (h : t.Names s k) (hslot : t'.slots s = t.slots s) :
  t'.Names s k
  := by
  rw [Names, hslot]
  exact h

section

variable (hcap : t'.capacity = t.capacity)

include hcap

/-- No generation changes, and live flows lose nothing. -/
theorem later_of_eq (hgen : ∀ s, (t'.slots s).generation = (t.slots s).generation)
    (hfree : ∀ s, (t.slots s).generation = 0 → s ∈ t'.free.contents → s ∈ t.free.contents)
    (hkept : ∀ s, (t.slots s).live = true → (t'.slots s).state = (t.slots s).state
      ∧ ∀ k, t.Names s k → t'.Names s k) :
  Later t t'
  := by
  constructor
  case capacity => exact hcap
  case past =>
    intro s g _ hpast
    rw [Past, hgen]
    apply hpast.imp id
    rintro ⟨hzero, hout⟩
    exact ⟨hzero, fun hlisted => hout (hfree s hzero hlisted)⟩
  case kept =>
  intro s _ hlive
  exact .inr ⟨hgen s, hkept s hlive⟩

/-- Live flows and the free list stay as they are. -/
theorem later_of_slots (hfree : t'.free = t.free) (hslots : ∀ s, t'.slots s = t.slots s
      ∨ (t.slots s).live = false ∧ (t'.slots s).generation = (t.slots s).generation) :
  Later t t'
  := by
  apply later_of_eq hcap
  · intro s
    rcases hslots s with h | h
    · rw [h]
    · exact h.2
  · intro s _ hlisted
    rw [← hfree]
    exact hlisted
  intro s hlive
  rcases hslots s with h | ⟨hdead, _⟩
  · exact ⟨congrArg _ h, fun _ hk => hk.congr h⟩
  rw [hlive] at hdead
  cases hdead

theorem later_of_past (hslots : ∀ s' ≠ s, t'.slots s' = t.slots s')
    (hfree : ∀ s' ≠ s, s' ∈ t'.free.contents ↔ s' ∈ t.free.contents)
    (hused : (t.slots s).generation ≠ 0 ∨ s ∈ t.free.contents)
    (hpast : t'.Past s (t.slots s).generation) :
  Later t t'
  := by
  constructor
  case capacity => exact hcap
  case kept =>
    intro s' _ _
    rcases eq_or_ne s' s with rfl | hne
    · exact .inl hpast
    have hsame := hslots s' hne
    exact .inr ⟨congrArg _ hsame, congrArg _ hsame, fun _ hk => hk.congr hsame⟩
  case past =>
  intro s' g _ hbefore
  rcases eq_or_ne s' s with rfl | hne
  · rcases hbefore with hlt | ⟨hzero, hout⟩
    · exact hpast.imp (fun hlt' => hlt.trans hlt') id
    rcases hused with hused | hused
    · exact absurd hzero hused
    · exact absurd hused hout
  rw [Past, hslots s' hne, hfree s' hne]
  exact hbefore

end

/-! ### What each write does to the generations -/

theorem toNat_add_one {g : BitVec 32} (hnext : g + 1 ≠ 0) :
  g.toNat < (g + 1).toNat
  := by
  bv_omega

theorem toNat_even {slot : SlotRecord Key State} (hdead : slot.live = false) :
  slot.generation.toNat % 2 = 0
  := by
  rw [SlotRecord.live, decide_eq_false_iff_not] at hdead
  omega

section

variable (rest : AtRest T erasedAt t slots)

include rest

theorem AtRest.later_reclaimLocked (completed : ℕ) :
  Later t (t.reclaimLocked completed).1
  := by
  obtain ⟨xs, ys, rfl, _, reclaimed, _⟩ := rest.reclaimLocked completed
  apply later_of_eq reclaimed.capacity
  · intro s
    rw [reclaimed.slots]
    dsimp only
    split <;> rfl
  · intro s hzero hlisted
    rw [reclaimed.free.mem_iff, mem_append, mem_filter] at hlisted
    rcases hlisted with ⟨_, hne⟩ | hlisted
    · exact absurd hzero (of_decide_eq_true hne)
    · exact hlisted
  intro s hlive
  have hout : s ∉ xs := by
    intro hxs
    rw [(rest.dead s (mem_append_left _ hxs)).2] at hlive
    cases hlive
  have hsame : (t.reclaimLocked completed).1.slots s = t.slots s := by
    rw [reclaimed.slots]
    exact if_neg hout
  exact ⟨congrArg _ hsame, fun _ hk => hk.congr hsame⟩

/-- An abandoned slot is past the generation that was offered. -/
theorem AtRest.past_abandonSlot (hsome : t.free.empty = false) :
  (t.abandonSlot t.free.peek).Past t.free.peek ((t.slots t.free.peek).generation + 1)
  := by
  rw [abandonSlot_eq]
  split
  case isFalse hnext =>
    left
    rw [put_slots_self, moveOn]
    bv_omega
  case isTrue hwrapped =>
  right
  rw [put_slots_self]
  refine ⟨hwrapped, ?_⟩
  obtain ⟨Q, hnodup, _⟩ := rest.room.partition
  rw [FreeList.contents_pop rest.room.wf hsome, cons_append, nodup_cons] at hnodup
  exact fun h => hnodup.1 (mem_append_left _ h)

theorem AtRest.later_abandonSlot (hsome : t.free.empty = false) :
  Later t (t.abandonSlot t.free.peek)
  := by
  obtain ⟨_, hdead, _, hlisted⟩ := rest.peek hsome
  have hpast : (t.abandonSlot t.free.peek).Past t.free.peek (t.slots t.free.peek).generation := by
    have heven := toNat_even hdead
    apply (rest.past_abandonSlot hsome).imp _ id
    bv_omega
  have hpopped : ∀ s ≠ t.free.peek, s ∈ t.free.pop.contents ↔ s ∈ t.free.contents := by
    intro s hne
    rw [FreeList.contents_pop rest.room.wf hsome, mem_cons]
    exact (or_iff_right hne).symm
  refine later_of_past ?_ ?_ ?_ (.inr hlisted) hpast
  · rw [abandonSlot_eq]
    split <;> rfl
  · intro s hne
    rw [abandonSlot_eq]
    split <;> exact put_slots_of_ne hne
  intro s hne
  rw [← hpopped s hne, abandonSlot_eq]
  split
  case isTrue => exact Iff.rfl
  case isFalse =>
  change s ∈ (t.free.pop.push t.free.peek).contents ↔ _
  rw [(rest.contents_recycle hsome).mem_iff, mem_cons]
  exact or_iff_right hne

end

theorem later_addAlias {j : ℕ} (hmask : (t.slots s).keyMask j = false) (aliasKey : Key)
    (directory : Key → Option FlowHandle) :
  Later t (t.put s (((t.slots s).storeKey j aliasKey).mark j true) directory t.free t.size
    t.quarantined)
  := by
  refine later_of_eq rfl ?_ (fun _ _ h => h) ?_
  · intro s'
    rcases eq_or_ne s' s with rfl | hne
    · rw [put_slots_self]
      rfl
    · rw [put_slots_of_ne hne]
  intro s' _
  rcases eq_or_ne s' s with rfl | hne
  · rw [put_slots_self]
    refine ⟨rfl, ?_⟩
    rintro k ⟨j', hj'⟩
    refine ⟨j', ?_⟩
    rw [put_slots_self, SlotRecord.keyIn_store]
    rw [if_neg]
    · exact hj'
    rintro rfl
    rw [SlotRecord.keyIn, hmask] at hj'
    cases hj'
  rw [put_slots_of_ne hne]
  exact ⟨rfl, fun _ hk => hk.congr (put_slots_of_ne hne)⟩

variable [DecidableEq Key]

theorem Pool.later_during (pool : Pool t slots) (hsome : t.free.empty = false)
    (inserted inserted' : Finset Key) (built built' : Option State) :
  Later (t.during inserted built) (t.during inserted' built')
  := by
  refine later_of_slots rfl rfl ?_
  intro s
  rcases eq_or_ne s t.free.peek with rfl | hne
  · right
    rw [during, during, put_slots_self, put_slots_self]
    exact ⟨(pool.peek hsome).2.1, rfl⟩
  left
  rw [during, during, put_slots_of_ne hne, put_slots_of_ne hne]

theorem AtRest.later_publish (rest : AtRest T erasedAt t slots) (hsome : t.free.empty = false)
    (inserted : Finset Key) (state : State) (key : Key) (aliasKey : Option Key) :
  Later (t.during inserted (some state))
    ((t.during inserted (some state)).write (.publish t.free.peek key aliasKey))
  := by
  obtain ⟨_, hdead, _, hlisted⟩ := rest.peek hsome
  have heven := toNat_even hdead
  rw [during_publish]
  refine later_of_past rfl ?_ ?_ (.inr hlisted) ?_
  · intro s hne
    rw [during, put_slots_of_ne hne, put_slots_of_ne hne]
  · intro s hne
    change s ∈ t.free.pop.contents ↔ s ∈ t.free.contents
    rw [FreeList.contents_pop rest.room.wf hsome, mem_cons]
    exact (or_iff_right hne).symm
  left
  have hnext : (WorkerFlowTable.madeSlot (t.slots t.free.peek) key aliasKey state).generation
      = (t.slots t.free.peek).generation + 1 := by
    cases aliasKey <;> rfl
  rw [during, put_slots_self, put_slots_self, hnext]
  bv_omega

theorem AtRest.later_whileErasing (rest : AtRest T erasedAt t slots)
    (hlive : (t.slots s).live = true) (gone : List Key) :
  Later t (t.whileErasing s gone)
  := by
  have hout : s ∉ t.free.contents := by
    intro hlisted
    rw [(rest.dead_of_free hlisted).2.1] at hlive
    cases hlive
  refine later_of_past rfl (fun s' hne => put_slots_of_ne hne) (fun _ _ => Iff.rfl) ?_ ?_
  · left
    intro hzero
    rw [not_live_of_generation hzero] at hlive
    cases hlive
  rw [Past, whileErasing, put_slots_self]
  by_cases hnext : (t.slots s).generation + 1 = 0
  · exact .inr ⟨hnext, hout⟩
  · exact .inl (toNat_add_one hnext)

theorem later_retire (hdead : (t.slots s).live = false) :
  Later t (t.write (.retire s))
  := by
  refine later_of_slots rfl rfl ?_
  intro s'
  rcases eq_or_ne s' s with rfl | hne
  · right
    refine ⟨hdead, ?_⟩
    change (update t.slots s' _ s').generation = _
    rw [update_self]
  left
  change update t.slots s _ s' = _
  rw [update_of_ne hne]

end SharedFlowTable

end Flow
