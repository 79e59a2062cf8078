import Bess.Flow.Shared

/-!
# What a shared flow table keeps

Between calls, every slot of a shared table is live, free, pending or quarantined. The pending
slots are the contents of a ring; the batches divide them into groups, each of which waits for a
grace period that started after the slots of the group were erased.
-/

namespace Flow

open Function List

namespace SharedFlowTable

variable {Key State : Type} {t : SharedFlowTable Key State} {s : ℕ}

/-! ### The pending ring -/

theorem pendingEntry_slot (hs : s < 2 ^ 30) (next : BitVec 32) :
  (pendingEntry s next &&& kSlotMask).toNat = s
  := by
  have hmask : BitVec.ofNat 32 s &&& kSlotMask = BitVec.ofNat 32 s := by
    apply BitVec.eq_of_toNat_eq
    rw [BitVec.toNat_and, BitVec.toNat_ofNat, Nat.mod_eq_of_lt (by omega)]
    exact (Nat.and_two_pow_sub_one_eq_mod s 31).trans (Nat.mod_eq_of_lt (by omega))
  have hbit : kSlotMask &&& (if next = 0 then kQuarantineBit else 0) = 0#32 := by
    split <;> decide
  rw [pendingEntry, BitVec.and_comm, BitVec.and_or_distrib_left, hbit, BitVec.or_zero,
    BitVec.and_comm, hmask, BitVec.toNat_ofNat, Nat.mod_eq_of_lt (by omega)]

theorem pendingEntry_quarantine (hs : s < 2 ^ 30) (next : BitVec 32) :
  pendingEntry s next &&& kQuarantineBit ≠ 0 ↔ next = 0
  := by
  have hmask : kQuarantineBit &&& BitVec.ofNat 32 s = 0#32 := by
    apply BitVec.eq_of_toNat_eq
    rw [BitVec.toNat_and, BitVec.toNat_ofNat, Nat.mod_eq_of_lt (by omega)]
    apply Nat.eq_of_testBit_eq
    intro i
    change (2 ^ 31 &&& s).testBit i = (0 : ℕ).testBit i
    rw [Nat.testBit_and, Nat.testBit_two_pow, Nat.zero_testBit]
    rcases eq_or_ne 31 i with rfl | hne
    · rw [Nat.testBit_lt_two_pow (by omega), Bool.and_false]
    · rw [decide_eq_false hne, Bool.false_and]
  rw [pendingEntry, BitVec.and_comm, BitVec.and_or_distrib_left, hmask]
  split
  case isTrue h => exact iff_of_true (by decide) h
  case isFalse h => exact iff_of_false (by decide) h

/-- The erased slots that wait for readers, the one erased first in front. -/
def pendingSlots (t : SharedFlowTable Key State) : List ℕ :=
  (Ring.contents t.capacity t.pending t.pendingHead t.pendingCount).map fun entry =>
    (entry &&& kSlotMask).toNat

/-- The books about the slots, of which `slots` are pending. -/
structure Pool (t : SharedFlowTable Key State) (slots : List ℕ) : Prop where
  capacity_lt : t.capacity < 2 ^ 30
  head_lt : t.pendingHead < t.capacity
  entries : Ring.contents t.capacity t.pending t.pendingHead t.pendingCount
    = slots.map fun s => pendingEntry s (t.slots s).generation
  nodup : slots.Nodup
  dead : ∀ s ∈ slots, s < t.capacity ∧ (t.slots s).live = false
  room : Room t.capacity (fun s => (t.slots s).live || decide (s ∈ slots)) t.free t.quarantined
    (t.size + slots.length)

variable {slots : List ℕ} {erasedAt : ℕ → ℕ}

namespace Pool

theorem count_eq (pool : Pool t slots) :
  t.pendingCount = slots.length
  := by
  rw [← Ring.length_contents t.capacity t.pending t.pendingHead t.pendingCount, pool.entries,
    length_map]

theorem pendingSlots_eq (pool : Pool t slots) :
  t.pendingSlots = slots
  := by
  rw [pendingSlots, pool.entries, map_map]
  have hdecode : ∀ s ∈ slots, ((fun entry : BitVec 32 => (entry &&& kSlotMask).toNat)
      ∘ fun s => pendingEntry s (t.slots s).generation) s = id s := by
    intro s hs
    exact pendingEntry_slot ((pool.dead s hs).1.trans pool.capacity_lt) _
  rw [map_congr_left hdecode, map_id]

theorem size_eq (pool : Pool t slots) :
  t.size = ((Finset.range t.capacity).filter fun s => (t.slots s).live = true).card
  := by
  have hunion : ((Finset.range t.capacity).filter fun s =>
        ((t.slots s).live || decide (s ∈ slots)) = true)
      = ((Finset.range t.capacity).filter fun s => (t.slots s).live = true) ∪ slots.toFinset := by
    ext s
    simp only [Finset.mem_filter, Finset.mem_range, Finset.mem_union, mem_toFinset,
      Bool.or_eq_true, decide_eq_true_iff]
    constructor
    · rintro ⟨hlt, hlive | hs⟩
      · exact .inl ⟨hlt, hlive⟩
      · exact .inr hs
    rintro (⟨hlt, hlive⟩ | hs)
    · exact ⟨hlt, .inl hlive⟩
    · exact ⟨(pool.dead s hs).1, .inr hs⟩
  have hdisjoint : Disjoint ((Finset.range t.capacity).filter fun s => (t.slots s).live = true)
      slots.toFinset := by
    rw [Finset.disjoint_left]
    intro s hlive hs
    rw [Finset.mem_filter, (pool.dead s (mem_toFinset.mp hs)).2] at hlive
    cases hlive.2
  have hcard := pool.room.size_eq
  rw [hunion, Finset.card_union_of_disjoint hdisjoint, toFinset_card_of_nodup pool.nodup] at hcard
  exact Nat.add_right_cancel hcard

/-- The first pending slot is no longer pending. -/
theorem occupied_tail (pool : Pool t (s :: slots)) :
  update (fun s' => (t.slots s').live || decide (s' ∈ s :: slots)) s false
    = fun s' => (t.slots s').live || decide (s' ∈ slots)
  := by
  funext s'
  rcases eq_or_ne s' s with rfl | hne
  · rw [update_self, (pool.dead s' mem_cons_self).2, decide_eq_false (nodup_cons.mp pool.nodup).1]
    rfl
  rw [update_of_ne hne]
  simp only [mem_cons, hne, false_or]

end Pool

/-! ### Reclaim -/

/-- `t'` is the table `t` after the slots `xs` have come back. -/
structure Returned (t : SharedFlowTable Key State) (xs : List ℕ) (t' : SharedFlowTable Key State) :
    Prop where
  slots : t'.slots = fun s => if s ∈ xs then { t.slots s with state := none } else t.slots s
  free : t'.free.contents.Perm
    ((xs.filter fun s => (t.slots s).generation ≠ 0) ++ t.free.contents)
  frame : t' =
    { t with
      slots := t'.slots
      free := t'.free
      quarantined := t'.quarantined
      pendingHead := t'.pendingHead
      pendingCount := t'.pendingCount
      batchHead := t'.batchHead
      batchCount := t'.batchCount }

theorem returned_nil (t : SharedFlowTable Key State) :
  Returned t [] t
  := by
  constructor
  case slots =>
    funext s
    rw [if_neg not_mem_nil]
  case free => exact .refl _
  case frame => rfl

variable {xs : List ℕ} {t' : SharedFlowTable Key State}

theorem Returned.generation (returned : Returned t xs t') (s : ℕ) :
  (t'.slots s).generation = (t.slots s).generation
  := by
  rw [returned.slots]
  dsimp only
  split <;> rfl

theorem Returned.trans {ys : List ℕ} {t'' : SharedFlowTable Key State} (h : Returned t xs t')
    (h' : Returned t' ys t'') :
  Returned t (xs ++ ys) t''
  := by
  constructor
  case slots =>
    funext s
    rw [h'.slots, h.slots]
    dsimp only
    split_ifs <;> first | rfl | simp_all
  case frame => rw [h'.frame, h.frame]
  case free =>
  have hys : (ys.filter fun s => (t'.slots s).generation ≠ 0)
      = ys.filter fun s => (t.slots s).generation ≠ 0 := by
    apply filter_congr
    intro s _
    rw [h.generation]
  have hfree := h'.free
  rw [hys] at hfree
  rw [filter_append, append_assoc]
  apply hfree.trans
  apply (h.free.append_left _).trans
  rw [← append_assoc, ← append_assoc]
  exact perm_append_comm.append_right _

theorem reclaimEntry_batches (r : SharedFlowTable Key State × ℕ) :
  (reclaimEntry r).1.batchHead = r.1.batchHead ∧ (reclaimEntry r).1.batchCount = r.1.batchCount
  := by
  rw [reclaimEntry]
  split <;> exact ⟨rfl, rfl⟩

/-- The table without its first pending entry, whose state is destroyed. -/
def dropEntry (t : SharedFlowTable Key State) (s : ℕ) (free : FreeList) (quarantined : ℕ) :
    SharedFlowTable Key State :=
  { t.setSlot s { t.slots s with state := none } with
    free := free
    quarantined := quarantined
    pendingHead := (t.pendingHead + 1) % t.capacity
    pendingCount := t.pendingCount - 1 }

theorem dropEntry_generation (s : ℕ) (free : FreeList) (quarantined : ℕ) (s' : ℕ) :
  ((t.dropEntry s free quarantined).slots s').generation = (t.slots s').generation
  := by
  rw [dropEntry, setSlot]
  dsimp only
  rw [update_apply]
  split
  case isTrue h => rw [h]
  case isFalse => rfl

section

variable {s : ℕ}

section

variable (pool : Pool t (s :: slots))

include pool

theorem Pool.head :
  t.pending t.pendingHead = pendingEntry s (t.slots s).generation
    ∧ Ring.contents t.capacity t.pending ((t.pendingHead + 1) % t.capacity) (t.pendingCount - 1)
      = slots.map fun s => pendingEntry s (t.slots s).generation
  := by
  have hentries := pool.entries
  rw [pool.count_eq, length_cons, Ring.contents_pop pool.head_lt] at hentries
  rw [pool.count_eq]
  exact List.cons.inj hentries

theorem Pool.dropEntry {free : FreeList} {quarantined : ℕ}
    (room : Room t.capacity (fun s' => (t.slots s').live || decide (s' ∈ slots)) free quarantined
      (t.size + slots.length)) :
  Pool (t.dropEntry s free quarantined) slots
  := by
  have hlive (s' : ℕ) : ((t.dropEntry s free quarantined).slots s').live = (t.slots s').live := by
    rw [SlotRecord.live, SlotRecord.live, dropEntry_generation]
  constructor
  case capacity_lt => exact pool.capacity_lt
  case head_lt => exact Nat.mod_lt _ (Nat.zero_lt_of_lt pool.head_lt)
  case entries =>
    simp only [dropEntry_generation]
    exact pool.head.2
  case nodup => exact (nodup_cons.mp pool.nodup).2
  case dead =>
    intro s' hs'
    rw [hlive]
    exact pool.dead s' (mem_cons_of_mem _ hs')
  case room =>
  simp only [hlive]
  exact room

/-- What one round of the loop over a batch does. -/
theorem Pool.reclaimEntry_eq (n : ℕ) :
  reclaimEntry (t, n) = if (t.slots s).generation = 0 then
      (t.dropEntry s t.free (t.quarantined + 1), n)
    else (t.dropEntry s (t.free.push s) t.quarantined, n + 1)
  := by
  have hs := (pool.dead s mem_cons_self).1.trans pool.capacity_lt
  rw [SharedFlowTable.reclaimEntry]
  rw [pool.head.1, pendingEntry_slot hs]
  simp only [pendingEntry_quarantine hs]
  rfl

/-- The first pending slot comes back: it is free, or quarantined if its generation has wrapped. -/
theorem Pool.reclaimEntry (n : ℕ) :
  Pool (reclaimEntry (t, n)).1 slots ∧ Returned t [s] (reclaimEntry (t, n)).1
  := by
  obtain ⟨hlt, hdead⟩ := pool.dead s mem_cons_self
  have hocc : ((t.slots s).live || decide (s ∈ s :: slots)) = true := by
    rw [decide_eq_true mem_cons_self, Bool.or_true]
  have hslots (free : FreeList) (quarantined : ℕ) : (t.dropEntry s free quarantined).slots
      = fun s' => if s' ∈ [s] then { t.slots s' with state := none } else t.slots s' := by
    funext s'
    rw [SharedFlowTable.dropEntry, setSlot]
    dsimp only
    rw [update_apply]
    simp only [mem_singleton]
    split
    case isTrue h => rw [h]
    case isFalse => rfl
  rw [pool.reclaimEntry_eq]
  split
  case isTrue hwrapped =>
    have room := pool.room.quarantine hlt hocc
    rw [pool.occupied_tail] at room
    refine ⟨pool.dropEntry room, ?_⟩
    constructor
    case slots => exact hslots ..
    case free =>
      rw [filter_cons_of_neg (by simp [hwrapped])]
      exact .refl _
    case frame => rfl
  case isFalse hreused =>
  have room := pool.room.release hlt hocc
  rw [pool.occupied_tail] at room
  refine ⟨pool.dropEntry room, ?_⟩
  constructor
  case slots => exact hslots ..
  case frame => rfl
  case free =>
  rw [filter_cons, if_pos (decide_eq_true hreused)]
  apply FreeList.contents_push pool.room.wf
  have hcard := pool.room.card_add
  rw [length_cons] at hcard
  rw [pool.room.capacity_eq]
  omega

end

theorem Pool.reclaimEntries :
    ∀ {xs ys : List ℕ} {t : SharedFlowTable Key State} (n : ℕ), Pool t (xs ++ ys) →
      Pool (SharedFlowTable.reclaimEntry^[xs.length] (t, n)).1 ys
        ∧ Returned t xs (SharedFlowTable.reclaimEntry^[xs.length] (t, n)).1
        ∧ (SharedFlowTable.reclaimEntry^[xs.length] (t, n)).1.batchHead = t.batchHead
        ∧ (SharedFlowTable.reclaimEntry^[xs.length] (t, n)).1.batchCount = t.batchCount
  | [], ys, t, n, pool => ⟨pool, returned_nil t, rfl, rfl⟩
  | s :: xs, ys, t, n, pool => by
    obtain ⟨pool', returned⟩ := Pool.reclaimEntry pool n
    obtain ⟨hhead, hcount⟩ := reclaimEntry_batches (t, n)
    obtain ⟨pool'', returned', hhead', hcount'⟩ :=
      Pool.reclaimEntries (SharedFlowTable.reclaimEntry (t, n)).2 pool'
    rw [length_cons, Function.iterate_succ_apply]
    exact ⟨pool'', returned.trans returned', hhead'.trans hhead, hcount'.trans hcount⟩

end

/-! ### Batches -/

/-- The batches, in the order of their slots. -/
def batchList (t : SharedFlowTable Key State) : List Batch :=
  Ring.contents kMaxBatches t.batches t.batchHead t.batchCount

/-- The grace periods that the pending slots wait for, in their order. -/
def pendingTokens (t : SharedFlowTable Key State) : List GracePeriod :=
  t.batchList.flatMap fun b => replicate b.count b.token

/-- The batches divide the pending slots, up to the last `untokened` of them. A batch's grace period
has started after each of its slots was erased, and not after a later batch's. `erasedAt s` tells how
many grace periods had started when slot `s` was erased last, and `started` how many have now. -/
def Tokened (erasedAt : ℕ → ℕ) (started : ℕ) : List Batch → List ℕ → ℕ → Prop
  | [], slots, untokened => slots.length = untokened ∧ ∀ s ∈ slots, erasedAt s ≤ started
  | b :: bs, slots, untokened =>
      ∃ xs ys, slots = xs ++ ys ∧ xs.length = b.count ∧ b.token ≤ started
        ∧ (∀ s ∈ xs, erasedAt s < b.token) ∧ (∀ b' ∈ bs, b.token ≤ b'.token)
        ∧ Tokened erasedAt started bs ys untokened

section

variable {started untokened : ℕ}

theorem Tokened.mono {started' : ℕ} (hle : started ≤ started') :
    ∀ {bs : List Batch} {slots : List ℕ}, Tokened erasedAt started bs slots untokened →
      Tokened erasedAt started' bs slots untokened
  | [], _, ⟨hlen, hslots⟩ => ⟨hlen, fun s hs => (hslots s hs).trans hle⟩
  | _ :: _, _, ⟨xs, ys, heq, hlen, htoken, hxs, hlater, h⟩ =>
    ⟨xs, ys, heq, hlen, htoken.trans hle, hxs, hlater, h.mono hle⟩

theorem Tokened.congr {erasedAt' : ℕ → ℕ} :
    ∀ {bs : List Batch} {slots : List ℕ}, (∀ s ∈ slots, erasedAt' s = erasedAt s) →
      Tokened erasedAt started bs slots untokened → Tokened erasedAt' started bs slots untokened
  | [], _, hsame, ⟨hlen, hslots⟩ => ⟨hlen, fun s hs => (hsame s hs).trans_le (hslots s hs)⟩
  | _ :: _, _, hsame, ⟨xs, ys, heq, hlen, htoken, hxs, hlater, h⟩ => by
    subst heq
    refine ⟨xs, ys, rfl, hlen, htoken, ?_, hlater, ?_⟩
    · intro s hs
      rw [hsame s (mem_append_left _ hs)]
      exact hxs s hs
    · exact h.congr fun s hs => hsame s (mem_append_right _ hs)

theorem Tokened.append (hs : erasedAt s ≤ started) :
    ∀ {bs : List Batch} {slots : List ℕ}, Tokened erasedAt started bs slots untokened →
      Tokened erasedAt started bs (slots ++ [s]) (untokened + 1)
  | [], slots, ⟨hlen, hslots⟩ => by
    refine ⟨by rw [length_append, hlen, length_singleton], ?_⟩
    intro s' hs'
    rcases mem_append.mp hs' with hs' | hs'
    · exact hslots s' hs'
    rw [mem_singleton.mp hs']
    exact hs
  | _ :: _, _, ⟨xs, ys, heq, hlen, htoken, hxs, hlater, h⟩ =>
    ⟨xs, ys ++ [s], by rw [heq, append_assoc], hlen, htoken, hxs, hlater, h.append hs⟩

theorem Tokened.length_eq :
    ∀ {bs : List Batch} {slots : List ℕ}, Tokened erasedAt started bs slots untokened →
      slots.length = (bs.flatMap fun b => replicate b.count b.token).length + untokened
  | [], _, ⟨hlen, _⟩ => by rw [hlen, flatMap_nil, length_nil, Nat.zero_add]
  | _ :: _, _, ⟨xs, ys, heq, hlen, _, _, _, h⟩ => by
    rw [heq, length_append, hlen, h.length_eq, flatMap_cons, length_append, length_replicate,
      Nat.add_assoc]

/-- The slots that no batch has get one of their own, or join the newest. -/
theorem Tokened.stamp :
    ∀ {bs : List Batch} {slots : List ℕ}, Tokened erasedAt started bs slots untokened →
      Tokened erasedAt (started + 1) (bs ++ [⟨started + 1, untokened⟩]) slots 0
  | [], slots, ⟨hlen, hslots⟩ => by
    refine ⟨slots, [], (append_nil _).symm, hlen, le_refl _, ?_, nofun, rfl, nofun⟩
    intro s hs
    exact Nat.lt_succ_of_le (hslots s hs)
  | _ :: _, _, ⟨xs, ys, heq, hlen, htoken, hxs, hlater, h⟩ =>
    have hle := htoken.trans (Nat.le_succ _)
    ⟨xs, ys, heq, hlen, hle, hxs, forall_mem_append.mpr ⟨hlater, forall_mem_singleton.mpr hle⟩,
      h.stamp⟩

theorem Tokened.merge :
    ∀ {bs : List Batch} {b : Batch} {slots : List ℕ},
      Tokened erasedAt started (bs ++ [b]) slots untokened →
      Tokened erasedAt (started + 1) (bs ++ [⟨started + 1, b.count + untokened⟩]) slots 0
  | [], b, slots, ⟨xs, ys, heq, hlen, htoken, hxs, _, hys, hslots⟩ => by
    refine ⟨slots, [], (append_nil _).symm, ?_, le_refl _, ?_, nofun, rfl, nofun⟩
    · rw [heq, length_append, hlen, hys]
    intro s hs
    rw [heq] at hs
    rcases mem_append.mp hs with hs | hs
    · exact Nat.lt_succ_of_lt ((hxs s hs).trans_le htoken)
    · exact Nat.lt_succ_of_le (hslots s hs)
  | _ :: _, _, _, ⟨xs, ys, heq, hlen, htoken, hxs, hlater, h⟩ =>
    have hle := htoken.trans (Nat.le_succ _)
    ⟨xs, ys, heq, hlen, hle, hxs, forall_mem_append.mpr
      ⟨(forall_mem_append.mp hlater).1, forall_mem_singleton.mpr hle⟩, h.merge⟩

end

/-- The books about the grace periods that the pending `slots` wait for. -/
structure Waiting (erasedAt : ℕ → ℕ) (t : SharedFlowTable Key State) (slots : List ℕ) : Prop where
  batchHead_lt : t.batchHead < kMaxBatches
  batchCount_le : t.batchCount ≤ kMaxBatches
  tokened : Tokened erasedAt t.domain.started t.batchList slots t.untokened

theorem Waiting.stamp (waiting : Waiting erasedAt t slots) :
  Waiting erasedAt t.stamp slots ∧ t.stamp.untokened = 0
  := by
  rw [SharedFlowTable.stamp]
  split
  case isTrue h => exact ⟨waiting, h⟩
  case isFalse =>
  dsimp only [RcuDomain.startGracePeriod]
  split
  case isFalse hroom =>
    have hlt : t.batchCount < kMaxBatches := lt_of_le_of_ne waiting.batchCount_le hroom
    refine ⟨⟨waiting.batchHead_lt, hlt, ?_⟩, rfl⟩
    rw [batchList]
    rw [← Probe.place, Ring.contents_push hlt]
    exact waiting.tokened.stamp
  case isTrue hfull =>
  -- The slots join the newest batch, which is the last of the ring.
  obtain ⟨n, hn⟩ : ∃ n, t.batchCount = n + 1 := ⟨255, hfull⟩
  have hlt : n < kMaxBatches := by
    rw [← hfull, hn]
    exact Nat.lt_succ_self n
  have htokened := waiting.tokened
  rw [batchList, hn, Ring.contents_succ] at htokened
  refine ⟨⟨waiting.batchHead_lt, waiting.batchCount_le, ?_⟩, rfl⟩
  have hnewest : (t.batchHead + t.batchCount - 1) % kMaxBatches
      = Probe.place kMaxBatches t.batchHead n := by
    rw [hn, ← Nat.add_assoc, Nat.add_sub_cancel]
    rfl
  rw [batchList]
  rw [hnewest, hn, Ring.contents_push hlt]
  exact htokened.merge

theorem Pool.popBatch (pool : Pool t slots) :
  Pool t.popBatch slots
  := { pool with }

theorem Returned.popBatch (returned : Returned t xs t') :
  Returned t xs t'.popBatch
  := ⟨returned.slots, returned.free, congrArg SharedFlowTable.popBatch returned.frame⟩

/-- How slots come back: in the order of their batches, each after a grace period that started after
it was erased. No batch stays behind whose grace period is complete. -/
theorem Waiting.reclaimBatches :
    ∀ {n : ℕ} {t : SharedFlowTable Key State} {slots : List ℕ} (freed : ℕ), Pool t slots →
      Waiting erasedAt t slots → n = t.batchCount →
      ∃ xs ys, slots = xs ++ ys ∧ Pool (reclaimBatches n (t, freed)).1 ys
        ∧ Waiting erasedAt (reclaimBatches n (t, freed)).1 ys
        ∧ Returned t xs (reclaimBatches n (t, freed)).1
        ∧ (∀ s ∈ xs, ∃ token, erasedAt s < token ∧ token ≤ t.domain.completed)
        ∧ ∀ b ∈ (reclaimBatches n (t, freed)).1.batchList, t.domain.completed < b.token
  | 0, t, slots, freed, pool, waiting, hn => by
    refine ⟨[], slots, rfl, pool, waiting, returned_nil t, nofun, ?_⟩
    rw [SharedFlowTable.reclaimBatches, batchList, ← hn]
    exact nofun
  | n + 1, t, slots, freed, pool, waiting, hn => by
    have htokened := waiting.tokened
    have hlist : t.batchList = t.batches t.batchHead
        :: Ring.contents kMaxBatches t.batches (Probe.place kMaxBatches t.batchHead 1) n := by
      rw [batchList, ← hn, Ring.contents_pop waiting.batchHead_lt]
    rw [hlist] at htokened
    obtain ⟨xs, ys, rfl, hlen, _, hxs, hlater, hrest⟩ := htokened
    rw [SharedFlowTable.reclaimBatches]
    dsimp only
    split
    case isTrue hincomplete =>
      rw [RcuDomain.isComplete, decide_eq_false_iff_not, not_le] at hincomplete
      refine ⟨[], xs ++ ys, rfl, pool, waiting, returned_nil t, nofun, ?_⟩
      rw [hlist, forall_mem_cons]
      exact ⟨hincomplete, fun b hb => hincomplete.trans_le (hlater b hb)⟩
    case isFalse hcomplete =>
    rw [RcuDomain.isComplete, decide_eq_false_iff_not, not_not] at hcomplete
    obtain ⟨pool', returned, hhead, hcount⟩ := Pool.reclaimEntries freed pool
    rw [hlen] at pool' returned hhead hcount
    generalize hr : reclaimEntry^[(t.batches t.batchHead).count] (t, freed) = r
      at pool' returned hhead hcount
    obtain ⟨t', freed'⟩ := r
    dsimp only at pool' returned hhead hcount ⊢
    obtain ⟨hbatches, hdom, huntokened⟩ : t'.popBatch.batches = t.batches
        ∧ t'.popBatch.domain = t.domain ∧ t'.popBatch.untokened = t.untokened := by
      rw [returned.frame]
      exact ⟨rfl, rfl, rfl⟩
    have hnext : n = t'.popBatch.batchCount := by
      change n = t'.batchCount - 1
      rw [hcount, ← hn, Nat.add_sub_cancel]
    have waiting' : Waiting erasedAt t'.popBatch ys := by
      refine ⟨Nat.mod_lt _ (by decide), ?_, ?_⟩
      · rw [← hnext]
        have := waiting.batchCount_le
        omega
      rw [batchList, hbatches, hdom, huntokened, ← hnext, popBatch]
      rw [hhead]
      exact hrest
    obtain ⟨xs', ys', rfl, hpool, hwaiting, hreturned, hgrace, hall⟩ :=
      Waiting.reclaimBatches freed' pool'.popBatch waiting' hnext
    rw [hdom] at hgrace hall
    refine ⟨xs ++ xs', ys', (append_assoc ..).symm, hpool, hwaiting,
      returned.popBatch.trans hreturned, ?_, ?_⟩
    · intro s hs
      rcases mem_append.mp hs with hs | hs
      · exact ⟨_, hxs s hs, hcomplete⟩
      · exact hgrace s hs
    · exact hall

/-! ### Keys -/

/-- `key` is a key of the flow in slot `s`. -/
def Names (t : SharedFlowTable Key State) (s : ℕ) (key : Key) : Prop :=
  ∃ j, (t.slots s).keyIn j = some key

/-- The directory holds the keys of the live flows. -/
structure Keyed (T : FlowTableTraits Key) (t : SharedFlowTable Key State) : Prop where
  keys_lt : t.capacity * T.kKeysPerSlot < 2 ^ 30
  slot : ∀ s < t.capacity, (t.slots s).WF T.kKeysPerSlot
  once : ∀ {s j j' : ℕ} {key : Key}, s < t.capacity → (t.slots s).keyIn j = some key →
    (t.slots s).keyIn j' = some key → j = j'
  directory : ∀ {key : Key} {h : FlowHandle},
    t.directory key = some h ↔ ∃ s < t.capacity, h = t.handleOf s ∧ t.Names s key
  calm : t.fatal = false

/-- A table between calls, with its pending slots. -/
structure AtRest (T : FlowTableTraits Key) (erasedAt : ℕ → ℕ) (t : SharedFlowTable Key State)
    (slots : List ℕ) : Prop extends Pool t slots, Waiting erasedAt t slots, Keyed T t where
  published : t.pendingPublished = t.pendingCount
  /-- The state of an erased flow stays until its slot comes back. -/
  kept : ∀ s ∈ slots, (t.slots s).state.isSome = true
  /-- A slot that is not in use and will not be used again has used up its generations. -/
  spent : ∀ s < t.capacity, (t.slots s).live = false → s ∉ slots → s ∉ t.free.contents →
    (t.slots s).generation = 0

variable {T : FlowTableTraits Key}

/-- Keys do not depend on the states of slots without a flow. -/
theorem Keyed.congr (keyed : Keyed T t) (hslots : ∀ s, t'.slots s = t.slots s
      ∨ (t.slots s).live = false ∧ t'.slots s = { t.slots s with state := none })
    (hdir : t'.directory = t.directory) (hcap : t'.capacity = t.capacity)
    (hfatal : t'.fatal = t.fatal) :
  Keyed T t'
  := by
  have hgen (s : ℕ) : (t'.slots s).generation = (t.slots s).generation := by
    rcases hslots s with h | ⟨_, h⟩ <;> rw [h]
  have hkeyIn (s : ℕ) : (t'.slots s).keyIn = (t.slots s).keyIn := by
    rcases hslots s with h | ⟨_, h⟩ <;> rw [h]
    rfl
  constructor
  case keys_lt =>
    rw [hcap]
    exact keyed.keys_lt
  case slot =>
    intro s hs
    rw [hcap] at hs
    have hslot := keyed.slot s hs
    rcases hslots s with h | ⟨hdead, h⟩
    · rw [h]
      exact hslot
    rw [h]
    constructor
    · exact hslot.marked
    intro hlive
    rw [SlotRecord.live] at hlive hdead
    rw [hlive] at hdead
    cases hdead
  case once =>
    intro s j j' key hs
    rw [hkeyIn]
    rw [hcap] at hs
    exact keyed.once hs
  case directory =>
    intro key h
    rw [hdir, keyed.directory, hcap]
    simp only [Names, handleOf, hgen, hkeyIn]
  case calm =>
  rw [hfatal]
  exact keyed.calm

/-- `t'` is the table `t` after a reclaim that has brought the slots `xs` back. -/
structure Reclaimed (t : SharedFlowTable Key State) (completed : ℕ) (xs : List ℕ)
    (t' : SharedFlowTable Key State) : Prop where
  slots : t'.slots = fun s => if s ∈ xs then { t.slots s with state := none } else t.slots s
  free : t'.free.contents.Perm
    ((xs.filter fun s => (t.slots s).generation ≠ 0) ++ t.free.contents)
  directory : t'.directory = t.directory
  capacity : t'.capacity = t.capacity
  size : t'.size = t.size
  fatal : t'.fatal = t.fatal
  domain : t'.domain = ⟨t.stamp.domain.started, completed⟩

/-- The part of a table that a stamp leaves alone. -/
theorem stamp_frame (t : SharedFlowTable Key State) :
  t.stamp = { t with
    domain := t.stamp.domain
    batches := t.stamp.batches
    batchCount := t.stamp.batchCount
    untokened := t.stamp.untokened }
  := by
  rw [stamp]
  dsimp only
  split
  case isTrue => rfl
  case isFalse => split <;> rfl

/-- A reclaim brings pending slots back, the ones erased first. For each of them a grace period that
started after it was erased is complete, and those that stay behind wait for one that is not. -/
theorem AtRest.reclaimLocked (rest : AtRest T erasedAt t slots) (completed : ℕ) :
  ∃ xs ys, slots = xs ++ ys ∧ AtRest T erasedAt (t.reclaimLocked completed).1 ys
    ∧ Reclaimed t completed xs (t.reclaimLocked completed).1
    ∧ (∀ s ∈ xs, ∃ token, erasedAt s < token ∧ token ≤ completed)
    ∧ (t.reclaimLocked completed).1.pendingTokens.length = ys.length
    ∧ ∀ token ∈ (t.reclaimLocked completed).1.pendingTokens, completed < token
  := by
  obtain ⟨stamped, huntokened⟩ := rest.toWaiting.stamp
  let begun : SharedFlowTable Key State :=
    { t.stamp with domain := { t.stamp.domain with completed := completed } }
  have hframe : begun = { t with
      domain := begun.domain
      batches := begun.batches
      batchCount := begun.batchCount
      untokened := begun.untokened } :=
    congrArg (fun u : SharedFlowTable Key State =>
      { u with domain := { u.domain with completed := completed } }) t.stamp_frame
  have pool : Pool begun slots := by
    rw [hframe]
    exact { rest with }
  have waiting : Waiting erasedAt begun slots := { stamped with }
  obtain ⟨xs, ys, rfl, pool', waiting', returned, hgrace, hall⟩ :=
    Waiting.reclaimBatches 0 pool waiting rfl
  obtain ⟨hslots, hfree⟩ : begun.slots = t.slots ∧ begun.free = t.free := by
    rw [hframe]
    exact ⟨rfl, rfl⟩
  generalize hdone : SharedFlowTable.reclaimBatches begun.batchCount (begun, 0) = done
    at pool' waiting' returned hall
  have heq : t.reclaimLocked completed
      = ({ done.1 with pendingPublished := done.1.pendingCount }, done.2) := by
    rw [← hdone]
    rfl
  have reclaimed : Reclaimed t completed xs (t.reclaimLocked completed).1 := by
    rw [heq]
    obtain ⟨hdir, hcap, hsize, hfatal, hdom⟩ :
        done.1.directory = t.directory ∧ done.1.capacity = t.capacity ∧ done.1.size = t.size
          ∧ done.1.fatal = t.fatal ∧ done.1.domain = begun.domain := by
      rw [returned.frame, hframe]
      exact ⟨rfl, rfl, rfl, rfl, rfl⟩
    constructor
    case slots =>
      rw [← hslots]
      exact returned.slots
    case free =>
      rw [← hslots, ← hfree]
      exact returned.free
    case directory => exact hdir
    case capacity => exact hcap
    case size => exact hsize
    case fatal => exact hfatal
    case domain => exact hdom
  refine ⟨xs, ys, rfl, ?_, reclaimed, hgrace, ?_, ?_⟩
  case refine_2 =>
    have hnone : done.1.untokened = 0 := by
      rw [returned.frame]
      exact huntokened
    rw [heq, waiting'.tokened.length_eq, hnone]
    rfl
  case refine_3 =>
    intro token htoken
    rw [heq] at htoken
    obtain ⟨b, hb, hmem⟩ := mem_flatMap.mp htoken
    rw [(mem_replicate.mp hmem).2]
    exact hall b hb
  have hdead : ∀ s ∈ xs, (t.slots s).live = false :=
    fun s hs => (rest.dead s (mem_append_left _ hs)).2
  have hdisjoint := disjoint_of_nodup_append rest.nodup
  have keyed : Keyed T (t.reclaimLocked completed).1 := by
    apply rest.toKeyed.congr _ reclaimed.directory reclaimed.capacity reclaimed.fatal
    intro s
    rw [reclaimed.slots]
    dsimp only
    split
    case isTrue hs => exact .inr ⟨hdead s hs, rfl⟩
    case isFalse => exact .inl rfl
  have pool'' : Pool (t.reclaimLocked completed).1 ys := by
    rw [heq]
    exact { pool' with }
  have waiting'' : Waiting erasedAt (t.reclaimLocked completed).1 ys := by
    rw [heq]
    exact { waiting' with }
  refine ⟨pool'', waiting'', keyed, ?published, ?kept, ?spent⟩
  case published =>
    rw [heq]
  case kept =>
    intro s hs
    rw [reclaimed.slots]
    dsimp only
    rw [if_neg fun hxs => hdisjoint hxs hs]
    exact rest.kept s (mem_append_right _ hs)
  case spent =>
  intro s hs hlive hys hunlisted
  have hgen : ((t.reclaimLocked completed).1.slots s).generation
      = (t.slots s).generation := by
    rw [reclaimed.slots]
    dsimp only
    split <;> rfl
  rw [hgen]
  rw [reclaimed.capacity] at hs
  rw [SlotRecord.live, hgen] at hlive
  rw [reclaimed.free.mem_iff, mem_append, not_or, mem_filter] at hunlisted
  by_cases hxs : s ∈ xs
  · by_contra hne
    exact hunlisted.1 ⟨hxs, decide_eq_true hne⟩
  apply rest.spent s hs hlive _ hunlisted.2
  rw [mem_append, not_or]
  exact ⟨hxs, hys⟩

end SharedFlowTable

end Flow
