import Bess.Flow.SharedRuns

/-!
# Reclamation in a shared flow table

Between calls every slot is live, free, pending or quarantined, and calls move slots only from free
to live, from live to pending, and from pending to free or quarantined; an abandoned create may
quarantine a free slot. A slot leaves the pending ones only after a grace period that started after
its erase is complete.
-/

namespace Flow

open List

variable {Key State : Type}

inductive SlotStatus : Type where
  | live
  | free
  | pending
  | quarantined
  deriving DecidableEq

namespace SharedFlowTable

/-- A slot has a status. -/
def Has (t : SharedFlowTable Key State) (s : ℕ) : SlotStatus → Prop
  | .live => (t.slots s).live = true
  | .free => s ∈ t.free.contents
  | .pending => s ∈ t.pendingSlots
  | .quarantined =>
      (t.slots s).generation = 0 ∧ s ∉ t.free.contents ∧ s ∉ t.pendingSlots

variable {T : FlowTableTraits Key} {t t' : SharedFlowTable Key State} {erasedAt : ℕ → ℕ}
  {slots : List ℕ} {s : ℕ}

theorem not_live_of_generation (hzero : (t.slots s).generation = 0) :
  (t.slots s).live = false
  := by
  rw [SlotRecord.live, hzero]
  rfl

theorem AtRest.existsUnique_has (rest : AtRest T erasedAt t slots) (hs : s < t.capacity) :
  ∃! status, t.Has s status
  := by
  have hpend := rest.pendingSlots_eq
  have hdead (h : s ∈ t.pendingSlots) : (t.slots s).live = false := by
    rw [hpend] at h
    exact (rest.dead s h).2
  have hfree (h : s ∈ t.free.contents) : (t.slots s).live = false ∧ s ∉ t.pendingSlots := by
    rw [hpend]
    exact (rest.dead_of_free h).2
  have hspent (h : (t.slots s).generation = 0) : (t.slots s).live = false :=
    not_live_of_generation h
  have hsome : ∃ status, t.Has s status := by
    by_cases hlive : t.Has s .live
    · exact ⟨_, hlive⟩
    by_cases hf : t.Has s .free
    · exact ⟨_, hf⟩
    by_cases hp : t.Has s .pending
    · exact ⟨_, hp⟩
    refine ⟨.quarantined, ?_, hf, hp⟩
    rw [Has, Bool.not_eq_true] at hlive
    rw [Has, hpend] at hp
    exact rest.spent s hs hlive hp hf
  obtain ⟨status, h⟩ := hsome
  refine ⟨status, h, ?_⟩
  intro status' h'
  cases status <;> cases status' <;> simp_all [Has]

variable {directory : Key → Option FlowHandle} {status : SlotStatus} {s₀ quarantined size : ℕ}
  {slot : SlotRecord Key State}

/-- How the writes of a call may change the status of a slot. -/
def Moves (t t' : SharedFlowTable Key State) (s : ℕ) : Prop :=
  ∀ status, t.Has s status →
    t'.Has s status ∨ (status = .free ∧ (t'.Has s .live ∨ t'.Has s .quarantined))
      ∨ (status = .live ∧ t'.Has s .pending)

theorem Has.congr (h : t.Has s status) (hgen : (t'.slots s).generation = (t.slots s).generation)
    (hfree : s ∈ t'.free.contents ↔ s ∈ t.free.contents)
    (hpend : s ∈ t'.pendingSlots ↔ s ∈ t.pendingSlots) :
  t'.Has s status
  := by
  cases status with
  | live =>
    rw [Has, SlotRecord.live, hgen]
    exact h
  | free => exact hfree.mpr h
  | pending => exact hpend.mpr h
  | quarantined =>
  rw [Has, hgen, hfree, hpend]
  exact h

theorem Has.put_of_ne (h : t.Has s status) {free : FreeList} (hne : s ≠ s₀)
    (hfree : s ∈ free.contents ↔ s ∈ t.free.contents) :
  (t.put s₀ slot directory free size quarantined).Has s status
  := by
  apply h.congr
  · rw [put_slots_of_ne hne]
  · exact hfree
  · exact Iff.rfl

section

variable (rest : AtRest T erasedAt t slots)

include rest

variable (hsome : t.free.empty = false)

include hsome

/-- The first free slot is free and nothing else. -/
theorem AtRest.has_peek (h : t.Has t.free.peek status) :
  status = .free
  := by
  obtain ⟨hlt, _, _, hfree⟩ := rest.peek hsome
  exact (rest.existsUnique_has hlt).unique h (show t.Has t.free.peek .free from hfree)

theorem AtRest.moves_publish (hlive : slot.live = true) (s : ℕ) :
  Moves t (t.put t.free.peek slot directory t.free.pop size quarantined) s
  := by
  intro status h
  rcases eq_or_ne s t.free.peek with rfl | hne
  · refine .inr (.inl ⟨rest.has_peek hsome h, .inl ?_⟩)
    rw [Has, put_slots_self]
    exact hlive
  left
  apply h.put_of_ne hne
  rw [FreeList.contents_pop rest.room.wf hsome, mem_cons]
  exact (or_iff_right hne).symm

theorem AtRest.moves_abandonSlot (s : ℕ) :
  Moves t (t.abandonSlot t.free.peek) s
  := by
  have hcontents := FreeList.contents_pop rest.room.wf hsome
  have hpushed := rest.contents_recycle hsome
  intro status h
  rw [abandonSlot_eq]
  rcases eq_or_ne s t.free.peek with rfl | hne
  · have hstatus := rest.has_peek hsome h
    obtain ⟨_, _, hout, _⟩ := rest.peek hsome
    split
    case isFalse =>
      left
      rw [hstatus]
      exact hpushed.mem_iff.mpr mem_cons_self
    case isTrue hwrapped =>
    refine .inr (.inl ⟨hstatus, .inr ⟨?_, ?_, ?_⟩⟩)
    · rw [put_slots_self]
      exact hwrapped
    · obtain ⟨Q, hnodup, _⟩ := rest.room.partition
      rw [hcontents, cons_append, nodup_cons] at hnodup
      exact fun hlisted => hnodup.1 (mem_append_left _ hlisted)
    rw [← rest.pendingSlots_eq] at hout
    exact hout
  have hpopped : s ∈ t.free.pop.contents ↔ s ∈ t.free.contents := by
    rw [hcontents, mem_cons]
    exact (or_iff_right hne).symm
  left
  split
  case isTrue => exact h.put_of_ne hne hpopped
  case isFalse =>
  apply h.put_of_ne hne
  rw [hpushed.mem_iff, mem_cons, or_iff_right hne]
  exact hpopped

end

theorem moves_addAlias (hgen : slot.generation = (t.slots s₀).generation) (s : ℕ) :
  Moves t (t.put s₀ slot directory t.free t.size t.quarantined) s
  := by
  intro status h
  left
  apply h.congr
  · rcases eq_or_ne s s₀ with rfl | hne
    · rw [put_slots_self, hgen]
    · rw [put_slots_of_ne hne]
  · exact Iff.rfl
  · exact Iff.rfl

theorem AtRest.moves_retire [DecidableEq Key] (rest : AtRest T erasedAt t slots)
    (hs : s₀ < t.capacity) (hlive : (t.slots s₀).live = true) (s : ℕ) :
  Moves t ((t.whileErasing s₀ (t.keysOf T s₀)).write (.retire s₀)) s
  := by
  have hgone : ∀ k, t.Names s₀ k → (if k ∈ t.keysOf T s₀ then none else t.directory k) = none :=
    fun k hnames => if_pos ((rest.mem_keysOf hs).mpr hnames)
  have hold : ∀ k, ¬ t.Names s₀ k →
      (if k ∈ t.keysOf T s₀ then none else t.directory k) = t.directory k :=
    fun k hunnamed => if_neg fun h => hunnamed ((rest.mem_keysOf hs).mp h)
  have hpend := (rest.retire hs hlive hgone hold).pendingSlots_eq
  rw [whileErasing_retire]
  intro status h
  rcases eq_or_ne s s₀ with rfl | hne
  · have hstatus := (rest.existsUnique_has hs).unique h (show t.Has s .live from hlive)
    refine .inr (.inr ⟨hstatus, ?_⟩)
    rw [Has, hpend]
    exact mem_append_right _ mem_cons_self
  left
  apply h.congr
  · change (Function.update t.slots s₀ (erased (t.slots s₀)) s).generation = _
    rw [Function.update_of_ne hne]
  · exact Iff.rfl
  rw [hpend, rest.pendingSlots_eq, mem_append, mem_singleton]
  exact or_iff_left hne

end SharedFlowTable

namespace Sharing

open SharedFlowTable

variable [DecidableEq Key] {T : FlowTableTraits Key} {t : SharedFlowTable Key State} {erasedAt : ℕ → ℕ}

/-- The table after a call. -/
def after (T : FlowTableTraits Key) (t : SharedFlowTable Key State) (c : Circumstances Key)
    (call : SharedCall Key State) : SharedFlowTable Key State :=
  (call.plan T t c).2.foldl SharedFlowTable.write (call.plan T t c).1

theorem Begun.moves {slots : List ℕ}
    (rest : AtRest T erasedAt t slots) {ws : List (Write Key State)} (begun : Begun T t ws) (s : ℕ) :
  Moves t (ws.foldl SharedFlowTable.write t) s
  := by
  cases begun with
  | done => exact fun _ h => .inl h
  | aliasing hs hlive hj hmask hfresh =>
    rw [foldl_cons, write_addAlias hfresh]
    apply moves_addAlias
    rfl
  | doomed hs hlive =>
    rw [rest.foldl_eraseLocked hs]
    exact rest.moves_retire hs hlive s
  | @creating hsome key aliasKey state hroom halone hfresh _ left =>
  obtain ⟨_, hdead, _, _⟩ := rest.peek hsome
  have hend := left.foldl fun k hk => absurd hk (Finset.notMem_empty k)
  rw [during_empty] at hend
  rcases hend with hend | hend
  · rw [hend]
    exact rest.moves_abandonSlot hsome s
  rw [hend]
  apply rest.moves_publish hsome
  rw [WorkerFlowTable.live_madeSlot, hdead, Bool.not_false]

theorem Reached.settle :
    ∀ {ws : List (Write Key State)} {t : SharedFlowTable Key State} {erasedAt : ℕ → ℕ},
      Reached T ⟨t, ws, erasedAt⟩ →
      ∃ erasedAt', Reached T ⟨ws.foldl SharedFlowTable.write t, [], erasedAt'⟩
  | [], _, erasedAt, reached => ⟨erasedAt, reached⟩
  | w :: ws, t, erasedAt, reached => by
    have hstep : Step T ⟨t, w :: ws, erasedAt⟩ ⟨t.write w, ws, _⟩ := .write rfl
    exact (reached.step hstep).settle

theorem Reached.after (reached : Reached T ⟨t, [], erasedAt⟩) {call : SharedCall Key State}
    (hallow : call.Allowed T) {c : Circumstances Key} (hmore : t.domain.completed ≤ c.completed)
    (hcompleted : c.completed ≤ t.stamp.domain.started) :
  ∃ erasedAt', Reached T ⟨after T t c call, [], erasedAt'⟩
  := by
  have hstep : Step T ⟨t, [], erasedAt⟩ ⟨(call.plan T t c).1, (call.plan T t c).2, erasedAt⟩ :=
    .call rfl hallow hmore hcompleted
  exact (reached.step hstep).settle

/-- A table whose flows have room for one alias. -/
def soloTraits : FlowTableTraits ℕ :=
  ⟨1, .fifo, fun _ => 0, oneAlias_le⟩

def soloCircumstances (completed : ℕ) : Circumstances ℕ :=
  ⟨fun _ => true, false, completed⟩

end Sharing

end Flow
