import Bess.Flow.Runs
import Bess.Foundations.Stamps
import Bess.Expiry.Structure

/-!
# Handles

A run of a flow table with the record of the flows made and ended. A handle resolves while the flow
it was returned for is in the table, and never afterwards; the same is shown for the timers of an
expiry wheel, within a delivery and between calls. Both follow from what a step does to the
generations.
-/

open List Stamps Expiry

namespace Flow

open Function

variable {Key State : Type} [DecidableEq Key] {h : FlowHandle}

/-- What a run records: a flow is made, a flow has ended. -/
inductive Event (Key : Type) : Type where
  | made (h : FlowHandle) (key : Key)
  | ended (h : FlowHandle)

/-- A handle names a slot and a generation of it. -/
def naming (Key : Type) : Naming (Event Key) FlowHandle ℕ where
  slot h := (h.id - 1).toNat
  stamp h := h.generation.toNat
  last := 2 ^ 32 - 1
  issues h := { e | ∃ key, e = .made h key }
  ends h := {.ended h}
  ext := by
    intro h h' hslot hstamp
    rw [BitVec.toNat_inj] at hslot hstamp
    obtain ⟨id, generation⟩ := h
    obtain ⟨id', generation'⟩ := h'
    simp only at hslot hstamp
    rw [hstamp, (BitVec.sub_left_inj 1#32).mp hslot]
  last_odd := by decide

omit [DecidableEq Key] in
theorem mem_issued {tr : List (Event Key)} :
  h ∈ (naming Key).issued tr ↔ ∃ key, .made h key ∈ tr
  := by
  simp [Naming.issued, naming]

omit [DecidableEq Key] in
theorem mem_ended {tr : List (Event Key)} :
  h ∈ (naming Key).ended tr ↔ .ended h ∈ tr
  := by
  simp [Naming.ended, naming]

namespace WorkerFlowTable

variable {T : FlowTableTraits Key} {t u : WorkerFlowTable Key State}

/-- `Alive` -/
def alive {Key : Type} (t : WorkerFlowTable Key State) (handle : FlowHandle) : Bool :=
  (t.slotOf handle).isSome

/-- `KeyOf` -/
def keyOf {Key : Type} (t : WorkerFlowTable Key State) (handle : FlowHandle) : Option Key :=
  (t.slotOf handle).bind fun slot => (t.slots slot).keys 0

/-- What a call with its answer adds to the record. -/
def eventsOf (T : FlowTableTraits Key) (t : WorkerFlowTable Key State) :
    Call Key State → Reply State → List (Event Key)
  | .emplace key _ _, .emplaced r => if r.status = .created then [.made r.handle key] else []
  | .erase key, .removed true => [.ended (t.findRef T key).handle]
  | .eraseHandle h, .removed true => [.ended h]
  | _, _ => []

/-- The runs of a table of `capacity` flows, with their record. -/
inductive Run (T : FlowTableTraits Key) (capacity : ℕ) :
    List (Event Key) → WorkerFlowTable Key State → Prop where
  | create {t : WorkerFlowTable Key State} (h : create T capacity = some t) : Run T capacity [] t
  | call {tr : List (Event Key)} {t : WorkerFlowTable Key State} (run : Run T capacity tr t)
      (call : Call Key State) (allowed : call.Allowed T) :
      Run T capacity (tr ++ eventsOf T t call (exec T t call).2) (exec T t call).1

variable {h : FlowHandle} {tr : List (Event Key)} {s capacity : ℕ} {f' : FlowEntry Key State}

theorem Run.reached (run : Run T capacity tr t) :
  Reached T capacity t
  := by
  induction run with
  | create h => exact .create h
  | call _ call allowed ih => exact ih.call call allowed

/-! ### What a call does to the generations -/

/-- What the events of a call say about the generations and the free slots. -/
inductive Effect (t u : WorkerFlowTable Key State) : List (Event Key) → Prop
  | quiet (hgen : ∀ s, (u.slots s).generation = (t.slots s).generation) (hfree : u.free = t.free) :
      Effect t u []
  | made (key : Key) (hsome : t.free.empty = false)
      (hself : (u.slots t.free.peek).generation = (t.slots t.free.peek).generation + 1)
      (hother : ∀ s ≠ t.free.peek, (u.slots s).generation = (t.slots s).generation)
      (hfree : u.free = t.free.pop) : Effect t u [.made (u.handleOf t.free.peek) key]
  | ended {s : ℕ} (hs : s < t.capacity) (hlive : (t.slots s).live = true)
      (hself : (u.slots s).generation = (t.slots s).generation + 1)
      (hother : ∀ s' ≠ s, (u.slots s').generation = (t.slots s').generation)
      (hfree : u.free = if (t.slots s).generation + 1 = 0 then t.free else t.free.push s) :
      Effect t u [.ended (t.handleOf s)]

section

omit [DecidableEq Key]

theorem free_insertKey (t : WorkerFlowTable Key State) (hashed : Hashed) (kid : ℕ) :
  (t.insertKey hashed kid).free = t.free
  := by
  rw [insertKey]
  split <;> rfl

theorem eraseKey_same (t : WorkerFlowTable Key State) (hashed : Hashed) (kid : ℕ) :
  (t.eraseKey hashed kid).slots = t.slots ∧ (t.eraseKey hashed kid).free = t.free
  := by
  rw [eraseKey]
  split <;> exact ⟨rfl, rfl⟩

/-- A change of a record that keeps its generation. -/
theorem generation_update {slot : SlotRecord Key State}
    (h : slot.generation = (t.slots s).generation) (s' : ℕ) :
  (update t.slots s slot s').generation = (t.slots s').generation
  := by
  rw [update_apply]
  split
  case isTrue hs => rw [hs, h]
  case isFalse => rfl

theorem Effect.of_make (key : Key) (aliasKey : Option Key) (state : State)
    (hsome : t.free.empty = false) :
  Effect t (t.make T key aliasKey state)
    [.made ((t.make T key aliasKey state).handleOf t.free.peek) key]
  := by
  have hslots : (t.make T key aliasKey state).slots
      = update t.slots t.free.peek (madeSlot (t.slots t.free.peek) key aliasKey state) := by
    cases aliasKey <;>
    simp only [make, claim, addKey, setSlot, slots_insertKey, update_self, update_idem, madeSlot]
  have hmade : (madeSlot (t.slots t.free.peek) key aliasKey state).generation
      = (t.slots t.free.peek).generation + 1 := by
    cases aliasKey <;> rfl
  apply Effect.made key hsome
  case hself => rw [hslots, update_self, hmade]
  case hother =>
    intro s hs
    rw [hslots, update_of_ne hs]
  case hfree =>
    cases aliasKey <;> simp only [make, claim, addKey, setSlot, free_insertKey]

theorem WF.effect_eraseSlot (wf : t.WF T) (hs : s < t.capacity) (hlive : (t.slots s).live = true) :
  Effect t (t.eraseSlot T s) [.ended (t.handleOf s)]
  := by
  obtain ⟨-, -, hslots, -, hfree⟩ := wf.toKeyed.eraseSlot hs (wf.slot s hs)
  apply Effect.ended hs hlive
  case hself =>
    rw [hslots, update_self]
    rfl
  case hother =>
    intro s' hs'
    rw [hslots, update_of_ne hs']
  case hfree =>
  change if (t.slots s).generation + 1 = 0 then _ else _ at hfree
  split at hfree
  case isTrue h => rw [if_pos h, hfree.1]
  case isFalse h => rw [if_neg h, hfree.1]

end

theorem WF.effect (wf : t.WF T) (call : Call Key State) :
  Effect t (exec T t call).1 (eventsOf T t call (exec T t call).2)
  := by
  cases call with
  | emplace key aliasKey state =>
    rw [exec, createImpl]
    split
    case h_1 => exact .quiet (fun _ => rfl) rfl
    case h_2 =>
    split
    case isTrue => exact .quiet (fun _ => rfl) rfl
    case isFalse =>
    split
    case isTrue => exact .quiet (fun _ => rfl) rfl
    case isFalse hsome =>
      apply Effect.of_make key aliasKey state (Bool.eq_false_of_not_eq_true hsome)
  | addAlias h key =>
    rw [exec, addAlias]
    split
    case h_1 => exact .quiet (fun _ => rfl) rfl
    case h_2 s _ =>
    split
    case isTrue => exact .quiet (fun _ => rfl) rfl
    case isFalse =>
    split
    case h_1 => exact .quiet (fun _ => rfl) rfl
    case h_2 j _ =>
    apply Effect.quiet
    · intro s'
      rw [addKey, slots_insertKey]
      apply generation_update
      rfl
    rw [addKey, free_insertKey]
    rfl
  | removeAlias key =>
    rw [exec, removeAlias]
    split
    case h_1 => exact .quiet (fun _ => rfl) rfl
    case h_2 kid _ =>
    simp only
    split
    case isTrue => exact .quiet (fun _ => rfl) rfl
    case isFalse =>
    obtain ⟨hslots, hfree⟩ := eraseKey_same t (t.locate T key) kid
    apply Effect.quiet
    · intro s'
      rw [setSlot, hslots]
      apply generation_update
      rfl
    · exact hfree
  | erase key =>
    rw [exec, erase]
    split
    case h_1 => exact .quiet (fun _ => rfl) rfl
    case h_2 kid hkid =>
    have hview := wf.findKid_eq_some.mp hkid
    have hhandle : (t.findRef T key).handle = t.handleOf (kid / T.kKeysPerSlot) := by
      rw [WorkerFlowTable.findRef, hkid]
    rw [eventsOf, hhandle]
    apply wf.effect_eraseSlot (div_lt_of_view hview) (wf.live_of_view hview)
  | eraseHandle h =>
    rw [exec, eraseHandle]
    split
    case h_1 => exact .quiet (fun _ => rfl) rfl
    case h_2 s hslot =>
    obtain ⟨hs, hlive, rfl⟩ := (slotOf_eq_some wf.capacity_lt).mp hslot
    apply wf.effect_eraseSlot hs hlive
  | modify h f =>
  rw [exec, modify]
  split
  case h_1 => exact .quiet (fun _ => rfl) rfl
  case h_2 s _ => exact .quiet (generation_update rfl) rfl

/-! ### What the record says about the table -/

/-- The record of a run and the table it has led to. -/
structure Traced (T : FlowTableTraits Key) (tr : List (Event Key)) (t : WorkerFlowTable Key State) :
    Prop where
  recorded : Recorded (naming Key) {s | s < t.capacity}
    (fun s => (t.slots s).generation.toNat) tr
  apart : ∀ s, (naming Key).Retired tr s → s ∉ t.free.contents
  keys : ∀ h key, .made h key ∈ tr → ∀ f, t.flows T h = some f → f.primary = key

omit [DecidableEq Key] in
theorem toNat_add_one (g : BitVec 32) : (g + 1).toNat = (g.toNat + 1) % (2 ^ 32 - 1 + 1) := by
  rfl

omit [DecidableEq Key] in
theorem slot_handleOf (t : WorkerFlowTable Key State) (hs : s < 2 ^ 32 - 1) :
  (naming Key).slot (t.handleOf s) = s
  := ((eq_handleOf_iff hs).mp rfl).1

omit [DecidableEq Key] in
/-- What a call does to the generations, the record says. -/
theorem WF.recorded_effect (wf : t.WF T) {evs : List (Event Key)}
    (recorded : Recorded (naming Key) {s | s < t.capacity}
      (fun s => (t.slots s).generation.toNat) tr)
    (apart : ∀ s, (naming Key).Retired tr s → s ∉ t.free.contents) (effect : Effect t u evs) :
  Recorded (naming Key) {s | s < t.capacity} (fun s => (u.slots s).generation.toNat)
      (tr ++ evs)
    ∧ ∀ s, (naming Key).Retired (tr ++ evs) s → s ∉ u.free.contents
  := by
  have hsmall := wf.capacity_lt
  cases effect with
  | quiet hgen hfree =>
    rw [append_nil]
    simp only [hgen, hfree]
    exact ⟨recorded, apart⟩
  | made key hsome hself hother hfree =>
    obtain ⟨hs, hdead⟩ := wf.room.peek hsome
    have hslot := slot_handleOf u (s := t.free.peek) (by omega)
    have hmem : t.free.peek ∈ t.free.contents := by
      rw [FreeList.contents_pop wf.room.wf hsome]
      exact mem_cons_self
    have heven : (t.slots t.free.peek).generation.toNat % 2 = 0 := by
      have := of_decide_eq_false hdead
      omega
    have hstamp : (naming Key).stamp (u.handleOf t.free.peek)
        = (t.slots t.free.peek).generation.toNat + 1 := by
      change (u.slots t.free.peek).generation.toNat = _
      rw [hself, toNat_add_one]
      apply Nat.mod_eq_of_lt
      have := (t.slots t.free.peek).generation.isLt
      omega
    constructor
    · apply recorded.issue (h := u.handleOf t.free.peek) (by simp [naming, eq_comm]) (by simp [naming])
      case hvalid | heven => rwa [hslot]
      case hlive =>
        rw [hslot]
        intro hr
        exact apart _ hr hmem
      case hstamp => rw [hstamp, hslot]
      case hself =>
        rw [hslot]
        rfl
      case hother =>
      intro s hs
      rw [hslot] at hs
      rw [hother s hs]
    intro s hr
    rw [Naming.Retired, ended_append_of_notMem tr (by simp [naming])] at hr
    intro hs
    apply apart s hr
    rw [FreeList.contents_pop wf.room.wf hsome, ← hfree]
    exact mem_cons_of_mem _ hs
  | ended hs hlive hself hother hfree =>
  rename_i s
  have hslot := slot_handleOf t (s := s) (by omega)
  have hnot : ¬ (naming Key).Retired tr s := by
    intro hr
    have hzero := recorded.retired s hr
    have hodd := of_decide_eq_true hlive
    omega
  constructor
  · apply recorded.finish (h := t.handleOf s) (by simp [naming, eq_comm]) (by simp [naming])
    case hodd => exact of_decide_eq_true hlive
    case hstamp =>
      rw [hslot]
      rfl
    case hself =>
      rw [hslot, hself, toNat_add_one]
      rfl
    case hother =>
    intro s' hs'
    rw [hslot] at hs'
    rw [hother s' hs']
  obtain ⟨Q, -, -, hQ⟩ := wf.room.partition
  have hout : s ∉ t.free.contents := by
    intro hmem
    have := ((hQ s).mp (mem_append_left _ hmem)).2
    rw [hlive] at this
    cases this
  rintro s' ⟨h, hmem, hh, hlast⟩
  rw [ended_append_of_eq tr (h := t.handleOf s) (by simp [naming, eq_comm])] at hmem
  -- The slot of the flow that ended is free again, unless its generation was the last.
  obtain rfl | hmem := hmem
  · rw [← hh, hslot, hfree, if_pos]
    · exact hout
    rw [← BitVec.toNat_inj, toNat_add_one]
    change (t.slots s).generation.toNat = 2 ^ 32 - 1 at hlast
    rw [hlast]
    rfl
  have hr : (naming Key).Retired tr s' := ⟨h, hmem, hh, hlast⟩
  rw [hfree]
  split
  case isTrue => exact apart s' hr
  case isFalse =>
  have hroom : t.free.count < t.free.capacity := by
    have := wf.room.card_add
    have := (wf.room.card_erase hs hlive).2
    rw [wf.room.capacity_eq]
    omega
  rw [(FreeList.contents_push wf.room.wf hroom s).mem_iff, mem_cons]
  rintro (rfl | hs')
  · exact hnot hr
  · exact apart s' hr hs'

omit [DecidableEq Key] in
/-- A change of one flow that keeps its primary key. -/
theorem primary_update {m m' : FlowMap Key State} {h₀ : FlowHandle}
    {x : Option (FlowEntry Key State)} (hm : m' = update m h₀ x)
    (hx : ∀ f', x = some f' → ∃ f, m h₀ = some f ∧ f.primary = f'.primary) (hflow : m' h = some f') :
  ∃ f, m h = some f ∧ f.primary = f'.primary
  := by
  rw [hm, update_apply] at hflow
  split at hflow
  case isTrue hh =>
    rw [hh]
    apply hx f' hflow
  case isFalse => exact ⟨f', hflow, rfl⟩

/-- A call keeps the primary key of a flow, or makes the flow. -/
theorem Obeys.primary {call : Call Key State} (obeys : Obeys T t call)
    (hflow : (exec T t call).1.flows T h = some f') :
  (∃ f, t.flows T h = some f ∧ f.primary = f'.primary)
    ∨ eventsOf T t call (exec T t call).2 = [.made h f'.primary]
  := by
  have hspec := obeys.spec
  revert hspec hflow
  generalize (exec T t call).1.flows T = m'
  generalize (exec T t call).2 = r
  intro hflow hspec
  have same (hm : m' = t.flows T) : ∃ f, t.flows T h = some f ∧ f.primary = f'.primary :=
    ⟨f', hm ▸ hflow, rfl⟩
  cases call with
  | emplace key aliasKey state =>
    cases r with
    | emplaced r =>
      change EmplaceSpec _ _ _ _ _ _ _ at hspec
      rw [EmplaceSpec] at hspec
      cases hstatus : r.status <;> simp only [hstatus] at hspec
      case «exists» => exact .inl (same hspec.2)
      case aliasExists => exact .inl (same hspec.2.2.2)
      case full => exact .inl (same hspec.2.2.2.2)
      case created =>
      obtain ⟨-, -, -, -, -, hm⟩ := hspec
      rw [hm, update_apply] at hflow
      split at hflow
      case isTrue hh =>
        obtain rfl := Option.some.inj hflow
        right
        rw [eventsOf, if_pos hstatus, hh]
      case isFalse => exact .inl ⟨f', hflow, rfl⟩
    | _ => exact absurd hspec id
  | addAlias h₀ key =>
    cases r with
    | aliased status =>
      left
      change AliasSpec _ _ _ _ _ _ at hspec
      cases status with
      | stale => exact same hspec.2
      | «exists» => exact same hspec.2.2
      | noRoom =>
        obtain ⟨f, -, -, -, hm⟩ := hspec
        exact same hm
      | added =>
        obtain ⟨f, hf, -, -, hm⟩ := hspec
        apply primary_update hm _ hflow
        intro f' hf'
        cases hf'
        exact ⟨f, hf, rfl⟩
      | placementFailed => exact absurd hspec id
    | _ => exact absurd hspec id
  | removeAlias key =>
    cases r with
    | removed found =>
      left
      cases found with
      | true =>
        obtain ⟨h₀, f, hf, -, hm⟩ := hspec
        apply primary_update hm _ hflow
        intro f' hf'
        cases hf'
        exact ⟨f, hf, rfl⟩
      | false => exact same hspec.2
    | _ => exact absurd hspec id
  | erase key =>
    cases r with
    | removed found =>
      left
      cases found with
      | true =>
        obtain ⟨h₀, f, -, -, hm⟩ := hspec
        apply primary_update hm _ hflow
        intro f' hf'
        cases hf'
      | false => exact same hspec.2
    | _ => exact absurd hspec id
  | eraseHandle h₀ =>
    cases r with
    | removed found =>
      left
      apply primary_update hspec.2 _ hflow
      intro f' hf'
      cases hf'
    | _ => exact absurd hspec id
  | modify h₀ g =>
  cases r with
  | modified =>
    left
    apply primary_update hspec _ hflow
    intro f' hf'
    obtain ⟨f, hf, rfl⟩ := Option.map_eq_some_iff.mp hf'
    exact ⟨f, hf, rfl⟩
  | _ => exact absurd hspec id

omit [DecidableEq Key] in
/-- A handle resolves while the flow it was returned for has not ended. -/
theorem alive_iff (recorded : Recorded (naming Key) {s | s < t.capacity}
      (fun s => (t.slots s).generation.toNat) tr) (h : FlowHandle) :
  t.alive h = true ↔ (∃ key, .made h key ∈ tr) ∧ .ended h ∉ tr
  := by
  rw [← mem_issued, ← mem_ended, recorded.live_iff]
  change _ ↔ (t.slots (h.id - 1).toNat).generation.toNat = h.generation.toNat
    ∧ h.generation.toNat % 2 = 1
  rw [alive, slotOf, BitVec.toNat_inj]
  constructor
  · intro hsome
    split at hsome
    case isTrue => cases hsome
    case isFalse =>
    split at hsome
    case isTrue hlive =>
      obtain ⟨hgen, hodd⟩ := hlive
      rw [SlotRecord.live, hgen] at hodd
      exact ⟨hgen, of_decide_eq_true hodd⟩
    case isFalse => cases hsome
  rintro ⟨hgen, hodd⟩
  have hissued := ((recorded.live_iff h).mpr ⟨congrArg BitVec.toNat hgen, hodd⟩).1
  have hlt : (h.id - 1).toNat < t.capacity := recorded.used h hissued
  rw [if_neg (by omega), if_pos, Option.isSome_some]
  refine ⟨hgen, ?_⟩
  rw [SlotRecord.live, hgen]
  exact decide_eq_true hodd

theorem alive_of_flows {f : FlowEntry Key State} (hf : t.flows T h = some f) :
  t.alive h = true
  := by
  rw [flows, Option.bind_eq_some_iff] at hf
  obtain ⟨s, hs, -⟩ := hf
  rw [alive, hs, Option.isSome_some]

/-- The record of every run agrees with the table. -/
theorem Run.traced (narrow : T.kReuse = .lifo ∨ capacity ≤ 2 ^ 31) (run : Run T capacity tr t) :
  Traced T tr t
  := by
  induction run with
  | create h =>
    rename_i t
    have hgen : (fun s => (t.slots s).generation.toNat) = fun _ => 0 := by
      rw [WorkerFlowTable.create] at h
      obtain ⟨-, ⟨⟩⟩ | ⟨_, h⟩ := ite_eq_iff.mp h
      cases h
      rfl
    constructor
    case recorded =>
      rw [hgen]
      apply Recorded.init
    case apart =>
      rintro s ⟨h, ⟨e, he, -⟩, -⟩
      cases he
    case keys =>
    intro h key hmem
    cases hmem
  | call run call allowed ih =>
  rename_i tr t
  have wf := run.reached.wf narrow
  have obeys := wf.obeys allowed
  obtain ⟨recorded, apart⟩ := wf.recorded_effect ih.recorded ih.apart (wf.effect call)
  constructor
  case recorded =>
    rw [obeys.capacity_eq]
    exact recorded
  case apart => exact apart
  case keys =>
  intro h key hmem f' hflow
  rw [mem_append] at hmem
  obtain ⟨f, hf, hprim⟩ | hevs := obeys.primary hflow
  · obtain hold | hnew := hmem
    · rw [← hprim]
      exact ih.keys h key hold f hf
    -- The handle of a flow in the table is not issued again.
    obtain ⟨⟨key', hold⟩, -⟩ := (alive_iff ih.recorded h).mp (alive_of_flows hf)
    have hfresh := (pairwise_append.mp recorded.fresh).2.2 _ hold _ hnew
    exact absurd ⟨_, rfl⟩ (hfresh h ⟨_, rfl⟩).1
  rw [hevs] at hmem recorded
  obtain hold | hnew := hmem
  · have hfresh := (pairwise_append.mp recorded.fresh).2.2 _ hold _ (mem_singleton_self _)
    exact absurd ⟨_, rfl⟩ (hfresh h ⟨_, rfl⟩).1
  cases mem_singleton.mp hnew
  rfl

end WorkerFlowTable

end Flow

/-! ### Timers -/

namespace Expiry.Wheel

variable {c : Shape} {P : Type}

/-- A handle names a node and a generation of it. -/
def naming : Naming Event ExpiryHandle ℕ where
  slot := ExpiryHandle.id
  stamp := ExpiryHandle.generation
  last := lastGeneration
  issues h := {.scheduled h}
  ends h := {.ended h}
  ext := by
    rintro ⟨id, generation⟩ ⟨id', generation'⟩ rfl rfl
    rfl
  last_odd := by decide

variable {tr : List Event} {busy : Option ExpiryHandle} {w : Wheel c P} {h : ExpiryHandle}

theorem mem_issued :
  h ∈ naming.issued tr ↔ .scheduled h ∈ tr
  := by
  simp [Naming.issued, naming]

theorem mem_ended :
  h ∈ naming.ended tr ↔ .ended h ∈ tr
  := by
  simp [Naming.ended, naming]

theorem retired_iff {i : ℕ} : naming.Retired tr i ↔ i ∈ retiredBy tr := by
  constructor
  · rintro ⟨⟨id, generation⟩, hmem, rfl, rfl⟩
    exact mem_ended.mp hmem
  intro hmem
  exact ⟨⟨i, lastGeneration⟩, mem_ended.mpr hmem, rfl, rfl⟩

/-- The record of every run agrees with the nodes. -/
theorem Run.recorded [Inhabited P] (r : Run tr busy w) :
  Recorded naming {i | c.kFirst ≤ i ∧ i < c.kFirst + w.capacity}
    (fun i => (w.nodes i).generation) tr
  := by
  obtain ⟨capacity, start, shift, w₀, h₀, steps⟩ := r
  have H := intact_create h₀
  induction steps with
  | refl w =>
    have hgen : (fun i => (w.nodes i).generation) = fun _ => 0 := by
      rw [Wheel.create] at h₀
      split at h₀
      · cases h₀
      split at h₀
      · cases h₀
      cases h₀
      rfl
    rw [hgen]
    apply Recorded.init
  | tail steps s ih =>
  obtain ⟨-, heffect, hfixed⟩ := (H.steps steps).1.step s
  have recorded := ih h₀ H
  rw [hfixed.capacity]
  cases heffect with
  | quiet hgen =>
    rw [append_nil]
    simp only [hgen]
    exact recorded
  | scheduled h hlo hhi heven hr hh hself hother =>
    apply recorded.issue (h := h) (by simp [naming, eq_comm]) (by simp [naming]) ⟨hlo, hhi⟩
      heven _ hh hself hother
    rw [retired_iff]
    exact hr
  | ended h harm hg hself hother =>
  apply recorded.finish (h := h) (by simp [naming, eq_comm]) (by simp [naming]) _ hg hself
    hother
  change h.generation % 2 = 1
  rw [← hg]
  exact harm.2.2

/-- A handle resolves while the timer it was returned for has not ended. -/
theorem Run.resolves_iff [Inhabited P] (r : Run tr busy w) (h : ExpiryHandle) :
  w.resolves h = true ↔ .scheduled h ∈ tr ∧ .ended h ∉ tr
  := by
  have recorded := r.recorded
  rw [Wheel.resolves_iff, ← mem_issued, ← mem_ended, recorded.live_iff]
  constructor
  · rintro ⟨harm, hg⟩
    refine ⟨hg, ?_⟩
    change h.generation % 2 = 1
    rw [← hg]
    exact harm.2.2
  rintro ⟨hg, hodd⟩
  have hissued := ((recorded.live_iff h).mpr ⟨hg, hodd⟩).1
  obtain ⟨hlo, hhi⟩ := recorded.used h hissued
  refine ⟨⟨hlo, hhi, ?_⟩, hg⟩
  change (w.nodes (naming.slot h)).generation % 2 = 1
  rw [hg]
  exact hodd

/-- The calls that take a handle answer for the timer the handle was returned for; the timer being
delivered is not moved. -/
theorem Run.answers [Inhabited P] (r : Run tr busy w) (h : ExpiryHandle) :
  (w.alive h = true ↔ .scheduled h ∈ tr ∧ .ended h ∉ tr)
    ∧ ((w.deadlineOf h).isSome = true ↔ .scheduled h ∈ tr ∧ .ended h ∉ tr)
    ∧ ((w.cancel h).2 = true ↔ .scheduled h ∈ tr ∧ .ended h ∉ tr)
    ∧ (∀ d, (w.refresh h d).2 = true ↔ (.scheduled h ∈ tr ∧ .ended h ∉ tr) ∧ busy ≠ some h)
    ∧ ∀ d p, (w.reschedule h d p).2 = true
      ↔ (.scheduled h ∈ tr ∧ .ended h ∉ tr) ∧ busy ≠ some h
  := by
  obtain ⟨lists, frees, loose, T, H⟩ := r.intact
  have hmoves : (!w.resolves h || w.delivering h.id) = false ↔ w.resolves h = true ∧ busy ≠ some h := by
    rw [H.refused_iff, Wheel.resolves_iff, and_assoc]
  rw [← r.resolves_iff, ← hmoves]
  refine ⟨Iff.rfl, ?_, ?_, ?_, ?_⟩
  · rw [deadlineOf]
    split
    case isTrue hresolves => simp [hresolves]
    case isFalse hdead => simp [hdead]
  · rw [cancel]
    split
    case isTrue hdead => simpa using hdead
    case isFalse hresolves => simpa using hresolves
  · intro d
    rw [refresh]
    split
    case isTrue hrefused => simp [hrefused]
    case isFalse hmoves => simp [Bool.eq_false_of_not_eq_true hmoves]
  intro d p
  rw [reschedule]
  split
  case isTrue hrefused => simp [hrefused]
  case isFalse hmoves => simp [Bool.eq_false_of_not_eq_true hmoves]

end Expiry.Wheel

/-! ### Handle safety -/

namespace Flow.WorkerFlowTable

variable {Key State : Type} [DecidableEq Key] {T : FlowTableTraits Key}

/-- Over every run, a handle of a flow table answers for the flow it was returned for, as its key does,
until that flow ends, and for none before or after. No handle is returned twice, and none for a slot
whose last generation has ended; the live, the free and the quarantined slots are all of them. The
same holds for the timers of a wheel in every state of every run, within callbacks and between calls. -/
theorem handles_are_safe {capacity : ℕ} (narrow : T.kReuse = .lifo ∨ capacity ≤ 2 ^ 31)
    {tr : List (Event Key)} {t : WorkerFlowTable Key State} (run : Run T capacity tr t)
    {c : Shape} {P : Type} [Inhabited P] {timers : List Wheel.Event}
    {busy : Option ExpiryHandle} {w : Wheel c P}
    (wheel : Wheel.Run timers busy w) :
  ((∀ h key, .made h key ∈ tr → .ended h ∉ tr →
        (∃ state, t.lookup h = some state ∧ t.findRef T key = ⟨some state, h, false⟩)
          ∧ t.alive h = true ∧ t.keyOf h = some key ∧ (t.eraseHandle T h).2 = true)
      ∧ (∀ h, ¬ ((∃ key, .made h key ∈ tr) ∧ .ended h ∉ tr) →
        t.lookup h = none ∧ t.alive h = false ∧ t.keyOf h = none ∧ t.eraseHandle T h = (t, false))
      ∧ (∀ tr₁ tr₂ h key, tr = tr₁ ++ .made h key :: tr₂ → (∀ key', .made h key' ∉ tr₁)
        ∧ ∀ h', .ended h' ∈ tr₁ → h'.generation = BitVec.allOnes 32 → h'.id ≠ h.id)
      ∧ t.size + t.free.count + t.quarantined = t.capacity)
    ∧ (∀ h, (w.alive h = true ↔ .scheduled h ∈ timers ∧ .ended h ∉ timers)
        ∧ ((w.deadlineOf h).isSome = true ↔ .scheduled h ∈ timers ∧ .ended h ∉ timers)
        ∧ ((w.cancel h).2 = true ↔ .scheduled h ∈ timers ∧ .ended h ∉ timers)
        ∧ (∀ d, (w.refresh h d).2 = true
          ↔ (.scheduled h ∈ timers ∧ .ended h ∉ timers) ∧ busy ≠ some h)
        ∧ ∀ d p, (w.reschedule h d p).2 = true
          ↔ (.scheduled h ∈ timers ∧ .ended h ∉ timers) ∧ busy ≠ some h)
    ∧ (∀ tr₁ tr₂ h, timers = tr₁ ++ .scheduled h :: tr₂ → .scheduled h ∉ tr₁
      ∧ ∀ h', .ended h' ∈ tr₁ → h'.generation = Wheel.lastGeneration → h'.id ≠ h.id)
    ∧ ∃ frees : List ℕ, Stack w.links.next w.freeHead frees ∧ frees.Nodup
      ∧ w.size + frees.length + w.quarantined = w.capacity
  := by
  have wf := run.reached.wf narrow
  have traced := run.traced narrow
  have halive := alive_iff traced.recorded
  refine ⟨⟨?_, ?_, ?_, wf.room.card_add⟩, wheel.answers, ?_, ?_⟩
  · intro h key hmade hended
    have hsome := (halive h).mpr ⟨⟨key, hmade⟩, hended⟩
    obtain ⟨s, hs⟩ := Option.isSome_iff_exists.mp hsome
    obtain ⟨hlt, hlive, rfl, f, hflow, hentry⟩ := wf.slotOf_flow hs
    obtain ⟨hprim, hstate, -⟩ := SlotRecord.entry_eq_some.mp hentry
    have hkey := traced.keys _ key hmade f hflow
    have hpos := kKeysPerSlot_pos T
    have hview := (view_kid hlt hpos).trans ((wf.slot s hlt).keyIn_zero hlive hentry)
    refine ⟨⟨f.state, ?_, ?_⟩, hsome, ?_, ?_⟩
    · rw [lookup, hs, Option.bind_some, hstate]
    · rw [findRef, wf.findKid_eq_some.mpr (hkey ▸ hview)]
      simp only [kid_div hpos, kid_mod hpos, hstate]
      rfl
    · rw [keyOf, hs, Option.bind_some, hprim, hkey]
    · rw [eraseHandle, hs]
  · intro h hnot
    rw [← halive, Bool.not_eq_true] at hnot
    have hnone : t.slotOf h = none := by
      rw [← Option.not_isSome_iff_eq_none]
      exact Bool.not_eq_true _ ▸ hnot
    refine ⟨?_, hnot, ?_, ?_⟩
    · rw [lookup, hnone, Option.bind_none]
    · rw [keyOf, hnone, Option.bind_none]
    · rw [eraseHandle, hnone]
  · rintro tr₁ tr₂ h key rfl
    have hfresh := (pairwise_append.mp traced.recorded.fresh).2.2
    constructor
    · intro key' hmem
      exact absurd ⟨_, rfl⟩ (hfresh _ hmem _ mem_cons_self h ⟨_, rfl⟩).1
    intro h' hmem hlast hid
    apply (hfresh _ hmem _ mem_cons_self h ⟨_, rfl⟩).2 h' rfl
    · exact congrArg BitVec.toNat hlast
    · exact congrArg (fun id => (id - 1).toNat) hid
  · rintro tr₁ tr₂ h rfl
    have hfresh := (pairwise_append.mp wheel.recorded.fresh).2.2
    constructor
    · intro hmem
      exact absurd rfl (hfresh _ hmem _ mem_cons_self h rfl).1
    intro h' hmem
    apply (hfresh _ hmem _ mem_cons_self h rfl).2 h' rfl
  obtain ⟨lists, frees, loose, _, H⟩ := wheel.intact
  exact ⟨frees, H.wf.stack, H.wf.frees_nodup, H.accounts.total_eq⟩

/-- A table in which a flow has ended and another has its slot, beside a wheel with one timer. -/
theorem handles_are_safe_reused :
  ∃ t : WorkerFlowTable ℕ ℕ, t.keyOf ⟨1, 3⟩ = some 6 ∧ t.lookup ⟨1, 1⟩ = none
    ∧ t.size + t.free.count + t.quarantined = 2
    ∧ ∃ w : Wheel World.byteTicks ℕ, w.alive ⟨8, 1⟩ = true
  := by
  have hrun : Run pairTraits 2 [.made ⟨1, 1⟩ 5, .ended ⟨1, 1⟩, .made ⟨1, 3⟩ 6] _ :=
    ((Run.create (t := pairTable) rfl).call (.emplace 5 none 70) (by simp [Call.Allowed])
      |>.call (.eraseHandle ⟨1, 1⟩) trivial |>.call (.emplace 6 none 80) (by simp [Call.Allowed]))
  have hcreate := show Wheel.create World.byteTicks 2
    (tick World.byteTicks 250) 1 = .ok (_ : Wheel _ ℕ) from rfl
  have hwheel : Wheel.Run [.scheduled ⟨8, 1⟩] none _ :=
    ⟨2, _, 1, _, hcreate, (Wheel.Step.call none _ (.schedule 1 7)).single⟩
  obtain ⟨⟨hlive, hdead, -, hsum⟩, htimers, -⟩ := handles_are_safe (.inl rfl) hrun hwheel
  exact ⟨_, (hlive ⟨1, 3⟩ 6 (by simp) (by simp)).2.2.1, (hdead ⟨1, 1⟩ (by simp)).1, hsum, _,
    (htimers ⟨8, 1⟩).1.mpr (by simp)⟩

/-- In the wide table, `Emplace` of key 0 makes a flow where key 2 has one, and the handle of that
one does not resolve any more, though it was not erased. -/
theorem wide_table_kills_handle :
  ∃ t : WorkerFlowTable ℕ Unit, Reached wideTraits wide t ∧ t.alive ⟨3, 3⟩ = true
    ∧ (t.createImpl wideTraits 0 none ()).2.status = .created
    ∧ (t.createImpl wideTraits 0 none ()).1.alive ⟨3, 3⟩ = false
  := by
  obtain ⟨t, reached, hcap, hpeek, hgen, hcreate⟩ := wide_create
  have hid : ((⟨3, 3⟩ : FlowHandle).id - 1).toNat = 2 := rfl
  refine ⟨t, reached, ?_, ?_, ?_⟩
  · rw [alive, slotOf, hid, hcap, if_neg (by decide), if_pos, Option.isSome_some]
    refine ⟨hgen, ?_⟩
    rw [SlotRecord.live, hgen]
    rfl
  · rw [hcreate]
  have hmade : ((t.make wideTraits 0 none ()).slots 2).generation = 4 := by
    rw [slots_make, hpeek, Function.update_self]
    change (t.slots 2).generation + 1 = 4
    rw [hgen]
    rfl
  rw [hcreate, alive, slotOf, hid, hmade, if_neg (c := _ ∧ _)]
  · split <;> rfl
  rintro ⟨h, -⟩
  cases h

end Flow.WorkerFlowTable
