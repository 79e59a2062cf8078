import Bess.Expiry.Calls

/-!
# Polling

What a poll does to the timers is told by its deliveries: `Timers.deliverAll` replays them,
with the calls the callback made, and `Timers.Legit` says that each was made for a timer that
was armed and due, with its own payload. One lemma for each round of the loop carries
`Wheel.Running` from the state before the round to the state after it, and the loop ends, with
no timer left that is due, or for want of budget.
-/

namespace Expiry

open Function List Serial Timers

variable {c : Shape} {P : Type} {D : Set ℤ}

/-! ### Deliveries -/

/-- The deadline a call passes. -/
def Call.deadline {D : Type} : Call D P → Option D
  | .schedule deadline _ => some deadline
  | .refresh _ deadline => some deadline
  | .reschedule _ deadline _ => some deadline
  | .cancel _ => none

/-- The callback as the wheel sees it. -/
def Callback.map {D D' : Type} (f : D → D') (fn : Callback D P) : Callback D' P :=
  fun n p => ((fn n p).1.map (Call.map f), (fn n p).2.map f)

/-- The deadlines a callback passes or returns. -/
def Callback.deadlines {D : Type} (fn : Callback D P) : Set D :=
  { d | ∃ n p, (∃ call ∈ (fn n p).1, call.deadline = some d) ∨ (fn n p).2 = some d }

namespace Timers

/-- The deadlines of the timers. -/
def deadlines (m : Timers P) : Set ℤ := { d | ∃ h p, m h = some (d, p) }

/-- The calls of a callback, with their answers. -/
def execAll (m : Timers P) (busy : Option ExpiryHandle) :
    List (Call ℤ P) → List Answer → Timers P
  | call :: calls, a :: answers => (m.exec busy call a).execAll busy calls answers
  | _, _ => m

/-- The answers of the calls of a callback are those they should give. -/
def AnswersAll (m : Timers P) (busy : Option ExpiryHandle) :
    List (Call ℤ P) → List Answer → Prop
  | [], [] => True
  | call :: calls, a :: answers =>
      m.Answers busy call a ∧ (m.exec busy call a).AnswersAll busy calls answers
  | _, _ => False

/-- What becomes of a delivered timer: it is armed again or gone, unless the callback
cancelled it. -/
def settle (m : Timers P) (h : ExpiryHandle) (again : Option ℤ) : Timers P :=
  update m h ((m h).bind fun t => again.map fun deadline => (deadline, t.2))

/-- What the `n`-th delivery of a poll does to the timers. -/
def deliver (fn : Callback ℤ P) (n : ℕ) (m : Timers P) (δ : Delivery c P) : Timers P :=
  (m.execAll (some δ.handle) (fn n δ.payload).1 δ.answers).settle δ.handle (fn n δ.payload).2

/-- What the deliveries of a poll do, the first of them the `n`-th. -/
def deliverAll (fn : Callback ℤ P) : ℕ → Timers P → List (Delivery c P) → Timers P
  | _, m, [] => m
  | n, m, δ :: δs => deliverAll fn (n + 1) (m.deliver fn n δ) δs

/-- A delivery at a time between `lo` and `hi` is made for an armed timer, with its payload,
whose rounded deadline is not after that time. -/
def Due (shift : ℕ) (lo hi : ℤ) (m : Timers P) (δ : Delivery c P) : Prop :=
  ∃ d T, m δ.handle = some (d, δ.payload) ∧ δ.time = BitVec.ofInt c.digits T
    ∧ lo ≤ T ∧ T ≤ hi ∧ roundUp shift d ≤ T

/-- Every delivery is due when it is made, and the callback's calls are answered as they
should be. -/
def Legit (fn : Callback ℤ P) (shift : ℕ) (lo hi : ℤ) :
    ℕ → Timers P → List (Delivery c P) → Prop
  | _, _, [] => True
  | n, m, δ :: δs =>
      m.Due shift lo hi δ ∧ m.AnswersAll (some δ.handle) (fn n δ.payload).1 δ.answers
        ∧ Legit fn shift lo hi (n + 1) (m.deliver fn n δ) δs

theorem deliverAll_concat (fn : Callback ℤ P) (δ : Delivery c P) :
    ∀ (n : ℕ) (m : Timers P) (δs : List (Delivery c P)),
      deliverAll fn n m (δs ++ [δ]) = (deliverAll fn n m δs).deliver fn (n + δs.length) δ
  | _, _, [] => rfl
  | n, m, δ' :: δs => by
    rw [cons_append, deliverAll, deliverAll_concat, deliverAll, length_cons]
    congr 1
    omega

theorem legit_concat (fn : Callback ℤ P) (shift : ℕ) (lo hi : ℤ) (δ : Delivery c P) :
    ∀ (n : ℕ) (m : Timers P) (δs : List (Delivery c P)), Legit fn shift lo hi n m δs →
      (deliverAll fn n m δs).Due shift lo hi δ →
      (deliverAll fn n m δs).AnswersAll (some δ.handle) (fn (n + δs.length) δ.payload).1 δ.answers →
      Legit fn shift lo hi n m (δs ++ [δ])
  | _, _, [], _, hdue, ha => ⟨hdue, ha, trivial⟩
  | n, m, δ' :: δs, ⟨hdue', ha', hrest⟩, hdue, ha => by
    refine ⟨hdue', ha', legit_concat fn shift lo hi δ (n + 1) _ δs hrest hdue ?_⟩
    have e : n + 1 + δs.length = n + (δ' :: δs).length := by
      rw [length_cons]
      omega
    rw [e]
    apply ha

variable {m : Timers P}

theorem deadlines_update (hm : m.deadlines ⊆ D) (h : ExpiryHandle)
    {t : Option (ℤ × P)} (ht : ∀ u, t = some u → u.1 ∈ D) :
  deadlines (update m h t) ⊆ D
  := by
  rintro d ⟨k, p, hk⟩
  by_cases e : k = h
  · rw [e, update_self] at hk
    apply ht _ hk
  rw [update_of_ne e] at hk
  apply hm ⟨k, p, hk⟩

/-- The deadlines stay in a set that holds the call's own. -/
theorem deadlines_exec (hm : m.deadlines ⊆ D) (busy : Option ExpiryHandle) {call : Call ℤ P}
    (hc : ∀ d, call.deadline = some d → d ∈ D) (a : Answer) :
  (m.exec busy call a).deadlines ⊆ D
  := by
  cases call with
  | schedule d p =>
    cases a with
    | flag b => apply hm
    | handle h =>
    rw [exec]
    split
    · apply hm
    apply deadlines_update hm
    rintro u ⟨⟩
    apply hc _ rfl
  | refresh | reschedule =>
    rw [exec]
    split
    · apply hm
    apply deadlines_update hm
    intro u hu
    obtain ⟨t, -, rfl⟩ := Option.map_eq_some_iff.mp hu
    apply hc _ rfl
  | cancel h =>
  apply deadlines_update hm
  rintro u ⟨⟩

end Timers

/-- The times a poll makes the wheel compare are less than half the tick range apart: the
poll time is not before the wheel time and not half the range after it, the deadlines the
callback gives are near every wheel time of the poll, and none is half the range before a
deadline it may replace. -/
structure PollAdmitted (c : Shape) (shift : ℕ) (T : ℤ) (m : Timers P) (now : ℤ)
    (fn : Callback ℤ P) : Prop where
  le_now : T ≤ roundDown shift now
  now_lt : roundDown shift now - T < 2 ^ (c.digits - 1)
  near : ∀ d ∈ fn.deadlines, -2 ^ (c.digits - 1) ≤ roundUp shift d - roundDown shift now
    ∧ roundUp shift d - T < 2 ^ (c.digits - 1)
  back : ∀ d ∈ fn.deadlines, ∀ d' ∈ fn.deadlines ∪ m.deadlines, -2 ^ (c.digits - 1) ≤ d - d'

namespace Wheel

variable {w w' : Wheel c P} {lists : ℕ → List ℕ} {frees : List ℕ} {loose : Set ℕ} {T T₀ hi : ℤ}
  {due : ℕ → ℤ} {m m₀ : Timers P} {fn : Callback ℤ P} {s : Progress c P} {shift i : ℕ}

/-! ### The wheel time -/

section Arriving

/-- Between deliveries every armed node is in a list. -/
theorem Holds.loose_eq_empty (H : Holds w lists frees loose due T m none) : loose = ∅ := by
  apply Set.eq_empty_of_forall_notMem
  intro i hi
  have := ((H.loose_iff i).mp hi).2
  simp at this

/-- A member of a slot is looked at from the start of the slot's upcoming block on. -/
theorem Timed.start_of_mem (timed : Timed w lists T due) {level slot : ℕ} (hl : level < c.levels)
    (hslot : slot < c.kSlots) (hi : i ∈ lists (level * c.kSlots + slot)) :
  ∃ q, w.Upcoming T level slot q ∧ q * 2 ^ w.levelShift level ∈ w.starts lists T c.levels
    ∧ q * 2 ^ w.levelShift level ≤ roundUp w.shift (due i)
  := by
  obtain ⟨q, hq, hle⟩ := timed.upcoming level hl slot hslot i hi
  exact ⟨q, hq, ⟨level, hl, slot, hslot, ne_nil_of_mem hi, q, hq, rfl⟩, hle⟩

/-- With no node due or moving, every armed node is in a slot. -/
theorem WF.slot_of_armed (wf : WF w lists frees ∅) (hready : lists c.kReady = [])
    (hmoving : lists c.kMoving = []) (hi : w.ArmedNode i) :
  ∃ level < c.levels, ∃ slot < c.kSlots, i ∈ lists (level * c.kSlots + slot)
  := by
  rcases wf.cover i hi with hl | ⟨h, hh, hm⟩
  · exact absurd hl (Set.notMem_empty i)
  have hw : h < c.kWheelNodes := by
    by_contra hc
    have : h = c.kReady ∨ h = c.kMoving := by
      rw [Shape.kFirst] at hh
      rw [Shape.kReady, Shape.kMoving]
      omega
    rcases this with rfl | rfl
    · rw [hready] at hm
      simp at hm
    rw [hmoving] at hm
    simp at hm
  refine ⟨_, c.level_lt_of_head hw, _, Nat.mod_lt h c.kSlots_pos, ?_⟩
  rwa [c.slotHead_eq]

variable {E : ℤ}

/-- The wheel time moves on to `E`, no slot being passed: what stays in a slot is reached
after `E`. -/
theorem Timed.elapse {lists' : ℕ → List ℕ} (wf : WF w lists frees ∅)
    (timed : Timed w lists T due) (hready : lists c.kReady = []) (hmoving : lists c.kMoving = [])
    (hT : T ≤ E) (hdvd : (2 : ℤ) ^ w.shift ∣ E) (hfirst : ∀ E' ∈ w.starts lists T c.levels, E ≤ E')
    (k : Kept { w with cur := tick c E } w')
    (hslots : ∀ level < c.levels, ∀ slot < c.kSlots, ∀ i ∈ lists' (level * c.kSlots + slot),
      i ∈ lists (level * c.kSlots + slot)
        ∧ ∀ q, w.Upcoming T level slot q → E < q * 2 ^ w.levelShift level) :
  Timed w' lists' E due
  := by
  have hshift : w'.shift = w.shift := k.shift
  have harmed : ∀ i, w'.ArmedNode i → w.ArmedNode i := fun i hi => (k.armedNode_iff i).mp hi
  constructor
  case cur_eq => apply k.cur
  case dvd => rwa [hshift]
  case deadline_eq =>
    intro i hi
    rw [k.deadline]
    apply timed.deadline_eq i (harmed i hi)
  case near =>
    intro i hi
    obtain ⟨level, hl, slot, hslot, hm⟩ := wf.slot_of_armed hready hmoving (harmed i hi)
    obtain ⟨q, -, hstart, hle⟩ := timed.start_of_mem hl hslot hm
    have hnear := timed.near i (harmed i hi)
    have := hfirst _ hstart
    rw [hshift]
    omega
  case upcoming =>
  intro level hl slot hslot i hi
  obtain ⟨hm, hlate⟩ := hslots level hl slot hslot i hi
  obtain ⟨q, hq, -, hle⟩ := timed.start_of_mem hl hslot hm
  rw [hshift, levelShift_congr hshift]
  exact ⟨q, (hq.advance hT (hlate q hq)).congr hshift, hle⟩

/-- A list of the wheel is moved to one that is not of the wheel. -/
theorem WF.emptied (wf : WF w lists frees loose) {src dst : ℕ} (hsrc : src < c.kWheelNodes)
    (hd : c.kWheelNodes ≤ dst) (hd' : dst < c.kFirst) :
  ∃ lists', WF (w.splice src dst) lists' frees loose
    ∧ (∀ h < c.kWheelNodes, lists' h = lists h ∨ lists' h = []) ∧ lists' src = []
  := by
  refine ⟨_, wf.splice hsrc hd hd', ?_, update_self ..⟩
  intro h hh
  by_cases e : h = src
  · right
    rw [e, update_self]
  left
  rw [update_of_ne e, update_of_ne (by omega)]

/-- Queueing the work of a time for levels `levels`: the slots whose range starts then are
emptied into the moving list, the others stay. -/
theorem WF.arriveLevels {t : c.Tick} {levels : List ℕ} :
    ∀ {w : Wheel c P} {lists : ℕ → List ℕ}, WF w lists frees loose →
      (∀ level ∈ levels, level < c.levels) →
      ∃ lists', WF (levels.foldl (arriveLevel t) w) lists' frees loose
        ∧ Kept w (levels.foldl (arriveLevel t) w)
        ∧ (∀ h < c.kWheelNodes, lists' h = lists h ∨ lists' h = [])
        ∧ ∀ level ∈ levels,
            t &&& BitVec.ofNat c.digits (2 ^ w.levelShift level - 1) = 0 →
            lists' (level * c.kSlots + w.slotOf level t) = []
  := by
  induction levels with
  | nil =>
    intro w lists wf _
    exact ⟨lists, wf, Kept.refl w, fun _ _ => .inl rfl, fun _ h => absurd h not_mem_nil⟩
  | cons level levels ih =>
  intro w lists wf hlt
  have hl := hlt level mem_cons_self
  have hsrc := c.slotHead_lt hl (slotOf_lt w level t)
  -- One level: either its slot is emptied, or its range does not start at this time.
  obtain ⟨lists₁, wf₁, k₁, hsub₁, hdone₁⟩ : ∃ lists₁, WF (arriveLevel t w level) lists₁ frees loose
      ∧ Kept w (arriveLevel t w level)
      ∧ (∀ h < c.kWheelNodes, lists₁ h = lists h ∨ lists₁ h = [])
      ∧ (t &&& BitVec.ofNat c.digits (2 ^ w.levelShift level - 1) = 0 →
          lists₁ (level * c.kSlots + w.slotOf level t) = []) := by
    rw [arriveLevel]
    split
    case isTrue =>
      have hd : c.kWheelNodes ≤ c.kMoving := by rw [Shape.kMoving]; omega
      obtain ⟨lists₁, wf₁, hsub₁, hdone₁⟩ := wf.emptied hsrc hd c.kMoving_lt
      exact ⟨lists₁, wf₁, kept_splice _ _ _, hsub₁, fun _ => hdone₁⟩
    case isFalse hna =>
      exact ⟨lists, wf, Kept.refl w, fun _ _ => .inl rfl, fun h => absurd h hna⟩
  obtain ⟨lists', wf', k', hsub', hdone'⟩ := ih wf₁ fun l h => hlt l (mem_cons_of_mem _ h)
  refine ⟨lists', wf', k₁.trans k', ?_, ?_⟩
  · intro h hh
    rcases hsub' h hh with e | e
    · rw [e]
      apply hsub₁ h hh
    right
    apply e
  intro l hm ha
  rcases mem_cons.mp hm with rfl | hm
  · rcases hsub' _ hsrc with e | e
    · rw [e]
      apply hdone₁ ha
    · apply e
  have hsh := levelShift_congr k₁.shift l
  have := hdone' l hm (by rw [hsh]; apply ha)
  rwa [slotOf, hsh] at this

/-- The wheel arrives at the next event: the slots whose range starts then are empty, the others
stay, and there is work. -/
theorem WF.arrive (wf : WF w lists frees ∅) (hE : IsLeast (w.starts lists T c.levels) E) :
  ∃ lists', WF (w.arrive (tick c E)) lists' frees ∅
    ∧ Kept { w with cur := tick c E } (w.arrive (tick c E))
    ∧ (∀ level < c.levels, ∀ slot < c.kSlots, ∀ i ∈ lists' (level * c.kSlots + slot),
        i ∈ lists (level * c.kSlots + slot)
          ∧ ∀ q, w.Upcoming T level slot q → E < q * 2 ^ w.levelShift level)
    ∧ (lists' c.kReady ≠ [] ∨ lists' c.kMoving ≠ [])
  := by
  obtain ⟨level₀, hl₀, hmem₀⟩ := hE.1
  set w₀ : Wheel c P := { w with cur := tick c E } with hw₀
  have wf₀ : WF w₀ lists frees ∅ := wf.congr (fun _ _ => ⟨rfl, rfl⟩) (fun _ => rfl) rfl rfl rfl rfl
  have hlevels : ∀ level ∈ (List.range' 1 (c.levels - 1)).reverse, level < c.levels := by
    intro level hm
    have := mem_range'_1.mp (mem_reverse.mp hm)
    omega
  obtain ⟨lists₁, wf₁, k₁, hsub₁, hdone₁⟩ := wf₀.arriveLevels hlevels
  set w₁ := (List.range' 1 (c.levels - 1)).reverse.foldl (arriveLevel (tick c E)) w₀ with hw₁
  have hsrc : w₁.slotOf 0 (tick c E) < c.kWheelNodes := by
    have := c.slotHead_lt c.one_le_levels (slotOf_lt w₁ 0 (tick c E))
    rwa [Nat.zero_mul, Nat.zero_add] at this
  obtain ⟨lists₂, wf₂, hsub₂, hdone₂⟩ := wf₁.emptied hsrc le_rfl c.kReady_lt
  have k₂ := k₁.trans (kept_splice w₁ (w₁.slotOf 0 (tick c E)) c.kReady)
  have hmem : ∀ h < c.kWheelNodes, ∀ i ∈ lists₂ h, i ∈ lists h := by
    intro h hh i hi
    rcases hsub₂ h hh with e | e
    · rcases hsub₁ h hh with e' | e'
      · rwa [e, e'] at hi
      · simp [e, e'] at hi
    · simp [e] at hi
  -- The slot of a level whose range starts at `E` is empty now.
  have hnil : ∀ level < c.levels, ∀ slot < c.kSlots, ∀ q, w.Upcoming T level slot q →
      q * 2 ^ w.levelShift level = E → lists₂ (level * c.kSlots + slot) = [] := by
    intro level hl slot hslot q hq e
    have hslotE : slot = w.slotOf level (tick c E) := by
      have h₁ := slotOf_ofInt wf.shift_le hl E
      rw [← e, Int.mul_ediv_cancel _ (two_pow_pos _).ne', hq.slot_eq] at h₁
      rw [← e]
      exact_mod_cast h₁.symm
    cases level with
    | zero =>
      have hsame : w₁.slotOf 0 (tick c E) = w.slotOf 0 (tick c E) := by
        rw [slotOf, levelShift_congr k₁.shift]
        rfl
      rw [Nat.zero_mul, Nat.zero_add, hslotE, ← hsame, hdone₂]
    | succ level =>
    have hin : level + 1 ∈ (List.range' 1 (c.levels - 1)).reverse := by
      rw [mem_reverse, mem_range'_1]
      omega
    have hshift := levelShift_add_lt wf.shift_le hl
    have halign : tick c E &&& BitVec.ofNat c.digits (2 ^ w.levelShift (level + 1) - 1) = 0 := by
      rw [ofInt_and_mask (by omega), ofInt_emod_eq_zero_iff (by omega), ← e]
      apply Int.mul_emod_left
    have hnil₁ : lists₁ ((level + 1) * c.kSlots + slot) = [] := hslotE ▸ hdone₁ _ hin halign
    rcases hsub₂ _ (c.slotHead_lt hl hslot) with e' | e'
    · rw [e', hnil₁]
    · apply e'
  have hslots : ∀ level < c.levels, ∀ slot < c.kSlots, ∀ i ∈ lists₂ (level * c.kSlots + slot),
      i ∈ lists (level * c.kSlots + slot)
        ∧ ∀ q, w.Upcoming T level slot q → E < q * 2 ^ w.levelShift level := by
    intro level hl slot hslot i hi
    have hm := hmem _ (c.slotHead_lt hl hslot) i hi
    refine ⟨hm, fun q hq => ?_⟩
    have hle := hE.2 ⟨level, hl, slot, hslot, ne_nil_of_mem hm, q, hq, rfl⟩
    apply lt_of_le_of_ne hle
    intro e
    rw [hnil level hl slot hslot q hq e.symm] at hi
    simp at hi
  refine ⟨lists₂, wf₂, k₂, hslots, ?_⟩
  -- A node of the event's slot is still in some list, and that slot is empty.
  by_contra hc
  obtain ⟨hr, hmv⟩ := not_or.mp hc
  obtain ⟨slot, hslot, hne, q, hq, e⟩ := hmem₀
  obtain ⟨i, hi⟩ := exists_mem_of_ne_nil _ hne
  have hlt := c.slotHead_lt hl₀ hslot
  have harmed := wf.armed_of_mem _ (c.lt_kFirst hlt) i hi
  obtain ⟨level', hl', slot', hslot', hi'⟩ := wf₂.slot_of_armed (not_not.mp hr) (not_not.mp hmv)
    ((k₂.armedNode_iff i).mpr harmed)
  have hlt₂ := c.slotHead_lt hl' hslot'
  have hold := hmem _ hlt₂ i hi'
  have hsame := wf.loops.head_unique (c.lt_kFirst hlt) (c.lt_kFirst hlt₂) (mem_cons_of_mem _ hi)
    (mem_cons_of_mem _ hold)
  rw [← hsame, hnil level₀ hl₀ slot hslot q hq e.symm] at hi'
  simp at hi'

/-- The timers are held as before when the wheel arrives at the next event. -/
theorem Holds.arrive (H : Holds w lists frees loose due T m none) (hready : lists c.kReady = [])
    (hmoving : lists c.kMoving = []) (hE : IsLeast (w.starts lists T c.levels) E) :
  ∃ lists', Holds (w.arrive (tick c E)) lists' frees loose due E m none
    ∧ (lists' c.kReady ≠ [] ∨ lists' c.kMoving ≠ []) ∧ Fixed w (w.arrive (tick c E))
  := by
  obtain rfl := H.loose_eq_empty
  obtain ⟨level₀, hl₀, hmem₀⟩ := hE.1
  obtain ⟨hTE, -, hdvd⟩ := levelStarts_bounds H.wf.shift_le hl₀ hmem₀
  obtain ⟨lists', wf', k', hslots, hwork⟩ := H.wf.arrive hE
  refine ⟨lists', ⟨wf', ?_, ?_, ?_, ?_, ?_⟩, hwork, k'.shift, k'.capacity⟩
  · exact H.timed.elapse H.wf hready hmoving hTE.le hdvd hE.2 k' hslots
  · intro i hi
    exact absurd hi (Set.notMem_empty i)
  · intro i
    simp
  · intro h hb
    simp at hb
  rw [H.timers_eq]
  symm
  apply timers_kept k'

end Arriving

/-! ### A delivery -/

section Delivering

variable {busy : Option ExpiryHandle}

theorem Fixed.refl (w : Wheel c P) : Fixed w w := ⟨rfl, rfl⟩

theorem Fixed.trans {w'' : Wheel c P} (h : Fixed w w') (h' : Fixed w' w'') : Fixed w w'' :=
  ⟨h'.shift.trans h.shift, h'.capacity.trans h.capacity⟩

theorem Kept.fixed (k : Kept w w') : Fixed w w' := ⟨k.shift, k.capacity⟩

/-- The calls of a callback keep what the wheel holds. -/
theorem Sound.execAll {F : Set ℤ} :
    ∀ (calls : List (Call ℤ P)) {w : Wheel c P} {m : Timers P}, Sound w T m busy →
      m.deadlines ⊆ D → (∀ call ∈ calls, ∀ d, call.deadline = some d → d ∈ F) → F ⊆ D →
      (∀ d ∈ F, Near c w.shift T d) → (∀ d ∈ F, ∀ d' ∈ D, -2 ^ (c.digits - 1) ≤ d - d') →
      Sound (w.execAll (calls.map (Call.map (tick c)))).1 T
          (m.execAll busy calls (w.execAll (calls.map (Call.map (tick c)))).2) busy
        ∧ m.AnswersAll busy calls (w.execAll (calls.map (Call.map (tick c)))).2
        ∧ (m.execAll busy calls (w.execAll (calls.map (Call.map (tick c)))).2).deadlines ⊆ D
        ∧ Fixed w (w.execAll (calls.map (Call.map (tick c)))).1
  | [], w, m, S, hm, _, _, _, _ => ⟨S, trivial, hm, Fixed.refl w⟩
  | call :: calls, w, m, S, hm, hF, hFD, hnear, hback => by
    have hown : ∀ d, call.deadline = some d → d ∈ F := hF call mem_cons_self
    have hmovable : ∀ {h d}, d ∈ F → Movable c w.shift T m h d := by
      intro h d hd t ht
      exact ⟨hnear d hd, hback d hd t.1 (hm ⟨h, t.2, ht⟩)⟩
    have hadm : call.Admitted c w.shift T m := by
      cases call with
      | schedule d p => apply hnear d (hown d rfl)
      | refresh h d | reschedule h d p => apply hmovable (hown d rfl)
      | cancel h => trivial
    obtain ⟨S', ha, hfix⟩ := S.exec hadm
    have hm' := deadlines_exec hm busy (fun d hd => hFD (hown d hd)) (w.exec (call.map (tick c))).2
    obtain ⟨S'', ha', hm'', hfix'⟩ := Sound.execAll calls S' hm'
      (fun call' h => hF call' (mem_cons_of_mem _ h)) hFD (by rwa [hfix.shift]) hback
    exact ⟨S'', ⟨ha, ha'⟩, hm'', hfix.trans hfix'⟩

/-- A detached node linked to itself is the one being delivered. -/
theorem Detached.selfLink (D : Detached w lists frees loose due T m none i) :
  Holds ((w.setPrev i i).setNext i i) lists frees loose due T m
    (some ⟨i, (w.nodes i).generation⟩)
  := by
  have k : Kept w ((w.setPrev i i).setNext i i) := (kept_setPrev w i i).trans (kept_setNext _ i i)
  apply D.aside.fire.holds (D.timed.of_kept k fun _ _ _ hj => hj)
  · rintro h ⟨⟩
    left
    rw [k.generation]
  · rw [timers_kept k, D.timers_eq]

variable {h : ExpiryHandle} {index : ℕ}

section

variable (H : Holds w lists frees loose due T m (some h))

include H

/-- The node of the timer being delivered is in no list. -/
theorem Holds.release (hl : h.id ∈ loose) :
  Detached w lists frees loose due T m none h.id
  := (H.aside.release hl).detached H.timed nofun H.timers_eq

/-- When the timer being delivered is gone, every armed node is in a list. -/
theorem Holds.finish (hg : (w.nodes h.id).generation ≠ h.generation) :
  Sound w T m none
  := ⟨lists, frees, loose, due, (H.aside.finish hg).holds H.timed nofun H.timers_eq⟩

/-- After the callback the delivered timer is armed again or disarmed, if it is still the
one the node is armed for. -/
theorem Holds.settle (hlo : c.kFirst ≤ h.id) (hhi : h.id < c.kFirst + w.capacity)
    (hodd : h.generation % 2 = 1) (again : Option ℤ)
    (hnear : ∀ d, again = some d → Near c w.shift T d) :
  Sound
    (if (w.nodes h.id).generation = h.generation then
      match again.map (tick c) with
      | some deadline => (w.setDeadline h.id deadline).place h.id
      | none => w.free h.id
    else w) T (m.settle h again) none
  := by
  rw [Timers.settle]
  split
  case isFalse hg =>
    have hmh : m h = none := by
      rw [H.timers_eq]
      apply timers_eq_none
      by_contra hc
      apply hg ((resolves_iff w h).mp (by simpa using hc)).2
    rw [hmh, update_eq_self_iff.mpr hmh.symm]
    apply H.finish hg
  case isTrue hg =>
  have harm : w.ArmedNode h.id := ⟨hlo, hhi, hg ▸ hodd⟩
  have hh : (⟨h.id, (w.nodes h.id).generation⟩ : ExpiryHandle) = h := by rw [hg]
  have hmh : m h = some (due h.id, (w.nodes h.id).payload) := by
    rw [H.timers_eq, timers_of_resolves]
    apply (resolves_iff w h).mpr ⟨harm, hg⟩
  have D := H.release ((H.loose_iff h.id).mpr ⟨harm, by rw [hh]⟩)
  rw [hmh]
  cases again with
  | some d =>
    have S := (D.setDeadline (hnear d rfl)).place (by simp)
    rw [hh] at S
    apply S
  | none =>
  have S := D.free
  rw [hh] at S
  apply S

end

theorem settle_fixed (w : Wheel c P) (h : ExpiryHandle) (again : Option c.Tick) :
  Fixed w (if (w.nodes h.id).generation = h.generation then
      match again with
      | some deadline => (w.setDeadline h.id deadline).place h.id
      | none => w.free h.id
    else w)
  := by
  split
  · cases again with
    | some d => exact ⟨(kept_place _ _).shift, (kept_place _ _).capacity⟩
    | none => exact ⟨free_shift w h.id, free_capacity w h.id⟩
  · apply Fixed.refl

/-- The state of a poll that began at `T₀` with the timers `m₀`: the wheel holds at `T` what
the deliveries have left. -/
structure Running (fn : Callback ℤ P) (shift : ℕ) (T₀ hi : ℤ) (m₀ : Timers P) (s : Progress c P)
    (T : ℤ) : Prop where
  sound : Sound s.wheel T (deliverAll fn 0 m₀ s.deliveries) none
  shift_eq : s.wheel.shift = shift
  le_time : T₀ ≤ T
  time_le : T ≤ hi
  legit : Legit fn shift T₀ hi 0 m₀ s.deliveries
  fired_eq : s.result.fired = s.deliveries.length
  deadlines : (deliverAll fn 0 m₀ s.deliveries).deadlines ⊆ fn.deadlines ∪ m₀.deadlines

/-- A delivery, or the placement of a node that is not due yet. -/
theorem Running.deliver {now : ℤ} (R : Running fn shift T₀ (roundDown shift now) m₀ s T)
    (hadm : PollAdmitted c shift T₀ m₀ now fn) (hi : s.wheel.ArmedNode index) :
  Running fn shift T₀ (roundDown shift now) m₀ (Wheel.deliver (fn.map (tick c)) s index) T
  := by
  obtain ⟨lists, frees, loose, due, H⟩ := R.sound
  obtain ⟨lists₁, D, -⟩ := H.detach hi
  set m := deliverAll fn 0 m₀ s.deliveries with hm
  set w := s.wheel.unlink index with hw
  have k : Kept s.wheel w := kept_unlink s.wheel index
  have hshift : w.shift = shift := k.shift.trans R.shift_eq
  have harm : w.ArmedNode index := (k.armedNode_iff index).mpr hi
  obtain ⟨hlo, hhi⟩ := D.timed.near index harm
  have hdiff : diff (w.endOf (w.nodes index).deadline) w.cur = roundUp shift (due index) - T := by
    rw [D.timed.deadline_eq index harm, endOf_ofInt D.wf.shift_le, diff, D.timed.cur_eq,
      toInt_sub_ofInt c.digits_pos hlo hhi, hshift]
  rw [Wheel.deliver]
  simp only [← hw]
  split
  case isTrue =>
    have S := D.place (by simp)
    exact { R with sound := S, shift_eq := (kept_place w index).shift.trans hshift }
  case isFalse hdue =>
  set h : ExpiryHandle := ⟨index, (w.nodes index).generation⟩ with hh
  set p := (w.nodes index).payload with hp
  have H₁ := D.selfLink
  set w₁ := (w.setPrev index index).setNext index index with hw₁
  have k₁ : Kept w w₁ := (kept_setPrev w index index).trans (kept_setNext _ index index)
  have hown : ∀ d, (∃ call ∈ (fn s.result.fired p).1, call.deadline = some d)
      ∨ (fn s.result.fired p).2 = some d → d ∈ fn.deadlines := fun d hd => ⟨_, p, hd⟩
  have hnear : ∀ d ∈ fn.deadlines, Near c shift T d := by
    intro d hd
    obtain ⟨h₁, h₂⟩ := hadm.near d hd
    have := R.le_time
    have := R.time_le
    constructor <;> omega
  obtain ⟨S₂, ha, hD, fix₂⟩ := Sound.execAll (fn s.result.fired p).1
    ⟨_, _, _, _, H₁⟩ R.deadlines (fun call hc d hd => hown d (.inl ⟨call, hc, hd⟩))
    Set.subset_union_left (by rw [k₁.shift, hshift]; apply hnear) hadm.back
  set w₂ := w₁.execAll ((fn s.result.fired p).1.map (Call.map (tick c))) with hw₂
  have hcap : w₂.1.capacity = w.capacity := fix₂.capacity.trans k₁.capacity
  have hshift₂ : w₂.1.shift = shift := fix₂.shift.trans (k₁.shift.trans hshift)
  obtain ⟨lists₂, frees₂, loose₂, due₂, H₂⟩ := S₂
  have S₃ := H₂.settle harm.1 (hcap ▸ harm.2.1) harm.2.2 (fn s.result.fired p).2
    (by rw [hshift₂]; exact fun d hd => hnear d (hown d (.inr hd)))
  have hlen : 0 + s.deliveries.length = s.result.fired := by rw [R.fired_eq, Nat.zero_add]
  have hmh : m h = some (due index, p) := by
    rw [D.timers_eq, timers_of_resolves harm.resolves]
  constructor
  case sound =>
    rw [deliverAll_concat, hlen]
    apply S₃
  case shift_eq => exact (settle_fixed w₂.1 h _).shift.trans hshift₂
  case le_time => apply R.le_time
  case time_le => apply R.time_le
  case legit =>
    apply legit_concat _ _ _ _ _ _ _ _ R.legit
    · refine ⟨due index, T, hmh, ?_, R.le_time, R.time_le, by omega⟩
      exact k₁.cur.trans D.timed.cur_eq
    rw [hlen]
    apply ha
  case fired_eq =>
    rw [length_append, length_singleton, R.fired_eq]
  case deadlines =>
  rw [deliverAll_concat, hlen]
  apply deadlines_update hD
  intro u hu
  left
  obtain ⟨t, -, hu⟩ := Option.bind_eq_some_iff.mp hu
  obtain ⟨d, hd, rfl⟩ := Option.map_eq_some_iff.mp hu
  apply hown d (.inr hd)

theorem Running.move (R : Running fn shift T₀ hi m₀ s T) (harm : s.wheel.ArmedNode index) :
  Running fn shift T₀ hi m₀ (Wheel.move s index) T
  := by
  obtain ⟨lists, frees, loose, due, H⟩ := R.sound
  obtain ⟨lists₁, D, -⟩ := H.detach harm
  have S := D.place (by simp)
  have hs := (kept_place (s.wheel.unlink index) index).shift.trans (kept_unlink s.wheel index).shift
  exact { R with sound := S, shift_eq := hs.trans R.shift_eq }

end Delivering

/-! ### The loop -/

section Looping

variable {h : ℕ}

section

variable (wf : WF w lists frees loose)

include wf

theorem WF.pending_iff (hh : h < c.kFirst) :
  w.pending h = true ↔ lists h ≠ []
  := by
  rw [pending, bne_iff_ne, not_iff_not]
  apply (wf.loops.loop h hh).next_head_eq_iff

/-- The node after a pending head is a member of its list. -/
theorem WF.next_mem (hh : h < c.kFirst) (hp : w.pending h = true) :
  (w.nodes h).next ∈ lists h
  := by
  have hne := (wf.pending_iff hh).mp hp
  have H := wf.loops.loop h hh
  cases e : lists h with
  | nil => exact absurd e hne
  | cons x xs =>
  rw [e] at H
  have : (w.nodes h).next = x := H.next_head_cons
  rw [this]
  apply mem_cons_self

theorem WF.armed_next (hh : h < c.kFirst) (hp : w.pending h = true) :
  w.ArmedNode (w.nodes h).next
  := wf.armed_of_mem h hh _ (wf.next_mem hh hp)

end

/-- No timer is due at the wheel time any more, and the wheel moves to a time before the next
event. -/
theorem Holds.elapse (H : Holds w lists frees loose due T m none) (hready : lists c.kReady = [])
    (hmoving : lists c.kMoving = []) {E : ℤ} (hT : T ≤ E) (hdvd : (2 : ℤ) ^ w.shift ∣ E)
    (hlate : ∀ E' ∈ w.starts lists T c.levels, E < E') :
  Sound { w with cur := tick c E } E m none ∧ ∀ h t, m h = some t → E < roundUp w.shift t.1
  := by
  obtain rfl := H.loose_eq_empty
  constructor
  · refine ⟨lists, frees, ∅, due, ?_, ?_, H.selfLinked, ?_, ?_, ?_⟩
    · exact H.wf.congr (fun _ _ => ⟨rfl, rfl⟩) (fun _ => rfl) rfl rfl rfl rfl
    · apply H.timed.elapse H.wf hready hmoving hT hdvd (fun E' h => (hlate E' h).le) (Kept.refl _)
      intro level hl slot hslot i hi
      refine ⟨hi, fun q hq => ?_⟩
      apply hlate
      exact ⟨level, hl, slot, hslot, ne_nil_of_mem hi, q, hq, rfl⟩
    · apply H.loose_iff
    · apply H.spent
    · apply H.timers_eq
  intro h t ht
  obtain ⟨harm, -, rfl⟩ := H.armed_of_handle ht
  obtain ⟨level, hl, slot, hslot, hm⟩ := H.wf.slot_of_armed hready hmoving harm
  obtain ⟨q, -, hstart, hle⟩ := H.timed.start_of_mem hl hslot hm
  apply lt_of_lt_of_le (hlate _ hstart) hle

/-- The running poll does not depend on the count of work and the other results. -/
theorem Running.congr {s' : Progress c P} (R : Running fn shift T₀ hi m₀ s T) (hw : s'.wheel = s.wheel)
    (hd : s'.deliveries = s.deliveries) (hf : s'.result.fired = s.result.fired) :
  Running fn shift T₀ hi m₀ s' T
  := by
  constructor
  case sound => rw [hw, hd]; apply R.sound
  case shift_eq => rw [hw]; apply R.shift_eq
  case le_time => apply R.le_time
  case time_le => apply R.time_le
  case legit => rw [hd]; apply R.legit
  case fired_eq => rw [hf, hd]; apply R.fired_eq
  case deadlines => rw [hd]; apply R.deadlines

/-- Whether a list that a round works on is pending. -/
def working (w : Wheel c P) : Bool := w.pending c.kReady || w.pending c.kMoving

/-- One unit of work of a poll: the first node of the due list, or else of the moving list. -/
def workOne (fn : Callback c.Tick P) (s : Progress c P) : Progress c P :=
  if s.wheel.pending c.kReady then
    deliver fn { s with work := s.work + 1 } (s.wheel.nodes c.kReady).next
  else move { s with work := s.work + 1 } (s.wheel.nodes c.kMoving).next

/-- The wheel at its next event, if that is not after the target. -/
def arrival (w : Wheel c P) (target : c.Tick) : Option (Wheel c P) :=
  w.nextEvent.bind fun dist =>
    if dist ≤ target - w.cur then some (w.arrive (w.cur + dist)) else none

/-- One round of the loop: a unit of work, unless the budget is used up, else the next event. -/
theorem pollLoop_succ (target : c.Tick) (budget : ℕ) (fn : Callback c.Tick P) (fuel : ℕ)
    (s : Progress c P) :
  pollLoop target budget fn (fuel + 1) s
    = if s.wheel.working then
        if s.work = budget then some { s with result := { s.result with exhausted := true } }
        else pollLoop target budget fn fuel (workOne fn s)
      else
        match s.wheel.arrival target with
        | some w => pollLoop target budget fn fuel { s with wheel := w }
        | none => some { s with wheel := { s.wheel with cur := target } }
  := by
  rw [pollLoop, working, workOne, arrival]
  cases hr : s.wheel.pending c.kReady with
  | true => simp
  | false =>
  cases hm : s.wheel.pending c.kMoving with
  | true => simp
  | false =>
  cases s.wheel.nextEvent with
  | none => rfl
  | some dist =>
    by_cases hle : dist ≤ target - s.wheel.cur <;> simp [hle]

/-- A round does one unit of work and does not report the poll as exhausted. -/
theorem workOne_counts (fn : Callback c.Tick P) (s : Progress c P) :
  (workOne fn s).work = s.work + 1 ∧ (workOne fn s).result.exhausted = s.result.exhausted
  := by
  rw [workOne]
  split
  · rw [deliver]
    split <;> exact ⟨rfl, rfl⟩
  · exact ⟨rfl, rfl⟩

/-- The loop of a poll: what a unit of work and the arrival at an event keep holds when the budget
is used up, or when there is no work and no event up to the target. The loop ends within its fuel,
for an arrival brings work. -/
theorem pollLoop_rule (target : c.Tick) (budget : ℕ) (fn : Callback c.Tick P)
    (I : Progress c P → Prop)
    (hwork : ∀ s, I s → s.wheel.working = true → I (workOne fn s))
    (harrive : ∀ s w, I s → s.wheel.working = false → s.wheel.arrival target = some w →
      I { s with wheel := w } ∧ w.working = true) (fuel : ℕ) :
    ∀ {s : Progress c P}, I s → s.work ≤ budget →
      2 * (budget - s.work) + (if s.wheel.working then 1 else 2) ≤ fuel →
      ∃ s₁, I s₁ ∧ (pollLoop target budget fn fuel s
          = some { s₁ with result := { s₁.result with exhausted := true } }
        ∨ s₁.wheel.working = false ∧ s₁.wheel.arrival target = none
          ∧ pollLoop target budget fn fuel s
            = some { s₁ with wheel := { s₁.wheel with cur := target } })
  := by
  induction fuel with
  | zero =>
    intro s _ _ hfuel
    split at hfuel <;> omega
  | succ fuel ih =>
  intro s hs hle hfuel
  rw [pollLoop_succ]
  cases hw : s.wheel.working with
  | true =>
    rw [hw, if_pos rfl] at hfuel
    by_cases hb : s.work = budget
    · rw [if_pos hb]
      exact ⟨s, hs, .inl rfl⟩
    rw [if_neg hb]
    have hcount := (workOne_counts fn s).1
    apply ih (hwork s hs hw)
    · omega
    rw [hcount]
    split <;> omega
  | false =>
  rw [hw, if_neg (by simp)] at hfuel
  cases ha : s.wheel.arrival target with
  | none => exact ⟨s, hs, .inr ⟨hw, ha, rfl⟩⟩
  | some w₁ =>
  obtain ⟨hs₁, hbusy⟩ := harrive s w₁ hs hw ha
  apply ih hs₁ hle
  change 2 * (budget - s.work) + (if w₁.working then 1 else 2) ≤ fuel
  rw [hbusy, if_pos rfl]
  omega

section Polling

variable {fn : Callback ℤ P} {shift : ℕ} {T₀ now : ℤ} {m₀ : Timers P} {s : Progress c P}
  (hadm : PollAdmitted c shift T₀ m₀ now fn)
  (R : Running fn shift T₀ (roundDown shift now) m₀ s T)

include hadm R

theorem Running.workOne (hw : s.wheel.working = true) :
  Running fn shift T₀ (roundDown shift now) m₀ (workOne (fn.map (tick c)) s) T
  := by
  obtain ⟨lists, frees, loose, due, H⟩ := R.sound
  have R₁ : Running fn shift T₀ (roundDown shift now) m₀ { s with work := s.work + 1 } T :=
    R.congr rfl rfl rfl
  rw [Wheel.workOne]
  split
  case isTrue hr => apply R₁.deliver hadm (H.wf.armed_next c.kReady_lt hr)
  case isFalse hr =>
  rw [working, Bool.eq_false_of_not_eq_true hr] at hw
  apply R₁.move (H.wf.armed_next c.kMoving_lt hw)

/-- With no work left, the wheel arrives at its next event, or at the time of the poll if there is
none up to it. -/
theorem Running.idle (hidle : s.wheel.working = false) :
  (∀ w, s.wheel.arrival (tick c (roundDown shift now)) = some w →
      (∃ E, Running fn shift T₀ (roundDown shift now) m₀ { s with wheel := w } E)
        ∧ w.working = true)
    ∧ (s.wheel.arrival (tick c (roundDown shift now)) = none →
      Running fn shift T₀ (roundDown shift now) m₀
          { s with wheel := { s.wheel with cur := tick c (roundDown shift now) } }
          (roundDown shift now)
        ∧ ∀ h t, deliverAll fn 0 m₀ s.deliveries h = some t →
            roundDown shift now < roundUp shift t.1)
  := by
  obtain ⟨lists, frees, loose, due, H⟩ := R.sound
  rw [working, Bool.or_eq_false_iff, ← Bool.not_eq_true, ← Bool.not_eq_true,
    H.wf.pending_iff c.kReady_lt, H.wf.pending_iff c.kMoving_lt, not_not, not_not] at hidle
  obtain ⟨hready, hmoving⟩ := hidle
  have hle := R.time_le
  have hdvd : (2 : ℤ) ^ s.wheel.shift ∣ roundDown shift now := by
    rw [R.shift_eq]
    apply dvd_roundDown
  -- With no start up to the time of the poll, the wheel goes there.
  have hend : (∀ E ∈ s.wheel.starts lists T c.levels, roundDown shift now < E) →
      Running fn shift T₀ (roundDown shift now) m₀
          { s with wheel := { s.wheel with cur := tick c (roundDown shift now) } }
          (roundDown shift now)
        ∧ ∀ h t, deliverAll fn 0 m₀ s.deliveries h = some t →
            roundDown shift now < roundUp shift t.1 := by
    intro hlate
    obtain ⟨S', hall⟩ := H.elapse hready hmoving hle hdvd hlate
    rw [R.shift_eq] at hall
    exact ⟨{ R with sound := S', le_time := R.le_time.trans hle, time_le := le_rfl }, hall⟩
  rw [arrival]
  rcases nextEvent_spec H.wf H.timed.clocked with ⟨hev, hnone⟩ | ⟨E, hev, hE⟩
  · rw [hev]
    exact ⟨nofun, fun _ => hend (by rw [hnone]; simp)⟩
  obtain ⟨level, hl, hmem⟩ := hE.1
  obtain ⟨hTE, hnear, -⟩ := levelStarts_bounds H.wf.shift_le hl hmem
  have hdE := toNat_dist hTE hnear
  have hdt : ((tick c (roundDown shift now) - s.wheel.cur).toNat : ℤ)
      = roundDown shift now - T := by
    have hpow : (2 : ℤ) ^ (c.digits - 1) ≤ 2 ^ c.digits := pow_le_pow_right₀ (by omega) (by omega)
    have := hadm.now_lt
    have := R.le_time
    rw [H.timed.cur_eq]
    apply toNat_sub_ofInt hle
    omega
  rw [hev, Option.bind_some]
  simp only [BitVec.le_def]
  by_cases hreach : E ≤ roundDown shift now
  · rw [if_pos (by omega)]
    refine ⟨?_, nofun⟩
    rintro _ ⟨⟩
    have hcur : s.wheel.cur + (tick c E - tick c T) = tick c E := by
      rw [H.timed.cur_eq, ← ofInt_sub, ← BitVec.ofInt_add, add_sub_cancel]
    rw [hcur]
    obtain ⟨lists', H', hwork', hfix⟩ := H.arrive hready hmoving hE
    refine ⟨⟨E, ⟨_, _, _, _, H'⟩, hfix.shift.trans R.shift_eq, R.le_time.trans hTE.le, hreach,
      R.legit, R.fired_eq, R.deadlines⟩, ?_⟩
    rw [working, Bool.or_eq_true, H'.wf.pending_iff c.kReady_lt, H'.wf.pending_iff c.kMoving_lt]
    apply hwork'
  rw [if_neg (by omega)]
  exact ⟨nofun, fun _ => hend fun E' h => lt_of_lt_of_le (by omega) (hE.2 h)⟩

/-- The loop ends within its fuel. If it does not report the poll as exhausted, the wheel is
at the time of the poll and no timer left is due. -/
theorem pollLoop_spec {budget : ℕ} (fuel : ℕ) (hwork : s.work ≤ budget)
    (hfuel : 2 * (budget - s.work) + (if s.wheel.working then 1 else 2) ≤ fuel) :
  ∃ s' T', pollLoop (tick c (roundDown shift now)) budget (fn.map (tick c)) fuel s = some s'
    ∧ Running fn shift T₀ (roundDown shift now) m₀ s' T'
    ∧ (s'.result.exhausted = false → T' = roundDown shift now
      ∧ ∀ h t, deliverAll fn 0 m₀ s'.deliveries h = some t →
          roundDown shift now < roundUp shift t.1)
  := by
  obtain ⟨s₁, ⟨T₁, R₁⟩, he | ⟨hidle, ha, he⟩⟩ :=
    pollLoop_rule (tick c (roundDown shift now)) budget (fn.map (tick c))
      (fun s => ∃ T, Running fn shift T₀ (roundDown shift now) m₀ s T)
      (fun s ⟨T, R⟩ hw => ⟨T, R.workOne hadm hw⟩)
      (fun s w ⟨T, R⟩ hidle ha => (R.idle hadm hidle).1 w ha) fuel ⟨T, R⟩ hwork hfuel
  · exact ⟨_, T₁, he, R₁.congr rfl rfl rfl, by simp⟩
  obtain ⟨R', hall⟩ := (R₁.idle hadm hidle).2 ha
  exact ⟨_, _, he, R', fun _ => ⟨rfl, hall⟩⟩

end Polling

end Looping

end Wheel

end Expiry
