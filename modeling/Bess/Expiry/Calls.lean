import Bess.Expiry.Placement

/-!
# Timers and the calls on them

`Timers` is what a wheel is for: the deadline and the payload of each armed timer, by handle,
in times that do not wrap. `Wheel.Sound w T m busy` says that the wheel `w` holds the timers
`m` at the time `T` while the timer `busy` is being delivered, and every call keeps it, as long
as the times it makes the wheel compare are less than half the tick range apart.
-/

namespace Expiry

open Function List Serial

variable {c : Shape} {P : Type}

/-- The tick of a time. -/
abbrev tick (c : Shape) (t : ℤ) : c.Tick := BitVec.ofInt c.digits t

/-- The armed timers: the deadline and the payload of each handle that names one. -/
abbrev Timers (P : Type) : Type := ExpiryHandle → Option (ℤ × P)

def Call.map {D D' : Type} (f : D → D') : Call D P → Call D' P
  | .schedule deadline payload => .schedule (f deadline) payload
  | .refresh h deadline => .refresh h (f deadline)
  | .reschedule h deadline payload => .reschedule h (f deadline) payload
  | .cancel h => .cancel h

namespace Timers

/-- What a call does to the timers while `busy` is being delivered. Of the answer only the
handle of a new timer is used. -/
def exec (m : Timers P) (busy : Option ExpiryHandle) : Call ℤ P → Answer → Timers P
  | .schedule deadline payload, .handle h =>
      if h = kNoExpiry then m else update m h (some (deadline, payload))
  | .schedule _ _, .flag _ => m
  | .refresh h deadline, _ =>
      if busy = some h then m else update m h ((m h).map fun t => (deadline, t.2))
  | .reschedule h deadline payload, _ =>
      if busy = some h then m else update m h ((m h).map fun _ => (deadline, payload))
  | .cancel h, _ => update m h none

/-- The answers a call may give: a new timer has a handle that named none, and the other calls
tell whether the handle names an armed timer that is not being delivered. -/
def Answers (m : Timers P) (busy : Option ExpiryHandle) : Call ℤ P → Answer → Prop
  | .schedule _ _, a => a = .handle kNoExpiry ∨ ∃ h, a = .handle h ∧ h ≠ kNoExpiry ∧ m h = none
  | .refresh h _, a => a = .flag ((m h).isSome && busy ≠ some h)
  | .reschedule h _ _, a => a = .flag ((m h).isSome && busy ≠ some h)
  | .cancel h, a => a = .flag (m h).isSome

end Timers

/-- A deadline, rounded up, is within half the tick range of the wheel time. -/
def Near (c : Shape) (shift : ℕ) (T deadline : ℤ) : Prop :=
  -2 ^ (c.digits - 1) ≤ roundUp shift deadline - T
    ∧ roundUp shift deadline - T < 2 ^ (c.digits - 1)

/-- The new deadline of an armed timer is near the wheel time, and not more than half the tick
range before the present one. -/
def Movable (c : Shape) (shift : ℕ) (T : ℤ) (m : Timers P) (h : ExpiryHandle) (deadline : ℤ) :
    Prop :=
  ∀ t, m h = some t → Near c shift T deadline ∧ -2 ^ (c.digits - 1) ≤ deadline - t.1

/-- The times a call makes the wheel compare are less than half the tick range apart. -/
def Call.Admitted (c : Shape) (shift : ℕ) (T : ℤ) (m : Timers P) : Call ℤ P → Prop
  | .schedule deadline _ => Near c shift T deadline
  | .refresh h deadline => Movable c shift T m h deadline
  | .reschedule h deadline _ => Movable c shift T m h deadline
  | .cancel _ => True

namespace Wheel

/-- The timers of a wheel whose nodes are due at `due`. -/
def timers (w : Wheel c P) (due : ℕ → ℤ) : Timers P :=
  fun h => if w.resolves h then some (due h.id, (w.nodes h.id).payload) else none

/-- The wheel holds the timers `m` at the time `T`; the armed node in no list is that of the
timer `busy`, linked to itself, whose handle is not given out again. -/
structure Holds (w : Wheel c P) (lists : ℕ → List ℕ) (frees : List ℕ) (loose : Set ℕ)
    (due : ℕ → ℤ) (T : ℤ) (m : Timers P) (busy : Option ExpiryHandle) : Prop where
  wf : WF w lists frees loose
  timed : Timed w lists T due
  selfLinked : ∀ i ∈ loose, w.links.prev i = i ∧ w.links.next i = i
  loose_iff : ∀ i, i ∈ loose ↔ w.ArmedNode i ∧ busy = some ⟨i, (w.nodes i).generation⟩
  spent : ∀ h, busy = some h → h.generation ≤ (w.nodes h.id).generation
    ∨ (w.nodes h.id).generation = 0 ∧ h.id ∉ frees
  timers_eq : m = w.timers due

/-- No call changes the granularity and the capacity. -/
structure Fixed (w w' : Wheel c P) : Prop where
  shift : w'.shift = w.shift
  capacity : w'.capacity = w.capacity

/-- The wheel holds the timers `m` at the time `T` while `busy` is being delivered. -/
def Sound (w : Wheel c P) (T : ℤ) (m : Timers P) (busy : Option ExpiryHandle) : Prop :=
  ∃ lists frees loose due, Holds w lists frees loose due T m busy

variable {w w' : Wheel c P} {lists lists' : ℕ → List ℕ} {frees : List ℕ} {loose : Set ℕ} {T d : ℤ}
  {due : ℕ → ℤ} {m : Timers P} {busy : Option ExpiryHandle} {h : ExpiryHandle} {i : ℕ} {t : ℤ × P}

/-! ### Handles -/

theorem resolves_iff (w : Wheel c P) (h : ExpiryHandle) :
  w.resolves h = true ↔ w.ArmedNode h.id ∧ (w.nodes h.id).generation = h.generation
  := by
  simp only [resolves, ArmedNode, Bool.and_eq_true, decide_eq_true_eq, beq_iff_eq]
  constructor
  · rintro ⟨⟨⟨h₁, h₂⟩, h₃⟩, h₄⟩
    omega
  rintro ⟨⟨h₁, h₂, h₃⟩, h₄⟩
  omega

theorem ArmedNode.resolves (hi : w.ArmedNode i) :
  w.resolves ⟨i, (w.nodes i).generation⟩ = true
  := (resolves_iff w _).mpr ⟨hi, rfl⟩

theorem timers_of_resolves (hr : w.resolves h = true) :
  w.timers due h = some (due h.id, (w.nodes h.id).payload)
  := by rw [timers, if_pos hr]

theorem isSome_timers (w : Wheel c P) (due : ℕ → ℤ) (h : ExpiryHandle) :
  (w.timers due h).isSome = w.resolves h
  := by
  rw [timers]
  cases w.resolves h <;> simp

theorem timers_eq_none (hr : w.resolves h = false) :
  w.timers due h = none
  := by rw [timers, hr, if_neg (by simp)]

/-- The timers of two wheels agree on a handle when its node does. -/
theorem timers_congr {due' : ℕ → ℤ} (hgen : (w'.nodes h.id).generation = (w.nodes h.id).generation)
    (hcap : w'.capacity = w.capacity) (hpay : (w'.nodes h.id).payload = (w.nodes h.id).payload)
    (hdue : due' h.id = due h.id) :
  w'.timers due' h = w.timers due h
  := by
  rw [timers, timers, resolves, resolves, hgen, hcap, hpay, hdue]

/-- When only the node `i` of a wheel changes, and the handle `h` of it is the only one that
resolves before or after, the timers change at `h` only. -/
theorem timers_update (due due' : ℕ → ℤ) (h : ExpiryHandle)
    (hcap : w'.capacity = w.capacity)
    (hother : ∀ j, j ≠ h.id → (w'.nodes j).generation = (w.nodes j).generation
      ∧ (w'.nodes j).payload = (w.nodes j).payload ∧ due' j = due j)
    (hbefore : w.ArmedNode h.id → (w.nodes h.id).generation = h.generation)
    (hafter : w'.ArmedNode h.id → (w'.nodes h.id).generation = h.generation) :
  w'.timers due' = update (w.timers due) h (w'.timers due' h)
  := by
  funext k
  by_cases e : k = h
  · rw [e, update_self]
  rw [update_of_ne e]
  by_cases hid : k.id = h.id
  · have hne : k.generation ≠ h.generation := by
      intro hg
      cases k
      simp_all
    have hgone : ∀ v : Wheel c P,
        (v.ArmedNode h.id → (v.nodes h.id).generation = h.generation) → v.resolves k = false := by
      intro v hv
      by_contra hc
      obtain ⟨ha, hg⟩ := (resolves_iff v k).mp (by simpa using hc)
      rw [hid] at ha hg
      apply hne
      rw [← hg, hv ha]
    rw [timers_eq_none (hgone w' hafter), timers_eq_none (hgone w hbefore)]
  obtain ⟨h₁, h₂, h₃⟩ := hother k.id hid
  apply timers_congr h₁ hcap h₂ h₃

theorem Holds.armed_of_handle (H : Holds w lists frees loose due T m busy) (e : m h = some t) :
  w.ArmedNode h.id ∧ (w.nodes h.id).generation = h.generation
    ∧ t = (due h.id, (w.nodes h.id).payload)
  := by
  rw [H.timers_eq, timers] at e
  split at e
  case isTrue hr =>
    obtain ⟨ha, hg⟩ := (resolves_iff w h).mp hr
    exact ⟨ha, hg, (Option.some.inj e).symm⟩
  case isFalse => cases e

/-! ### Taking a node out, and moving it -/

section Moving

variable {w' : Wheel c P}

/-- Unlinking an armed node makes it loose, whether it is in a list or linked to itself. -/
theorem WF.detach (wf : WF w lists frees loose)
    (hself : ∀ i ∈ loose, w.links.prev i = i ∧ w.links.next i = i) (hi : w.ArmedNode i) :
  ∃ lists', WF (w.unlink i) lists' frees (insert i loose)
    ∧ (∀ h < c.kFirst, lists' h = (lists h).erase i) ∧ LooseKept w (w.unlink i) loose i
  := by
  rcases wf.cover i hi with hl | ⟨h, hh, hm⟩
  · obtain ⟨hp, hn⟩ := hself i hl
    have hk := kept_unlink w i
    have hlinks : (w.unlink i).links = w.links := by
      rw [links_unlink, Links.unlink_self hp hn]
    have hocc : (w.unlink i).occupied = w.occupied := by
      rw [occupied_unlink, if_neg]
      have := hi.1
      rw [Shape.kFirst] at this
      omega
    refine ⟨lists, ?_, fun h hh => (erase_of_not_mem (wf.loose_apart i hl h hh)).symm, ?_⟩
    · rw [Set.insert_eq_of_mem hl]
      apply wf.congr (by simp [hlinks]) hk.generation hk.capacity hk.shift hk.freeHead hocc
    intro j _ _
    rw [hlinks]
    exact ⟨rfl, rfl⟩
  refine ⟨_, wf.unlink hh hm, ?_, ?_⟩
  · intro h' hh'
    by_cases e : h' = h
    · rw [e, update_self]
    rw [update_of_ne e, erase_of_not_mem]
    intro hm'
    apply e (wf.loops.head_unique hh' hh (mem_cons_of_mem _ hm') (mem_cons_of_mem _ hm))
  intro j hj _
  rw [links_unlink]
  exact ((wf.loops.loop h hh).unlink_frame hm (wf.loose_not_mem hj hh)).symm

/-- What a change of links, occupancy words and deadlines keeps. -/
structure Framed (w w' : Wheel c P) : Prop where
  generation : ∀ i, (w'.nodes i).generation = (w.nodes i).generation
  payload : ∀ i, (w'.nodes i).payload = (w.nodes i).payload
  capacity : w'.capacity = w.capacity
  shift : w'.shift = w.shift
  cur : w'.cur = w.cur

theorem Kept.framed (k : Kept w w') : Framed w w' :=
  { k with }

theorem Framed.trans {w'' : Wheel c P} (h : Framed w w') (h' : Framed w' w'') :
  Framed w w''
  where
  generation i := (h'.generation i).trans (h.generation i)
  payload i := (h'.payload i).trans (h.payload i)
  capacity := h'.capacity.trans h.capacity
  shift := h'.shift.trans h.shift
  cur := h'.cur.trans h.cur

theorem framed_setDeadline (w : Wheel c P) (i : ℕ) (d : c.Tick) : Framed w (w.setDeadline i d) := by
  constructor <;> first | rfl | (intro j; by_cases h : j = i <;> simp [setDeadline, h])

theorem Framed.armedNode_iff (f : Framed w w') (i : ℕ) :
  w'.ArmedNode i ↔ w.ArmedNode i
  := by
  rw [ArmedNode, ArmedNode, f.generation, f.capacity]

section

variable (w : Wheel c P)

theorem links_setDeadline (i : ℕ) (d : c.Tick) :
  (w.setDeadline i d).links = w.links
  := by
  simp only [links, setDeadline, Links.mk.injEq]
  constructor <;>
  · funext j
    by_cases e : j = i <;> simp [e]

@[simp] theorem deadline_setDeadline_self (i : ℕ) (d : c.Tick) :
  ((w.setDeadline i d).nodes i).deadline = d
  := by simp [setDeadline]

theorem kept_place (i : ℕ) : Kept w (w.place i) := kept_link _ _ _

theorem links_setPayload (i : ℕ) (p : P) :
  (w.setPayload i p).links = w.links
  := by
  simp only [links, setPayload, Links.mk.injEq]
  constructor <;>
  · funext j
    by_cases e : j = i <;> simp [e]

theorem generation_setPayload (i : ℕ) (p : P) (j : ℕ) :
  ((w.setPayload i p).nodes j).generation = (w.nodes j).generation
  := by
  by_cases e : j = i <;> simp [setPayload, e]

end

/-- A node is given a deadline, and taken out of its list or left in it if the slot is reached in
time. -/
theorem Timed.setDue (timed : Timed w lists T due)
    (hcur : w'.cur = w.cur) (hshift : w'.shift = w.shift)
    (hself : (w'.nodes i).deadline = tick c d) (hd : Near c w.shift T d)
    (hother : ∀ j, j ≠ i → (w'.ArmedNode j → w.ArmedNode j)
      ∧ (w'.nodes j).deadline = (w.nodes j).deadline)
    (hsub : ∀ h < c.kFirst, ∀ j ∈ lists' h, j ∈ lists h ∧ (j = i → due i ≤ d)) :
  Timed w' lists' T (update due i d)
  := by
  apply timed.transfer hcur hshift
  · intro j hj
    by_cases e : j = i
    · right
      subst e
      rw [update_self]
      exact ⟨hself, hd⟩
    left
    rw [update_of_ne e]
    exact ⟨(hother j e).1 hj, (hother j e).2, rfl⟩
  intro level hl slot hslot j hj
  left
  have hlt := c.slotHead_lt hl hslot
  obtain ⟨hj, hle⟩ := hsub _ (c.lt_kFirst hlt) j hj
  use hj
  by_cases e : j = i
  · subst e
    rw [update_self]
    apply roundUp_le (dvd_roundUp _ _) ((hle rfl).trans (le_roundUp _ _))
  · rw [update_of_ne e]

end Moving

/-! ### A node in no list -/

section Asides

variable {w w' : Wheel c P} {loose out : Set ℕ}

/-- The wheel holds the timers `m`, and the armed node `i` is in no list, whatever its
links. -/
structure Detached (w : Wheel c P) (lists : ℕ → List ℕ) (frees : List ℕ) (loose : Set ℕ)
    (due : ℕ → ℤ) (T : ℤ) (m : Timers P) (busy : Option ExpiryHandle) (i : ℕ) : Prop where
  wf : WF w lists frees loose
  timed : Timed w lists T due
  mem : i ∈ loose
  selfLinked : ∀ j ∈ loose, j ≠ i → w.links.prev j = j ∧ w.links.next j = j
  loose_iff : ∀ j, j ≠ i →
    (j ∈ loose ↔ w.ArmedNode j ∧ busy = some ⟨j, (w.nodes j).generation⟩)
  spent : ∀ h, busy = some h → h.generation ≤ (w.nodes h.id).generation
    ∨ (w.nodes h.id).generation = 0 ∧ h.id ∉ frees
  timers_eq : m = w.timers due

/-- The armed nodes in no list are that of the timer `busy`, linked to itself, and those of `out`,
whatever their links. -/
structure Aside (w : Wheel c P) (lists : ℕ → List ℕ) (frees : List ℕ) (loose : Set ℕ)
    (busy : Option ExpiryHandle) (out : Set ℕ) : Prop where
  wf : WF w lists frees loose
  out_subset : out ⊆ loose
  selfLinked : ∀ j ∈ loose, j ∉ out → w.links.prev j = j ∧ w.links.next j = j
  loose_iff : ∀ j, j ∉ out →
    (j ∈ loose ↔ w.ArmedNode j ∧ busy = some ⟨j, (w.nodes j).generation⟩)

theorem Holds.aside (H : Holds w lists frees loose due T m busy) :
  Aside w lists frees loose busy ∅
  := ⟨H.wf, Set.empty_subset _, fun j hj _ => H.selfLinked j hj, fun j _ => H.loose_iff j⟩

theorem Detached.aside (D : Detached w lists frees loose due T m busy i) :
  Aside w lists frees loose busy {i}
  := ⟨D.wf, Set.singleton_subset_iff.mpr D.mem, D.selfLinked, D.loose_iff⟩

/-- A node is being delivered when it is in no list. -/
theorem Aside.delivering_iff (A : Aside w lists frees loose busy ∅) (hi : w.ArmedNode i) :
  w.delivering i = true ↔ i ∈ loose
  := by
  rw [delivering, beq_iff_eq]
  constructor
  · intro e
    rcases A.wf.cover i hi with hl | ⟨h, hh, hm⟩
    · apply hl
    · exact absurd e ((A.wf.loops.loop h hh).prev_ne_self hm)
  intro hl
  apply (A.selfLinked i hl (Set.notMem_empty i)).1

theorem Aside.holds (A : Aside w lists frees loose busy ∅) (timed : Timed w lists T due)
    (hspent : ∀ h, busy = some h → h.generation ≤ (w.nodes h.id).generation
      ∨ (w.nodes h.id).generation = 0 ∧ h.id ∉ frees) (hm : m = w.timers due) :
  Holds w lists frees loose due T m busy
  := ⟨A.wf, timed, fun j hj => A.selfLinked j hj (Set.notMem_empty j),
    fun j => A.loose_iff j (Set.notMem_empty j), hspent, hm⟩

theorem Aside.detached (A : Aside w lists frees loose busy {i}) (timed : Timed w lists T due)
    (hspent : ∀ h, busy = some h → h.generation ≤ (w.nodes h.id).generation
      ∨ (w.nodes h.id).generation = 0 ∧ h.id ∉ frees) (hm : m = w.timers due) :
  Detached w lists frees loose due T m busy i
  := ⟨A.wf, timed, A.out_subset rfl, A.selfLinked, A.loose_iff, hspent, hm⟩

theorem Aside.congr (A : Aside w lists frees loose busy out) (wf : WF w' lists frees loose)
    (hlinks : w'.links = w.links) (hgen : ∀ j, (w'.nodes j).generation = (w.nodes j).generation)
    (hcap : w'.capacity = w.capacity) :
  Aside w' lists frees loose busy out
  := by
  refine ⟨wf, A.out_subset, hlinks ▸ A.selfLinked, ?_⟩
  intro j hj
  rw [ArmedNode, hgen, hcap]
  apply A.loose_iff j hj

/-- A node is taken out of its place, to be put into another. -/
theorem Aside.pick (A : Aside w lists frees loose busy ∅) (hi : w.ArmedNode i) :
  ∃ lists', Aside (w.unlink i) lists' frees (insert i loose) busy {i}
    ∧ ∀ h < c.kFirst, lists' h = (lists h).erase i
  := by
  obtain ⟨lists', wf', herase, hlk⟩ :=
    A.wf.detach (fun j hj => A.selfLinked j hj (Set.notMem_empty j)) hi
  have k := kept_unlink w i
  refine ⟨lists', ⟨wf', by simp, ?_, ?_⟩, herase⟩
  · intro j hj hne
    have hj' := hj.resolve_left hne
    obtain ⟨h₁, h₂⟩ := hlk j hj' hne
    rw [h₁, h₂]
    apply A.selfLinked j hj' (Set.notMem_empty j)
  intro j hne
  rw [k.armedNode_iff, k.generation, ← A.loose_iff j (Set.notMem_empty j)]
  exact or_iff_right hne

/-- A node taken out is placed, unless it is the one being delivered. -/
theorem Aside.place (A : Aside w lists frees loose busy {i})
    (hb : busy ≠ some ⟨i, (w.nodes i).generation⟩)
    (wf : WF (w.place i) lists' frees (loose \ {i})) (hlk : LooseKept w (w.place i) loose i) :
  Aside (w.place i) lists' frees (loose \ {i}) busy ∅
  := by
  have k := kept_place w i
  refine ⟨wf, Set.empty_subset _, ?_, ?_⟩
  · rintro j ⟨hj, hne⟩ -
    obtain ⟨h₁, h₂⟩ := hlk j hj hne
    rw [h₁, h₂]
    apply A.selfLinked j hj hne
  intro j _
  rw [k.armedNode_iff, k.generation]
  by_cases e : j = i
  · subst e
    simp [hb]
  rw [← A.loose_iff j e]
  simp [e]

theorem not_armedNode_free (w : Wheel c P) (hi : w.ArmedNode i) : ¬ (w.free i).ArmedNode i := by
  intro h
  have := generation_free_self w i
  have := hi.2.2
  have := h.2.2
  omega

theorem Aside.free (A : Aside w lists frees loose busy {i}) :
  Aside (w.free i) lists (if ((w.nodes i).generation + 1) % 2 ^ 32 = 0 then frees else i :: frees)
    (loose \ {i}) busy ∅
  := by
  have hi : i ∈ loose := A.out_subset rfl
  refine ⟨A.wf.free_eq hi, Set.empty_subset _, ?_, ?_⟩
  · rintro j ⟨hj, hne⟩ -
    change ((w.free i).nodes j).prev = j ∧ ((w.free i).nodes j).next = j
    rw [nodes_free_of_ne w hne]
    apply A.selfLinked j hj hne
  intro j _
  by_cases e : j = i
  · subst e
    simp [not_armedNode_free w (A.wf.armed_of_loose j hi)]
  rw [ArmedNode, nodes_free_of_ne w e, free_capacity, ← ArmedNode, ← A.loose_iff j e]
  simp [e]

/-- A node taken out is linked to itself: its timer is being delivered. -/
theorem Aside.fire (A : Aside w lists frees loose none {i}) :
  Aside ((w.setPrev i i).setNext i i) lists frees loose (some ⟨i, (w.nodes i).generation⟩) ∅
  := by
  have k : Kept w ((w.setPrev i i).setNext i i) := (kept_setPrev w i i).trans (kept_setNext _ i i)
  have hi : i ∈ loose := A.out_subset rfl
  have hlinks : ((w.setPrev i i).setNext i i).links
      = ⟨update w.links.prev i i, update w.links.next i i⟩ := by
    rw [links_setNext, links_setPrev]
  have hloose : ∀ j ∈ loose, j = i := by
    intro j hj
    by_contra hne
    have := ((A.loose_iff j hne).mp hj).2
    simp at this
  constructor
  case wf =>
    refine A.wf.congr ?_ k.generation k.capacity k.shift k.freeHead rfl
    intro j hj
    have hne : j ≠ i := fun e => hj (e ▸ hi)
    rw [hlinks]
    exact ⟨update_of_ne hne _ _, update_of_ne hne _ _⟩
  case out_subset => apply Set.empty_subset
  case selfLinked =>
    intro j hj _
    rw [hlinks, hloose j hj]
    exact ⟨update_self .., update_self ..⟩
  case loose_iff =>
  intro j _
  rw [k.armedNode_iff, k.generation]
  constructor
  · intro hj
    refine ⟨A.wf.armed_of_loose j hj, ?_⟩
    rw [hloose j hj]
  rintro ⟨-, e⟩
  have : i = j := congrArg ExpiryHandle.id (Option.some.inj e)
  rwa [← this]

/-- The callback returned, and the node of its timer is still the one being delivered. -/
theorem Aside.release (A : Aside w lists frees loose (some h) ∅) (hl : h.id ∈ loose) :
  Aside w lists frees loose none {h.id}
  := by
  refine ⟨A.wf, Set.singleton_subset_iff.mpr hl,
    fun j hj _ => A.selfLinked j hj (Set.notMem_empty j), ?_⟩
  intro j hne
  constructor
  · intro hj
    have := ((A.loose_iff j (Set.notMem_empty j)).mp hj).2
    exact absurd (congrArg ExpiryHandle.id (Option.some.inj this)).symm hne
  rintro ⟨-, e⟩
  cases e

/-- The callback returned, and its timer is gone. -/
theorem Aside.finish (A : Aside w lists frees loose (some h) ∅)
    (hg : (w.nodes h.id).generation ≠ h.generation) :
  Aside w lists frees loose none ∅
  := by
  refine ⟨A.wf, A.out_subset, A.selfLinked, ?_⟩
  intro j hj
  constructor
  · intro hl
    have e := Option.some.inj ((A.loose_iff j hj).mp hl).2
    exact absurd (by rw [e]) hg
  rintro ⟨-, e⟩
  cases e

/-- The first free node is armed, and is in no list yet. -/
theorem Aside.arm (A : Aside w lists (i :: frees) loose busy ∅)
    (d : c.Tick) (p : P) :
  Aside (w.arm i d p) lists frees (insert i loose) busy {i}
  := by
  have hother := (nodes_arm A.wf d p).1
  refine ⟨A.wf.arm d p, by simp, ?_, ?_⟩
  · intro j hj hne
    have hlinks := A.selfLinked j (hj.resolve_left hne) (Set.notMem_empty j)
    simp only [links] at hlinks ⊢
    rwa [hother j hne]
  intro j hne
  rw [ArmedNode, hother j hne]
  exact (or_iff_right hne).trans (A.loose_iff j (Set.notMem_empty j))

/-- A wheel whose stack of free nodes is not empty. -/
theorem WF.exists_free (wf : WF w lists frees loose) (hfull : w.freeHead ≠ kNil) :
  ∃ rest, frees = w.freeHead :: rest
  := by
  have hst := wf.stack
  cases frees with
  | nil => exact absurd hst hfull
  | cons x rest => exact ⟨rest, by rw [hst.1]⟩

end Asides

/-! ### Calls -/

theorem timers_kept (k : Kept w w') (due : ℕ → ℤ) :
  w'.timers due = w.timers due
  := by
  funext h
  apply timers_congr (k.generation _) k.capacity (k.payload _) rfl

section

variable (w : Wheel c P) (i : ℕ) (p : P) (d : c.Tick)

/-- A node with another payload and another deadline. -/
def amend : Wheel c P :=
  (w.setPayload i p).setDeadline i d

theorem links_amend : (w.amend i p d).links = w.links := by
  rw [amend, links_setDeadline, links_setPayload]

theorem generation_amend (j : ℕ) :
  ((w.amend i p d).nodes j).generation = (w.nodes j).generation
  := by
  rw [amend, (framed_setDeadline _ i d).generation, generation_setPayload]

end

theorem WF.amend (wf : WF w lists frees loose) (i : ℕ) (p : P) (d : c.Tick) :
  WF (w.amend i p d) lists frees loose
  := (wf.setPayload i p).setDeadline i d

/-- The armed timer of the node has the payload and the deadline it was given. -/
theorem timers_amend (hi : w.ArmedNode i) (p : P) :
  (w.amend i p (tick c d)).timers (update due i d)
    = update (w.timers due) ⟨i, (w.nodes i).generation⟩ (some (d, p))
  := by
  have hgen := generation_amend w i p (tick c d)
  have hcap : (w.amend i p (tick c d)).capacity = w.capacity := rfl
  rw [timers_update due _ ⟨i, (w.nodes i).generation⟩ hcap _ (fun _ => rfl) (fun _ => hgen i)]
  · congr 1
    rw [timers_of_resolves]
    · simp [amend, setPayload, setDeadline]
    rw [resolves_iff, ArmedNode, hgen]
    exact ⟨hi, rfl⟩
  intro j hj
  simp [amend, setPayload, setDeadline, hj]

/-- A node is given a payload and a deadline, and taken out of its list or left in it if the slot
is reached in time. -/
theorem Timed.amend {p : P} (timed : Timed w lists T due)
    (k : Kept (w.amend i p (tick c d)) w') (hd : Near c w.shift T d)
    (hsub : ∀ h < c.kFirst, ∀ j ∈ lists' h, j ∈ lists h ∧ (j = i → due i ≤ d)) :
  Timed w' lists' T (update due i d)
  := by
  apply timed.setDue k.cur k.shift _ hd _ hsub
  · rw [k.deadline, Wheel.amend, deadline_setDeadline_self]
  intro j hj
  rw [k.armedNode_iff, k.deadline, ArmedNode, generation_amend, Wheel.amend]
  refine ⟨id, ?_⟩
  simp [setDeadline, setPayload, hj]

section

variable (H : Holds w lists frees loose due T m busy)

include H

variable (hi : w.ArmedNode i)

include hi

/-- The timer of a node is given a payload and a later deadline. -/
theorem Holds.amend (hd : Near c w.shift T d) (hle : due i ≤ d) (p : P) :
  Holds (w.amend i p (tick c d)) lists frees loose (update due i d) T
    (update m ⟨i, (w.nodes i).generation⟩ (some (d, p))) busy
  := by
  have hgen := generation_amend w i p (tick c d)
  have A := H.aside.congr (H.wf.amend i p (tick c d)) (links_amend w i p (tick c d)) hgen rfl
  apply A.holds
  case timed => apply H.timed.amend (Kept.refl _) hd fun _ _ _ hj => ⟨hj, fun _ => hle⟩
  case hspent =>
    intro h hb
    rw [hgen]
    apply H.spent h hb
  case hm => rw [timers_amend hi, H.timers_eq]

/-- The node of a timer is given a payload and a deadline and taken out of its list. -/
theorem Holds.detachAmend (hd : Near c w.shift T d) (p : P) :
  ∃ lists', Detached ((w.amend i p (tick c d)).unlink i) lists' frees (insert i loose)
      (update due i d) T (update m ⟨i, (w.nodes i).generation⟩ (some (d, p))) busy i
    ∧ ∀ h < c.kFirst, ∀ j ∈ lists' h, j ∈ lists h
  := by
  have hgen := generation_amend w i p (tick c d)
  have A := H.aside.congr (H.wf.amend i p (tick c d)) (links_amend w i p (tick c d)) hgen rfl
  obtain ⟨lists', A', herase⟩ := A.pick (by rw [ArmedNode, hgen]; apply hi)
  have hsub : ∀ h < c.kFirst, ∀ j ∈ lists' h, j ∈ lists h := fun h hh j hj =>
    mem_of_mem_erase (herase h hh ▸ hj)
  have k := kept_unlink (w.amend i p (tick c d)) i
  refine ⟨lists', ?_, hsub⟩
  apply A'.detached
  case timed =>
    apply H.timed.amend k hd
    intro h hh j hj
    refine ⟨hsub h hh j hj, ?_⟩
    rintro rfl
    exact absurd hj (A'.wf.loose_apart j (Set.mem_insert _ _) h hh)
  case hspent =>
    intro h hb
    rw [k.generation, hgen]
    apply H.spent h hb
  case hm => rw [timers_kept k, timers_amend hi, H.timers_eq]

theorem Holds.detach :
  ∃ lists', Detached (w.unlink i) lists' frees (insert i loose) due T m busy i
    ∧ ∀ h < c.kFirst, ∀ j ∈ lists' h, j ∈ lists h
  := by
  obtain ⟨lists', D, hsub⟩ := H.detachAmend hi (H.timed.near i hi) (w.nodes i).payload
  have hsame : w.amend i (w.nodes i).payload (tick c (due i)) = w := by
    rw [Wheel.amend, tick, ← H.timed.deadline_eq i hi, setPayload, update_eq_self, setDeadline,
      update_eq_self]
  have hm : m ⟨i, (w.nodes i).generation⟩ = some (due i, (w.nodes i).payload) := by
    rw [H.timers_eq, timers_of_resolves hi.resolves]
  rw [hsame, update_eq_self, update_eq_self_iff.mpr hm.symm] at D
  exact ⟨lists', D, hsub⟩

end

section

variable (D : Detached w lists frees loose due T m busy i)

include D

/-- The node of a timer that is in no list is given a deadline. -/
theorem Detached.setDeadline (hd : Near c w.shift T d) :
  Detached (w.setDeadline i (tick c d)) lists frees loose (update due i d) T
    (update m ⟨i, (w.nodes i).generation⟩ (some (d, (w.nodes i).payload))) busy i
  := by
  have hsame : w.setDeadline i (tick c d) = w.amend i (w.nodes i).payload (tick c d) := by
    rw [Wheel.amend, setPayload, update_eq_self]
  have hgen := generation_amend w i (w.nodes i).payload (tick c d)
  have A := D.aside.congr (D.wf.amend i _ (tick c d)) (links_amend w i _ (tick c d)) hgen rfl
  rw [hsame]
  apply A.detached
  case timed =>
    apply D.timed.amend (Kept.refl _) hd
    intro h hh j hj
    refine ⟨hj, ?_⟩
    rintro rfl
    exact absurd hj (D.wf.loose_apart j D.mem h hh)
  case hspent =>
    intro h hb
    rw [hgen]
    apply D.spent h hb
  case hm => rw [timers_amend (D.wf.armed_of_loose i D.mem), D.timers_eq]

/-- Placing a detached node of a timer that is not being delivered. -/
theorem Detached.place (hb : busy ≠ some ⟨i, (w.nodes i).generation⟩) :
  Sound (w.place i) T m busy
  := by
  obtain ⟨lists', wf', timed', hlk⟩ := D.wf.place D.timed D.mem
  have k := kept_place w i
  refine ⟨lists', frees, loose \ {i}, due, ?_⟩
  apply (D.aside.place hb wf' hlk).holds timed'
  case hspent =>
    intro h hbusy
    rw [k.generation]
    apply D.spent h hbusy
  case hm => rw [timers_kept k, D.timers_eq]

/-- Disarming a detached node takes its timer away. -/
theorem Detached.free :
  Sound (w.free i) T (update m ⟨i, (w.nodes i).generation⟩ none) busy
  := by
  have harm := D.wf.armed_of_loose i D.mem
  have hlt := D.wf.generation_lt i
  have hodd := harm.2.2
  have hfi : i ∉ frees := fun hm => D.wf.free_ne_armed hm harm rfl
  have hself := generation_free_self w i
  have hother : ∀ {j}, j ≠ i → (w.free i).nodes j = w.nodes j := nodes_free_of_ne w
  have hdis := not_armedNode_free w harm
  refine ⟨_, _, _, due, D.aside.free.holds ?timed ?hspent ?hm⟩
  case timed =>
    apply D.timed.transfer (free_cur w i) (free_shift w i)
    · intro j hj
      left
      have hne : j ≠ i := by
        rintro rfl
        apply hdis hj
      rw [ArmedNode, hother hne, free_capacity] at hj
      rw [hother hne]
      exact ⟨hj, rfl, rfl⟩
    intro level _ slot _ j hj
    left
    exact ⟨hj, le_rfl⟩
  case hspent =>
    intro h hb
    have old := D.spent h hb
    by_cases e : h.id = i
    · rw [e] at old ⊢
      rw [hself]
      -- The generation grows, or it wraps and the node is not used again.
      by_cases hwrap : ((w.nodes i).generation + 1) % 2 ^ 32 = 0
      · right
        rw [if_pos hwrap]
        exact ⟨hwrap, hfi⟩
      left
      omega
    rw [hother e]
    apply old.imp_right
    rintro ⟨h₀, hm⟩
    use h₀
    split
    · apply hm
    · simp [e, hm]
  case hm =>
  rw [timers_update due due ⟨i, (w.nodes i).generation⟩ (free_capacity w i) _ (fun _ => rfl)
    (fun h => absurd h hdis), ← D.timers_eq]
  · congr 1
    symm
    apply timers_eq_none
    by_contra hc
    apply hdis ((resolves_iff _ _).mp (by simpa using hc)).1
  intro j hj
  rw [hother hj]
  exact ⟨rfl, rfl, rfl⟩

end

/-! ### The calls -/

/-- A handle is refused when it names no timer or the one being delivered. -/
theorem Holds.refused_iff (H : Holds w lists frees loose due T m busy) (h : ExpiryHandle) :
  (!w.resolves h || w.delivering h.id) = true ↔ m h = none ∨ busy = some h
  := by
  rw [H.timers_eq]
  cases hr : w.resolves h with
  | false => simp [timers_eq_none hr]
  | true =>
  obtain ⟨ha, hg⟩ := (resolves_iff w h).mp hr
  rw [timers_of_resolves hr, Bool.not_true, Bool.false_or, H.aside.delivering_iff ha, H.loose_iff]
  have e : (⟨h.id, (w.nodes h.id).generation⟩ : ExpiryHandle) = h := by rw [hg]
  rw [e]
  simp [ha]

/-- Giving an armed timer that is not being delivered a payload and a deadline. -/
theorem Holds.replace (H : Holds w lists frees loose due T m busy) (ht : m h = some t)
    (hb : busy ≠ some h) (hadm : Movable c w.shift T m h d) (p : P) :
  Sound ((w.setPayload h.id p).moveTo h.id (tick c d)) T (update m h (some (d, p))) busy
    ∧ Fixed w ((w.setPayload h.id p).moveTo h.id (tick c d))
  := by
  obtain ⟨ha, hg, rfl⟩ := H.armed_of_handle ht
  obtain ⟨hnear, hback⟩ := hadm _ ht
  have hh : (⟨h.id, (w.nodes h.id).generation⟩ : ExpiryHandle) = h := by rw [hg]
  have hdl : ((w.setPayload h.id p).nodes h.id).deadline = (w.nodes h.id).deadline := by
    simp [setPayload]
  rw [moveTo, hdl]
  split
  case isFalse =>
    obtain ⟨lists', D, -⟩ := H.detachAmend ha hnear p
    have k := (kept_unlink (w.amend h.id p (tick c d)) h.id).trans (kept_place _ h.id)
    rw [hh] at D
    refine ⟨D.place ?_, k.shift, k.capacity⟩
    rwa [(kept_unlink _ _).generation, generation_amend, hh]
  case isTrue hlater =>
  have hle : due h.id ≤ d := by
    by_contra hc
    rw [diff, H.timed.deadline_eq _ ha, toInt_sub_ofInt c.digits_pos hback (by omega)] at hlater
    omega
  have H' := H.amend ha hnear hle p
  rw [hh] at H'
  exact ⟨⟨_, _, _, _, H'⟩, rfl, rfl⟩

theorem Sound.reschedule (S : Sound w T m busy) (hadm : Movable c w.shift T m h d) (p : P)
    (a : Answer) :
  Sound (w.reschedule h (tick c d) p).1 T (m.exec busy (.reschedule h d p) a) busy
    ∧ (w.reschedule h (tick c d) p).2 = ((m h).isSome && busy ≠ some h)
    ∧ Fixed w (w.reschedule h (tick c d) p).1
  := by
  obtain ⟨lists, frees, loose, due, H⟩ := S
  rw [Wheel.reschedule, Timers.exec]
  by_cases hr : (!w.resolves h || w.delivering h.id) = true
  · rw [if_pos hr]
    have hrefused := (H.refused_iff h).mp hr
    refine ⟨⟨lists, frees, loose, due, ?_⟩, ?_, rfl, rfl⟩
    · split
      case isTrue => apply H
      case isFalse hb =>
      have hm := hrefused.resolve_right hb
      rwa [hm, update_eq_self_iff.mpr hm.symm]
    · rcases hrefused with e | e <;> simp [e]
  rw [if_neg hr]
  obtain ⟨hm, hb⟩ := not_or.mp ((H.refused_iff h).not.mp hr)
  obtain ⟨t, ht⟩ := Option.ne_none_iff_exists'.mp hm
  obtain ⟨S', hs⟩ := H.replace ht hb hadm p
  refine ⟨?_, ?_, hs⟩
  · rw [if_neg hb, ht]
    apply S'
  · simp [ht, hb]

/-- A refresh is a reschedule with the payload the timer has. -/
theorem refresh_eq_reschedule (w : Wheel c P) (h : ExpiryHandle) (d : c.Tick) :
  w.refresh h d = w.reschedule h d (w.nodes h.id).payload
  := by
  rw [refresh, reschedule, setPayload, update_eq_self]

theorem Sound.refresh (S : Sound w T m busy) (hadm : Movable c w.shift T m h d) (a : Answer) :
  Sound (w.refresh h (tick c d)).1 T (m.exec busy (.refresh h d) a) busy
    ∧ (w.refresh h (tick c d)).2 = ((m h).isSome && busy ≠ some h)
    ∧ Fixed w (w.refresh h (tick c d)).1
  := by
  obtain ⟨lists, frees, loose, due, H⟩ := id S
  have hexec : m.exec busy (.refresh h d) a
      = m.exec busy (.reschedule h d (w.nodes h.id).payload) a := by
    rw [Timers.exec, Timers.exec]
    cases ht : m h with
    | none => rfl
    | some t =>
    obtain ⟨-, -, rfl⟩ := H.armed_of_handle ht
    rfl
  rw [refresh_eq_reschedule, hexec]
  apply S.reschedule hadm

theorem Sound.cancel (S : Sound w T m busy) (h : ExpiryHandle) (a : Answer) :
  Sound (w.cancel h).1 T (m.exec busy (.cancel h) a) busy ∧ (w.cancel h).2 = (m h).isSome
    ∧ Fixed w (w.cancel h).1
  := by
  obtain ⟨lists, frees, loose, due, H⟩ := S
  rw [Wheel.cancel, Timers.exec]
  cases hr : w.resolves h with
  | false =>
    have hm : m h = none := by rw [H.timers_eq, timers_eq_none hr]
    rw [hm, update_eq_self_iff.mpr hm.symm]
    exact ⟨⟨lists, frees, loose, due, H⟩, rfl, rfl, rfl⟩
  | true =>
  obtain ⟨ha, hg⟩ := (resolves_iff w h).mp hr
  obtain ⟨lists', D, -⟩ := H.detach ha
  have k := kept_unlink w h.id
  have S' := D.free
  rw [k.generation, hg] at S'
  refine ⟨S', ?_, (free_shift _ _).trans k.shift, (free_capacity _ _).trans k.capacity⟩
  rw [H.timers_eq, isSome_timers, hr]
  rfl

theorem ne_kNoExpiry (hlo : c.kFirst ≤ i) (generation : ℕ) :
  (⟨i, generation⟩ : ExpiryHandle) ≠ kNoExpiry
  := by
  intro e
  have : i = 0 := congrArg ExpiryHandle.id e
  rw [Shape.kFirst] at hlo
  omega

/-- A new timer: the first free node is armed and placed. -/
theorem Sound.schedule (S : Sound w T m busy) (hd : Near c w.shift T d) (p : P) :
  Sound (w.schedule (tick c d) p).1 T
      (m.exec busy (.schedule d p) (.handle (w.schedule (tick c d) p).2)) busy
    ∧ m.Answers busy (.schedule d p) (.handle (w.schedule (tick c d) p).2)
    ∧ Fixed w (w.schedule (tick c d) p).1
  := by
  obtain ⟨lists, frees, loose, due, H⟩ := S
  rw [Wheel.schedule]
  by_cases hfull : w.freeHead = kNil
  · rw [if_pos hfull]
    refine ⟨?_, .inl rfl, rfl, rfl⟩
    exact ⟨lists, frees, loose, due, H⟩
  rw [if_neg hfull]
  obtain ⟨rest, hrest⟩ := H.wf.exists_free hfull
  set i := w.freeHead with hi
  have A := H.aside
  rw [hrest] at A
  obtain ⟨hlo, hhi, heven⟩ := A.wf.free_of_mem i mem_cons_self
  obtain ⟨hother, hgen, hdl, hpay⟩ := nodes_arm A.wf (tick c d) p
  set w₁ := w.arm i (tick c d) p
  have hunarmed : ¬ w.ArmedNode i := fun h => by
    have := h.2.2
    omega
  have hspent : ∀ h, busy = some h → h.id = i → h.generation ≤ (w.nodes i).generation := by
    intro h hb e
    rcases H.spent h hb with hle | ⟨-, hm⟩
    · rwa [e] at hle
    rw [e, hrest] at hm
    exact absurd mem_cons_self hm
  have D : Detached w₁ lists rest (insert i loose) (update due i d) T
      (w₁.timers (update due i d)) busy i := by
    apply (A.arm (tick c d) p).detached _ _ rfl
    · refine H.timed.setDue ?_ ?_ hdl hd ?_ ?_
      · rfl
      · rfl
      · intro j hj
        rw [ArmedNode, hother j hj]
        exact ⟨id, rfl⟩
      intro h hh j hj
      refine ⟨hj, ?_⟩
      rintro rfl
      exact absurd (mem_cons_of_mem _ hj) (A.wf.free_not_mem mem_cons_self hh)
    intro h hb
    by_cases e : h.id = i
    · left
      have := hspent h hb e
      rw [e]
      change _ ≤ (w₁.nodes i).generation
      omega
    rw [hother _ e]
    apply (H.spent h hb).imp_right
    rw [hrest]
    rintro ⟨h₀, hm⟩
    exact ⟨h₀, fun hm' => hm (mem_cons_of_mem _ hm')⟩
  have hnew : busy ≠ some ⟨i, (w₁.nodes i).generation⟩ := by
    intro hb
    have hle : (w₁.nodes i).generation ≤ (w.nodes i).generation := hspent _ hb rfl
    omega
  have k := kept_place w₁ i
  have htimers : w₁.timers (update due i d)
      = update m ⟨i, (w₁.nodes i).generation⟩ (some (d, p)) := by
    have hcap : w₁.capacity = w.capacity := rfl
    rw [timers_update due _ ⟨i, (w₁.nodes i).generation⟩ hcap _ (fun h => absurd h hunarmed)
      (fun _ => rfl), ← H.timers_eq]
    · congr 1
      rw [timers_of_resolves, update_self, hpay]
      apply (resolves_iff _ _).mpr
      refine ⟨⟨hlo, hhi, ?_⟩, rfl⟩
      change (w₁.nodes i).generation % 2 = 1
      omega
    intro j hj
    rw [hother j hj]
    exact ⟨rfl, rfl, update_of_ne hj _ _⟩
  have hne := ne_kNoExpiry hlo ((w₁.place i).nodes i).generation
  refine ⟨?_, .inr ⟨_, rfl, hne, ?_⟩, k.shift, k.capacity⟩
  · change Sound (w₁.place i) T (if (⟨i, ((w₁.place i).nodes i).generation⟩ : ExpiryHandle)
      = kNoExpiry then m else update m ⟨i, ((w₁.place i).nodes i).generation⟩ (some (d, p))) busy
    rw [if_neg hne, k.generation, ← htimers]
    apply D.place hnew
  rw [H.timers_eq]
  apply timers_eq_none
  by_contra hc
  apply hunarmed ((resolves_iff _ _).mp (by simpa using hc)).1

/-- Every call keeps what the wheel holds, and answers as it should. -/
theorem Sound.exec (S : Sound w T m busy) {call : Call ℤ P} (hadm : call.Admitted c w.shift T m) :
  Sound (w.exec (call.map (tick c))).1 T (m.exec busy call (w.exec (call.map (tick c))).2) busy
    ∧ m.Answers busy call (w.exec (call.map (tick c))).2
    ∧ Fixed w (w.exec (call.map (tick c))).1
  := by
  cases call with
  | schedule d p => apply S.schedule hadm p
  | refresh h d =>
    obtain ⟨S', ha, hs⟩ := S.refresh hadm (.flag (w.refresh h (tick c d)).2)
    exact ⟨S', congrArg Answer.flag ha, hs⟩
  | reschedule h d p =>
    obtain ⟨S', ha, hs⟩ := S.reschedule hadm p (.flag (w.reschedule h (tick c d) p).2)
    exact ⟨S', congrArg Answer.flag ha, hs⟩
  | cancel h =>
  obtain ⟨S', ha, hs⟩ := S.cancel h (.flag (w.cancel h).2)
  exact ⟨S', congrArg Answer.flag ha, hs⟩

end Wheel

end Expiry
