import Bess.Expiry.Wheel

/-!
# The invariant of the wheel

`Wheel.WF w lists frees loose` says that the nodes of `w` hold, for each head, the circular
list `lists`, a free list `frees`, and the armed nodes `loose` that are in no list, and that
the occupancy words tell the slots that are not empty.

`Wheel.Timed w lists T due` reads the ticks of a wheel as times: the wheel time is `T`, the
timer of the node `i` is due at `due i`, and a timer in a slot is looked at no later than its
deadline rounded up to the granularity.
-/

namespace Expiry

open Function List Serial

/-! ### Shapes -/

namespace Shape

variable (c : Shape)

theorem kSlots_pos : 0 < c.kSlots := Nat.two_pow_pos _

theorem kSlots_le : c.kSlots ≤ 64 :=
  Nat.pow_le_pow_right (show 0 < 2 by omega) c.levelBits_le

theorem one_lt_kSlots : 1 < c.kSlots := by
  have := Nat.pow_le_pow_right (show 0 < 2 by omega) c.one_le_levelBits
  rw [kSlots]
  omega

theorem kSlotMask_add_one : c.kSlotMask + 1 = c.kSlots := by
  have := c.kSlots_pos
  rw [kSlotMask]
  omega

theorem digits_pos : 0 < c.digits := by
  have := c.span_lt
  omega

variable {level head slot : ℕ}

theorem slotHead_lt (hl : level < c.levels) (hs : slot < c.kSlots) :
  level * c.kSlots + slot < c.kWheelNodes
  := by
  have : (level + 1) * c.kSlots ≤ c.levels * c.kSlots := Nat.mul_le_mul_right _ hl
  rw [kWheelNodes]
  rw [Nat.add_mul] at this
  omega

theorem lt_kFirst {h : ℕ} (hh : h < c.kWheelNodes) : h < c.kFirst := by
  rw [kFirst]
  omega

theorem kReady_lt : c.kReady < c.kFirst := by
  rw [kReady, kFirst]
  omega

theorem kMoving_lt : c.kMoving < c.kFirst := by
  rw [kMoving, kFirst]
  omega

theorem slotHead_div (hs : slot < c.kSlots) :
  (level * c.kSlots + slot) / c.kSlots = level
  := by
  rw [Nat.add_comm, Nat.add_mul_div_right _ _ c.kSlots_pos, Nat.div_eq_of_lt hs, Nat.zero_add]

theorem slotHead_mod (hs : slot < c.kSlots) :
  (level * c.kSlots + slot) % c.kSlots = slot
  := by
  rw [Nat.add_comm, Nat.add_mul_mod_self_right, Nat.mod_eq_of_lt hs]

/-- A head of a slot is the head of the slot at its level and position. -/
theorem slotHead_eq (head : ℕ) :
  head / c.kSlots * c.kSlots + head % c.kSlots = head
  := Nat.div_add_mod' head c.kSlots

theorem level_lt_of_head (h : head < c.kWheelNodes) :
  head / c.kSlots < c.levels
  := Nat.div_lt_of_lt_mul (by rw [Nat.mul_comm]; apply h)

/-- The level and the position of the head of a slot. -/
theorem slotHead_iff (hs : slot < c.kSlots) :
  level * c.kSlots + slot = head ↔ level = head / c.kSlots ∧ slot = head % c.kSlots
  := by
  constructor
  · rintro rfl
    rw [c.slotHead_div hs, c.slotHead_mod hs]
    exact ⟨rfl, rfl⟩
  rintro ⟨rfl, rfl⟩
  apply c.slotHead_eq

end Shape

/-! ### Occupancy words -/

variable {k j : ℕ}

theorem getLsbD_one_shiftLeft (hk : k < 64) :
  (1#64 <<< k).getLsbD j = decide (j = k)
  := by
  by_cases h : j = k
  · subst h; simp [hk]
  · simp [h]; omega

theorem getLsbD_setBit (x : BitVec 64) (hk : k < 64) (j : ℕ) :
  (x ||| 1#64 <<< k).getLsbD j = (x.getLsbD j || decide (j = k))
  := by
  rw [BitVec.getLsbD_or, getLsbD_one_shiftLeft hk]

theorem getLsbD_clearBit (x : BitVec 64) (hk : k < 64) (j : ℕ) :
  (x &&& ~~~(1#64 <<< k)).getLsbD j = (x.getLsbD j && !decide (j = k))
  := by
  rw [BitVec.getLsbD_and, BitVec.getLsbD_not, getLsbD_one_shiftLeft hk]
  by_cases h : j < 64
  · simp [h]
  · simp [BitVec.getLsbD_of_ge x j (by omega)]

/-! ### Structure -/

/-- The nodes linked by `next` from `head` down to the end of the free list are `xs`. -/
def Stack (next : ℕ → ℕ) : ℕ → List ℕ → Prop
  | head, [] => head = kNil
  | head, x :: xs => head = x ∧ Stack next (next x) xs

theorem Stack.congr {next next' : ℕ → ℕ} :
    ∀ {head : ℕ} {xs : List ℕ}, Stack next head xs → (∀ x ∈ xs, next' x = next x) →
      Stack next' head xs
  | _, [], h, _ => h
  | _, x :: xs, ⟨hx, h⟩, e => by
    use hx
    rw [e x mem_cons_self]
    apply Stack.congr h
    intro y hy
    apply e y (mem_cons_of_mem _ hy)

variable {c : Shape} {P : Type}

namespace Wheel

/-- The link fields of the nodes. -/
def links (w : Wheel c P) : Links ℕ where
  prev i := (w.nodes i).prev
  next i := (w.nodes i).next

/-- The node is a timer that is armed: its generation is odd. -/
def ArmedNode (w : Wheel c P) (i : ℕ) : Prop :=
  c.kFirst ≤ i ∧ i < c.kFirst + w.capacity ∧ (w.nodes i).generation % 2 = 1

/-- The heads of the lists: the slots, the due list and the moving list. -/
def heads (c : Shape) : Set ℕ := { h | h < c.kFirst }

/-- The lists of the wheel are `lists`, its free nodes `frees`, and the armed nodes in no
list `loose`. -/
structure WF (w : Wheel c P) (lists : ℕ → List ℕ) (frees : List ℕ) (loose : Set ℕ) : Prop where
  loops : w.links.Loops (heads c) lists
  stack : Stack w.links.next w.freeHead frees
  frees_nodup : frees.Nodup
  armed_of_mem : ∀ h < c.kFirst, ∀ i ∈ lists h, w.ArmedNode i
  free_of_mem : ∀ i ∈ frees, c.kFirst ≤ i ∧ i < c.kFirst + w.capacity ∧ (w.nodes i).generation % 2 = 0
  cover : ∀ i, w.ArmedNode i → i ∈ loose ∨ ∃ h < c.kFirst, i ∈ lists h
  armed_of_loose : ∀ i ∈ loose, w.ArmedNode i
  loose_apart : ∀ i ∈ loose, ∀ h < c.kFirst, i ∉ lists h
  generation_lt : ∀ i, (w.nodes i).generation < 2 ^ 32
  occupied_iff : ∀ level < c.levels, ∀ slot < c.kSlots,
    (w.occupied level).getLsbD slot = true ↔ lists (level * c.kSlots + slot) ≠ []
  occupied_unused : ∀ level < c.levels, ∀ j, c.kSlots ≤ j → (w.occupied level).getLsbD j = false
  shift_le : w.shift ≤ c.kMaxGranularityShift

/-! ### What the operations on lists change -/

/-- The operations on lists change link fields and occupancy words only. -/
structure Kept (w w' : Wheel c P) : Prop where
  generation : ∀ i, (w'.nodes i).generation = (w.nodes i).generation
  deadline : ∀ i, (w'.nodes i).deadline = (w.nodes i).deadline
  payload : ∀ i, (w'.nodes i).payload = (w.nodes i).payload
  capacity : w'.capacity = w.capacity
  shift : w'.shift = w.shift
  cur : w'.cur = w.cur
  freeHead : w'.freeHead = w.freeHead

variable {w' : Wheel c P}

theorem Kept.trans {w w'' : Wheel c P} (h : Kept w w') (h' : Kept w' w'') : Kept w w'' where
  generation i := (h'.generation i).trans (h.generation i)
  deadline i := (h'.deadline i).trans (h.deadline i)
  payload i := (h'.payload i).trans (h.payload i)
  capacity := h'.capacity.trans h.capacity
  shift := h'.shift.trans h.shift
  cur := h'.cur.trans h.cur
  freeHead := h'.freeHead.trans h.freeHead

variable (w : Wheel c P) {src : ℕ}

theorem kept_setPrev (i v : ℕ) : Kept w (w.setPrev i v) := by
  constructor <;> first | rfl | (intro j; by_cases h : j = i <;> simp [setPrev, h])

theorem kept_setNext (i v : ℕ) : Kept w (w.setNext i v) := by
  constructor <;> first | rfl | (intro j; by_cases h : j = i <;> simp [setNext, h])

theorem links_setPrev (i v : ℕ) :
  (w.setPrev i v).links = { w.links with prev := update w.links.prev i v }
  := by
  simp only [links, setPrev, Links.mk.injEq]
  constructor <;>
  · funext j
    by_cases h : j = i <;> simp [h]

theorem links_setNext (i v : ℕ) :
  (w.setNext i v).links = { w.links with next := update w.links.next i v }
  := by
  simp only [links, setNext, Links.mk.injEq]
  constructor <;>
  · funext j
    by_cases h : j = i <;> simp [h]

theorem links_ite_occupy (q : Prop) [Decidable q] (h : ℕ) :
  (if q then w.occupy h else w).links = w.links
  := by split <;> rfl

theorem links_ite_vacate (q : Prop) [Decidable q] (h : ℕ) :
  (if q then w.vacate h else w).links = w.links
  := by split <;> rfl

theorem links_link (h i : ℕ) :
  (w.link h i).links = w.links.link h i
  := by
  simp only [link, links_ite_occupy, links_setPrev, links_setNext]
  rfl

theorem links_unlink (i : ℕ) :
  (w.unlink i).links = w.links.unlink i
  := by
  simp only [unlink, links_ite_vacate, links_setPrev, links_setNext]
  rfl

theorem links_splice (s d : ℕ) :
  (w.splice s d).links = w.links.splice s d
  := by
  rw [splice]
  change _ = if (w.nodes s).next = s then _ else _
  split
  · rfl
  simp only [links_ite_vacate, links_setPrev, links_setNext]
  rfl

theorem kept_ite_occupy (q : Prop) [Decidable q] (h : ℕ) :
  Kept w (if q then w.occupy h else w)
  := by split <;> constructor <;> first | rfl | (intro; rfl)

theorem kept_ite_vacate (q : Prop) [Decidable q] (h : ℕ) :
  Kept w (if q then w.vacate h else w)
  := by split <;> constructor <;> first | rfl | (intro; rfl)

theorem Kept.refl : Kept w w := by
  constructor <;> first | rfl | (intro; rfl)

theorem kept_link (h i : ℕ) :
  Kept w (w.link h i)
  := by
  apply (kept_setPrev _ _ _).trans
  apply (kept_setNext _ _ _).trans
  apply (kept_setNext _ _ _).trans
  apply (kept_setPrev _ _ _).trans
  apply kept_ite_occupy

theorem kept_unlink (i : ℕ) :
  Kept w (w.unlink i)
  := by
  apply (kept_setNext _ _ _).trans
  apply (kept_setPrev _ _ _).trans
  apply kept_ite_vacate

theorem kept_splice (s d : ℕ) :
  Kept w (w.splice s d)
  := by
  rw [splice]
  split
  · apply Kept.refl
  apply (kept_setNext _ _ _).trans
  apply (kept_setPrev _ _ _).trans
  apply (kept_setNext _ _ _).trans
  apply (kept_setPrev _ _ _).trans
  apply (kept_setPrev _ _ _).trans
  apply (kept_setNext _ _ _).trans
  apply kept_ite_vacate

theorem Kept.armedNode_iff {w : Wheel c P} (k : Kept w w') (i : ℕ) :
  w'.ArmedNode i ↔ w.ArmedNode i
  := by
  rw [ArmedNode, ArmedNode, k.generation, k.capacity]

theorem mod_kSlots_lt (h : ℕ) : h % c.kSlots < 64 :=
  lt_of_lt_of_le (Nat.mod_lt _ c.kSlots_pos) c.kSlots_le

theorem getLsbD_occupy (h level j : ℕ) :
  ((w.occupy h).occupied level).getLsbD j
    = ((w.occupied level).getLsbD j || decide (level = h / c.kSlots ∧ j = h % c.kSlots))
  := by
  rw [occupy]
  by_cases e : level = h / c.kSlots
  · subst e
    simp [getLsbD_setBit _ (mod_kSlots_lt h)]
  · simp [e]

theorem getLsbD_vacate (h level j : ℕ) :
  ((w.vacate h).occupied level).getLsbD j
    = ((w.occupied level).getLsbD j && !decide (level = h / c.kSlots ∧ j = h % c.kSlots))
  := by
  rw [vacate]
  by_cases e : level = h / c.kSlots
  · subst e
    simp [getLsbD_clearBit _ (mod_kSlots_lt h)]
  · simp [e]

theorem occupied_link (h i : ℕ) :
  (w.link h i).occupied = if h < c.kWheelNodes then (w.occupy h).occupied else w.occupied
  := by
  rw [link]
  split <;> rfl

theorem occupied_unlink (i : ℕ) :
  (w.unlink i).occupied
    = if w.links.prev i = w.links.next i ∧ w.links.prev i < c.kWheelNodes then
        (w.vacate (w.links.prev i)).occupied
      else w.occupied
  := by
  change (if (w.nodes i).prev = (w.nodes i).next ∧ (w.nodes i).prev < c.kWheelNodes then _
    else _ : Wheel c P).occupied
    = if (w.nodes i).prev = (w.nodes i).next ∧ (w.nodes i).prev < c.kWheelNodes then _ else _
  split <;> rfl

theorem occupied_splice (dst : ℕ) (hs : src < c.kWheelNodes) (hne : w.links.next src ≠ src) :
  (w.splice src dst).occupied = (w.vacate src).occupied
  := by
  have hne' : (w.nodes src).next ≠ src := hne
  rw [splice, if_neg hne']
  simp only [hs]
  rfl

/-! ### The operations on lists keep the structure -/

section Lists

variable {w : Wheel c P} {lists : ℕ → List ℕ} {frees : List ℕ} {loose loose' : Set ℕ} {h i : ℕ}

section

variable (wf : WF w lists frees loose)

include wf

theorem WF.loose_not_mem (hi : i ∈ loose) (hh : h < c.kFirst) :
  i ∉ h :: lists h
  := by
  intro hm
  rcases mem_cons.mp hm with e | hm
  · have := (wf.armed_of_loose i hi).1
    omega
  · apply wf.loose_apart i hi h hh hm

/-- A free node is not armed, so it is in no list. -/
theorem WF.free_not_mem (hi : i ∈ frees) (hh : h < c.kFirst) :
  i ∉ h :: lists h
  := by
  have hf := wf.free_of_mem i hi
  intro hm
  rcases mem_cons.mp hm with e | hm
  · omega
  have := (wf.armed_of_mem h hh i hm).2.2
  omega

theorem WF.free_ne_armed (hi : i ∈ frees) (hj : w.ArmedNode j)
    :
  i ≠ j
  := by
  rintro rfl
  have := (wf.free_of_mem i hi).2.2
  have := hj.2.2
  omega

/-- A change of links keeps the structure, if every node that was in a list or loose still is, in
one of them only. -/
theorem WF.relist {lists' : ℕ → List ℕ} (k : Kept w w')
    (loops : w'.links.Loops (heads c) lists')
    (hnext : ∀ i ∈ frees, w'.links.next i = w.links.next i)
    (hmem : ∀ i, i ∈ loose' ∨ (∃ h < c.kFirst, i ∈ lists' h)
      ↔ i ∈ loose ∨ ∃ h < c.kFirst, i ∈ lists h)
    (hapart : ∀ i ∈ loose', ∀ h < c.kFirst, i ∉ lists' h)
    (hocc : ∀ level < c.levels, ∀ slot < c.kSlots,
      (w'.occupied level).getLsbD slot = true ↔ lists' (level * c.kSlots + slot) ≠ [])
    (hunused : ∀ level < c.levels, ∀ j, c.kSlots ≤ j → (w'.occupied level).getLsbD j = false) :
  WF w' lists' frees loose'
  := by
  have harmed : ∀ i, i ∈ loose ∨ (∃ h < c.kFirst, i ∈ lists h) → w.ArmedNode i := by
    rintro i (hi | ⟨h, hh, hi⟩)
    · apply wf.armed_of_loose i hi
    · apply wf.armed_of_mem h hh i hi
  constructor
  case loops => apply loops
  case stack =>
    rw [k.freeHead]
    apply wf.stack.congr hnext
  case frees_nodup => apply wf.frees_nodup
  case armed_of_mem =>
    intro h hh i hi
    rw [k.armedNode_iff]
    apply harmed i ((hmem i).mp (.inr ⟨h, hh, hi⟩))
  case free_of_mem => simpa only [k.generation, k.capacity] using wf.free_of_mem
  case cover =>
    intro i hi
    apply (hmem i).mpr (wf.cover i ((k.armedNode_iff i).mp hi))
  case armed_of_loose =>
    intro i hi
    rw [k.armedNode_iff]
    apply harmed i ((hmem i).mp (.inl hi))
  case loose_apart => apply hapart
  case generation_lt => simpa only [k.generation] using wf.generation_lt
  case occupied_iff => apply hocc
  case occupied_unused => apply hunused
  case shift_le => rw [k.shift]; apply wf.shift_le

omit wf in
/-- The members of the lists when one of them is replaced. -/
theorem exists_mem_update {xs : List ℕ} (hh : h < c.kFirst) :
  (∃ h' < c.kFirst, i ∈ update lists h xs h') ↔ i ∈ xs ∨ ∃ h' < c.kFirst, h' ≠ h ∧ i ∈ lists h'
  := by
  constructor
  · rintro ⟨h', hh', hi⟩
    by_cases e : h' = h
    · rw [e, update_self] at hi
      exact .inl hi
    rw [update_of_ne e] at hi
    exact .inr ⟨h', hh', e, hi⟩
  rintro (hi | ⟨h', hh', e, hi⟩)
  · exact ⟨h, hh, by rwa [update_self]⟩
  · exact ⟨h', hh', by rwa [update_of_ne e]⟩

omit wf in
theorem exists_mem_split (hh : h < c.kFirst) :
  (∃ h' < c.kFirst, i ∈ lists h') ↔ i ∈ lists h ∨ ∃ h' < c.kFirst, h' ≠ h ∧ i ∈ lists h'
  := by
  rw [← exists_mem_update hh, update_eq_self]

/-- Linking a loose node puts it at the end of the list. -/
theorem WF.link (hh : h < c.kFirst) (hi : i ∈ loose) :
  WF (w.link h i) (update lists h (lists h ++ [i])) frees (loose \ {i})
  := by
  apply wf.relist (kept_link w h i)
  case loops =>
    rw [links_link]
    apply wf.loops.link hh
    intro h' hh'
    apply wf.loose_not_mem hi hh'
  case hnext =>
    intro x hx
    rw [links_link]
    apply ((wf.loops.loop h hh).link_frame (wf.free_not_mem hx hh) _).1
    apply wf.free_ne_armed hx (wf.armed_of_loose i hi)
  case hmem =>
    intro j
    rw [exists_mem_update hh, exists_mem_split hh]
    by_cases e : j = i
    · simp [e, hi]
    · simp [e]
  case hapart =>
    rintro j ⟨hj, hne⟩ h' hh' hm
    by_cases e : h' = h
    · rw [e, update_self, mem_append, mem_singleton] at hm
      apply wf.loose_apart j hj h hh (hm.resolve_right hne)
    rw [update_of_ne e] at hm
    apply wf.loose_apart j hj h' hh' hm
  case hocc =>
    intro level hl slot hs
    have old := wf.occupied_iff level hl slot hs
    rw [occupied_link]
    by_cases e : level * c.kSlots + slot = h
    · have hw : h < c.kWheelNodes := e ▸ c.slotHead_lt hl hs
      rw [if_pos hw]
      simp [getLsbD_occupy, ← c.slotHead_iff hs, e]
    rw [update_of_ne e, ← old]
    split
    · simp [getLsbD_occupy, ← c.slotHead_iff hs, e]
    · rfl
  case hunused =>
  intro level hl j hj
  have old := wf.occupied_unused level hl j hj
  rw [occupied_link]
  split
  · rw [getLsbD_occupy, old]
    have : j ≠ h % c.kSlots := by
      have := Nat.mod_lt h c.kSlots_pos
      omega
    simp [this]
  · apply old

/-- Unlinking a member of a list makes it loose. -/
theorem WF.unlink (hh : h < c.kFirst) (hi : i ∈ lists h) :
  WF (w.unlink i) (update lists h ((lists h).erase i)) frees (insert i loose)
  := by
  have H := wf.loops.loop h hh
  have hnd : (lists h).Nodup := (nodup_cons.mp H.1).2
  apply wf.relist (kept_unlink w i)
  case loops =>
    rw [links_unlink]
    apply wf.loops.unlink hh hi
  case hnext =>
    intro x hx
    rw [links_unlink]
    apply (H.unlink_frame hi (wf.free_not_mem hx hh)).1
  case hmem =>
    intro j
    rw [exists_mem_update hh, exists_mem_split hh]
    by_cases e : j = i
    · simp [e, hi]
    · simp [e]
  case hapart =>
    rintro j hj h' hh' hm
    by_cases e : h' = h
    · rw [e, update_self, hnd.mem_erase_iff] at hm
      apply wf.loose_apart j (hj.resolve_left hm.1) h hh hm.2
    rw [update_of_ne e] at hm
    rcases hj with rfl | hj
    · apply e (wf.loops.head_unique hh' hh (mem_cons_of_mem _ hm) (mem_cons_of_mem _ hi))
    · apply wf.loose_apart j hj h' hh' hm
  case hocc =>
    intro level hl slot hs
    have old := wf.occupied_iff level hl slot hs
    obtain ⟨xs, ys, e⟩ := append_of_mem hi
    have hiff : w.links.prev i = w.links.next i ↔ xs = [] ∧ ys = [] := by
      rw [e] at H
      apply H.prev_eq_next_iff
    rw [occupied_unlink]
    -- The neighbours agree exactly when the list is left empty; both are then its head.
    by_cases hone : xs = [] ∧ ys = []
    · obtain ⟨rfl, rfl⟩ := hone
      have hlist : lists h = [i] := e
      have hprev : w.links.prev i = h := by
        rw [hlist] at H
        exact H.2.2.1
      have herase : (lists h).erase i = [] := by rw [hlist]; simp
      rw [herase]
      by_cases hw : h < c.kWheelNodes
      · rw [if_pos ⟨hiff.mpr ⟨rfl, rfl⟩, hprev ▸ hw⟩, hprev]
        by_cases e' : level * c.kSlots + slot = h
        · simp [getLsbD_vacate, ← c.slotHead_iff hs, e']
        · simp [getLsbD_vacate, ← c.slotHead_iff hs, e', old]
      rw [if_neg (fun hc => hw (hprev ▸ hc.2)), old, update_of_ne]
      have := c.slotHead_lt hl hs
      omega
    rw [if_neg (fun hc => hone (hiff.mp hc.1)), old]
    by_cases e' : level * c.kSlots + slot = h
    · rw [e', update_self]
      have hne : (lists h).erase i ≠ [] := by
        rw [e]
        rcases xs with _ | ⟨x, xs⟩
        · rcases ys with _ | ⟨y, ys⟩
          · simp at hone
          · simp
        · simp
      have hne' : lists h ≠ [] := ne_nil_of_mem hi
      tauto
    · rw [update_of_ne e']
  case hunused =>
  intro level hl j hj
  have old := wf.occupied_unused level hl j hj
  rw [occupied_unlink]
  split
  · rw [getLsbD_vacate, old]
    rfl
  · apply old

/-- Splicing a slot appends its members to the other list. -/
theorem WF.splice {dst : ℕ} (hs : src < c.kWheelNodes)
    (hd : c.kWheelNodes ≤ dst) (hd' : dst < c.kFirst) :
  WF (w.splice src dst)
    (update (update lists dst (lists dst ++ lists src)) src []) frees loose
  := by
  have hs' : src < c.kFirst := by
    omega
  have hne : src ≠ dst := by omega
  have Hs := wf.loops.loop src hs'
  have Hd := wf.loops.loop dst hd'
  -- A slot that is empty is left as it is.
  by_cases hemp : w.links.next src = src
  · have hnil : lists src = [] := Hs.next_head_eq_iff.mp hemp
    have hsame : w.splice src dst = w := by
      apply if_pos hemp
    rwa [hsame, hnil, append_nil, update_eq_self, ← hnil, update_eq_self]
  have hold : ∀ h' < c.kFirst, ∀ j ∈ update (update lists dst (lists dst ++ lists src)) src [] h',
      ∃ h < c.kFirst, j ∈ lists h := by
    intro h' hh' j hj
    by_cases e : h' = src
    · rw [e, update_self] at hj
      cases hj
    rw [update_of_ne e] at hj
    by_cases e' : h' = dst
    · rw [e', update_self, mem_append] at hj
      exact hj.elim (⟨dst, hd', ·⟩) (⟨src, hs', ·⟩)
    rw [update_of_ne e'] at hj
    exact ⟨h', hh', hj⟩
  apply wf.relist (kept_splice w src dst)
  case loops =>
    rw [links_splice]
    apply wf.loops.splice hs' hd' hne
  case hnext =>
    intro x hx
    rw [links_splice]
    apply (Hs.splice_frame Hd (wf.free_not_mem hx hs') (wf.free_not_mem hx hd')).1
  case hmem =>
    intro j
    apply or_congr_right
    refine ⟨fun ⟨h', hh', hj⟩ => hold h' hh' j hj, ?_⟩
    rintro ⟨h', hh', hj⟩
    by_cases e : h' = src ∨ h' = dst
    · use dst, hd'
      rw [update_of_ne hne.symm, update_self, mem_append]
      rcases e with rfl | rfl
      · exact .inr hj
      · exact .inl hj
    obtain ⟨e₁, e₂⟩ := not_or.mp e
    use h', hh'
    rwa [update_of_ne e₁, update_of_ne e₂]
  case hapart =>
    intro j hj h' hh' hm
    obtain ⟨h, hh, hm⟩ := hold h' hh' j hm
    apply wf.loose_apart j hj h hh hm
  case hocc =>
    intro level hl slot hslot
    have old := wf.occupied_iff level hl slot hslot
    have hd'' : level * c.kSlots + slot ≠ dst := by
      have := c.slotHead_lt hl hslot
      omega
    rw [occupied_splice w dst hs hemp]
    by_cases e : level * c.kSlots + slot = src
    · simp [getLsbD_vacate, ← c.slotHead_iff hslot, e]
    · simp [getLsbD_vacate, ← c.slotHead_iff hslot, e, hd'', old]
  case hunused =>
  intro level hl j hj
  rw [occupied_splice w dst hs hemp, getLsbD_vacate, wf.occupied_unused level hl j hj]
  rfl

/-! ### Arming and disarming nodes -/

/-- The structure does not depend on the links of loose nodes, deadlines, payloads, the wheel
time and the counters. -/
theorem WF.congr
    (hlinks : ∀ i, i ∉ loose → w'.links.next i = w.links.next i ∧ w'.links.prev i = w.links.prev i)
    (hgen : ∀ i, (w'.nodes i).generation = (w.nodes i).generation)
    (hcap : w'.capacity = w.capacity) (hshift : w'.shift = w.shift)
    (hfree : w'.freeHead = w.freeHead) (hocc : w'.occupied = w.occupied) :
  WF w' lists frees loose
  := by
  have harmed : ∀ i, w'.ArmedNode i ↔ w.ArmedNode i := by
    intro i
    rw [ArmedNode, ArmedNode, hgen, hcap]
  constructor
  case loops =>
    apply wf.loops.congr
    intro h hh i hi
    apply hlinks i
    intro hl
    apply wf.loose_not_mem hl hh hi
  case stack =>
    rw [hfree]
    apply wf.stack.congr
    intro i hi
    apply (hlinks i _).1
    intro hl
    apply wf.free_ne_armed hi (wf.armed_of_loose i hl) rfl
  case frees_nodup => apply wf.frees_nodup
  case armed_of_mem => simpa only [harmed] using wf.armed_of_mem
  case free_of_mem => simpa only [hgen, hcap] using wf.free_of_mem
  case cover => simpa only [harmed] using wf.cover
  case armed_of_loose => simpa only [harmed] using wf.armed_of_loose
  case loose_apart => apply wf.loose_apart
  case generation_lt => simpa only [hgen] using wf.generation_lt
  case occupied_iff => rw [hocc]; apply wf.occupied_iff
  case occupied_unused => rw [hocc]; apply wf.occupied_unused
  case shift_le => rw [hshift]; apply wf.shift_le

theorem WF.setNode (i : ℕ) {node : Node c P} (hnext : node.next = (w.nodes i).next)
    (hprev : node.prev = (w.nodes i).prev) (hgen : node.generation = (w.nodes i).generation) :
  WF { w with nodes := update w.nodes i node } lists frees loose
  := by
  refine wf.congr ?_ ?_ rfl rfl rfl rfl
  · intro j _
    by_cases e : j = i <;> simp [links, e, hnext, hprev]
  intro j
  by_cases e : j = i <;> simp [e, hgen]

theorem WF.setDeadline (i : ℕ) (d : c.Tick) :
  WF (w.setDeadline i d) lists frees loose
  := wf.setNode i rfl rfl rfl

theorem WF.setPayload (i : ℕ) (p : P) :
  WF (w.setPayload i p) lists frees loose
  := wf.setNode i rfl rfl rfl

end

/-- A node that is in no list is armed or disarmed. -/
theorem WF.turn {frees' : List ℕ} (wf : WF w lists frees loose)
    (hi : ∀ h < c.kFirst, i ∉ h :: lists h) (hother : ∀ j, j ≠ i → w'.nodes j = w.nodes j)
    (hlt : (w'.nodes i).generation < 2 ^ 32) (hcap : w'.capacity = w.capacity)
    (hshift : w'.shift = w.shift) (hocc : w'.occupied = w.occupied)
    (hloose : ∀ j, j ≠ i → (j ∈ loose' ↔ j ∈ loose)) (hself : i ∈ loose' ↔ w'.ArmedNode i)
    (hstack : Stack w'.links.next w'.freeHead frees') (hnodup : frees'.Nodup)
    (hfrees : ∀ j ∈ frees',
      c.kFirst ≤ j ∧ j < c.kFirst + w'.capacity ∧ (w'.nodes j).generation % 2 = 0) :
  WF w' lists frees' loose'
  := by
  have harmed : ∀ j, j ≠ i → (w'.ArmedNode j ↔ w.ArmedNode j) := by
    intro j hj
    rw [ArmedNode, ArmedNode, hother j hj, hcap]
  have hne : ∀ h < c.kFirst, ∀ j ∈ h :: lists h, j ≠ i := by
    rintro h hh j hj rfl
    apply hi h hh hj
  constructor
  case loops =>
    apply wf.loops.congr
    intro h hh j hj
    simp [links, hother j (hne h hh j hj)]
  case stack => apply hstack
  case frees_nodup => apply hnodup
  case armed_of_mem =>
    intro h hh j hj
    rw [harmed j (hne h hh j (mem_cons_of_mem _ hj))]
    apply wf.armed_of_mem h hh j hj
  case free_of_mem => apply hfrees
  case cover =>
    intro j hj
    by_cases e : j = i
    · left
      subst e
      apply hself.mpr hj
    rw [hloose j e]
    apply wf.cover j ((harmed j e).mp hj)
  case armed_of_loose =>
    intro j hj
    by_cases e : j = i
    · subst e
      apply hself.mp hj
    rw [harmed j e]
    apply wf.armed_of_loose j ((hloose j e).mp hj)
  case loose_apart =>
    intro j hj h hh hm
    have e := hne h hh j (mem_cons_of_mem _ hm)
    apply wf.loose_apart j ((hloose j e).mp hj) h hh hm
  case generation_lt =>
    intro j
    by_cases e : j = i
    · rw [e]
      apply hlt
    rw [hother j e]
    apply wf.generation_lt
  case occupied_iff => rw [hocc]; apply wf.occupied_iff
  case occupied_unused => rw [hocc]; apply wf.occupied_unused
  case shift_le => rw [hshift]; apply wf.shift_le

/-- The first free node is armed by advancing its generation. -/
def arm (w : Wheel c P) (i : ℕ) (d : c.Tick) (p : P) : Wheel c P :=
  { ((({ w with freeHead := (w.nodes i).next }.advance i).setDeadline i d).setPayload i p) with
    size := w.size + 1 }

theorem nodes_arm (wf : WF w lists (i :: frees) loose) (d : c.Tick) (p : P) :
  (∀ j, j ≠ i → (w.arm i d p).nodes j = w.nodes j)
    ∧ ((w.arm i d p).nodes i).generation = (w.nodes i).generation + 1
    ∧ ((w.arm i d p).nodes i).deadline = d ∧ ((w.arm i d p).nodes i).payload = p
  := by
  have heven := (wf.free_of_mem i mem_cons_self).2.2
  have hlt := wf.generation_lt i
  have hlt' : (w.nodes i).generation + 1 < 2 ^ 32 := by omega
  refine ⟨fun j hj => ?_, ?_, ?_, ?_⟩
  · simp [arm, setPayload, setDeadline, advance, hj]
  · simpa [arm, setPayload, setDeadline, advance] using hlt'
  · simp [arm, setPayload, setDeadline]
  · simp [arm, setPayload]

theorem WF.arm (wf : WF w lists (i :: frees) loose) (d : c.Tick) (p : P) :
  WF (w.arm i d p) lists frees (insert i loose)
  := by
  obtain ⟨hlo, hhi, heven⟩ := wf.free_of_mem i mem_cons_self
  have hlt := wf.generation_lt i
  obtain ⟨hother, hgen, -, -⟩ := nodes_arm wf d p
  obtain ⟨hnot, hnodup⟩ := nodup_cons.mp wf.frees_nodup
  have hne : ∀ j ∈ frees, j ≠ i := fun j hj e => hnot (e ▸ hj)
  apply wf.turn (fun h hh => wf.free_not_mem mem_cons_self hh) hother _ rfl rfl rfl
  case hloose =>
    intro j hj
    simp [hj]
  case hself =>
    have hcap : (w.arm i d p).capacity = w.capacity := rfl
    rw [ArmedNode]
    simp only [Set.mem_insert_iff, true_or, true_iff]
    omega
  case hstack =>
    apply wf.stack.2.congr
    intro j hj
    simp [links, hother j (hne j hj)]
  case hnodup => apply hnodup
  case hfrees =>
    intro j hj
    rw [hother j (hne j hj)]
    apply wf.free_of_mem j (mem_cons_of_mem _ hj)
  omega

section

variable (w : Wheel c P)

theorem nodes_free_of_ne (h : j ≠ i) :
  (w.free i).nodes j = w.nodes j
  := by
  rw [free]
  split <;> simp [advance, setNext, h]

theorem generation_free_self (i : ℕ) :
  ((w.free i).nodes i).generation = ((w.nodes i).generation + 1) % 2 ^ 32
  := by
  rw [free]
  split <;> simp [advance, setNext]

theorem free_capacity (i : ℕ) : (w.free i).capacity = w.capacity := by
  rw [free]
  split <;> rfl

theorem free_shift (i : ℕ) : (w.free i).shift = w.shift := by
  rw [free]
  split <;> rfl

theorem free_cur (i : ℕ) : (w.free i).cur = w.cur := by
  rw [free]
  split <;> rfl

end

/-- A loose node is disarmed: it is pushed on the free list, or retired if its generation
wrapped. -/
theorem WF.free_eq (wf : WF w lists frees loose) (hi : i ∈ loose) :
  WF (w.free i) lists (if ((w.nodes i).generation + 1) % 2 ^ 32 = 0 then frees else i :: frees)
    (loose \ {i})
  := by
  have harm := wf.armed_of_loose i hi
  have hodd := harm.2.2
  have hgen := generation_free_self w i
  have hne : ∀ j ∈ frees, j ≠ i := fun j hj => wf.free_ne_armed hj harm
  have hother : ∀ j, j ≠ i → (w.free i).nodes j = w.nodes j := fun j => nodes_free_of_ne w
  have hstack : Stack (w.free i).links.next w.freeHead frees := by
    apply wf.stack.congr
    intro j hj
    simp [links, hother j (hne j hj)]
  have hfrees : ∀ j ∈ frees, c.kFirst ≤ j ∧ j < c.kFirst + (w.free i).capacity
      ∧ ((w.free i).nodes j).generation % 2 = 0 := by
    intro j hj
    rw [hother j (hne j hj), free_capacity]
    apply wf.free_of_mem j hj
  apply wf.turn (fun h hh => wf.loose_not_mem hi hh) hother _ (free_capacity w i) (free_shift w i)
  case hocc =>
    rw [Wheel.free]
    split <;> rfl
  case hloose =>
    intro j hj
    simp [hj]
  case hself =>
    rw [ArmedNode]
    simp only [Set.mem_sdiff, Set.mem_singleton_iff, not_true_eq_false, and_false, false_iff]
    omega
  case hstack =>
    by_cases hwrap : ((w.nodes i).generation + 1) % 2 ^ 32 = 0
    · have e : (w.free i).freeHead = w.freeHead := by
        simp [Wheel.free, advance, hwrap, -Nat.reducePow]
      rwa [if_pos hwrap, e]
    have e : (w.free i).freeHead = i ∧ (w.free i).links.next i = w.freeHead := by
      simp [links, Wheel.free, advance, setNext, hwrap, -Nat.reducePow]
    rw [if_neg hwrap, e.1, Stack, e.2]
    exact ⟨rfl, hstack⟩
  case hnodup =>
    split
    · apply wf.frees_nodup
    · apply nodup_cons.mpr ⟨fun hm => hne i hm rfl, wf.frees_nodup⟩
  case hfrees =>
    split
    · apply hfrees
    apply forall_mem_cons.mpr ⟨⟨harm.1, _, _⟩, hfrees⟩
    · rw [free_capacity]
      apply harm.2.1
    · omega
  omega

end Lists

end Wheel

end Expiry
