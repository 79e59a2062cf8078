import Bess.Expiry.Refinement
import Mathlib.Order.Interval.Finset.Nat

/-!
# Where the nodes of a wheel are

What holds of a wheel whatever the deadlines and the times it is given: no assumption is made
that the times it compares are less than half the tick range apart. A run goes by the steps of
the calls and of the loop of `Poll`, so the states within a callback are states of the run; its
trace records which timers were scheduled and which have ended. In every state of a run each node
is in exactly one place (`Run.structure_intact`).
-/

namespace Expiry

open Function List Serial

variable {c : Shape} {P : Type}

namespace Wheel

/-! ### Counts -/

theorem counts_link (w : Wheel c P) (h i : ℕ) :
  (w.link h i).size = w.size ∧ (w.link h i).quarantined = w.quarantined
  := by
  rw [link]
  split <;> exact ⟨rfl, rfl⟩

theorem counts_unlink (w : Wheel c P) (i : ℕ) :
  (w.unlink i).size = w.size ∧ (w.unlink i).quarantined = w.quarantined
  := by
  rw [unlink]
  split <;> exact ⟨rfl, rfl⟩

theorem counts_splice (w : Wheel c P) (s d : ℕ) :
  (w.splice s d).size = w.size ∧ (w.splice s d).quarantined = w.quarantined
  := by
  rw [splice]
  split
  · exact ⟨rfl, rfl⟩
  · split <;> exact ⟨rfl, rfl⟩

theorem counts_arriveLevels (t : c.Tick) :
    ∀ (levels : List ℕ) (w : Wheel c P),
      (levels.foldl (arriveLevel t) w).size = w.size
        ∧ (levels.foldl (arriveLevel t) w).quarantined = w.quarantined
  | [], _ => ⟨rfl, rfl⟩
  | level :: levels, w => by
    obtain ⟨h₁, h₂⟩ := counts_arriveLevels t levels (arriveLevel t w level)
    rw [foldl_cons, h₁, h₂, arriveLevel]
    split
    · apply counts_splice
    · exact ⟨rfl, rfl⟩

theorem counts_arrive (w : Wheel c P) (t : c.Tick) :
  (w.arrive t).size = w.size ∧ (w.arrive t).quarantined = w.quarantined
  := by
  rw [arrive]
  obtain ⟨h₁, h₂⟩ := counts_arriveLevels t (List.range' 1 (c.levels - 1)).reverse
    { w with cur := t }
  constructor
  · rw [(counts_splice _ _ _).1, h₁]
  · rw [(counts_splice _ _ _).2, h₂]

/-- The armed nodes. -/
def armedNodes (w : Wheel c P) : Finset ℕ :=
  (Finset.Ico c.kFirst (c.kFirst + w.capacity)).filter fun i => (w.nodes i).generation % 2 = 1

variable {i : ℕ} {w : Wheel c P}

theorem mem_armedNodes : i ∈ w.armedNodes ↔ w.ArmedNode i := by
  rw [armedNodes, Finset.mem_filter, Finset.mem_Ico, ArmedNode, and_assoc]

/-- The nodes in no use are free or retired, a retired one has the generation 0 for good, and
the counts are exact. -/
structure Accounts (w : Wheel c P) (frees : List ℕ) (retired : Set ℕ) : Prop where
  idle : ∀ i, c.kFirst ≤ i → i < c.kFirst + w.capacity → (w.nodes i).generation % 2 = 0 →
    i ∉ frees → i ∈ retired
  retired_idle : ∀ i ∈ retired, c.kFirst ≤ i ∧ i < c.kFirst + w.capacity
    ∧ (w.nodes i).generation = 0 ∧ i ∉ frees
  size_eq : w.size = w.armedNodes.card
  total_eq : w.size + frees.length + w.quarantined = w.capacity

variable {w w' : Wheel c P} {lists lists' : ℕ → List ℕ} {frees : List ℕ} {loose retired : Set ℕ}
  {T E : ℤ} {busy : Option ExpiryHandle} {i : ℕ}

theorem Accounts.congr (A : Accounts w frees retired)
    (hgen : ∀ i, (w'.nodes i).generation = (w.nodes i).generation) (hcap : w'.capacity = w.capacity)
    (hcounts : w'.size = w.size ∧ w'.quarantined = w.quarantined) :
  Accounts w' frees retired
  := by
  constructor
  case idle => simpa only [hgen, hcap] using A.idle
  case retired_idle => simpa only [hgen, hcap] using A.retired_idle
  case size_eq =>
    rw [hcounts.1, A.size_eq, armedNodes, armedNodes, hcap]
    simp only [hgen]
  case total_eq => rw [hcounts.1, hcounts.2, hcap, A.total_eq]

theorem Accounts.arm (A : Accounts w (i :: frees) retired)
    (wf : WF w lists (i :: frees) loose) (d : c.Tick) (p : P) :
  Accounts (w.arm i d p) frees retired
  := by
  have hi := wf.free_of_mem i mem_cons_self
  obtain ⟨hother, hgen, -, -⟩ := nodes_arm wf d p
  have hcap : (w.arm i d p).capacity = w.capacity := rfl
  constructor
  case idle =>
    intro j hj hj' hg hf
    have hne : j ≠ i := by
      rintro rfl
      omega
    rw [hother j hne] at hg
    apply A.idle j hj hj' hg
    simp [hne, hf]
  case retired_idle =>
    intro j hj
    obtain ⟨h₁, h₂, h₃, h₄⟩ := A.retired_idle j hj
    have hne : j ≠ i := fun e => h₄ (e ▸ mem_cons_self)
    rw [hother j hne]
    exact ⟨h₁, h₂, h₃, fun hf => h₄ (mem_cons_of_mem _ hf)⟩
  case size_eq =>
    have hnew : (w.arm i d p).armedNodes = insert i w.armedNodes := by
      ext j
      rw [Finset.mem_insert, mem_armedNodes, mem_armedNodes, ArmedNode, ArmedNode, hcap]
      by_cases e : j = i
      · subst e
        omega
      · simp [e, hother j e]
    change w.size + 1 = _
    rw [A.size_eq, hnew, Finset.card_insert_of_notMem]
    rw [mem_armedNodes]
    rintro ⟨-, -, h⟩
    omega
  case total_eq =>
  have := A.total_eq
  rw [length_cons] at this
  change w.size + 1 + _ + w.quarantined = w.capacity
  omega

theorem size_free (w : Wheel c P) (i : ℕ) : (w.free i).size = w.size - 1 := by
  rw [free]
  split <;> rfl

theorem quarantined_free (w : Wheel c P) (i : ℕ) :
  (w.free i).quarantined
    = if ((w.nodes i).generation + 1) % 2 ^ 32 = 0 then w.quarantined + 1 else w.quarantined
  := by
  have hg : (({ w with size := w.size - 1 }.advance i).nodes i).generation
      = ((w.nodes i).generation + 1) % 2 ^ 32 := by simp [advance]
  rw [free]
  rw [hg]
  split <;> rfl

/-- An armed node is disarmed: it is free again, or retired if its generation wraps. -/
theorem Accounts.free (A : Accounts w frees retired) (hi : w.ArmedNode i)
    (hlt : (w.nodes i).generation < 2 ^ 32) (hfi : i ∉ frees) :
  Accounts (w.free i)
    (if ((w.nodes i).generation + 1) % 2 ^ 32 = 0 then frees else i :: frees)
    (if (w.nodes i).generation = 2 ^ 32 - 1 then insert i retired else retired)
  := by
  have hself := generation_free_self w i
  have hother : ∀ {j}, j ≠ i → (w.free i).nodes j = w.nodes j := nodes_free_of_ne w
  have hodd := hi.2.2
  have hpos : 0 < w.armedNodes.card := Finset.card_pos.mpr ⟨i, mem_armedNodes.mpr hi⟩
  have hnr : i ∉ retired := fun h => by
    have := (A.retired_idle i h).2.2.1
    omega
  have hwrap : ((w.nodes i).generation + 1) % 2 ^ 32 = 0 ↔ (w.nodes i).generation = 2 ^ 32 - 1 := by
    omega
  have hfrees : ∀ j, j ≠ i →
      (j ∈ (if (w.nodes i).generation = 2 ^ 32 - 1 then frees else i :: frees) ↔ j ∈ frees) := by
    intro j hne
    split <;> simp [hne]
  have hret : ∀ j, j ≠ i →
      (j ∈ (if (w.nodes i).generation = 2 ^ 32 - 1 then insert i retired else retired)
        ↔ j ∈ retired) := by
    intro j hne
    split <;> simp [hne]
  simp only [hwrap]
  constructor
  case idle =>
    intro j hj hj' hg hf
    rw [free_capacity] at hj'
    by_cases e : j = i
    · subst e
      split at hf
      · rw [if_pos ‹_›]
        apply Set.mem_insert
      · simp at hf
    rw [hret j e]
    rw [hother e] at hg
    rw [hfrees j e] at hf
    apply A.idle j hj hj' hg hf
  case retired_idle =>
    intro j hj
    rw [free_capacity]
    by_cases e : j = i
    · subst e
      by_cases hlast : (w.nodes j).generation = 2 ^ 32 - 1
      · rw [hself, hlast]
        exact ⟨hi.1, hi.2.1, rfl, hfi⟩
      rw [if_neg hlast] at hj
      exact absurd hj hnr
    rw [hret j e] at hj
    rw [hother e, hfrees j e]
    apply A.retired_idle j hj
  case size_eq =>
    have hnew : (w.free i).armedNodes = w.armedNodes.erase i := by
      ext j
      rw [Finset.mem_erase, mem_armedNodes, mem_armedNodes, ArmedNode, ArmedNode, free_capacity]
      by_cases e : j = i
      · subst e
        omega
      · simp [e, hother e]
    rw [size_free, A.size_eq, hnew, Finset.card_erase_of_mem (mem_armedNodes.mpr hi)]
  case total_eq =>
  have := A.total_eq
  have := A.size_eq
  rw [size_free, quarantined_free, free_capacity]
  simp only [hwrap]
  split
  · omega
  rw [length_cons]
  omega

/-! ### Times -/

/-- Any time can be read as one within half the tick range of the wheel time. -/
theorem exists_near (T : ℤ) (r : ℤ) :
  ∃ E, tick c E = tick c r ∧ -2 ^ (c.digits - 1) ≤ E - T ∧ E - T < 2 ^ (c.digits - 1)
    ∧ (2 : ℤ) ^ c.digits ∣ E - r
  := by
  have hpow : ((2 ^ c.digits : ℕ) : ℤ) = 2 * 2 ^ (c.digits - 1) := by
    have := c.digits_pos
    push_cast
    rw [← pow_succ', Nat.sub_add_cancel this]
  have hpos : 0 < 2 ^ c.digits := Nat.two_pow_pos _
  have hlo := Int.le_bmod (x := r - T) hpos
  have hhi := Int.bmod_lt (x := r - T) hpos
  refine ⟨T + (r - T).bmod (2 ^ c.digits), ?_, ?_, ?_, ?_⟩
  · apply BitVec.eq_of_toInt_eq
    rw [BitVec.toInt_ofInt, BitVec.toInt_ofInt, Int.add_bmod_bmod]
    congr 1
    omega
  · omega
  · omega
  have h : ((2 ^ c.digits : ℕ) : ℤ) ∣ (r - T).bmod (2 ^ c.digits) - (r - T) :=
    Int.dvd_bmod_sub_self
  rw [Nat.cast_pow, Nat.cast_ofNat] at h
  convert h using 1
  omega

/-- Where a deadline is placed: in the due list if it is reached, else in a slot that is reached
after the wheel time. -/
theorem headFor_endOf (hs : w.shift ≤ c.kMaxGranularityShift) (hcur : w.cur = tick c T)
    (d : c.Tick) :
  (diff (w.endOf d) w.cur ≤ 0 ∧ w.headFor (w.endOf d) = c.kReady)
    ∨ 0 < diff (w.endOf d) w.cur ∧ ∃ level < c.levels, ∃ slot < c.kSlots,
        w.headFor (w.endOf d) = level * c.kSlots + slot ∧ ∃ q, w.Upcoming T level slot q
  := by
  obtain ⟨E, hE, hlo, hhi, hdvd⟩ := exists_near (c := c) T (roundUp w.shift d.toInt)
  have hshift : (2 : ℤ) ^ w.shift ∣ E := by
    have h₁ : (2 : ℤ) ^ w.shift ∣ E - roundUp w.shift d.toInt :=
      (pow_dvd_pow 2 (shift_lt hs).le).trans hdvd
    apply (Int.dvd_iff_dvd_of_dvd_sub h₁).mpr (dvd_roundUp w.shift d.toInt)
  have hdiff : diff (tick c E) w.cur = E - T := by
    rw [hcur]
    apply toInt_sub_ofInt c.digits_pos hlo hhi
  have hend : w.endOf d = tick c E := by
    have h := endOf_ofInt hs d.toInt
    rw [BitVec.ofInt_toInt] at h
    exact h.trans hE.symm
  rw [hend]
  rcases headFor_spec hs hcur hshift hlo hhi with ⟨hle, e⟩ | ⟨hlt, level, hl, slot, hslot, e, q, hq, -⟩
  · left
    exact ⟨by omega, e⟩
  right
  exact ⟨by omega, level, hl, slot, hslot, e, q, hq⟩

/-- The clock is kept while the wheel time is, if every slot that gets something is ahead. -/
theorem Clocked.transfer (clocked : Clocked w lists T)
    (hcur : w'.cur = w.cur) (hshift : w'.shift = w.shift)
    (hslots : ∀ level < c.levels, ∀ slot < c.kSlots, lists' (level * c.kSlots + slot) ≠ [] →
      lists (level * c.kSlots + slot) ≠ [] ∨ ∃ q, w.Upcoming T level slot q) :
  Clocked w' lists' T
  := by
  constructor
  case cur_eq => rw [hcur, clocked.cur_eq]
  case dvd => rw [hshift]; apply clocked.dvd
  case upcoming =>
  intro level hl slot hslot hne
  obtain ⟨q, hq⟩ : ∃ q, w.Upcoming T level slot q := by
    rcases hslots level hl slot hslot hne with h | h
    · apply clocked.upcoming level hl slot hslot h
    · apply h
  exact ⟨q, hq.congr hshift⟩

/-- The wheel time moves on to `E`, no slot being passed. -/
theorem Clocked.elapse (clocked : Clocked w lists T)
    (hT : T ≤ E) (hdvd : (2 : ℤ) ^ w.shift ∣ E) (hcur : w'.cur = tick c E)
    (hshift : w'.shift = w.shift)
    (hslots : ∀ level < c.levels, ∀ slot < c.kSlots, ∀ i ∈ lists' (level * c.kSlots + slot),
      i ∈ lists (level * c.kSlots + slot)
        ∧ ∀ q, w.Upcoming T level slot q → E < q * 2 ^ w.levelShift level) :
  Clocked w' lists' E
  := by
  constructor
  case cur_eq => apply hcur
  case dvd => rw [hshift]; apply hdvd
  case upcoming =>
  intro level hl slot hslot hne
  obtain ⟨i, hi⟩ := exists_mem_of_ne_nil _ hne
  obtain ⟨hm, hlate⟩ := hslots level hl slot hslot i hi
  obtain ⟨q, hq⟩ := clocked.upcoming level hl slot hslot (ne_nil_of_mem hm)
  exact ⟨q, (hq.advance hT (hlate q hq)).congr hshift⟩

/-- A loose node is placed: in the due list if its deadline is reached, else in a slot. -/
theorem WF.put (wf : WF w lists frees loose) (clocked : Clocked w lists T) (hi : i ∈ loose) :
  ∃ head, head < c.kFirst
    ∧ (diff (w.endOf (w.nodes i).deadline) w.cur ≤ 0 ∧ head = c.kReady
      ∨ 0 < diff (w.endOf (w.nodes i).deadline) w.cur ∧ head < c.kWheelNodes)
    ∧ WF (w.place i) (update lists head (lists head ++ [i])) frees (loose \ {i})
    ∧ Clocked (w.place i) (update lists head (lists head ++ [i])) T
    ∧ LooseKept w (w.place i) loose i
  := by
  have hspec := headFor_endOf wf.shift_le clocked.cur_eq (w.nodes i).deadline
  set head := w.headFor (w.endOf (w.nodes i).deadline) with hhead
  obtain ⟨hlt, wf', hlk, hslots⟩ := wf.linkAt hi (hspec.imp And.right And.right)
  have k := kept_link w head i
  refine ⟨head, hlt, ?_, wf', ?_, hlk⟩
  · rcases hspec with h | ⟨hpos, level, hl, slot, hslot, e, -⟩
    · exact .inl h
    right
    rw [e]
    exact ⟨hpos, c.slotHead_lt hl hslot⟩
  apply clocked.transfer k.cur k.shift
  intro level hl slot hslot hne
  by_cases e : level * c.kSlots + slot = head
  · exact .inr (hslots level hl slot hslot e)
  left
  rwa [update_of_ne e] at hne

/-! ### Places -/

/-- The lists of the wheel, its free nodes and its armed nodes in no list, with the nodes
`retired`; `busy` is the timer being delivered, and only the nodes of `out` are in no list
otherwise. -/
structure Placed (w : Wheel c P) (lists : ℕ → List ℕ) (frees : List ℕ) (loose : Set ℕ) (T : ℤ)
    (retired : Set ℕ) (busy : Option ExpiryHandle) (out : Set ℕ) : Prop where
  wf : WF w lists frees loose
  clocked : Clocked w lists T
  accounts : Accounts w frees retired
  out_subset : out ⊆ loose
  selfLinked : ∀ i ∈ loose, i ∉ out → w.links.prev i = i ∧ w.links.next i = i
  loose_iff : ∀ i, i ∉ out →
    (i ∈ loose ↔ w.ArmedNode i ∧ busy = some ⟨i, (w.nodes i).generation⟩)
  named : ∀ h, busy = some h →
    c.kFirst ≤ h.id ∧ h.id < c.kFirst + w.capacity ∧ h.generation % 2 = 1
  spent : ∀ h, busy = some h → h.generation ≤ (w.nodes h.id).generation ∨ h.id ∈ retired

section Places

variable {loose loose' retired out : Set ℕ} {w' : Wheel c P} {h : ExpiryHandle}

theorem Aside.placed (A : Aside w lists frees loose busy out) (clocked : Clocked w lists T)
    (accounts : Accounts w frees retired)
    (hnamed : ∀ h, busy = some h →
      c.kFirst ≤ h.id ∧ h.id < c.kFirst + w.capacity ∧ h.generation % 2 = 1)
    (hspent : ∀ h, busy = some h → h.generation ≤ (w.nodes h.id).generation ∨ h.id ∈ retired) :
  Placed w lists frees loose T retired busy out
  := ⟨A.wf, clocked, accounts, A.out_subset, A.selfLinked, A.loose_iff, hnamed, hspent⟩

section

variable (H : Placed w lists frees loose T retired busy out)

include H

theorem Placed.aside : Aside w lists frees loose busy out :=
  { H with }

theorem Placed.transfer {out' : Set ℕ} (A : Aside w' lists' frees loose' busy out')
    (clocked : Clocked w' lists' T) (hgen : ∀ i, (w'.nodes i).generation = (w.nodes i).generation)
    (hcap : w'.capacity = w.capacity) (hcounts : w'.size = w.size ∧ w'.quarantined = w.quarantined) :
  Placed w' lists' frees loose' T retired busy out'
  := by
  apply A.placed clocked (H.accounts.congr hgen hcap hcounts)
  · rw [hcap]
    apply H.named
  intro h hb
  rw [hgen]
  apply H.spent h hb

/-- A change of payloads, deadlines and the like. -/
theorem Placed.congr
    (hlinks : w'.links = w.links) (hgen : ∀ i, (w'.nodes i).generation = (w.nodes i).generation)
    (hcap : w'.capacity = w.capacity) (hshift : w'.shift = w.shift) (hcur : w'.cur = w.cur)
    (hfree : w'.freeHead = w.freeHead) (hocc : w'.occupied = w.occupied)
    (hcounts : w'.size = w.size ∧ w'.quarantined = w.quarantined) :
  Placed w' lists frees loose T retired busy out
  := H.transfer
    (H.aside.congr (H.wf.congr (by simp [hlinks]) hgen hcap hshift hfree hocc) hlinks hgen hcap)
    (H.clocked.transfer hcur hshift fun _ _ _ _ h => .inl h) hgen hcap hcounts

theorem Placed.setDeadline (i : ℕ) (d : c.Tick) :
  Placed (w.setDeadline i d) lists frees loose T retired busy out
  := H.congr (links_setDeadline w i d) (framed_setDeadline w i d).generation rfl rfl rfl rfl rfl
    ⟨rfl, rfl⟩

theorem Placed.setPayload (i : ℕ) (p : P) :
  Placed (w.setPayload i p) lists frees loose T retired busy out
  := H.congr (links_setPayload w i p) (generation_setPayload w i p) rfl rfl rfl rfl rfl ⟨rfl, rfl⟩

end

/-- A node is taken out of its place, to be put into another. -/
theorem Placed.pick (H : Placed w lists frees loose T retired busy ∅) (hi : w.ArmedNode i) :
  ∃ lists', Placed (w.unlink i) lists' frees (insert i loose) T retired busy {i}
    ∧ ∀ h < c.kFirst, lists' h = (lists h).erase i
  := by
  obtain ⟨lists', A, herase⟩ := H.aside.pick hi
  have k := kept_unlink w i
  refine ⟨lists', H.transfer A ?_ k.generation k.capacity (counts_unlink w i), herase⟩
  apply H.clocked.transfer k.cur k.shift
  intro level hl slot hslot hne
  left
  have hlt := c.slotHead_lt hl hslot
  rw [herase _ (c.lt_kFirst hlt)] at hne
  intro e
  rw [e] at hne
  simp at hne

/-- A node taken out is placed, unless it is the one being delivered. -/
theorem Placed.place (H : Placed w lists frees loose T retired busy {i})
    (hb : busy ≠ some ⟨i, (w.nodes i).generation⟩) :
  ∃ head, (diff (w.endOf (w.nodes i).deadline) w.cur ≤ 0 ∧ head = c.kReady
      ∨ 0 < diff (w.endOf (w.nodes i).deadline) w.cur ∧ head < c.kWheelNodes)
    ∧ Placed (w.place i) (update lists head (lists head ++ [i])) frees (loose \ {i}) T
        retired busy ∅
  := by
  obtain ⟨head, hlt, hkind, wf', clocked', hlk⟩ := H.wf.put H.clocked (H.out_subset rfl)
  have k := kept_place w i
  exact ⟨head, hkind, H.transfer (H.aside.place hb wf' hlk) clocked' k.generation k.capacity
    (counts_link _ _ _)⟩

theorem Placed.free (H : Placed w lists frees loose T retired busy {i}) :
  ∃ frees', Placed (w.free i) lists frees' (loose \ {i}) T
    (if (w.nodes i).generation = 2 ^ 32 - 1 then insert i retired else retired) busy ∅
  := by
  have harm := H.wf.armed_of_loose i (H.out_subset rfl)
  have hlt := H.wf.generation_lt i
  have hfi : i ∉ frees := fun hm => H.wf.free_ne_armed hm harm rfl
  have hself := generation_free_self w i
  have hother : ∀ {j}, j ≠ i → (w.free i).nodes j = w.nodes j := nodes_free_of_ne w
  refine ⟨_, H.aside.free.placed ?_ (H.accounts.free harm hlt hfi) ?_ ?_⟩
  · exact H.clocked.transfer (free_cur w i) (free_shift w i) fun _ _ _ _ h => .inl h
  · rw [free_capacity]
    apply H.named
  intro h hb
  have old := H.spent h hb
  by_cases hlast : (w.nodes i).generation = 2 ^ 32 - 1
  · rw [if_pos hlast]
    by_cases e : h.id = i
    · right
      rw [e]
      apply Set.mem_insert
    rw [hother e]
    apply old.imp_right (Set.mem_insert_of_mem _)
  rw [if_neg hlast]
  apply old.imp_left
  intro hle
  by_cases e : h.id = i
  · rw [e] at hle ⊢
    omega
  · rwa [hother e]

/-- The first free node is armed, and is in no list yet. -/
theorem Placed.arm (H : Placed w lists frees loose T retired busy ∅) (hfree : w.freeHead ≠ kNil)
    (d : c.Tick) (p : P) :
  let w' := w.arm w.freeHead d p
  ∃ frees', Placed w' lists frees' (insert w.freeHead loose) T retired busy {w.freeHead}
    ∧ frees = w.freeHead :: frees'
    ∧ (w'.nodes w.freeHead).generation = (w.nodes w.freeHead).generation + 1
    ∧ (∀ j, j ≠ w.freeHead → w'.nodes j = w.nodes j)
    ∧ busy ≠ some ⟨w.freeHead, (w'.nodes w.freeHead).generation⟩
  := by
  obtain ⟨rest, hrest⟩ := H.wf.exists_free hfree
  have A := H.aside
  have accounts := H.accounts
  rw [hrest] at A accounts
  generalize w.freeHead = i at A accounts hrest ⊢
  obtain ⟨hother, hgen, -, -⟩ := nodes_arm A.wf d p
  have hspent : ∀ h, busy = some h → h.id = i → h.generation ≤ (w.nodes i).generation := by
    intro h hb e
    rcases H.spent h hb with hle | hr
    · rwa [e] at hle
    · exact absurd (e ▸ mem_cons_self) (accounts.retired_idle _ hr).2.2.2
  refine ⟨rest, ?_, hrest, hgen, hother, ?_⟩
  · apply (A.arm d p).placed
    case clocked =>
      refine H.clocked.transfer ?_ ?_ fun _ _ _ _ h => .inl h
      · rfl
      · rfl
    case accounts =>
      exact accounts.arm A.wf d p
    case hnamed => apply H.named
    case hspent =>
    intro h hb
    by_cases e : h.id = i
    · left
      have := hspent h hb e
      rw [e]
      omega
    rw [hother _ e]
    apply H.spent h hb
  intro hb
  have hle := hspent _ hb rfl
  dsimp only at hle
  omega

/-- A node taken out is linked to itself: its timer is being delivered. -/
theorem Placed.fire (H : Placed w lists frees loose T retired none {i}) :
  Placed ((w.setPrev i i).setNext i i) lists frees loose T retired
    (some ⟨i, (w.nodes i).generation⟩) ∅
  := by
  have k : Kept w ((w.setPrev i i).setNext i i) := (kept_setPrev w i i).trans (kept_setNext _ i i)
  apply H.aside.fire.placed
  case clocked => exact H.clocked.transfer k.cur k.shift fun _ _ _ _ h => .inl h
  case accounts => apply H.accounts.congr k.generation k.capacity ⟨rfl, rfl⟩
  case hnamed =>
    rintro h ⟨⟩
    apply H.wf.armed_of_loose i (H.out_subset rfl)
  case hspent =>
  rintro h ⟨⟩
  left
  rw [k.generation]

/-- After the callback the delivered timer is armed again or disarmed, if it is still the one
the node is armed for. -/
def settled (w : Wheel c P) (h : ExpiryHandle) (again : Option c.Tick) : Wheel c P :=
  if (w.nodes h.id).generation = h.generation then
    match again with
    | some deadline => (w.setDeadline h.id deadline).place h.id
    | none => w.free h.id
  else w

/-- The callback returned, and the node of its timer is still the one being delivered. -/
theorem Placed.release (H : Placed w lists frees loose T retired (some h) ∅)
    (hg : (w.nodes h.id).generation = h.generation) :
  Placed w lists frees loose T retired none {h.id}
  := by
  obtain ⟨hlo, hhi, hodd⟩ := H.named h rfl
  have hl := (H.loose_iff h.id (Set.notMem_empty _)).mpr ⟨⟨hlo, hhi, hg ▸ hodd⟩, by rw [hg]⟩
  exact (H.aside.release hl).placed H.clocked H.accounts nofun nofun

/-- The callback returned, and its timer is gone. -/
theorem Placed.finish (H : Placed w lists frees loose T retired (some h) ∅)
    (hg : (w.nodes h.id).generation ≠ h.generation) :
  Placed w lists frees loose T retired none ∅
  := (H.aside.finish hg).placed H.clocked H.accounts nofun nofun

theorem Placed.arrive (H : Placed w lists frees loose T retired none ∅)
    (hE : IsLeast (w.starts lists T c.levels) E) :
  ∃ lists', Placed (w.arrive (tick c E)) lists' frees loose E retired none ∅
    ∧ (lists' c.kReady ≠ [] ∨ lists' c.kMoving ≠ [])
    ∧ Kept { w with cur := tick c E } (w.arrive (tick c E))
  := by
  have hempty : loose = ∅ := by
    apply Set.eq_empty_of_forall_notMem
    intro j hj
    have := ((H.loose_iff j (Set.notMem_empty j)).mp hj).2
    simp at this
  subst hempty
  obtain ⟨level, hl, hmem⟩ := hE.1
  obtain ⟨hTE, -, hdvd⟩ := levelStarts_bounds H.wf.shift_le hl hmem
  obtain ⟨lists', wf', k, hslots, hwork⟩ := H.wf.arrive hE
  refine ⟨lists', ?_, hwork, k⟩
  constructor
  case wf => apply wf'
  case clocked => apply H.clocked.elapse hTE.le hdvd k.cur k.shift hslots
  case accounts => apply H.accounts.congr k.generation k.capacity (counts_arrive w _)
  case out_subset | selfLinked | loose_iff => simp
  case named | spent => intro _ e; cases e

/-- The wheel time moves on, no event being passed. -/
theorem Placed.elapse (H : Placed w lists frees loose T retired none ∅) (hT : T ≤ E)
    (hdvd : (2 : ℤ) ^ w.shift ∣ E) (hlate : ∀ E' ∈ w.starts lists T c.levels, E < E') :
  Placed { w with cur := tick c E } lists frees loose E retired none ∅
  where
  wf := H.wf.congr (fun _ _ => ⟨rfl, rfl⟩) (fun _ => rfl) rfl rfl rfl rfl
  clocked := by
    refine H.clocked.elapse hT hdvd rfl rfl ?_
    intro level hl slot hslot i hi
    refine ⟨hi, fun q hq => ?_⟩
    apply hlate
    exact ⟨level, hl, slot, hslot, ne_nil_of_mem hi, q, hq, rfl⟩
  accounts := H.accounts.congr (fun _ => rfl) rfl ⟨rfl, rfl⟩
  __ := H

/-! ### Steps -/

/-- What a run records: a timer is scheduled, a timer has ended. -/
inductive Event
  | scheduled (h : ExpiryHandle)
  | ended (h : ExpiryHandle)
deriving DecidableEq

/-- What a call with its answer adds to the record. -/
def eventsOf : Call c.Tick P → Answer → List Event
  | .schedule _ _, .handle h => if h = kNoExpiry then [] else [.scheduled h]
  | .cancel h, .flag true => [.ended h]
  | _, _ => []

/-- The last generation of a node: a timer armed with it is the last one of the node. -/
def lastGeneration : ℕ := 2 ^ 32 - 1

/-- The nodes whose last timer has ended. -/
def retiredBy (tr : List Event) : Set ℕ := { i | .ended ⟨i, lastGeneration⟩ ∈ tr }

/-- What the events of a step say about the generations. -/
inductive Effect (w w' : Wheel c P) (retired : Set ℕ) : List Event → Prop
  | quiet (hgen : ∀ j, (w'.nodes j).generation = (w.nodes j).generation) : Effect w w' retired []
  | scheduled (h : ExpiryHandle) (hlo : c.kFirst ≤ h.id) (hhi : h.id < c.kFirst + w.capacity)
      (heven : (w.nodes h.id).generation % 2 = 0) (hr : h.id ∉ retired)
      (hh : h.generation = (w.nodes h.id).generation + 1)
      (hself : (w'.nodes h.id).generation = h.generation)
      (hother : ∀ j, j ≠ h.id → (w'.nodes j).generation = (w.nodes j).generation) :
      Effect w w' retired [.scheduled h]
  | ended (h : ExpiryHandle) (harm : w.ArmedNode h.id)
      (hg : (w.nodes h.id).generation = h.generation)
      (hself : (w'.nodes h.id).generation = (h.generation + 1) % 2 ^ 32)
      (hother : ∀ j, j ≠ h.id → (w'.nodes j).generation = (w.nodes j).generation) :
      Effect w w' retired [.ended h]

/-- A step leaves every node in a place, and its events say what it did. -/
structure Good (w : Wheel c P) (retired : Set ℕ) (evs : List Event) (busy : Option ExpiryHandle)
    (T : ℤ) (w' : Wheel c P) : Prop where
  placed : ∃ lists frees loose, Placed w' lists frees loose T (retired ∪ retiredBy evs) busy ∅
  effect : Effect w w' retired evs
  fixed : Fixed w w'

theorem retiredBy_nil : retiredBy [] = ∅ := by
  simp [retiredBy]

theorem retiredBy_scheduled (h : ExpiryHandle) : retiredBy [.scheduled h] = ∅ := by
  simp [retiredBy]

theorem union_retiredBy_ended (retired : Set ℕ) (i g : ℕ) :
  retired ∪ retiredBy [.ended ⟨i, g⟩] = if g = 2 ^ 32 - 1 then insert i retired else retired
  := by
  ext j
  rw [Set.mem_union, retiredBy, Set.mem_ofPred_eq, mem_singleton, Event.ended.injEq,
    ExpiryHandle.mk.injEq, lastGeneration]
  split
  case isTrue h => simp [h, or_comm]
  case isFalse h =>
  apply or_iff_left
  rintro ⟨-, e⟩
  exact h e.symm

theorem union_retiredBy_append (tr evs : List Event) :
  retiredBy (tr ++ evs) = retiredBy tr ∪ retiredBy evs
  := by
  ext i
  simp [retiredBy]

/-- A change of links and deadlines that ends and schedules nothing. -/
theorem Good.of_quiet {frees' : List ℕ} {busy' : Option ExpiryHandle} {T' : ℤ}
    (H : Placed w' lists' frees' loose' T' retired busy' ∅)
    (hgen : ∀ j, (w'.nodes j).generation = (w.nodes j).generation) (hfix : Fixed w w') :
  Good w retired [] busy' T' w'
  where
  placed := by
    rw [retiredBy_nil, Set.union_empty]
    exact ⟨lists', frees', loose', H⟩
  effect := .quiet hgen
  fixed := hfix

theorem Placed.freed (H : Placed w lists frees loose T retired busy {i}) :
  Good w retired [.ended ⟨i, (w.nodes i).generation⟩] busy T (w.free i)
  := by
  obtain ⟨frees', H'⟩ := H.free
  constructor
  case placed =>
    rw [union_retiredBy_ended]
    exact ⟨lists, frees', _, H'⟩
  case fixed => exact ⟨free_shift w i, free_capacity w i⟩
  case effect =>
  apply Effect.ended
  case harm => apply H.wf.armed_of_loose i (H.out_subset rfl)
  case hg => rfl
  case hself => apply generation_free_self
  case hother =>
  intro j hne
  rw [nodes_free_of_ne w hne]

section

variable (H : Placed w lists frees loose T retired busy ∅)

include H

theorem Placed.schedule (d : c.Tick) (p : P) :
  Good w retired (eventsOf (.schedule d p) (.handle (w.schedule d p).2)) busy T (w.schedule d p).1
    ∧ ((w.schedule d p).2 = kNoExpiry → (w.schedule d p).1 = w)
  := by
  rw [Wheel.schedule]
  by_cases hfull : w.freeHead = kNil
  · rw [if_pos hfull]
    refine ⟨?_, fun _ => rfl⟩
    apply Good.of_quiet H (fun _ => rfl) (Fixed.refl w)
  rw [if_neg hfull]
  obtain ⟨frees', H₁, hfrees, hgen, hother, hb⟩ := H.arm hfull d p
  set i := w.freeHead with hi
  set w₁ := w.arm i d p
  obtain ⟨head, -, H₂⟩ := H₁.place hb
  have k := kept_place w₁ i
  have hmem : i ∈ frees := hfrees ▸ mem_cons_self
  obtain ⟨hlo, hhi, heven⟩ := H.wf.free_of_mem i hmem
  have hne := ne_kNoExpiry hlo ((w₁.place i).nodes i).generation
  change Good w retired (if (⟨i, ((w₁.place i).nodes i).generation⟩ : ExpiryHandle) = kNoExpiry
      then [] else [.scheduled ⟨i, ((w₁.place i).nodes i).generation⟩]) busy T (w₁.place i)
    ∧ ((⟨i, ((w₁.place i).nodes i).generation⟩ : ExpiryHandle) = kNoExpiry → w₁.place i = w)
  rw [if_neg hne]
  refine ⟨?_, fun e => absurd e hne⟩
  constructor
  case placed =>
    rw [retiredBy_scheduled, Set.union_empty]
    exact ⟨_, _, _, H₂⟩
  case fixed => exact ⟨k.shift, k.capacity⟩
  case effect =>
  apply Effect.scheduled
  case hlo => apply hlo
  case hhi => apply hhi
  case heven => apply heven
  case hr =>
    intro hr
    apply (H.accounts.retired_idle i hr).2.2.2 hmem
  case hh => exact (k.generation i).trans hgen
  case hself => rfl
  case hother =>
  intro j hj
  rw [k.generation, hother j hj]

/-- The node of a timer that is armed and not being delivered is in a list. -/
theorem Placed.refused_iff (h : ExpiryHandle) :
  (!w.resolves h || w.delivering h.id) = false
    ↔ w.ArmedNode h.id ∧ (w.nodes h.id).generation = h.generation ∧ busy ≠ some h
  := by
  rw [Bool.or_eq_false_iff, Bool.not_eq_false', resolves_iff, and_assoc]
  refine and_congr_right fun harm => and_congr_right fun hg => ?_
  have hloose := H.loose_iff h.id (Set.notMem_empty _)
  rw [hg] at hloose
  rw [← Bool.not_eq_true, H.aside.delivering_iff harm, hloose]
  simp [harm]

/-- A timer that is not being delivered gets a new deadline, moved or not. -/
theorem Placed.moveTo (harm : w.ArmedNode i)
    (hb : busy ≠ some ⟨i, (w.nodes i).generation⟩) (d : c.Tick) :
  Good w retired [] busy T (w.moveTo i d)
  := by
  have f := framed_setDeadline w i d
  have H₁ := H.setDeadline i d
  rw [Wheel.moveTo]
  split
  · apply Good.of_quiet H₁ f.generation ⟨rfl, rfl⟩
  obtain ⟨lists₂, H₂, -⟩ := H₁.pick ((f.armedNode_iff i).mpr harm)
  have k := kept_unlink (w.setDeadline i d) i
  obtain ⟨head, -, H₃⟩ := H₂.place (by rwa [k.generation, f.generation])
  have f' := (f.trans k.framed).trans (kept_place _ i).framed
  apply Good.of_quiet H₃ f'.generation ⟨f'.shift, f'.capacity⟩

theorem Placed.reschedule (h : ExpiryHandle) (d : c.Tick) (p : P) :
  Good w retired [] busy T (w.reschedule h d p).1
    ∧ (.flag (w.reschedule h d p).2 = Answer.handle kNoExpiry
      ∨ Answer.flag (w.reschedule h d p).2 = .flag false → (w.reschedule h d p).1 = w)
  := by
  rw [Wheel.reschedule]
  cases hr : (!w.resolves h || w.delivering h.id) with
  | true => exact ⟨Good.of_quiet H (fun _ => rfl) (Fixed.refl w), fun _ => rfl⟩
  | false =>
  obtain ⟨harm, hg, hb⟩ := (H.refused_iff h).mp hr
  have hgen := generation_setPayload w h.id p
  have harm' : (w.setPayload h.id p).ArmedNode h.id := by
    rw [ArmedNode, hgen]
    apply harm
  obtain ⟨⟨lists', frees', loose', H'⟩, heff, hfix⟩ :=
    (H.setPayload h.id p).moveTo harm' (by rwa [hgen, hg]) d
  rw [retiredBy_nil, Set.union_empty] at H'
  cases heff with
  | quiet hgen' =>
  refine ⟨Good.of_quiet H' (fun j => (hgen' j).trans (hgen j)) ?_, by simp⟩
  exact ⟨hfix.shift, hfix.capacity⟩

/-- Every call leaves the nodes in their places, and one that is refused changes nothing. -/
theorem Placed.exec (call : Call c.Tick P) :
  Good w retired (eventsOf call (w.exec call).2) busy T (w.exec call).1
    ∧ ((w.exec call).2 = .handle kNoExpiry ∨ (w.exec call).2 = .flag false → (w.exec call).1 = w)
  := by
  have hquiet : Good w retired [] busy T w := Good.of_quiet H (fun _ => rfl) (Fixed.refl w)
  cases call with
  | schedule d p =>
    obtain ⟨h₁, h₂⟩ := H.schedule d p
    refine ⟨h₁, ?_⟩
    rintro (e | e)
    · apply h₂ (Answer.handle.inj e)
    · cases e
  | refresh h d =>
    change Good w retired [] busy T (w.refresh h d).1
      ∧ (Answer.flag (w.refresh h d).2 = _ ∨ Answer.flag (w.refresh h d).2 = _ →
        (w.refresh h d).1 = w)
    rw [refresh_eq_reschedule]
    apply H.reschedule
  | reschedule h d p => apply H.reschedule
  | cancel h =>
  change Good w retired (eventsOf (.cancel h) (.flag (w.cancel h).2)) busy T (w.cancel h).1
    ∧ (Answer.flag (w.cancel h).2 = _ ∨ Answer.flag (w.cancel h).2 = _ → (w.cancel h).1 = w)
  rw [Wheel.cancel]
  cases hr : w.resolves h with
  | false => exact ⟨hquiet, fun _ => rfl⟩
  | true =>
  obtain ⟨harm, hg⟩ := (resolves_iff w h).mp hr
  obtain ⟨lists₁, H₁, -⟩ := H.pick harm
  have k := kept_unlink w h.id
  obtain ⟨hplaced, heff, hfix⟩ := H₁.freed
  rw [k.generation, hg] at hplaced heff
  refine ⟨⟨hplaced, ?_, hfix.shift.trans k.shift, hfix.capacity.trans k.capacity⟩, by simp⟩
  cases heff with
  | ended _ _ _ hself hother =>
  apply Effect.ended h harm hg hself
  intro j hj
  rw [hother j hj, k.generation]

end

end Places

/-! ### Runs -/

/-- Whether a node of the due list is due: its rounded deadline is not after the wheel time. -/
def due (w : Wheel c P) (index : ℕ) : Prop :=
  ¬ 0 < diff (w.endOf (w.nodes index).deadline) w.cur

/-- The steps of a wheel while `busy` is being delivered: a call of the owner or of the callback,
and what the loop of `Poll` does between calls. -/
inductive Step : Option ExpiryHandle → Wheel c P → List Event → Option ExpiryHandle → Wheel c P →
    Prop
  | call (busy : Option ExpiryHandle) (w : Wheel c P) (call : Call c.Tick P) :
      Step busy w (eventsOf call (w.exec call).2) busy (w.exec call).1
  -- The first node of the due list is delivered, or placed again if it is not due.
  | fire {w w' : Wheel c P} {i : ℕ} (hp : w.pending c.kReady = true)
      (hi : i = (w.nodes c.kReady).next) (hw' : w' = w.unlink i) (hdue : w'.due i) :
      Step none w [] (some ⟨i, (w'.nodes i).generation⟩) ((w'.setPrev i i).setNext i i)
  | late {w w' : Wheel c P} {i : ℕ} (hp : w.pending c.kReady = true)
      (hi : i = (w.nodes c.kReady).next) (hw' : w' = w.unlink i) (hdue : ¬ w'.due i) :
      Step none w [] none (w'.place i)
  -- The callback returns.
  | settle (w : Wheel c P) (h : ExpiryHandle) (again : Option c.Tick) :
      Step (some h) w
        (if (w.nodes h.id).generation = h.generation ∧ again = none then [.ended h] else [])
        none (w.settled h again)
  | move {w : Wheel c P} {i : ℕ} (hr : w.pending c.kReady = false)
      (hp : w.pending c.kMoving = true) (hi : i = (w.nodes c.kMoving).next) :
      Step none w [] none ((w.unlink i).place i)
  | arrive {w : Wheel c P} {dist : c.Tick} (hr : w.pending c.kReady = false)
      (hm : w.pending c.kMoving = false) (he : w.nextEvent = some dist) :
      Step none w [] none (w.arrive (w.cur + dist))
  -- The wheel moves to the time of the poll, with no event up to it.
  | elapse {w : Wheel c P} {target : c.Tick} (ht : target &&& unitMask c w.shift = 0)
      (he : ∀ dist, w.nextEvent = some dist → ¬ dist ≤ target - w.cur) :
      Step none w [] none { w with cur := target }

section Steps

variable {w w' : Wheel c P} {busy busy' : Option ExpiryHandle} {evs : List Event}

theorem Placed.nextEvent_cur (H : Placed w lists frees loose T retired busy ∅) {dist : c.Tick}
    (he : w.nextEvent = some dist) :
  ∃ E, IsLeast (w.starts lists T c.levels) E ∧ w.cur + dist = tick c E
    ∧ (dist.toNat : ℤ) = E - T ∧ T < E
  := by
  rcases nextEvent_spec H.wf H.clocked with ⟨hev, -⟩ | ⟨E, hev, hE⟩
  · rw [hev] at he
    cases he
  rw [hev] at he
  obtain ⟨level, hl, hmem⟩ := hE.1
  obtain ⟨hTE, hnear, -⟩ := levelStarts_bounds H.wf.shift_le hl hmem
  rw [← Option.some.inj he]
  refine ⟨E, hE, ?_, toNat_dist hTE hnear, hTE⟩
  rw [H.clocked.cur_eq, ← ofInt_sub, ← BitVec.ofInt_add, add_sub_cancel]

/-- The wheel time is a multiple of the wheel's tick. -/
theorem and_unitMask_eq_zero_iff (hs : w.shift ≤ c.kMaxGranularityShift) (t : ℤ) :
  tick c t &&& unitMask c w.shift = 0 ↔ (2 : ℤ) ^ w.shift ∣ t
  := by
  rw [unitMask, ofInt_and_mask (shift_lt hs).le, ofInt_emod_eq_zero_iff (shift_lt hs).le,
    Int.dvd_iff_emod_eq_zero]

theorem Placed.replace (H : Placed w lists frees loose T retired none ∅) (hi : w.ArmedNode i) :
  Good w retired [] none T ((w.unlink i).place i)
  := by
  obtain ⟨lists₁, H₁, -⟩ := H.pick hi
  have k := (kept_unlink w i).trans (kept_place _ i)
  obtain ⟨head, -, H₂⟩ := H₁.place (by simp)
  exact Good.of_quiet H₂ k.generation k.fixed

theorem Step.good (s : Step busy w evs busy' w')
    (H : Placed w lists frees loose T retired busy ∅) :
  ∃ T', Good w retired evs busy' T' w'
  := by
  cases s with
  | call _ _ call => exact ⟨T, (H.exec call).1⟩
  | @fire _ u i hp hi hu hdue =>
    have harm := H.wf.armed_next c.kReady_lt hp
    rw [← hi] at harm
    obtain ⟨lists₁, H₁, -⟩ := H.pick harm
    have k := kept_unlink w i
    have k' := (kept_setPrev u i i).trans (kept_setNext _ i i)
    rw [← hu] at k H₁
    have k'' := k.trans k'
    exact ⟨T, Good.of_quiet H₁.fire k''.generation k''.fixed⟩
  | @late _ u i hp hi hu hdue =>
    rw [hu, hi]
    exact ⟨T, H.replace (H.wf.armed_next c.kReady_lt hp)⟩
  | settle _ h again =>
    rw [settled.eq_def]
    by_cases hg : (w.nodes h.id).generation = h.generation
    · have hh : (⟨h.id, (w.nodes h.id).generation⟩ : ExpiryHandle) = h := by rw [hg]
      have H₁ := H.release hg
      rw [if_pos hg]
      cases again with
      | some d =>
        rw [if_neg (by simp)]
        have f := (framed_setDeadline w h.id d).trans (kept_place _ h.id).framed
        obtain ⟨head, -, H₂⟩ := (H₁.setDeadline h.id d).place (by simp)
        exact ⟨T, Good.of_quiet H₂ f.generation ⟨f.shift, f.capacity⟩⟩
      | none =>
      have := H₁.freed
      rw [hh] at this
      rw [if_pos ⟨hg, rfl⟩]
      exact ⟨T, this⟩
    rw [if_neg hg, if_neg (fun h => hg h.1)]
    exact ⟨T, Good.of_quiet (H.finish hg) (fun _ => rfl) (Fixed.refl w)⟩
  | @move _ i hr hp hi =>
    rw [hi]
    exact ⟨T, H.replace (H.wf.armed_next c.kMoving_lt hp)⟩
  | arrive hr hm he =>
    obtain ⟨E, hE, hcur, -, -⟩ := H.nextEvent_cur he
    rw [hcur]
    obtain ⟨lists', H', -, k⟩ := H.arrive hE
    exact ⟨E, Good.of_quiet H' k.generation ⟨k.shift, k.capacity⟩⟩
  | @elapse _ t ht he =>
  have ht' : t = tick c (T + (t - w.cur).toNat) := by
    rw [tick, BitVec.ofInt_add, ← H.clocked.cur_eq, BitVec.ofInt_natCast, BitVec.ofNat_toNat,
      BitVec.setWidth_eq, BitVec.add_comm, BitVec.sub_add_cancel]
  have hdvd : (2 : ℤ) ^ w.shift ∣ T + (t - w.cur).toNat := by
    rw [← and_unitMask_eq_zero_iff H.wf.shift_le, ← ht', ht]
  have hlate : ∀ E' ∈ w.starts lists T c.levels, T + (t - w.cur).toNat < E' := by
    intro E' hE'
    rcases nextEvent_spec H.wf H.clocked with ⟨-, hnone⟩ | ⟨E, hev, hE⟩
    · rw [hnone] at hE'
      cases hE'
    obtain ⟨E₁, hE₁, -, hd, -⟩ := H.nextEvent_cur hev
    have hlt := he _ hev
    rw [BitVec.le_def] at hlt
    have := hE₁.2 hE'
    omega
  have H' := H.elapse (by omega) hdvd hlate
  rw [← ht'] at H'
  exact ⟨_, Good.of_quiet H' (fun _ => rfl) ⟨rfl, rfl⟩⟩

end Steps

/-- Steps one after another, with what they record. -/
inductive Steps : Option ExpiryHandle → Wheel c P → List Event → Option ExpiryHandle → Wheel c P →
    Prop
  | refl (busy : Option ExpiryHandle) (w : Wheel c P) : Steps busy w [] busy w
  | tail {busy busy' busy'' : Option ExpiryHandle} {w w' w'' : Wheel c P} {tr evs : List Event} :
      Steps busy w tr busy' w' → Step busy' w' evs busy'' w'' → Steps busy w (tr ++ evs) busy'' w''

/-- Every node of the wheel is in its place, the nodes retired being those the record says. -/
def Intact (tr : List Event) (busy : Option ExpiryHandle) (w : Wheel c P) : Prop :=
  ∃ lists frees loose T, Placed w lists frees loose T (retiredBy tr) busy ∅

section Runs

variable {w w' w'' : Wheel c P} {busy busy' busy'' : Option ExpiryHandle} {tr tr' evs : List Event}
  {target : c.Tick}

theorem Step.single (s : Step busy w evs busy' w') : Steps busy w evs busy' w' :=
  .tail (.refl busy w) s

theorem Steps.trans (h : Steps busy w tr busy' w') (h' : Steps busy' w' tr' busy'' w'') :
  Steps busy w (tr ++ tr') busy'' w''
  := by
  induction h' with
  | refl => rwa [append_nil]
  | tail _ s ih =>
  rw [← append_assoc]
  apply Steps.tail (ih h) s

theorem Intact.step (H : Intact tr busy w) (s : Step busy w evs busy' w') :
  Intact (tr ++ evs) busy' w' ∧ Effect w w' (retiredBy tr) evs ∧ Fixed w w'
  := by
  obtain ⟨lists, frees, loose, T, H⟩ := H
  obtain ⟨T', ⟨lists', frees', loose', H'⟩, heff, hfix⟩ := s.good H
  rw [← union_retiredBy_append] at H'
  exact ⟨⟨lists', frees', loose', T', H'⟩, heff, hfix⟩

theorem Intact.steps (H : Intact tr busy w) (h : Steps busy w evs busy' w') :
  Intact (tr ++ evs) busy' w' ∧ Fixed w w'
  := by
  induction h with
  | refl =>
    rw [append_nil]
    exact ⟨H, Fixed.refl _⟩
  | tail _ s ih =>
  obtain ⟨H₁, hfix₁⟩ := ih H
  obtain ⟨H₂, -, hfix₂⟩ := H₁.step s
  rw [append_assoc] at H₂
  exact ⟨H₂, hfix₁.trans hfix₂⟩

/-- A new wheel has every node on its free list. -/
theorem intact_create [Inhabited P] {capacity shift : ℕ} {start : c.Tick}
    (h : Wheel.create c capacity start shift = .ok w) :
  Intact [] none w
  := by
  have hstart : start = tick c start.toInt := BitVec.ofInt_toInt.symm
  have h' := h
  rw [hstart] at h'
  obtain ⟨H, -⟩ := holds_create h'
  have hempty : w.capacity = capacity ∧ w.size = 0 ∧ w.quarantined = 0
      ∧ ∀ i, (w.nodes i).generation = 0 := by
    rw [Wheel.create] at h
    split at h
    · cases h
    split at h
    · cases h
    cases h
    exact ⟨rfl, rfl, rfl, fun _ => rfl⟩
  obtain ⟨hcap, hsize, hquar, hgen⟩ := hempty
  refine ⟨_, _, _, _, H.wf, H.timed.clocked, ?_, Set.empty_subset _, by simp, by simp, ?_, ?_⟩
  · constructor
    case idle =>
      intro i hlo hhi _ hf
      apply absurd _ hf
      rw [hcap] at hhi
      exact mem_range'_1.mpr ⟨hlo, hhi⟩
    case retired_idle =>
      intro i hi
      cases hi
    case size_eq =>
      rw [hsize, armedNodes]
      simp [hgen]
    case total_eq =>
    rw [length_range']
    omega
  · intro _ e
    cases e
  intro _ e
  cases e

theorem execAll_steps (busy : Option ExpiryHandle) :
    ∀ (calls : List (Call c.Tick P)) (w : Wheel c P),
      ∃ tr, Steps busy w tr busy (w.execAll calls).1
  | [], w => ⟨[], .refl busy w⟩
  | call :: calls, w => by
    obtain ⟨tr, h⟩ := execAll_steps busy calls (w.exec call).1
    exact ⟨_, (Step.call busy w call).single.trans h⟩

theorem workOne_steps (fn : Callback c.Tick P) (s : Progress c P) (hw : s.wheel.working = true) :
  ∃ tr, Steps none s.wheel tr none (workOne fn s).wheel
  := by
  rw [workOne]
  cases hr : s.wheel.pending c.kReady with
  | false =>
    rw [working, hr] at hw
    exact ⟨[], (Step.move hr hw rfl).single⟩
  | true =>
  rw [if_pos rfl, deliver]
  split
  case isTrue hlate => exact ⟨[], (Step.late hr rfl rfl (not_not.mpr hlate)).single⟩
  case isFalse hdue =>
  have hfire := (Step.fire hr rfl rfl hdue).single
  obtain ⟨tr, hcalls⟩ := execAll_steps _ _ _
  exact ⟨_, (hfire.trans hcalls).trans (Step.settle _ _ _).single⟩

/-- With no work left the wheel arrives at an event that brings work. -/
theorem Intact.arrival (H : Intact tr none w) (hidle : w.working = false)
    (ha : w.arrival target = some w') :
  Step none w [] none w' ∧ w'.working = true
  := by
  obtain ⟨dist, he, ha⟩ := Option.bind_eq_some_iff.mp ha
  obtain ⟨_, ha⟩ | ⟨-, ⟨⟩⟩ := ite_eq_iff.mp ha
  cases ha
  rw [working, Bool.or_eq_false_iff] at hidle
  refine ⟨Step.arrive hidle.1 hidle.2 he, ?_⟩
  obtain ⟨lists, frees, loose, T, H⟩ := H
  obtain ⟨E, hE, hcur, -, -⟩ := H.nextEvent_cur he
  rw [hcur]
  obtain ⟨lists', H', hwork, -⟩ := H.arrive hE
  rw [working, Bool.or_eq_true, H'.wf.pending_iff c.kReady_lt, H'.wf.pending_iff c.kMoving_lt]
  apply hwork

/-- With no event up to the target, the wheel moves there. -/
theorem elapse_steps (ht : target &&& unitMask c w.shift = 0) (ha : w.arrival target = none) :
  Steps none w [] none { w with cur := target }
  := by
  apply Step.single
  apply Step.elapse ht
  intro dist he hle
  rw [Wheel.arrival, he, Option.bind_some, if_pos hle] at ha
  cases ha

/-- The loop of a poll ends within its fuel, and is a run of steps. -/
theorem pollLoop_steps (target : c.Tick) (budget : ℕ) (fn : Callback c.Tick P) {fuel : ℕ}
    {s : Progress c P} (H : Intact tr none s.wheel) (ht : target &&& unitMask c s.wheel.shift = 0)
    (hwork : s.work ≤ budget)
    (hfuel : 2 * (budget - s.work) + (if s.wheel.working then 1 else 2) ≤ fuel) :
  ∃ s' tr', pollLoop target budget fn fuel s = some s' ∧ Steps none s.wheel tr' none s'.wheel
  := by
  obtain ⟨s₁, ⟨tr₁, h₁⟩, he | ⟨-, ha, he⟩⟩ :=
    pollLoop_rule target budget fn (fun s' => ∃ tr', Steps none s.wheel tr' none s'.wheel)
      (fun s' ⟨_, h⟩ hw => (workOne_steps fn s' hw).imp' _ fun _ h' => h.trans h')
      (fun s' w' ⟨_, h⟩ hidle ha =>
        ((H.steps h).1.arrival hidle ha).imp_left fun st => ⟨_, h.trans st.single⟩)
      fuel ⟨[], .refl _ _⟩ hwork hfuel
  · exact ⟨_, tr₁, he, h₁⟩
  refine ⟨_, _, he, h₁.trans (elapse_steps ?_ ha)⟩
  rwa [(H.steps h₁).2.shift]

/-- The target of a poll is a multiple of the wheel's tick. -/
theorem Intact.target_aligned (H : Intact tr busy w) (now : c.Tick) :
  w.target now &&& unitMask c w.shift = 0
  := by
  obtain ⟨lists, frees, loose, T, H⟩ := H
  rw [target]
  split
  · rw [H.clocked.cur_eq, and_unitMask_eq_zero_iff H.wf.shift_le]
    apply H.clocked.dvd
  rw [BitVec.and_assoc, BitVec.and_comm (~~~_), BitVec.and_not_self]
  apply BitVec.and_zero

theorem Intact.poll (H : Intact tr none w) (now : c.Tick) (budget : ℕ) (fn : Callback c.Tick P) :
  ∃ s tr', w.poll now budget fn = some s ∧ Steps none w tr' none s.wheel
  := by
  rw [Wheel.poll]
  by_cases hb : budget = 0
  · rw [if_pos hb]
    exact ⟨_, [], rfl, .refl _ _⟩
  rw [if_neg hb]
  have hfuel : 2 * (budget - 0) + (if w.working then 1 else 2) ≤ 2 * budget + 2 := by
    split <;> omega
  exact pollLoop_steps (w.target now) budget fn H (H.target_aligned now) (Nat.zero_le _) hfuel

end Runs

/-! ### Each node in one place -/

/-- The places of a node: the free list, the list of a head (a slot of a level, the due list or
the moving list), delivery, and retirement. -/
inductive Place
  | free
  | list (head : ℕ)
  | delivery
  | retired
deriving DecidableEq

/-- The node is in the place. It is retired when the timer of its last generation has ended. -/
def Located (w : Wheel c P) (lists : ℕ → List ℕ) (frees : List ℕ) (tr : List Event)
    (busy : Option ExpiryHandle) (i : ℕ) : Place → Prop
  | .free => i ∈ frees
  | .list head => head < c.kFirst ∧ i ∈ lists head
  | .delivery => busy = some ⟨i, (w.nodes i).generation⟩
  | .retired => .ended ⟨i, lastGeneration⟩ ∈ tr

/-- The lists are doubly linked, the free list is linked, every node is in one place, the
occupancy bits tell which slots have members, and the size is the number of armed nodes, which
are those in a list or in delivery. -/
structure Arranged (w : Wheel c P) (lists : ℕ → List ℕ) (frees : List ℕ) (tr : List Event)
    (busy : Option ExpiryHandle) : Prop where
  doublyLinked : ∀ head < c.kFirst, w.links.Loop head (lists head)
  freeLinked : Stack w.links.next w.freeHead frees ∧ frees.Nodup
  place : ∀ i, c.kFirst ≤ i → i < c.kFirst + w.capacity →
    ∃! place, Located w lists frees tr busy i place
  armed : ∀ i place, Located w lists frees tr busy i place →
    c.kFirst ≤ i ∧ i < c.kFirst + w.capacity
      ∧ (i ∈ w.armedNodes ↔ place ≠ .free ∧ place ≠ .retired)
  occupied : ∀ level < c.levels, ∀ slot < c.kSlots,
    (w.occupied level).getLsbD slot = true ↔ lists (level * c.kSlots + slot) ≠ []
  size : w.size = w.armedNodes.card

section Arranging

variable {tr : List Event}

section

variable (H : Placed w lists frees loose T (retiredBy tr) busy ∅) {place : Place}

include H

/-- A node in a place is a timer, and its generation is odd in the places of armed ones. -/
theorem Placed.parity (hl : Located w lists frees tr busy i place) :
  c.kFirst ≤ i ∧ i < c.kFirst + w.capacity
    ∧ ((w.nodes i).generation % 2 = 1 ↔ place ≠ .free ∧ place ≠ .retired)
  := by
  cases place with
  | free =>
    obtain ⟨h₁, h₂, h₃⟩ := H.wf.free_of_mem i hl
    exact ⟨h₁, h₂, by simp [h₃]⟩
  | list head =>
    obtain ⟨h₁, h₂, h₃⟩ := H.wf.armed_of_mem head hl.1 i hl.2
    exact ⟨h₁, h₂, by simp [h₃]⟩
  | delivery =>
    obtain ⟨h₁, h₂, h₃⟩ := H.named _ hl
    exact ⟨h₁, h₂, by simp [h₃]⟩
  | retired =>
  obtain ⟨h₁, h₂, h₃, -⟩ := H.accounts.retired_idle i hl
  exact ⟨h₁, h₂, by simp [h₃]⟩

theorem Placed.place_unique {place' : Place} (hl : Located w lists frees tr busy i place)
    (hl' : Located w lists frees tr busy i place') :
  place = place'
  := by
  have hp := (H.parity hl).2.2.symm.trans (H.parity hl').2.2
  -- Retired nodes are not free, and no list holds the node in delivery.
  have hfree : i ∈ frees → ¬ Event.ended ⟨i, lastGeneration⟩ ∈ tr := by
    intro hf hr
    apply (H.accounts.retired_idle i hr).2.2.2 hf
  have hdel : busy = some ⟨i, (w.nodes i).generation⟩ → ∀ head < c.kFirst, i ∉ lists head := by
    intro hb
    obtain ⟨h₁, h₂, h₃⟩ := H.named _ hb
    apply H.wf.loose_apart
    apply (H.loose_iff i (Set.notMem_empty i)).mpr ⟨⟨h₁, h₂, h₃⟩, hb⟩
  cases place with
  | free =>
    cases place' with
    | free => rfl
    | list | delivery => simp at hp
    | retired => exact absurd hl' (hfree hl)
  | retired =>
    cases place' with
    | free => exact absurd hl (hfree hl')
    | list | delivery => simp at hp
    | retired => rfl
  | delivery =>
    cases place' with
    | free => simp at hp
    | list head => exact absurd hl'.2 (hdel hl head hl'.1)
    | delivery => rfl
    | retired => simp at hp
  | list head =>
  cases place' with
  | free => simp at hp
  | list head' =>
    rw [H.wf.loops.head_unique hl.1 hl'.1 (mem_cons_of_mem _ hl.2) (mem_cons_of_mem _ hl'.2)]
  | delivery => exact absurd hl.2 (hdel hl' head hl.1)
  | retired => simp at hp

theorem Placed.exists_place (hlo : c.kFirst ≤ i) (hhi : i < c.kFirst + w.capacity) :
  ∃ place, Located w lists frees tr busy i place
  := by
  by_cases hodd : (w.nodes i).generation % 2 = 1
  · rcases H.wf.cover i ⟨hlo, hhi, hodd⟩ with hm | ⟨head, hh, hm⟩
    · use .delivery
      apply ((H.loose_iff i (Set.notMem_empty i)).mp hm).2
    · exact ⟨.list head, hh, hm⟩
  by_cases hf : i ∈ frees
  · exact ⟨.free, hf⟩
  use .retired
  apply H.accounts.idle i hlo hhi (by omega) hf

end

theorem Intact.arranged (H : Intact tr busy w) : ∃ lists frees, Arranged w lists frees tr busy := by
  obtain ⟨lists, frees, loose, T, H⟩ := H
  refine ⟨lists, frees, ?_⟩
  constructor
  case doublyLinked => apply H.wf.loops.loop
  case freeLinked => exact ⟨H.wf.stack, H.wf.frees_nodup⟩
  case place =>
    intro i hlo hhi
    obtain ⟨place, hl⟩ := H.exists_place hlo hhi
    exact ⟨place, hl, fun place' hl' => H.place_unique hl' hl⟩
  case armed =>
    intro i place hl
    obtain ⟨h₁, h₂, h₃⟩ := H.parity hl
    rw [mem_armedNodes, ArmedNode, ← h₃]
    simp [h₁, h₂]
  case occupied => apply H.wf.occupied_iff
  case size => apply H.accounts.size_eq

end Arranging

/-- The runs of a wheel from `Create`, within calls of `Poll` and between them, with the record of
the timers scheduled and ended. -/
def Run [Inhabited P] (tr : List Event) (busy : Option ExpiryHandle) (w : Wheel c P) : Prop :=
  ∃ capacity start shift w₀, Wheel.create c capacity start shift = .ok w₀
    ∧ Steps none w₀ tr busy w

theorem Run.intact [Inhabited P] {tr : List Event} (r : Run tr busy w) :
  Intact tr busy w
  := by
  obtain ⟨capacity, start, shift, w₀, h₀, hs⟩ := r
  exact ((intact_create h₀).steps hs).1

/-- A call names a handle that names no armed timer. -/
def Call.Dead (w : Wheel c P) : Call c.Tick P → Prop
  | .schedule _ _ => False
  | .refresh h _ => w.alive h = false
  | .reschedule h _ _ => w.alive h = false
  | .cancel h => w.alive h = false

/-- In every state of every run, within callbacks and between calls, every node is in exactly one
place, the lists are well formed, the occupancy bits and the size are exact, and a refused
`Schedule` or a call with a dead handle changes nothing. Every poll returns, by steps of a run. -/
theorem Run.structure_intact [Inhabited P] {tr : List Event} {busy : Option ExpiryHandle}
    {w : Wheel c P} (r : Run tr busy w) :
  (∃ lists frees, Arranged w lists frees tr busy)
    ∧ (∀ d p, (w.schedule d p).2 = kNoExpiry → (w.schedule d p).1 = w)
    ∧ (∀ call, Call.Dead w call → w.exec call = (w, .flag false))
    ∧ (busy = none → ∀ now budget fn,
        ∃ s tr', w.poll now budget fn = some s ∧ Run (tr ++ tr') none s.wheel)
  := by
  have H := r.intact
  refine ⟨H.arranged, ?_, ?_, ?_⟩
  · obtain ⟨lists, frees, loose, T, H⟩ := H
    intro d p
    apply (H.schedule d p).2
  · intro call hdead
    cases call with
    | schedule => exact absurd hdead id
    | refresh h d => simp [Wheel.exec, refresh, show w.resolves h = false from hdead]
    | reschedule h d p => simp [Wheel.exec, reschedule, show w.resolves h = false from hdead]
    | cancel h => simp [Wheel.exec, cancel, show w.resolves h = false from hdead]
  rintro rfl now budget fn
  obtain ⟨s, tr', he, hs⟩ := H.poll now budget fn
  obtain ⟨capacity, start, shift, w₀, h₀, hs₀⟩ := r
  exact ⟨s, tr', he, capacity, start, shift, w₀, h₀, hs₀.trans hs⟩

/-- A new wheel of bytes at the time 0. -/
def emptyWheel : Wheel World.byteTicks ℕ := (Wheel.create World.byteTicks 2 0 0).toOption.get rfl

/-- Within the callback of a timer, after it has armed another. -/
theorem Run.structure_intact_armed :
  ∃ w : Wheel World.byteTicks ℕ, w.size = 2
    ∧ (∃ lists frees, Arranged w lists frees [.scheduled ⟨8, 1⟩, .scheduled ⟨9, 1⟩] (some ⟨8, 1⟩))
    ∧ w.exec (.cancel ⟨9, 3⟩) = (w, .flag false)
  := by
  have hcall := Step.call none emptyWheel (.schedule 0 7)
  have hfire := Step.fire (w := (emptyWheel.exec (.schedule 0 7)).1) rfl rfl rfl
    (by rw [due]; decide +kernel)
  have hrun : Run [.scheduled ⟨8, 1⟩, .scheduled ⟨9, 1⟩] (some ⟨8, 1⟩) _ :=
    ⟨2, 0, 0, emptyWheel, rfl, hcall.single.trans (hfire.single.trans (Step.call _ _ (.schedule 1 7)).single)⟩
  obtain ⟨harranged, -, hdead, -⟩ := Run.structure_intact hrun
  exact ⟨_, rfl, harranged, hdead _ rfl⟩

end Wheel

end Expiry
