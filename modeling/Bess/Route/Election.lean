import Bess.Route.Resolve

/-!
# Elected members

`Elect` of `core/route/router.cc`: which member of a next-hop group each slot of a flow hash picks,
from the configuration of the group and the next hops that are down. The positions of the list in
use have the same number of slots each, and the slots of those that are down are dealt to the
others in turn.
-/

namespace Route

open Function List

/-- `NextHopGroup::kMaxMembers`. -/
def kMaxMembers : ℕ := 64

/-- The configuration of a group: `size` active members, then `standbySize` standby members. The
bounds are those of `ConfigurationError`. -/
structure Configuration where
  size : ℕ
  standbySize : ℕ
  members : ℕ → ℕ
  size_pos : 0 < size
  total_le : size + standbySize ≤ kMaxMembers

/-- The list in use, `members[first, first + n)`, and its positions that get flows. -/
structure Chosen where
  first : ℕ
  n : ℕ
  up : BitVec 64

/-- When no position is due a slot any more, all are due again. -/
def refill (up due : BitVec 64) : BitVec 64 :=
  if due = 0 then up else due

/-- The positions that the slots of the positions `ps` pick. `due` has those that are due a slot of
a position that gets no flows. -/
def deal (up : BitVec 64) : List ℕ → BitVec 64 → List ℕ
  | [], _ => []
  | p :: ps, due =>
      if up.getLsbD p then p :: deal up ps due
      else
        let due := refill up due
        due.ctz.toNat :: deal up ps (due &&& (due - 1))

namespace Configuration

variable (group : Configuration) (down : ℕ → Bool)

/-- Bit `p`: position `p` of `members[first, first + n)` is available. -/
def available (first n : ℕ) : BitVec 64 :=
  Bits.collect 64 ((List.range n).map fun p => !down (group.members (first + p)))

def chosen : Chosen :=
  let up := group.available down 0 group.size
  if up = 0 then
    let standby := group.available down group.size group.standbySize
    if standby ≠ 0 then ⟨group.size, group.standbySize, standby⟩
    -- fail open: every active member
    else ⟨0, group.size, Bits.first 64 group.size⟩
  else ⟨0, group.size, up⟩

/-- The member at a position of the list in use. -/
def memberAt (p : ℕ) : ℕ :=
  group.members ((group.chosen down).first + p)

def slots : ℕ :=
  kMaxMembers / (group.chosen down).n

/-- The position of each slot: every position has `slots` of them, one after the other. -/
def positions : List ℕ :=
  (List.range ((group.chosen down).n * group.slots down)).map (· / group.slots down)

/-- The position each slot picks. -/
def picks : List ℕ :=
  deal (group.chosen down).up (group.positions down) (group.chosen down).up

/-- `Elect`. What the group held in `eligible` before is not read again. -/
def elect : NextHopGroup where
  eligibleSize := (group.chosen down).n * group.slots down
  eligible s := group.memberAt down ((group.picks down)[s]?.getD 0)

end Configuration

/-! ### Dealing -/

/-- The positions due a slot are those from `x` on. -/
def Due (up due : BitVec 64) (x : ℕ) : Prop :=
  ∀ i, due.getLsbD i = (up.getLsbD i && decide (x ≤ i))

section Dealing

variable {up due : BitVec 64} {x : ℕ}

theorem due_self : Due up up 0 := by
  intro i
  simp

theorem Due.clear (hdue : Due up due x) (hne : due ≠ 0) :
  up.getLsbD due.ctz.toNat = true ∧ x ≤ due.ctz.toNat
    ∧ (∀ i, up.getLsbD i = true → x ≤ i → due.ctz.toNat ≤ i)
    ∧ Due up (due &&& (due - 1)) (due.ctz.toNat + 1)
  := by
  have hlow := BitVec.getLsbD_true_ctz_of_ne_zero hne
  rw [hdue, Bool.and_eq_true, decide_eq_true_eq] at hlow
  have hleast : ∀ i, up.getLsbD i = true → x ≤ i → due.ctz.toNat ≤ i := by
    intro i hi hx
    by_contra hlt
    have hbit := BitVec.getLsbD_false_of_lt_ctz (Nat.lt_of_not_le hlt)
    rw [hdue, hi, decide_eq_true hx] at hbit
    cases hbit
  refine ⟨hlow.1, hlow.2, hleast, ?_⟩
  intro i
  rw [Bits.getLsbD_clear_lowest, hdue]
  cases hi : up.getLsbD i with
  | false => rfl
  | true =>
  have := hleast i hi
  rw [Bool.true_and, ← Bool.decide_and]
  apply decide_eq_decide.mpr
  omega

theorem Due.next (hup : up ≠ 0) (hdue : Due up due x) :
  let due' := refill up due
  up.getLsbD due'.ctz.toNat = true ∧ Due up (due' &&& (due' - 1)) (due'.ctz.toNat + 1)
    ∧ ∃ k : ℤ, ∀ i, up.getLsbD i = true → (if i < due'.ctz.toNat + 1 then 1 else 0 : ℤ)
        = (if i < x then 1 else 0) + (if due'.ctz.toNat = i then 1 else 0) - k
  := by
  rw [refill]
  split
  case isFalse hne =>
    obtain ⟨hbit, hle, hleast, hnext⟩ := hdue.clear hne
    refine ⟨hbit, hnext, 0, ?_⟩
    intro i hi
    have := hleast i hi
    split <;> split <;> split <;> omega
  case isTrue hzero =>
  obtain ⟨hbit, -, hleast, hnext⟩ := due_self.clear hup
  refine ⟨hbit, hnext, 1, ?_⟩
  intro i hi
  have hlt : i < x := by
    by_contra hle
    have := hdue i
    rw [hzero, hi, decide_eq_true (Nat.le_of_not_lt hle)] at this
    simp at this
  have := hleast i hi (Nat.zero_le i)
  split <;> split <;> omega

/-- A slot picks a position that gets flows, and its own if that is one. -/
theorem deal_forall₂ (hup : up ≠ 0) (ps : List ℕ) (hdue : Due up due x) :
  List.Forall₂ (fun p i => up.getLsbD i = true ∧ (up.getLsbD p = true → i = p)) ps (deal up ps due)
  := by
  induction ps generalizing due x with
  | nil => exact .nil
  | cons p ps ih =>
  rw [deal]
  split
  case isTrue hp => exact .cons ⟨hp, fun _ => rfl⟩ (ih hdue)
  case isFalse hp =>
  obtain ⟨hbit, hnext, -⟩ := hdue.next hup
  exact .cons ⟨hbit, fun h => absurd h hp⟩ (ih hnext)

end Dealing

/-! ### The list in use -/

namespace Configuration

variable {group : Configuration} {down : ℕ → Bool} {n first : ℕ}

theorem getLsbD_available (hn : n ≤ 64) (p : ℕ) :
  (group.available down first n).getLsbD p = true
    ↔ p < n ∧ down (group.members (first + p)) = false
  := by
  by_cases hp : p < 64
  · rw [available, Bits.getLsbD_collect _ hp]
    by_cases hlt : p < n <;> simp [hlt]
  rw [BitVec.getLsbD_of_ge _ _ (by omega)]
  simp
  omega

theorem down_of_available (hn : n ≤ 64) (hzero : group.available down first n = 0) :
  ∀ p < n, down (group.members (first + p)) = true
  := by
  intro p hp
  by_contra hup
  have hbit := (getLsbD_available hn p).mpr ⟨hp, Bool.eq_false_of_not_eq_true hup⟩
  rw [hzero] at hbit
  simp at hbit

/-- The list in use: the available actives, else the available standbys, else every active. -/
theorem chosen_spec (group : Configuration) (down : ℕ → Bool) :
  let c := group.chosen down
  let available := ∀ p, c.up.getLsbD p = true ↔ p < c.n ∧ down (group.memberAt down p) = false
  c.n ≤ 64 ∧ c.up ≠ 0
    ∧ ((∃ p < group.size, down (group.members p) = false)
        ∧ c.first = 0 ∧ c.n = group.size ∧ available
      ∨ (∀ p < group.size, down (group.members p) = true)
        ∧ ((∃ p < group.standbySize, down (group.members (group.size + p)) = false)
            ∧ c.first = group.size ∧ c.n = group.standbySize ∧ available
          ∨ (∀ p < group.standbySize, down (group.members (group.size + p)) = true)
            ∧ c.first = 0 ∧ c.n = group.size ∧ ∀ p, c.up.getLsbD p = true ↔ p < c.n))
  := by
  have htotal : group.size + group.standbySize ≤ 64 := group.total_le
  have hsize : group.size ≤ 64 := by omega
  have hstandby : group.standbySize ≤ 64 := by omega
  intro c available
  by_cases hact : group.available down 0 group.size = 0
  case neg =>
    have hc : c = ⟨0, group.size, group.available down 0 group.size⟩ := if_neg hact
    have hup := (getLsbD_available hsize _).mp (BitVec.getLsbD_true_ctz_of_ne_zero hact)
    rw [Nat.zero_add] at hup
    simp only [available, memberAt, ← show c = group.chosen down from rfl, hc]
    exact ⟨hsize, hact, .inl ⟨⟨_, hup⟩, trivial, trivial, getLsbD_available hsize⟩⟩
  case pos =>
  have hdown := down_of_available hsize hact
  simp only [Nat.zero_add] at hdown
  by_cases hspare : group.available down group.size group.standbySize = 0
  case neg =>
    have hc : c = ⟨group.size, group.standbySize,
        group.available down group.size group.standbySize⟩ :=
      (if_pos hact).trans (if_pos hspare)
    have hup := (getLsbD_available hstandby _).mp (BitVec.getLsbD_true_ctz_of_ne_zero hspare)
    simp only [available, memberAt, ← show c = group.chosen down from rfl, hc]
    exact ⟨hstandby, hspare,
      .inr ⟨hdown, .inl ⟨⟨_, hup⟩, trivial, trivial, getLsbD_available hstandby⟩⟩⟩
  case pos =>
  have hc : c = ⟨0, group.size, Bits.first 64 group.size⟩ :=
    (if_pos hact).trans (if_neg (not_not.mpr hspare))
  have hfirst : ∀ p, (Bits.first 64 group.size).getLsbD p = true ↔ p < group.size := by
    intro p
    rw [Bits.getLsbD_first hsize, decide_eq_true_eq]
  have hne : Bits.first 64 group.size ≠ 0 := by
    intro hzero
    have hbit := (hfirst 0).mpr group.size_pos
    rw [hzero] at hbit
    simp at hbit
  simp only [hc]
  exact ⟨hsize, hne,
    .inr ⟨hdown, .inr ⟨down_of_available hstandby hspare, trivial, trivial, hfirst⟩⟩⟩

/-- If a member of the list in use is available, the positions that get flows are the available
ones. -/
theorem up_iff {i : ℕ} (hi : i < (group.chosen down).n)
    (hup : down (group.memberAt down i) = false) (p : ℕ) :
  (group.chosen down).up.getLsbD p = true
    ↔ p < (group.chosen down).n ∧ down (group.memberAt down p) = false
  := by
  obtain ⟨-, -, ⟨-, -, -, h⟩ | ⟨hnone, ⟨-, -, -, h⟩ | ⟨-, hfirst, hsize, -⟩⟩⟩ :=
    group.chosen_spec down
  · exact h p
  · exact h p
  rw [memberAt, hfirst, Nat.zero_add, hnone i (hsize ▸ hi)] at hup
  cases hup

theorem rangeSelect_lt (hash : BitVec 32) (hn : 0 < n) :
  rangeSelect hash n < n
  := by
  rw [rangeSelect, Nat.shiftRight_eq_div_pow, Nat.div_lt_iff_lt_mul (by decide), Nat.mul_comm]
  exact Nat.mul_lt_mul_of_pos_left hash.isLt hn

/-- A hash picks a position of the list in use that gets flows: its own, if that is one. -/
theorem select_elect (group : Configuration) (down : ℕ → Bool) (hash : BitVec 32) :
  ∃ i, (group.chosen down).up.getLsbD i = true
    ∧ (group.elect down).select hash = group.memberAt down i
    ∧ ((group.chosen down).up.getLsbD (rangeSelect hash (group.chosen down).n) = true →
        i = rangeSelect hash (group.chosen down).n)
  := by
  obtain ⟨hn, hup, hcases⟩ := group.chosen_spec down
  have hpos : 0 < (group.chosen down).n := by
    have := group.size_pos
    obtain ⟨-, -, h, -⟩ | ⟨-, ⟨⟨p, hp, -⟩, -, h, -⟩ | ⟨-, -, h, -⟩⟩ := hcases <;> omega
  set chosen := group.chosen down with hchosen
  set k := group.slots down with hslots
  have hk : 0 < k := Nat.div_pos hn hpos
  have hs := rangeSelect_lt hash (Nat.mul_pos hpos hk)
  have hdiv : rangeSelect hash (chosen.n * k) / k = rangeSelect hash chosen.n := by
    rw [rangeSelect, rangeSelect, Nat.shiftRight_eq_div_pow, Nat.shiftRight_eq_div_pow,
      Nat.div_div_eq_div_mul, ← Nat.mul_assoc, Nat.mul_div_mul_right _ _ hk]
  have hpicks := deal_forall₂ hup (group.positions down) due_self
  rw [positions, ← hslots] at hpicks
  have hlen := hpicks.length_eq
  rw [length_map, length_range] at hlen
  have hat := hpicks.get (by rwa [length_map, length_range]) (hs.trans_eq hlen)
  simp only [get_eq_getElem, getElem_map, getElem_range, hdiv] at hat
  refine ⟨_, hat.1, ?_, hat.2⟩
  rw [NextHopGroup.select, elect, picks, positions]
  dsimp only
  rw [getElem?_eq_getElem (hs.trans_eq hlen), Option.getD_some]

section Failure

variable {x q : ℕ}

/-- When a next hop goes down while another member of the list in use stays available, the list
stays in use and only the positions of the next hop get no flows any more. -/
theorem chosen_update {down' : ℕ → Bool}
    (hdown : ∀ hop, down' hop = false ↔ hop ≠ x ∧ down hop = false)
    (hq : q < (group.chosen down).n) (hne : group.memberAt down q ≠ x)
    (hup : down (group.memberAt down q) = false) :
  (group.chosen down').first = (group.chosen down).first
    ∧ (group.chosen down').n = (group.chosen down).n
    ∧ ∀ p, (group.chosen down').up.getLsbD p = true
        ↔ (group.chosen down).up.getLsbD p = true ∧ group.memberAt down p ≠ x
  := by
  have hq' := (hdown _).mpr ⟨hne, hup⟩
  obtain ⟨hfirst, hn⟩ : (group.chosen down').first = (group.chosen down).first
      ∧ (group.chosen down').n = (group.chosen down).n := by
    rw [memberAt] at hq' hup
    obtain ⟨-, -, hcases⟩ := group.chosen_spec down
    obtain ⟨-, -, hcases'⟩ := group.chosen_spec down'
    obtain ⟨-, hfirst, hn, -⟩ | ⟨hnone, ⟨-, hfirst, hn, -⟩ | ⟨-, hfirst, hn, -⟩⟩ := hcases
    · rw [hfirst, Nat.zero_add] at hq'
      obtain ⟨-, hfirst', hn', -⟩ | ⟨hnone', -⟩ := hcases'
      · exact ⟨hfirst'.trans hfirst.symm, hn'.trans hn.symm⟩
      · exact absurd hq' (by rw [hnone' q (hn ▸ hq)]; nofun)
    · rw [hfirst] at hq'
      obtain ⟨⟨p, hp, hpup⟩, -⟩ | ⟨-, ⟨-, hfirst', hn', -⟩ | ⟨hspare, -⟩⟩ := hcases'
      · exact absurd ((hdown _).mp hpup).2 (by rw [hnone p hp]; nofun)
      · exact ⟨hfirst'.trans hfirst.symm, hn'.trans hn.symm⟩
      · exact absurd hq' (by rw [hspare q (hn ▸ hq)]; nofun)
    rw [hfirst, Nat.zero_add, hnone q (hn ▸ hq)] at hup
    cases hup
  have hmember : ∀ p, group.memberAt down' p = group.memberAt down p := by
    intro p
    rw [memberAt, hfirst, memberAt]
  refine ⟨hfirst, hn, ?_⟩
  intro p
  rw [up_iff (hn ▸ hq) ((hmember q).symm ▸ hq'), up_iff hq hup, hn, hmember, hdown,
    and_comm (a := _ ≠ x), and_assoc]

/-- A next hop that goes down while another member of the list in use stays available moves only its
own flows, if no member of the list was down before, or it is not one of them, or only one other
next hop of the list is available. When it comes back, the selection is the one before. -/
theorem elect_moves_own (hx : down x = false) :
  ((∃ q < (group.chosen down).n, group.memberAt down q ≠ x ∧ down (group.memberAt down q) = false) →
      (∀ p < (group.chosen down).n, down (group.memberAt down p) = false)
        ∨ (∀ p < (group.chosen down).n, group.memberAt down p ≠ x)
        ∨ (∃ y, ∀ p < (group.chosen down).n, down (group.memberAt down p) = false →
          group.memberAt down p = x ∨ group.memberAt down p = y) →
      ∀ hash, (group.elect down).select hash ≠ x →
        (group.elect (update down x true)).select hash = (group.elect down).select hash)
    ∧ group.elect (update (update down x true) x false) = group.elect down
  := by
  set down' := update down x true
  have hdown : ∀ hop, down' hop = false ↔ hop ≠ x ∧ down hop = false := by
    intro hop
    by_cases hhop : hop = x <;> simp [down', hhop]
  constructor
  case right => rw [update_idem, ← hx, update_eq_self]
  case left =>
  rintro ⟨q, hq, hne, hup⟩ hwhen hash hhash
  obtain ⟨hfirst, hn, hbits⟩ := chosen_update hdown hq hne hup
  obtain ⟨i, hi, hhop, hown⟩ := group.select_elect down hash
  obtain ⟨i', hi', hhop', hown'⟩ := group.select_elect down' hash
  rw [memberAt, hfirst, ← memberAt] at hhop'
  have hup_iff := up_iff hq hup
  obtain hall | habsent | ⟨y, honly⟩ := hwhen
  case inl =>
    have hlt := rangeSelect_lt hash (Nat.zero_lt_of_lt hq)
    have hself := (hup_iff _).mpr ⟨hlt, hall _ hlt⟩
    rw [hown hself] at hhop
    rw [hn] at hown'
    rw [hhop', hhop, hown' ((hbits _).mpr ⟨hself, hhop ▸ hhash⟩)]
  case inr.inl =>
    have hsame : (group.chosen down').up = (group.chosen down).up := by
      apply BitVec.eq_of_getLsbD_eq
      intro p _
      rw [Bool.eq_iff_iff, hbits]
      apply and_iff_left_of_imp
      intro hp
      exact habsent p ((hup_iff p).mp hp).1
    rw [elect, elect, NextHopGroup.select, NextHopGroup.select]
    simp only [picks, positions, slots, memberAt, hfirst, hn, hsame]
  case inr.inr =>
  rw [hbits] at hi'
  obtain ⟨hlt, hfree⟩ := (hup_iff i).mp hi
  obtain ⟨hlt', hfree'⟩ := (hup_iff i').mp hi'.1
  rw [hhop', hhop, (honly i hlt hfree).resolve_left (hhop ▸ hhash),
    (honly i' hlt' hfree').resolve_left hi'.2]

/-- Of four members one goes down. -/
theorem elect_moves_own_first :
  let group : Configuration := ⟨4, 0, (· + 1), by decide, by decide⟩
  (group.elect (update (fun _ => false) 2 true)).select 0 = (group.elect fun _ => false).select 0
  := by
  apply (elect_moves_own rfl).1 ⟨0, by decide +kernel, by decide +kernel, rfl⟩ (.inl fun _ _ => rfl)
  decide +kernel

/-- Of four members, with the first down, the second goes down: a flow of the third moves to the
fourth. -/
theorem elect_moves_others :
  let group : Configuration := ⟨4, 0, (· + 1), by decide, by decide⟩
  let down := fun hop => decide (hop = 1)
  down 2 = false ∧ (∃ q < (group.chosen down).n, group.memberAt down q ≠ 2
      ∧ down (group.memberAt down q) = false)
    ∧ (group.elect down).select 0x4000000 = 3
    ∧ (group.elect (update down 2 true)).select 0x4000000 = 4
  := by
  decide +kernel

end Failure

end Configuration

end Route
