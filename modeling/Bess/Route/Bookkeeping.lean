import Bess.Route.Table
import Mathlib.Data.Set.Card

/-!
# The shadow structures of the route table

The table keeps the rules, the default and, with `rte_fib`, the number of the rules longer than
/24 of each /24 block. `Kept t` says how they belong together and to what readers see. Every call
keeps it, whatever the backend refuses, and a call that fails changes no route, no count and no
lookup.
-/

open Function List LongestMatch AList

namespace Route

/-- The prefix is longer than /24 and in the block. -/
def deepIn (b : BitVec 32) (p : Ipv4Prefix) : Bool :=
  decide (24 < p.length ∧ block p = b)

/-- A count as a map without zero entries has it. -/
def counted (n : ℕ) : Option ℕ :=
  if n = 0 then none else some n

/-- The map has for each block the number of the prefixes longer than /24 in it, and no entry
for a block without one. -/
def Counts (blocks : AList (fun _ : BitVec 32 => ℕ)) (keys : List Ipv4Prefix) : Prop :=
  ∀ b, blocks.lookup b = counted (keys.countP (deepIn b))

theorem getD_counted (n : ℕ) :
  (counted n).getD 0 = n
  := by
  unfold counted
  split
  case isTrue h => exact h.symm
  case isFalse => rfl

variable {n : ℕ}

theorem counted_eq_none_iff :
  counted n = none ↔ n = 0
  := by
  unfold counted
  split <;> simp_all

variable {blocks : AList (fun _ : BitVec 32 => ℕ)} {p : Ipv4Prefix} {keys' : List Ipv4Prefix}

namespace Counts

variable {keys : List Ipv4Prefix}

theorem empty :
  Counts ∅ []
  := fun _ => rfl

variable (h : Counts blocks keys)

include h

theorem perm (hperm : keys'.Perm keys) :
  Counts blocks keys'
  := by
  intro b
  rw [h b, hperm.countP_eq]

theorem mem_iff {b : BitVec 32} :
  b ∈ blocks ↔ ∃ q ∈ keys, deepIn b q
  := by
  rw [← lookup_isSome, Option.isSome_iff_ne_none, h b, ← countP_pos_iff, Nat.pos_iff_ne_zero]
  exact not_congr counted_eq_none_iff

theorem cons_short (hp : ¬24 < p.length) :
  Counts blocks (p :: keys)
  := by
  intro b
  have hnot : deepIn b p = false := decide_eq_false fun hb => hp hb.1
  rw [h b, countP_cons_of_neg (by simp [hnot])]

theorem cons_deep (hp : 24 < p.length) :
  Counts (blocks.insert (block p) ((blocks.lookup (block p)).getD 0 + 1)) (p :: keys)
  := by
  intro b
  by_cases hb : b = block p
  · subst hb
    have hin : deepIn (block p) p = true := decide_eq_true ⟨hp, rfl⟩
    rw [lookup_insert, h, getD_counted, countP_cons_of_pos hin, counted,
      if_neg (Nat.succ_ne_zero _)]
  have hnot : deepIn b p = false := decide_eq_false fun hin => hb hin.2.symm
  rw [lookup_insert_ne hb, h b, countP_cons_of_neg (by simp [hnot])]

theorem erase_short (hp : ¬24 < p.length) :
  Counts blocks (keys.erase p)
  := by
  intro b
  have hnot : ¬(p ∈ keys ∧ deepIn b p = true) := fun hin => hp (of_decide_eq_true hin.2).1
  rw [h b, countP_erase, if_neg hnot, Nat.sub_zero]

theorem erase_deep (hmem : p ∈ keys) (hp : 24 < p.length) :
  Counts (if (blocks.lookup (block p)).getD 0 - 1 = 0 then blocks.erase (block p)
    else blocks.insert (block p) ((blocks.lookup (block p)).getD 0 - 1)) (keys.erase p)
  := by
  intro b
  by_cases hb : b = block p
  · subst hb
    have hin : p ∈ keys ∧ deepIn (block p) p = true := ⟨hmem, decide_eq_true ⟨hp, rfl⟩⟩
    rw [countP_erase, h, getD_counted]
    split
    case isTrue hz => rw [lookup_erase, hz, counted, if_pos rfl]
    case isFalse hz => rw [lookup_insert, counted, if_neg hz]
  have hnot : ¬(p ∈ keys ∧ deepIn b p = true) := fun hin => hb (of_decide_eq_true hin.2).2.symm
  rw [countP_erase, if_neg hnot, Nat.sub_zero, ← h b]
  split
  case isTrue => rw [lookup_erase_ne hb]
  case isFalse => rw [lookup_insert_ne hb]

end Counts

/-! ### Taking an entry back -/

section

variable {K V : Type} [DecidableEq K] {m : AList (fun _ : K => V)} {key : K} {value : V}

theorem tryEmplace_of_mem (h : key ∈ m) :
  tryEmplace m key value = m
  := if_pos h

theorem tryEmplace_of_not_mem (h : key ∉ m) :
  tryEmplace m key value = m.insert key value
  := if_neg h

theorem erase_insert_of_not_mem (h : key ∉ m) :
  (m.insert key value).erase key = m
  := by
  apply ext
  rw [insert_of_notMem h]
  exact kerase_cons_eq rfl

theorem erase_tryEmplace (h : key ∉ m) :
  (tryEmplace m key value).erase key = m
  := by
  rw [tryEmplace_of_not_mem h, erase_insert_of_not_mem h]

theorem insert_tryEmplace {value' : V} :
  (tryEmplace m key value').insert key value = m.insert key value
  := by
  unfold tryEmplace
  split
  case isTrue => rfl
  case isFalse => rw [insert_insert]

theorem getD_tryEmplace (m : AList (fun _ : K => ℕ)) :
  ((tryEmplace m key 0).lookup key).getD 0 = (m.lookup key).getD 0
  := by
  unfold tryEmplace
  split
  case isTrue => rfl
  case isFalse h => rw [lookup_insert, lookup_eq_none.mpr h]; rfl

/-- A zero entry that was just made is the one taken back. -/
theorem takeBack {m : AList (fun _ : K => ℕ)} (h : m.lookup key ≠ some 0) :
  (if ((tryEmplace m key 0).lookup key == some 0) = true then (tryEmplace m key 0).erase key
    else tryEmplace m key 0) = m
  := by
  by_cases hmem : key ∈ m
  · rw [tryEmplace_of_mem hmem, if_neg (by simpa using h)]
  · rw [erase_tryEmplace hmem, tryEmplace_of_not_mem hmem, if_pos (by simp)]

end

namespace LpmRouteTable

/-- The shadow structures agree with one another and with what readers see. -/
structure Kept (t : LpmRouteTable) : Prop where
  built : t.built = t.live.dpdk.made
  kind : t.live.dpdk.made = true → (t.live.dpdk.isFib = true ↔ t.config.backend = .rteFib)
  held : ∀ p, t.live.dpdk.rules p = t.rules.lookup p
  long : ∀ p ∈ t.rules, p.length ≠ 0
  defaulted : t.live.defaultValue = t.defaultRoute.getD kNoDefault
  small : ∀ p value, t.find p = some value → value ≤ kMaxValue
  counts : t.config.backend = .rteFib → Counts t.fibBlocks t.rules.keys
  uncounted : t.config.backend = .rteLpm → t.fibBlocks = ∅
  within : t.config.backend = .rteFib →
    t.rules.keys.length ≤ t.config.maxRoutes ∧ t.fibBlocks.keys.length ≤ t.config.tbl8Groups

theorem Kept.create (config : Config) :
  Kept (create config)
  where
  built := rfl
  kind := nofun
  held _ := rfl
  long p hp := absurd hp (notMem_empty p)
  defaulted := rfl
  small p value h := by
    rw [find] at h
    split at h
    case isTrue | isFalse => cases h
  counts _ := Counts.empty
  uncounted _ := rfl
  within _ := ⟨Nat.zero_le _, Nat.zero_le _⟩

/-! ### Adding a rule -/

/-- The table with a rule in the structure and in the shadow structures. -/
def added (t : LpmRouteTable) (p : Ipv4Prefix) (value : ℕ) : LpmRouteTable :=
  { t with
    live := { t.live with dpdk := t.live.dpdk.write p (some value) }
    rules := t.rules.insert p value
    fibBlocks := if t.live.dpdk.isFib && decide (p ∉ t.rules) && decide (24 < p.length) then
        t.fibBlocks.insert (block p) ((t.fibBlocks.lookup (block p)).getD 0 + 1)
      else t.fibBlocks }

variable {config : Config} {dpdk : Dpdk} {t : LpmRouteTable} {value routes : ℕ}
  {rules : AList (fun _ : Ipv4Prefix => ℕ)} {blocks' : AList (fun _ : BitVec 32 => ℕ)}
  {defaultRoute : Option ℕ}

/-- A refused add takes the shadow entries back. -/
theorem addRule_cases (env : Backend) (hzero : t.fibBlocks.lookup (block p) ≠ some 0) :
  (∃ e, t.addRule env p value = (.error e, t))
    ∨ (t.live.dpdk.isFib = true → p ∉ t.rules →
          fibAdmits t.config t.fibBlocks t.rules.keys.length p = true)
        ∧ t.addRule env p value = (.ok, t.added p value)
  := by
  unfold addRule
  by_cases hp : p ∈ t.rules
  case pos =>
    have hins : decide (p ∉ t.rules) = false := decide_eq_false (not_not.mpr hp)
    simp only [hins, tryEmplace_of_mem hp, Bool.and_false, Bool.false_and,
      Bool.false_eq_true, if_false]
    cases env.adds p with
    | some refusal =>
      left
      use refusal.error
    | none =>
    right
    constructor
    · intro _ hnot
      exact absurd hp hnot
    · simp only [added, hins, Bool.and_false, Bool.false_and, Bool.false_eq_true, if_false]
  case neg =>
  have hins : decide (p ∉ t.rules) = true := decide_eq_true hp
  simp only [hins, Bool.and_true, erase_tryEmplace hp, insert_tryEmplace]
  split
  case isTrue =>
    left
    use .tableFull
  case isFalse hadmits =>
  cases env.adds p with
  | some refusal =>
    left
    use refusal.error
    simp only [Prod.mk.injEq, true_and]
    congr 1
    by_cases hdeep : (t.live.dpdk.isFib && decide (24 < p.length)) = true
    · simp only [hdeep]
      exact takeBack hzero
    · simp only [hdeep, if_false, Bool.false_and, Bool.false_eq_true]
  | none =>
  right
  constructor
  · intro hfib _
    simpa [hfib] using hadmits
  simp only [added, hins, Bool.and_true]
  by_cases hdeep : (t.live.dpdk.isFib && decide (24 < p.length)) = true
  · simp only [hdeep, if_true, insert_tryEmplace]
    rw [getD_tryEmplace]
  · simp only [hdeep, if_false, Bool.false_eq_true]

theorem made_of_isFib (h : dpdk.isFib = true) :
  dpdk.made = true
  := by
  cases dpdk with
  | none => cases h
  | _ => rfl

theorem made_write (dpdk : Dpdk) (p : Ipv4Prefix) (value : Option ℕ) :
  (dpdk.write p value).made = dpdk.made
  := by
  cases dpdk <;> rfl

theorem isFib_write (dpdk : Dpdk) (p : Ipv4Prefix) (value : Option ℕ) :
  (dpdk.write p value).isFib = dpdk.isFib
  := by
  cases dpdk <;> rfl

theorem rules_write (hmade : dpdk.made = true) (p : Ipv4Prefix) (value : Option ℕ) :
  (dpdk.write p value).rules = update dpdk.rules p value
  := by
  cases dpdk with
  | none => cases hmade
  | _ => rfl

theorem find_of_long (hp : p.length ≠ 0) :
  t.find p = t.rules.lookup p
  := if_neg hp

theorem find_added (hp : p.length ≠ 0) (value : ℕ) :
  (t.added p value).find = update t.find p (some value)
  := by
  funext q
  by_cases hq : q = p
  · subst hq
    rw [update_self, find_of_long hp]
    exact lookup_insert t.rules
  rw [update_of_ne hq, find]
  congr 1
  exact lookup_insert_ne hq

theorem Kept.isFib_eq_false (h : Kept t) (hback : t.config.backend = .rteLpm) :
  t.live.dpdk.isFib = false
  := by
  by_contra hfib
  rw [Bool.not_eq_false] at hfib
  have hrte : t.config.backend = .rteFib := (h.kind (made_of_isFib hfib)).mp hfib
  rw [hback] at hrte
  cases hrte

theorem Kept.counts_added (h : Kept t) (hmade : t.live.dpdk.made = true)
    (hback : t.config.backend = .rteFib) (p : Ipv4Prefix) (value : ℕ) :
  Counts (t.added p value).fibBlocks (t.added p value).rules.keys
  := by
  have hkeys : (t.added p value).rules.keys = p :: t.rules.keys.erase p := keys_insert t.rules
  rw [hkeys, added, (h.kind hmade).mpr hback]
  by_cases hp : p ∈ t.rules
  · rw [decide_eq_false (not_not.mpr hp)]
    apply (h.counts hback).perm
    exact (perm_cons_erase (mem_keys.mp hp)).symm
  rw [decide_eq_true hp, erase_of_not_mem fun hmem => hp (mem_keys.mpr hmem)]
  by_cases hdeep : 24 < p.length
  · rw [decide_eq_true hdeep]
    exact (h.counts hback).cons_deep hdeep
  rw [decide_eq_false hdeep]
  exact (h.counts hback).cons_short hdeep

theorem fibAdmits_iff :
  fibAdmits config blocks routes p = true
    ↔ routes < config.maxRoutes
        ∧ ((p.length ≤ 24 ∨ block p ∈ blocks) ∨ blocks.keys.length < config.tbl8Groups)
  := by
  rw [fibAdmits, Bool.and_eq_true, Bool.or_eq_true, Bool.or_eq_true, decide_eq_true_iff,
    decide_eq_true_iff, decide_eq_true_iff, decide_eq_true_iff]

theorem length_keys_insert {K : Type} [DecidableEq K] {m : AList (fun _ : K => ℕ)} {key : K} :
  (m.insert key n).keys.length = if key ∈ m then m.keys.length else m.keys.length + 1
  := by
  rw [keys_insert, length_cons]
  split
  case isTrue hmem =>
    have hlen := length_erase_of_mem (mem_keys.mp hmem)
    have hpos := length_pos_of_mem (mem_keys.mp hmem)
    omega
  case isFalse hmem => rw [erase_of_not_mem fun hin => hmem (mem_keys.mpr hin)]

/-- An admitted prefix needs no group beyond the limit. -/
theorem groups_le_of_fibAdmits (hadmits : fibAdmits config blocks routes p = true)
    (hgroups : blocks.keys.length ≤ config.tbl8Groups) (hdeep : 24 < p.length) (n : ℕ) :
  (blocks.insert (block p) n).keys.length ≤ config.tbl8Groups
  := by
  rw [length_keys_insert]
  split
  case isTrue => exact hgroups
  case isFalse hmem =>
  rcases (fibAdmits_iff.mp hadmits).2 with (hshort | hin) | hlt
  · omega
  · exact absurd hin hmem
  · exact hlt

/-- A prefix that was admitted stays within the limits. -/
theorem Kept.within_added (h : Kept t) (hmade : t.live.dpdk.made = true)
    (hback : t.config.backend = .rteFib) (hadmits : t.live.dpdk.isFib = true → p ∉ t.rules →
      fibAdmits t.config t.fibBlocks t.rules.keys.length p = true) :
  (t.added p value).rules.keys.length ≤ t.config.maxRoutes
    ∧ (t.added p value).fibBlocks.keys.length ≤ t.config.tbl8Groups
  := by
  obtain ⟨hroutes, hgroups⟩ := h.within hback
  have hfib := (h.kind hmade).mpr hback
  rw [added, length_keys_insert]
  by_cases hp : p ∈ t.rules
  · rw [if_pos hp, decide_eq_false (not_not.mpr hp), Bool.and_false]
    exact ⟨hroutes, hgroups⟩
  have hadmitted := hadmits hfib hp
  rw [if_neg hp, hfib, decide_eq_true hp]
  constructor
  · exact (fibAdmits_iff.mp hadmitted).1
  by_cases hdeep : 24 < p.length
  · rw [decide_eq_true hdeep]
    apply groups_le_of_fibAdmits hadmitted hgroups hdeep
  rw [decide_eq_false hdeep]
  exact hgroups

theorem Kept.small_update (h : Kept t) {find' : Ipv4Prefix → Option ℕ} {value : Option ℕ}
    (hfind : find' = update t.find p value) (hvalue : ∀ v, value = some v → v ≤ kMaxValue)
    (q : Ipv4Prefix) (v : ℕ) (hv : find' q = some v) :
  v ≤ kMaxValue
  := by
  rw [hfind] at hv
  by_cases hq : q = p
  · subst hq
    rw [update_self] at hv
    exact hvalue v hv
  rw [update_of_ne hq] at hv
  exact h.small q v hv

theorem Kept.added (h : Kept t) (hmade : t.live.dpdk.made = true) (hp : p.length ≠ 0)
    (hvalue : value ≤ kMaxValue) (hadmits : t.live.dpdk.isFib = true → p ∉ t.rules →
      fibAdmits t.config t.fibBlocks t.rules.keys.length p = true) :
  Kept (t.added p value)
  where
  built := h.built.trans (made_write _ _ _).symm
  kind hmade' := by
    rw [LpmRouteTable.added, isFib_write]
    exact h.kind hmade
  held q := by
    rw [LpmRouteTable.added, rules_write hmade]
    by_cases hq : q = p
    · subst hq
      rw [update_self, lookup_insert]
    · rw [update_of_ne hq, lookup_insert_ne hq, h.held]
  long q hq := by
    rcases (mem_insert t.rules).mp hq with rfl | hq
    · exact hp
    · exact h.long q hq
  defaulted := h.defaulted
  small := h.small_update (find_added hp value) (by rintro v ⟨⟩; exact hvalue)
  counts hback := h.counts_added hmade hback p value
  uncounted hback := by
    rw [LpmRouteTable.added, h.isFib_eq_false hback]
    exact h.uncounted hback
  within hback := h.within_added hmade hback hadmits

/-! ### Replacing the rules -/

/-- What the loop of `ReplaceAll` has placed so far. -/
structure Filled (config : Config) (placed : List (Ipv4Prefix × ℕ)) (dpdk : Dpdk)
    (blocks : AList (fun _ : BitVec 32 => ℕ)) : Prop where
  rules : ∀ p value, dpdk.rules p = some value ↔ (p, value) ∈ placed
  counts : dpdk.isFib = true → Counts blocks (placed.map (·.1))
  uncounted : dpdk.isFib = false → blocks = ∅
  within : dpdk.isFib = true →
    placed.length ≤ config.maxRoutes ∧ blocks.keys.length ≤ config.tbl8Groups

theorem Filled.write {placed : List (Ipv4Prefix × ℕ)} (h : Filled config placed dpdk blocks)
    (hmade : dpdk.made = true) (hnew : p ∉ placed.map (·.1)) (value : ℕ)
    (hadmits : dpdk.isFib = true → fibAdmits config blocks placed.length p = true) :
  Filled config ((p, value) :: placed) (dpdk.write p (some value))
    (if dpdk.isFib && decide (24 < p.length) then
        blocks.insert (block p) ((blocks.lookup (block p)).getD 0 + 1)
      else blocks)
  where
  rules q value' := by
    rw [rules_write hmade, mem_cons, Prod.mk.injEq]
    by_cases hq : q = p
    · subst hq
      have hnot : (q, value') ∉ placed := fun hmem => hnew (mem_map_of_mem hmem)
      simp [hnot, eq_comm]
    rw [update_of_ne hq, h.rules]
    simp [hq]
  counts hfib := by
    rw [isFib_write] at hfib
    rw [hfib, Bool.true_and, map_cons]
    by_cases hdeep : 24 < p.length
    · rw [if_pos (decide_eq_true hdeep)]
      exact (h.counts hfib).cons_deep hdeep
    rw [if_neg (by simpa using hdeep)]
    exact (h.counts hfib).cons_short hdeep
  uncounted hfib := by
    rw [isFib_write] at hfib
    rw [hfib, Bool.false_and]
    exact h.uncounted hfib
  within hfib := by
    rw [isFib_write] at hfib
    constructor
    · exact (fibAdmits_iff.mp (hadmits hfib)).1
    rw [hfib, Bool.true_and]
    split
    case isTrue hdeep =>
      apply groups_le_of_fibAdmits (hadmits hfib) (h.within hfib).2 (of_decide_eq_true hdeep)
    case isFalse => exact (h.within hfib).2

theorem Filled.fill {env : Backend} {dpdk' : Dpdk}
    (rest placed : List (Ipv4Prefix × ℕ)) (h : Filled config placed dpdk blocks)
    (hmade : dpdk.made = true) (hnodup : ((rest ++ placed).map (·.1)).Nodup)
    (hfill : fill config env rest dpdk blocks placed.length = .ok (dpdk', blocks')) :
  Filled config (rest.reverse ++ placed) dpdk' blocks'
    ∧ dpdk'.made = true ∧ dpdk'.isFib = dpdk.isFib
  := by
  induction rest generalizing placed dpdk blocks with
  | nil =>
    cases hfill
    exact ⟨h, hmade, rfl⟩
  | cons entry rest ih =>
  obtain ⟨p, value⟩ := entry
  rw [cons_append, map_cons, nodup_cons, map_append, mem_append, not_or] at hnodup
  obtain ⟨⟨hrest, hnew⟩, hnodup⟩ := hnodup
  obtain ⟨-, ⟨⟩⟩ | ⟨hadmits, hfill⟩ := ite_eq_iff.mp hfill
  split at hfill
  case h_1 => cases hfill
  case h_2 =>
  have hwritten := h.write hmade hnew value (by
    intro hfib
    simpa [hfib] using hadmits)
  have hnodup' : ((rest ++ (p, value) :: placed).map (·.1)).Nodup := by
    rw [map_append, map_cons, nodup_middle, nodup_cons]
    exact ⟨by simp only [mem_append, not_or]; exact ⟨hrest, hnew⟩, hnodup⟩
  obtain ⟨hfilled, hmade', hisFib⟩ := ih ((p, value) :: placed) hwritten
    ((made_write _ _ _).trans hmade) hnodup' hfill
  rw [isFib_write] at hisFib
  rw [reverse_cons, append_assoc]
  exact ⟨hfilled, hmade', hisFib⟩

/-- The value the last rule for a prefix gives it. -/
def lastValue (rules : List Rule) (p : Ipv4Prefix) : Option ℕ :=
  (rules.reverse.find? fun rule => rule.p = p).map (·.value)

theorem lastValue_cons (rule : Rule) (rest : List Rule) (p : Ipv4Prefix) :
  lastValue (rule :: rest) p
    = (lastValue rest p).or (if rule.p = p then some rule.value else none)
  := by
  rw [lastValue, reverse_cons, find?_append, Option.map_or]
  congr 1
  by_cases hp : rule.p = p
  · simp [hp]
  · simp [hp]

theorem eq_of_length_eq_zero {q : Ipv4Prefix} (hp : p.length = 0) (hq : q.length = 0) :
  p = q
  := by
  apply Prefix.ext (hp.trans hq.symm)
  omega

/-- A replacement's rules and default are the last values given. -/
theorem collect_ok {given : List Rule} {rules' : AList (fun _ : Ipv4Prefix => ℕ)}
    {defaultRoute' : Option ℕ} (h : collect given rules defaultRoute = .ok (rules', defaultRoute'))
    (hlong : ∀ p ∈ rules, p.length ≠ 0) :
  (∀ p ∈ rules', p.length ≠ 0) ∧ (∀ rule ∈ given, rule.value ≤ kMaxValue)
    ∧ ∀ p : Ipv4Prefix, (if p.length = 0 then defaultRoute' else rules'.lookup p)
        = (lastValue given p).or (if p.length = 0 then defaultRoute else rules.lookup p)
  := by
  induction given generalizing rules defaultRoute with
  | nil =>
    cases h
    exact ⟨hlong, nofun, fun p => rfl⟩
  | cons rule rest ih =>
  obtain ⟨-, ⟨⟩⟩ | ⟨hvalue, h⟩ := ite_eq_iff.mp h
  rw [forall_mem_cons]
  split at h
  case isTrue hzero =>
    obtain ⟨hlong', hvalues, hlast⟩ := ih h hlong
    refine ⟨hlong', ⟨by omega, hvalues⟩, ?_⟩
    intro p
    rw [hlast p, lastValue_cons, Option.or_assoc]
    by_cases hp : p.length = 0
    · rw [if_pos hp, if_pos (eq_of_length_eq_zero hzero hp), Option.some_or]
    · rw [if_neg hp, if_neg (by rintro rfl; exact hp hzero), if_neg hp, Option.none_or]
  case isFalse hzero =>
  have hlongInsert : ∀ p ∈ rules.insert rule.p rule.value, p.length ≠ 0 := by
    intro p hp
    rcases (mem_insert rules).mp hp with rfl | hp
    · exact hzero
    · exact hlong p hp
  obtain ⟨hlong', hvalues, hlast⟩ := ih h hlongInsert
  refine ⟨hlong', ⟨by omega, hvalues⟩, ?_⟩
  intro p
  rw [hlast p, lastValue_cons, Option.or_assoc]
  by_cases hp : rule.p = p
  · subst hp
    rw [if_neg hzero, if_pos rfl, lookup_insert, Option.some_or]
  · rw [if_neg hp, lookup_insert_ne (Ne.symm hp), Option.none_or]

theorem mem_inOrder :
  (p, value) ∈ inOrder rules ↔ rules.lookup p = some value
  := mem_mergeSort_entries

theorem keys_inOrder (rules : AList (fun _ : Ipv4Prefix => ℕ)) :
  ((inOrder rules).map (·.1)).Perm rules.keys
  := keys_mergeSort_entries rules _

/-! ### The calls -/

theorem newInstance_built (config : Config) (env : Backend) (defaultValue : ℕ) :
  newInstance config env defaultValue true
    = match env.creates with
      | some refusal => .error refusal.error
      | none => .ok ⟨.empty config.backend, defaultValue⟩
  := rfl

theorem made_empty (backend : RouteBackend) :
  (Dpdk.empty backend).made = true ∧ ((Dpdk.empty backend).isFib = true ↔ backend = .rteFib)
  := by
  cases backend <;> simp [Dpdk.empty, Dpdk.isFib, Dpdk.made]

theorem Kept.publishLocked (h : Kept t) (hmade : t.live.dpdk.made = false) :
  Kept (t.publishLocked ⟨.empty t.config.backend, t.defaultRoute.getD kNoDefault⟩)
  where
  built := rfl
  kind _ := (made_empty t.config.backend).2
  held p := by
    have hnone : t.live.dpdk.rules p = none := by
      cases hdpdk : t.live.dpdk with
      | none => rfl
      | _ => rw [hdpdk] at hmade; cases hmade
    change (Dpdk.empty t.config.backend).rules p = t.rules.lookup p
    rw [← h.held, hnone]
    cases t.config.backend <;> rfl
  __ := h
  defaulted := rfl

theorem Kept.lookup_ne_zero (h : Kept t) (b : BitVec 32) :
  t.fibBlocks.lookup b ≠ some 0
  := by
  cases hback : t.config.backend with
  | rteLpm =>
    rw [h.uncounted hback]
    nofun
  | rteFib =>
  rw [h.counts hback b, counted]
  split
  case isTrue => nofun
  case isFalse hn => simpa using hn

/-- A call of a writer. -/
inductive Call
  | upsert (p : Ipv4Prefix) (value : ℕ)
  | erase (p : Ipv4Prefix)
  | clear
  | replaceAll (rules : List Rule)

/-- How a call ends, and the table after it. -/
def exec (t : LpmRouteTable) (env : Backend) : Call → Outcome × LpmRouteTable
  | .upsert p value => t.upsert env p value
  | .erase p => t.erase env p
  | .clear => t.clear env
  | .replaceAll rules => t.replaceAll env rules

/-- The routes after a successful call. -/
def record (routes : Ipv4Prefix → Option ℕ) : Call → Ipv4Prefix → Option ℕ
  | .upsert p value => update routes p (some value)
  | .erase p => update routes p none
  | .clear => fun p => if p.length = 0 then routes p else none
  | .replaceAll rules => lastValue rules

/-- The routes and the counts are as before. -/
structure Unchanged (t t' : LpmRouteTable) : Prop where
  rules : t'.rules = t.rules
  defaultRoute : t'.defaultRoute = t.defaultRoute
  fibBlocks : t'.fibBlocks = t.fibBlocks

/-- What a call does: it writes its routes, or it fails and changes none. -/
structure Ends (t : LpmRouteTable) (call : Call) (r : Outcome × LpmRouteTable) : Prop where
  kept : Kept r.2
  config : r.2.config = t.config
  written : r.1 = .ok → r.2.find = record t.find call
  failed : r.1 ≠ .ok → Unchanged t r.2

theorem Unchanged.refl (t : LpmRouteTable) :
  Unchanged t t
  := ⟨rfl, rfl, rfl⟩

theorem Kept.refused (h : Kept t) {call : Call} {outcome : Outcome} (hout : outcome ≠ .ok) :
  Ends t call (outcome, t)
  where
  kept := h
  config := rfl
  written hok := absurd hok hout
  failed _ := Unchanged.refl t

theorem Kept.setDefault (h : Kept t) {value : Option ℕ}
    (hvalue : ∀ v, value = some v → v ≤ kMaxValue) :
  Kept { t with
    live := { t.live with defaultValue := value.getD kNoDefault }, defaultRoute := value }
  where
  __ := h
  defaulted := rfl
  small p v hfind := by
    rw [find] at hfind
    split at hfind
    case isTrue => exact hvalue v hfind
    case isFalse hp => exact h.small p v ((find_of_long hp).trans hfind)

theorem find_setDefault (t : LpmRouteTable) (hp : p.length = 0) (value : Option ℕ)
    (defaultValue : ℕ) :
  find { t with live := { t.live with defaultValue := defaultValue }, defaultRoute := value }
    = update t.find p value
  := by
  funext q
  by_cases hq : q = p
  · subst hq
    rw [update_self, find, if_pos hp]
  have hlong : q.length ≠ 0 := fun hzero => hq (eq_of_length_eq_zero hzero hp)
  rw [update_of_ne hq, find_of_long hlong, find_of_long hlong]

theorem Kept.addRule (h : Kept t) (hmade : t.live.dpdk.made = true) (env : Backend)
    (hp : p.length ≠ 0) (hvalue : value ≤ kMaxValue) :
  Ends t (.upsert p value) (t.addRule env p value)
  := by
  rcases addRule_cases env (h.lookup_ne_zero (block p)) with ⟨e, hrefused⟩ | ⟨hadmits, hadded⟩
  · rw [hrefused]
    exact h.refused nofun
  rw [hadded]
  exact ⟨h.added hmade hp hvalue hadmits, rfl, fun _ => find_added hp value,
    absurd rfl⟩

theorem Kept.upsert (h : Kept t) (env : Backend) (p : Ipv4Prefix) (value : ℕ) :
  Ends t (.upsert p value) (t.upsert env p value)
  := by
  rw [LpmRouteTable.upsert]
  split
  case isTrue => exact h.refused nofun
  case isFalse hvalue =>
  split
  case isTrue hp =>
    have hsmall : ∀ v, some value = some v → v ≤ kMaxValue := by
      rintro v ⟨⟩
      omega
    exact ⟨h.setDefault hsmall, rfl, fun _ => find_setDefault t hp (some value) value,
      absurd rfl⟩
  case isFalse hp =>
  split
  case isTrue hbuilt => exact h.addRule (h.built ▸ hbuilt) env hp (by omega)
  case isFalse hbuilt =>
  split
  case isTrue => exact h.refused nofun
  case isFalse =>
  have hmade : t.live.dpdk.made = false := by
    rw [← h.built]
    simpa using hbuilt
  rw [newInstance_built]
  cases env.creates with
  | some refusal => exact h.refused nofun
  | none =>
  obtain ⟨hkept, hconfig, hwritten, hfailed⟩ := (h.publishLocked hmade).addRule
    (made_empty t.config.backend).1 env hp (show value ≤ kMaxValue by omega)
  exact ⟨hkept, hconfig, hwritten, fun hnot => { hfailed hnot with }⟩

/-- The table without a rule. -/
def erased (t : LpmRouteTable) (p : Ipv4Prefix) : LpmRouteTable :=
  { t with
    live := { t.live with dpdk := t.live.dpdk.write p none }
    rules := t.rules.erase p
    fibBlocks := if t.live.dpdk.isFib && decide (24 < p.length) then
        if (t.fibBlocks.lookup (block p)).getD 0 - 1 = 0 then t.fibBlocks.erase (block p)
        else t.fibBlocks.insert (block p) ((t.fibBlocks.lookup (block p)).getD 0 - 1)
      else t.fibBlocks }

theorem find_erased (hp : p.length ≠ 0) :
  (t.erased p).find = update t.find p none
  := by
  funext q
  by_cases hq : q = p
  · subst hq
    rw [update_self, find_of_long hp]
    exact lookup_erase q t.rules
  rw [update_of_ne hq, find]
  congr 1
  exact lookup_erase_ne hq

theorem Kept.made_of_mem (h : Kept t) (hp : p ∈ t.rules) :
  t.live.dpdk.made = true
  := by
  have hsome := lookup_isSome.mpr hp
  rw [← h.held] at hsome
  cases hdpdk : t.live.dpdk with
  | none => rw [hdpdk] at hsome; cases hsome
  | _ => rfl

theorem Kept.counts_erased (h : Kept t) (hp : p ∈ t.rules) (hback : t.config.backend = .rteFib) :
  Counts (t.erased p).fibBlocks (t.erased p).rules.keys
  := by
  have hkeys : (t.erased p).rules.keys = t.rules.keys.erase p := keys_erase p t.rules
  rw [hkeys, erased, (h.kind (h.made_of_mem hp)).mpr hback]
  by_cases hdeep : 24 < p.length
  · rw [decide_eq_true hdeep]
    exact (h.counts hback).erase_deep (mem_keys.mp hp) hdeep
  rw [decide_eq_false hdeep]
  exact (h.counts hback).erase_short hdeep

theorem Counts.groups_le {keys : List Ipv4Prefix}
    (h : Counts blocks keys) (h' : Counts blocks' keys') (hsub : keys' ⊆ keys) :
  blocks'.keys.length ≤ blocks.keys.length
  := by
  apply List.Subperm.length_le
  apply subperm_of_subset (keys_nodup blocks')
  intro b hb
  obtain ⟨q, hq, hdeep⟩ := h'.mem_iff.mp (mem_keys.mpr hb)
  exact mem_keys.mp (h.mem_iff.mpr ⟨q, hsub hq, hdeep⟩)

theorem Kept.erased (h : Kept t) (hp : p ∈ t.rules) :
  Kept (t.erased p)
  where
  built := h.built.trans (made_write _ _ _).symm
  kind _ := by
    rw [LpmRouteTable.erased, isFib_write]
    exact h.kind (h.made_of_mem hp)
  held q := by
    rw [LpmRouteTable.erased, rules_write (h.made_of_mem hp)]
    by_cases hq : q = p
    · subst hq
      rw [update_self, lookup_erase]
    · rw [update_of_ne hq, lookup_erase_ne hq, h.held]
  long q hq := h.long q (mem_erase.mp hq).2
  defaulted := h.defaulted
  small := h.small_update (find_erased (h.long p hp)) nofun
  counts hback := h.counts_erased hp hback
  uncounted hback := by
    rw [LpmRouteTable.erased, h.isFib_eq_false hback]
    exact h.uncounted hback
  within hback := by
    obtain ⟨hroutes, hgroups⟩ := h.within hback
    have hkeys : (t.erased p).rules.keys = t.rules.keys.erase p := keys_erase p t.rules
    constructor
    · rw [hkeys]
      exact (length_erase_le).trans hroutes
    refine le_trans ?_ hgroups
    apply Counts.groups_le (h.counts hback) (h.counts_erased hp hback)
    rw [hkeys]
    exact erase_subset

theorem Kept.erase (h : Kept t) (env : Backend) (p : Ipv4Prefix) :
  Ends t (.erase p) (t.erase env p)
  := by
  rw [LpmRouteTable.erase]
  split
  case isTrue hp =>
    cases t.defaultRoute with
    | none => exact h.refused nofun
    | some value =>
    have hsmall : ∀ v, none = some v → v ≤ kMaxValue := fun v hv => by cases hv
    exact ⟨h.setDefault hsmall, rfl, fun _ => find_setDefault t hp none kNoDefault,
      absurd rfl⟩
  case isFalse hp =>
  split
  case isTrue => exact h.refused nofun
  case isFalse hmem =>
  rw [not_not] at hmem
  split
  case isTrue => exact h.refused nofun
  case isFalse =>
    exact ⟨h.erased hmem, rfl, fun _ => find_erased hp, absurd rfl⟩

/-- The table with nothing but its default. -/
def cleared (t : LpmRouteTable) : LpmRouteTable :=
  { t with
    live := ⟨.none, t.defaultRoute.getD kNoDefault⟩
    built := false
    rules := ∅
    fibBlocks := ∅ }

theorem find_cleared (t : LpmRouteTable) :
  t.cleared.find = fun p => if p.length = 0 then t.find p else none
  := by
  funext p
  by_cases hp : p.length = 0
  · simp only [find, hp, if_true, cleared]
  · simp only [find, hp, if_false, cleared, lookup_empty]

theorem Kept.clear (h : Kept t) (env : Backend) :
  Ends t .clear (t.clear env)
  := by
  refine ⟨?_, rfl, fun _ => find_cleared t, absurd rfl⟩
  exact {
    built := rfl
    kind := nofun
    held := fun p => rfl
    long := fun p hp => absurd hp (notMem_empty p)
    defaulted := rfl
    small := by
      intro p value hvalue
      have hfind : (if p.length = 0 then t.find p else none) = some value :=
        (congrFun (find_cleared t) p).symm.trans hvalue
      split at hfind
      case isTrue => exact h.small p value hfind
      case isFalse => cases hfind
    counts := fun _ => Counts.empty
    uncounted := fun _ => rfl
    within := fun _ => ⟨Nat.zero_le _, Nat.zero_le _⟩ }

theorem lastValue_le {rules : List Rule} (h : ∀ rule ∈ rules, rule.value ≤ kMaxValue)
    (hlast : lastValue rules p = some value) :
  value ≤ kMaxValue
  := by
  rw [lastValue, Option.map_eq_some_iff] at hlast
  obtain ⟨rule, hfound, rfl⟩ := hlast
  exact h rule (mem_reverse.mp (mem_of_find?_eq_some hfound))

/-- A fresh structure is of the configured kind, and empty. -/
theorem filled_empty (config : Config) (h : dpdk = .none ∨ dpdk = .empty config.backend) :
  Filled config [] dpdk ∅
  where
  rules p value := by
    rcases h with rfl | rfl
    · simp [Dpdk.rules]
    · cases config.backend <;> simp [Dpdk.empty, Dpdk.rules]
  counts _ := Counts.empty
  uncounted _ := rfl
  within _ := ⟨Nat.zero_le _, Nat.zero_le _⟩

/-- A structure filled with the rules of a replacement, published with them. -/
theorem Filled.kept
    (h : Filled t.config (inOrder rules).reverse dpdk blocks)
    (hkind : dpdk.made = true → (dpdk.isFib = true ↔ t.config.backend = .rteFib))
    (hnone : dpdk.made = false → rules.keys = []) (hlong : ∀ p ∈ rules, p.length ≠ 0)
    (hsmall : ∀ (p : Ipv4Prefix) (value : ℕ),
      (if p.length = 0 then defaultRoute else rules.lookup p) = some value → value ≤ kMaxValue) :
  Kept { t with
    live := ⟨dpdk, defaultRoute.getD kNoDefault⟩
    built := dpdk.made
    rules := rules
    fibBlocks := blocks
    defaultRoute := defaultRoute }
  := by
  have hkeys : ((inOrder rules).reverse.map (·.1)).Perm rules.keys :=
    ((reverse_perm _).map _).trans (keys_inOrder rules)
  have hunmade : dpdk.made = false → dpdk.isFib = false := by
    intro hmade
    rw [Bool.eq_false_iff]
    intro hfib
    rw [made_of_isFib hfib] at hmade
    cases hmade
  refine {
    built := rfl
    kind := hkind
    held := ?_
    long := hlong
    defaulted := rfl
    small := hsmall
    counts := ?_
    uncounted := ?_
    within := ?_ }
  · intro p
    ext value
    rw [h.rules, mem_reverse, mem_inOrder]
  · intro hback
    cases hmade : dpdk.made with
    | true => exact (h.counts ((hkind hmade).mpr hback)).perm hkeys.symm
    | false =>
    rw [hnone hmade, h.uncounted (hunmade hmade)]
    exact Counts.empty
  · intro hback
    apply h.uncounted
    cases hmade : dpdk.made with
    | true =>
      rw [Bool.eq_false_iff]
      intro hfib
      have hrte := (hkind hmade).mp hfib
      rw [hback] at hrte
      cases hrte
    | false => exact hunmade hmade
  intro hback
  cases hmade : dpdk.made with
  | true =>
    obtain ⟨hroutes, hgroups⟩ := h.within ((hkind hmade).mpr hback)
    rw [← length_map (fun entry : Ipv4Prefix × ℕ => entry.1), hkeys.length_eq] at hroutes
    exact ⟨hroutes, hgroups⟩
  | false =>
  rw [hnone hmade, h.uncounted (hunmade hmade)]
  exact ⟨Nat.zero_le _, Nat.zero_le _⟩

section

variable (h : Kept t)

include h

theorem Kept.replaceAll (env : Backend) (rules : List Rule) :
  Ends t (.replaceAll rules) (t.replaceAll env rules)
  := by
  rw [LpmRouteTable.replaceAll]
  cases hcollect : collect rules ∅ none with
  | error e => exact h.refused nofun
  | ok next =>
  obtain ⟨nextRules, nextDefault⟩ := next
  obtain ⟨hlong, hvalues, hlast⟩ := collect_ok hcollect fun p hp => absurd hp (notMem_empty p)
  have hroutes : ∀ p : Ipv4Prefix,
      (if p.length = 0 then nextDefault else nextRules.lookup p) = lastValue rules p := by
    intro p
    rw [hlast p, lookup_empty, ite_self, Option.or_none]
  have hsmall : ∀ (p : Ipv4Prefix) (value : ℕ),
      (if p.length = 0 then nextDefault else nextRules.lookup p) = some value →
        value ≤ kMaxValue := fun p value hvalue => lastValue_le hvalues ((hroutes p).symm.trans hvalue)
  have hnodup : ((inOrder nextRules ++ []).map fun entry : Ipv4Prefix × ℕ => entry.1).Nodup := by
    rw [append_nil, (keys_inOrder nextRules).nodup_iff]
    exact keys_nodup nextRules
  simp only
  split
  case isTrue => exact h.refused nofun
  case isFalse =>
  cases hbuild : nextRules.keys.isEmpty with
  | true =>
    have hkeys : nextRules.keys = [] := isEmpty_iff.mp hbuild
    have hnothing : inOrder nextRules = [] := by
      have hperm := keys_inOrder nextRules
      rw [hkeys] at hperm
      exact map_eq_nil_iff.mp hperm.eq_nil
    have hfilled := filled_empty t.config (Or.inl rfl)
    rw [hnothing]
    refine ⟨?_, rfl, fun _ => funext hroutes, absurd rfl⟩
    refine Filled.kept ?_ (fun hmade => by cases hmade) (fun _ => hkeys) hlong hsmall
    rw [hnothing]
    exact hfilled
  | false =>
  rw [Bool.not_false, newInstance_built]
  cases env.creates with
  | some refusal => exact h.refused nofun
  | none =>
  obtain ⟨hmade, hkind⟩ := made_empty t.config.backend
  simp only
  cases hfill : fill t.config env (inOrder nextRules) (Dpdk.empty t.config.backend) ∅ 0 with
  | error e => exact h.refused nofun
  | ok filled =>
  obtain ⟨hfilled, hmade', hisFib⟩ :=
    (filled_empty t.config (Or.inr rfl)).fill (inOrder nextRules) [] hmade hnodup hfill
  refine ⟨?_, rfl, fun _ => funext hroutes, absurd rfl⟩
  rw [append_nil] at hfilled
  apply hfilled.kept (fun _ => by rw [hisFib]; exact hkind) _ hlong hsmall
  intro hnot
  rw [hmade'] at hnot
  cases hnot

theorem Kept.exec (env : Backend) (call : Call) :
  Ends t call (t.exec env call)
  := by
  cases call with
  | upsert p value => exact h.upsert env p value
  | erase p => exact h.erase env p
  | clear => exact h.clear env
  | replaceAll rules => exact h.replaceAll env rules

/-! ### What readers find -/

theorem Kept.le_of_lookup {addr : BitVec 32} (hlook : lookup t.find addr = some value) :
  value ≤ kMaxValue
  := by
  obtain ⟨p, -, hfind, -⟩ := lookup_eq_some_iff.mp hlook
  exact h.small p value hfind

/-- The structure and the default value together are the routes. -/
theorem Kept.lookup_find (addr : BitVec 32) :
  lookup t.find addr = (lookup t.live.dpdk.rules addr).or t.defaultRoute
  := by
  apply lookup_or_default
  · intro p hp
    rw [find_of_long hp, h.held]
  intro p hp
  rw [h.held]
  exact lookup_eq_none.mpr fun hmem => h.long p hmem hp

/-- `LookupOrMiss` is the longest match of the routes. -/
theorem Kept.lookupOrMiss_eq (addr : BitVec 32) :
  t.live.lookupOrMiss addr = (lookup t.find addr).getD kNoDefault
  := by
  have hfound := h.lookup_find addr
  have hsmall : ∀ {value}, lookup t.live.dpdk.rules addr = some value → value ≠ kFibMiss := by
    intro value hvalue hmiss
    rw [hvalue] at hfound
    have hle := h.le_of_lookup hfound
    rw [hmiss, kFibMiss] at hle
    omega
  rw [hfound, Instance.lookupOrMiss]
  cases hdpdk : t.live.dpdk with
  | none =>
    have hnone : lookup (Dpdk.rules .none) addr = none := lookup_eq_none_iff.mpr fun _ _ => rfl
    rw [hnone, Option.none_or, h.defaulted]
  | lpm rules =>
    rw [Dpdk.rules]
    cases hrules : lookup rules addr with
    | none => simp only [hrules, Option.none_or, h.defaulted]
    | some value => simp only [hrules, Option.some_or, Option.getD_some]
  | fib rules =>
  rw [hdpdk] at hsmall
  rw [Dpdk.rules]
  cases hrules : lookup rules addr with
  | none => simp [hrules, h.defaulted]
  | some value => simp [hrules, hsmall hrules]

theorem Kept.lookup_eq (addr : BitVec 32) :
  t.live.lookup? addr = lookup t.find addr
  := by
  rw [Instance.lookup?, h.lookupOrMiss_eq]
  cases hlook : lookup t.find addr with
  | none => simp
  | some value =>
  have hle := h.le_of_lookup hlook
  have hne : value ≠ kNoDefault := by
    rw [kMaxValue] at hle
    rw [kNoDefault]
    omega
  simp [hne]

end

theorem Unchanged.find_eq {t' : LpmRouteTable} (h : Unchanged t t') :
  t'.find = t.find
  := by
  funext p
  rw [find, find, h.rules, h.defaultRoute]

theorem ncard_eq_length {α : Type} [DecidableEq α] {s : Set α} {l : List α} (hnodup : l.Nodup)
    (h : ∀ x, x ∈ s ↔ x ∈ l) :
  s.ncard = l.length
  := by
  rw [← toFinset_card_of_nodup hnodup, ← Set.ncard_coe_finset]
  congr 1
  ext x
  rw [h, coe_toFinset, Set.mem_ofPred_eq]

theorem Kept.mem_rules_iff (h : Kept t) :
  p ∈ t.rules.keys ↔ p.length ≠ 0 ∧ t.find p ≠ none
  := by
  constructor
  · intro hmem
    have hp := h.long p hmem
    rw [find_of_long hp]
    exact ⟨hp, Option.isSome_iff_ne_none.mp (lookup_isSome.mpr hmem)⟩
  rintro ⟨hp, hfind⟩
  rw [find_of_long hp] at hfind
  exact lookup_isSome.mp (Option.isSome_iff_ne_none.mpr hfind)

theorem Kept.size_eq (h : Kept t) :
  t.size = {p | t.find p ≠ none}.ncard
  := by
  have hzero : ∀ {p : Ipv4Prefix}, p.length = 0 → t.find p = t.defaultRoute := fun hp => if_pos hp
  cases hdef : t.defaultRoute with
  | none =>
    rw [size, hdef, ncard_eq_length (keys_nodup t.rules)]
    · rfl
    intro p
    rw [h.mem_rules_iff, Set.mem_ofPred_eq, iff_and_self]
    intro hfind hp
    exact hfind ((hzero hp).trans hdef)
  | some value =>
  have hlen : (Prefix.trunc (0 : BitVec 32) 0).length = 0 := Prefix.length_trunc (Nat.zero_le 32)
  have hnodup : (Prefix.trunc 0 0 :: t.rules.keys).Nodup := by
    rw [nodup_cons]
    exact ⟨fun hmem => h.long _ hmem hlen, keys_nodup t.rules⟩
  rw [size, hdef, ncard_eq_length hnodup]
  · rfl
  intro p
  rw [mem_cons, h.mem_rules_iff, Set.mem_ofPred_eq]
  constructor
  · intro hfind
    by_cases hp : p.length = 0
    · exact Or.inl (eq_of_length_eq_zero hp hlen)
    · exact Or.inr ⟨hp, hfind⟩
  rintro (rfl | ⟨-, hfind⟩)
  · rw [hzero hlen, hdef]
    nofun
  · exact hfind

end LpmRouteTable

end Route
