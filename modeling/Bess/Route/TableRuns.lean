import Bess.Route.Bookkeeping

/-!
# Runs of the route table

A run is a sequence of calls from a new table, with whatever the backend decides in each. Beside
the table go the routes that were written: those of the calls that succeeded. In every state of a
run the table holds exactly these routes, counts them, and answers by them; and `FibAdmits`
refuses a new prefix exactly when the routes with it would be over a limit.
-/

open Function List LongestMatch

namespace Route.LpmRouteTable

/-- A table after some calls, and the routes written by those that succeeded. -/
inductive Run (config : Config) : LpmRouteTable → (Ipv4Prefix → Option ℕ) → Prop
  | create : Run config (create config) fun _ => none
  | call {t : LpmRouteTable} {routes : Ipv4Prefix → Option ℕ} (env : Backend) (call : Call) :
      Run config t routes →
        Run config (t.exec env call).2
          (if (t.exec env call).1 = .ok then record routes call else routes)

theorem find_create (config : Config) :
  (create config).find = fun _ => none
  := by
  funext p
  exact ite_self none

variable {b : BitVec 32} {p : Ipv4Prefix} {routes : Ipv4Prefix → Option ℕ} {t : LpmRouteTable}

theorem Run.kept {config : Config} (h : Run config t routes) :
  Kept t ∧ t.config = config ∧ t.find = routes
  := by
  induction h with
  | create => exact ⟨Kept.create config, rfl, find_create config⟩
  | call env call _ ih =>
  obtain ⟨hkept, hconfig, rfl⟩ := ih
  obtain ⟨hkept', hconfig', hwritten, hfailed⟩ := hkept.exec env call
  refine ⟨hkept', hconfig'.trans hconfig, ?_⟩
  split
  case isTrue hok => exact hwritten hok
  case isFalse hnot => exact (hfailed hnot).find_eq

/-! ### Numbers of routes -/

section

variable (routes : Ipv4Prefix → Option ℕ)

/-- The routes longer than /24 in a block. -/
def deepRoutes (b : BitVec 32) : Set Ipv4Prefix :=
  {p | (24 < p.length ∧ block p = b) ∧ routes p ≠ none}

/-- The routes that need a rule of the structure. -/
def longRoutes : Set Ipv4Prefix :=
  {p | p.length ≠ 0 ∧ routes p ≠ none}

/-- The blocks that need a tbl8 group. -/
def deepBlocks : Set (BitVec 32) :=
  {b | (deepRoutes routes b).Nonempty}

end

theorem Kept.mem_deepRoutes_iff (h : Kept t) :
  p ∈ deepRoutes t.find b ↔ p ∈ t.rules.keys ∧ deepIn b p = true
  := by
  rw [h.mem_rules_iff, deepIn, decide_eq_true_iff]
  constructor
  · rintro ⟨hdeep, hfind⟩
    exact ⟨⟨by omega, hfind⟩, hdeep⟩
  rintro ⟨⟨-, hfind⟩, hdeep⟩
  exact ⟨hdeep, hfind⟩

theorem Kept.ncard_deepRoutes (h : Kept t) (b : BitVec 32) :
  (deepRoutes t.find b).ncard = t.rules.keys.countP (deepIn b)
  := by
  rw [countP_eq_length_filter]
  apply ncard_eq_length ((AList.keys_nodup t.rules).filter _)
  intro p
  rw [h.mem_deepRoutes_iff, mem_filter]

theorem Kept.mem_deepBlocks_iff (h : Kept t) (hback : t.config.backend = .rteFib) :
  b ∈ deepBlocks t.find ↔ b ∈ t.fibBlocks.keys
  := by
  rw [← AList.mem_keys, (h.counts hback).mem_iff]
  constructor
  · rintro ⟨p, hp⟩
    exact ⟨p, h.mem_deepRoutes_iff.mp hp⟩
  rintro ⟨p, hp⟩
  exact ⟨p, h.mem_deepRoutes_iff.mpr hp⟩

/-! ### A new prefix -/

theorem longRoutes_update (hp : p.length ≠ 0) (value : ℕ) :
  longRoutes (update routes p (some value)) = insert p (longRoutes routes)
  := by
  ext q
  by_cases hq : q = p
  · subst hq
    simp [longRoutes, hp]
  · simp [longRoutes, hq]

theorem deepRoutes_update (value : ℕ) :
  (deepRoutes (update routes p (some value)) b).Nonempty
    ↔ (24 < p.length ∧ block p = b) ∨ (deepRoutes routes b).Nonempty
  := by
  constructor
  · rintro ⟨q, hdeep, hroute⟩
    by_cases hq : q = p
    · subst hq
      exact Or.inl hdeep
    rw [update_of_ne hq] at hroute
    exact Or.inr ⟨q, hdeep, hroute⟩
  rintro (hdeep | ⟨q, hdeep, hroute⟩)
  · use p, hdeep
    simp
  use q, hdeep
  by_cases hq : q = p
  · simp [hq]
  · rwa [update_of_ne hq]

theorem Kept.ncard_longRoutes_update (h : Kept t) (hp : p.length ≠ 0) (hnew : t.find p = none)
    (value : ℕ) :
  (longRoutes (update t.find p (some value))).ncard = t.rules.keys.length + 1
  := by
  have hnot : p ∉ t.rules.keys := fun hmem => (h.mem_rules_iff.mp hmem).2 hnew
  rw [longRoutes_update hp]
  apply ncard_eq_length (nodup_cons.mpr ⟨hnot, AList.keys_nodup t.rules⟩)
  intro q
  rw [mem_cons, h.mem_rules_iff]
  rfl

theorem Kept.ncard_deepBlocks_update (h : Kept t) (hback : t.config.backend = .rteFib)
    (p : Ipv4Prefix) (value : ℕ) :
  (deepBlocks (update t.find p (some value))).ncard
    = if 24 < p.length ∧ block p ∉ t.fibBlocks then t.fibBlocks.keys.length + 1
      else t.fibBlocks.keys.length
  := by
  split
  case isTrue hdeep =>
    apply ncard_eq_length (nodup_cons.mpr ⟨hdeep.2, AList.keys_nodup t.fibBlocks⟩)
    intro b
    rw [mem_cons, ← h.mem_deepBlocks_iff hback, deepBlocks, Set.mem_ofPred_eq,
      deepRoutes_update, and_iff_right hdeep.1, eq_comm]
    rfl
  case isFalse hnot =>
  apply ncard_eq_length (AList.keys_nodup t.fibBlocks)
  intro b
  rw [← h.mem_deepBlocks_iff hback, deepBlocks, Set.mem_ofPred_eq, deepRoutes_update]
  refine ⟨?_, Or.inr⟩
  rintro (⟨hdeep, rfl⟩ | hin)
  · rw [h.mem_deepBlocks_iff hback]
    exact not_not.mp fun hmem => hnot ⟨hdeep, hmem⟩
  · exact hin

/-- `FibAdmits` refuses a new prefix if and only if the routes with it are over a limit. -/
theorem Kept.fibAdmits_eq_false_iff (h : Kept t) (hback : t.config.backend = .rteFib)
    (hp : p.length ≠ 0) (hnew : t.find p = none) (value : ℕ) :
  fibAdmits t.config t.fibBlocks t.rules.keys.length p = false
    ↔ t.config.maxRoutes < (longRoutes (update t.find p (some value))).ncard
        ∨ t.config.tbl8Groups < (deepBlocks (update t.find p (some value))).ncard
  := by
  have hgroups := (h.within hback).2
  rw [← Bool.not_eq_true, fibAdmits_iff, h.ncard_longRoutes_update hp hnew,
    h.ncard_deepBlocks_update hback]
  split
  case isTrue hdeep =>
    obtain ⟨hlen, hmem⟩ := hdeep
    have hnot : ¬(p.length ≤ 24 ∨ block p ∈ t.fibBlocks) := by
      rintro (hshort | hin)
      · omega
      · exact hmem hin
    rw [or_iff_right hnot]
    omega
  case isFalse hnot =>
  have hfree : p.length ≤ 24 ∨ block p ∈ t.fibBlocks := by
    rcases Nat.lt_or_ge 24 p.length with hlen | hlen
    · exact Or.inr (not_not.mp fun hmem => hnot ⟨hlen, hmem⟩)
    · exact Or.inl hlen
  rw [and_iff_left (Or.inl hfree)]
  omega

/-! ### Every state of a run -/

/-- In every state of a run the rules and the default are the routes that were written, `rte_fib`
tables count the rules longer than /24 of each block and `rte_lpm` tables count none, `size` is
the number of routes and lookups are their longest match. A call that fails changes none of this,
and `FibAdmits` refuses a new prefix exactly when it would be over a limit. -/
theorem table_is_booked {config : Config} {t : LpmRouteTable} {routes : Ipv4Prefix → Option ℕ}
    (h : Run config t routes) :
  ((∀ p : Ipv4Prefix, t.rules.lookup p = if p.length = 0 then none else routes p)
      ∧ ∀ p : Ipv4Prefix, p.length = 0 → t.defaultRoute = routes p)
    ∧ (config.backend = .rteFib →
        ∀ b, t.fibBlocks.lookup b = counted (deepRoutes routes b).ncard)
    ∧ (config.backend = .rteLpm → t.fibBlocks = ∅)
    ∧ t.size = {p | routes p ≠ none}.ncard
    ∧ (∀ addr, t.live.lookup? addr = lookup routes addr)
    ∧ (∀ (env : Backend) (call : Call), (t.exec env call).1 ≠ .ok →
        (t.exec env call).2.rules = t.rules
          ∧ (t.exec env call).2.defaultRoute = t.defaultRoute
          ∧ (t.exec env call).2.fibBlocks = t.fibBlocks
          ∧ (t.exec env call).2.size = t.size
          ∧ ∀ addr, (t.exec env call).2.live.lookup? addr = t.live.lookup? addr)
    ∧ (config.backend = .rteFib → ∀ p : Ipv4Prefix, p.length ≠ 0 → routes p = none → ∀ value : ℕ,
        (fibAdmits config t.fibBlocks t.rules.keys.length p = false
          ↔ config.maxRoutes < (longRoutes (update routes p (some value))).ncard
              ∨ config.tbl8Groups < (deepBlocks (update routes p (some value))).ncard))
  := by
  obtain ⟨hkept, rfl, rfl⟩ := h.kept
  refine ⟨⟨?_, ?_⟩, ?_, hkept.uncounted, hkept.size_eq, hkept.lookup_eq, ?_, ?_⟩
  · intro p
    split
    case isTrue hp => exact AList.lookup_eq_none.mpr fun hmem => hkept.long p hmem hp
    case isFalse hp => exact (find_of_long hp).symm
  · intro p hp
    exact (if_pos hp).symm
  · intro hback b
    rw [hkept.ncard_deepRoutes]
    exact hkept.counts hback b
  · intro env call hnot
    obtain ⟨hkept', -, -, hfailed⟩ := hkept.exec env call
    have hsame := hfailed hnot
    refine ⟨hsame.rules, hsame.defaultRoute, hsame.fibBlocks, ?_, ?_⟩
    · rw [size, size, hsame.rules, hsame.defaultRoute]
    intro addr
    rw [hkept'.lookup_eq, hkept.lookup_eq, hsame.find_eq]
  intro hback p hp hnew value
  exact hkept.fibAdmits_eq_false_iff hback hp hnew value

/-- A backend that takes everything. -/
def willing : Backend where
  admits := true
  creates := none
  adds _ := none
  deletes _ := false

/-- 10.0.0.0/25. -/
def deepPrefix : Ipv4Prefix :=
  Prefix.trunc 0x0a000000 25

/-- A table with one route, longer than /24. -/
def deepTable (backend : RouteBackend) : LpmRouteTable :=
  ((create { backend := backend }).exec willing (.upsert deepPrefix 7)).2

theorem run_deepTable (backend : RouteBackend) :
  ∃ routes, Run { backend := backend } (deepTable backend) routes
  := ⟨_, Run.call willing (.upsert deepPrefix 7) Run.create⟩

/-- An `rte_lpm` table has a rule longer than /24 that is not counted. -/
theorem lpm_table_counts_nothing :
  ∃ (config : Config) (t : LpmRouteTable) (routes : Ipv4Prefix → Option ℕ) (b : BitVec 32),
    Run config t routes ∧ t.fibBlocks.lookup b ≠ counted (deepRoutes routes b).ncard
  := by
  obtain ⟨routes, hrun⟩ := run_deepTable .rteLpm
  refine ⟨_, _, routes, block deepPrefix, hrun, ?_⟩
  obtain ⟨hkept, -, rfl⟩ := hrun.kept
  have hmem : deepPrefix ∈ (deepTable .rteLpm).rules.keys := by
    rw [hkept.mem_rules_iff]
    exact ⟨by decide, nofun⟩
  rw [hkept.uncounted rfl, hkept.ncard_deepRoutes, AList.lookup_empty, ne_comm, ne_eq,
    counted_eq_none_iff, countP_eq_zero]
  intro hnone
  exact hnone deepPrefix hmem (by decide)

/-- The same route of an `rte_fib` table is counted. Another one that is refused leaves the count, and
the count goes with the route. -/
theorem table_is_booked_deep :
  let t := deepTable .rteFib
  let refused := t.exec { willing with adds := fun _ => some .noSpace }
    (.upsert (Prefix.trunc 0x0a000080 25) 8)
  let erased := refused.2.exec willing (.erase deepPrefix)
  t.fibBlocks.lookup (block deepPrefix) = some 1
    ∧ refused.1 = .error .tableFull ∧ refused.2.fibBlocks = t.fibBlocks
    ∧ ∃ routes : Ipv4Prefix → Option ℕ, routes deepPrefix = none
      ∧ erased.2.fibBlocks.lookup (block deepPrefix)
        = counted (deepRoutes routes (block deepPrefix)).ncard
      ∧ erased.2.size = {p | routes p ≠ none}.ncard
  := by
  intro t refused erased
  obtain ⟨routes, hrun⟩ := run_deepTable .rteFib
  obtain ⟨-, -, -, -, -, hfailed, -⟩ := table_is_booked hrun
  have hrefused : refused.1 = .error .tableFull := rfl
  have herased : erased.1 = .ok := rfl
  have hgone (routes) : record routes (.erase deepPrefix) deepPrefix = none := by simp [record]
  obtain ⟨-, hcounts, -, hsize, -⟩ := table_is_booked ((hrun.call _ _).call willing (.erase deepPrefix))
  refine ⟨rfl, hrefused, (hfailed _ _ ?_).2.2.1, _, ?_, hcounts rfl _, hsize⟩
  · exact hrefused ▸ nofun
  · rw [if_pos herased, hgone]

end Route.LpmRouteTable
