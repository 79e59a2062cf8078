import Mathlib.Data.List.Sort

/-!
# Runs of equal keys in a sorted list

A list sorted by a key has the entries of one key next to each other. `lowerBound` finds where they
begin by halving, and the run from there is what the list had of the key before it was sorted, in
the order it had.
-/

namespace Search

open List

/-! ### Lower bounds -/

/-- The loop of `std::lower_bound`: the first of the `len` positions from `first` on where `below`
fails. -/
def lowerBound (below : ℕ → Bool) (first len : ℕ) : ℕ :=
  if len = 0 then first
  else if below (first + len / 2) then
    lowerBound below (first + len / 2 + 1) (len - len / 2 - 1)
  else lowerBound below first (len / 2)
termination_by len

/-- The positions before the lower bound are below, those from it on are not. -/
theorem lowerBound_spec {below : ℕ → Bool} {first len : ℕ}
    (hbelow : ∀ i j, i ≤ j → j < first + len → below j = true → below i = true) :
  first ≤ lowerBound below first len ∧ lowerBound below first len ≤ first + len
    ∧ (∀ i, first ≤ i → i < lowerBound below first len → below i = true)
    ∧ ∀ i, lowerBound below first len ≤ i → i < first + len → below i = false
  := by
  fun_induction lowerBound below first len with
  | case1 first => exact ⟨le_rfl, le_rfl, fun i hi hlt => by omega, fun i hi hlt => by omega⟩
  | case2 first len hlen hmid ih =>
    have hlen' : first + len / 2 + 1 + (len - len / 2 - 1) = first + len := by omega
    rw [hlen'] at ih
    obtain ⟨hle, hge, hbefore, hafter⟩ := ih hbelow
    refine ⟨by omega, hge, ?_, hafter⟩
    intro i hi hlt
    by_cases hlow : i ≤ first + len / 2
    · exact hbelow i (first + len / 2) hlow (by omega) hmid
    · exact hbefore i (by omega) hlt
  | case3 first len hlen hmid ih =>
  obtain ⟨hle, hge, hbefore, hafter⟩ := ih (fun i j hij hj => hbelow i j hij (by omega))
  refine ⟨hle, by omega, hbefore, ?_⟩
  intro i hi hlt
  by_cases hlow : i < first + len / 2
  · exact hafter i hi hlow
  cases hat : below i with
  | false => rfl
  | true =>
  have hmid' := hbelow (first + len / 2) i (by omega) hlt hat
  rw [hmid'] at hmid
  exact absurd rfl hmid

/-! ### Runs -/

variable {α κ : Type*} [LinearOrder κ] {key : α → κ}

/-- The entries from the lower bound of a key on, as long as they have it. -/
def run (key : α → κ) (want : κ) (xs : List α) : List α :=
  (xs.drop (lowerBound (fun i => decide (∃ x ∈ xs[i]?, key x < want)) 0 xs.length)).takeWhile
    fun x => decide (key x = want)

variable {xs : List α} {want : κ}

/-- Before the lower bound no entry has the key. -/
theorem filter_eq_of_lt (h : ∀ x ∈ xs, key x < want) :
  xs.filter (fun x => decide (key x = want)) = []
  := by
  rw [filter_eq_nil_iff]
  intro x hx
  rw [decide_eq_true_eq]
  exact (h x hx).ne

/-- From the lower bound on the entries with the key come first. -/
theorem takeWhile_eq_filter (hsorted : xs.Pairwise fun x y => key x ≤ key y)
    (h : ∀ x ∈ xs, want ≤ key x) :
  xs.takeWhile (fun x => decide (key x = want)) = xs.filter fun x => decide (key x = want)
  := by
  induction xs with
  | nil => rfl
  | cons x xs ih =>
  rw [pairwise_cons] at hsorted
  rw [forall_mem_cons] at h
  by_cases hx : key x = want
  · rw [takeWhile_cons, filter_cons, decide_eq_true hx, ih hsorted.2 h.2, if_pos rfl, if_pos rfl]
  have hlt : want < key x := lt_of_le_of_ne h.1 (Ne.symm hx)
  rw [takeWhile_cons, decide_eq_false hx, if_neg nofun]
  symm
  rw [filter_eq_nil_iff]
  intro y hy
  rw [decide_eq_true_eq]
  rcases mem_cons.mp hy with rfl | hy
  · exact hx
  · exact (hlt.trans_le (hsorted.1 y hy)).ne'

/-- The run of a key in a sorted list is all of its entries. -/
theorem run_eq_filter (hsorted : xs.Pairwise fun x y => key x ≤ key y) :
  run key want xs = xs.filter fun x => decide (key x = want)
  := by
  set below : ℕ → Bool := fun i => decide (∃ x ∈ xs[i]?, key x < want) with hdef
  have hat : ∀ i (hi : i < xs.length), below i = decide (key xs[i] < want) := by
    intro i hi
    rw [hdef]
    simp [getElem?_eq_getElem hi]
  have hmono : ∀ i j, i ≤ j → j < 0 + xs.length → below j = true → below i = true := by
    intro i j hij hj hbelow
    rw [Nat.zero_add] at hj
    rw [hat j hj, decide_eq_true_eq] at hbelow
    rw [hat i (hij.trans_lt hj), decide_eq_true_eq]
    rcases hij.eq_or_lt with rfl | hlt
    · exact hbelow
    · exact (pairwise_iff_getElem.mp hsorted i j _ hj hlt).trans_lt hbelow
  obtain ⟨-, hge, hbefore, hafter⟩ := lowerBound_spec hmono
  set n := lowerBound below 0 xs.length
  have hsplit : xs.filter (fun x => decide (key x = want))
      = (xs.take n).filter (fun x => decide (key x = want))
        ++ (xs.drop n).filter fun x => decide (key x = want) := by
    rw [← filter_append, take_append_drop]
  rw [hsplit, filter_eq_of_lt]
  · apply takeWhile_eq_filter (hsorted.sublist (drop_sublist n xs))
    intro x hx
    obtain ⟨i, hi, rfl⟩ := getElem_of_mem hx
    rw [length_drop] at hi
    rw [getElem_drop]
    have hclear := hafter (n + i) (Nat.le_add_right n i) (by omega)
    rw [hat _ (by omega), decide_eq_false_iff_not, not_lt] at hclear
    exact hclear
  intro x hx
  obtain ⟨i, hi, rfl⟩ := getElem_of_mem hx
  rw [length_take] at hi
  rw [getElem_take]
  have hset := hbefore i (Nat.zero_le i) (by omega)
  rw [hat _ (by omega), decide_eq_true_eq] at hset
  exact hset

/-! ### Stable sorts -/

/-- A stable sort by the key. -/
def sortBy (key : α → κ) (xs : List α) : List α :=
  xs.mergeSort fun x y => decide (key x ≤ key y)

theorem decide_le_trans (a b c : α) (hab : decide (key a ≤ key b) = true)
    (hbc : decide (key b ≤ key c) = true) :
  decide (key a ≤ key c) = true
  := decide_eq_true ((of_decide_eq_true hab).trans (of_decide_eq_true hbc))

theorem decide_le_total (a b : α) :
  (decide (key a ≤ key b) || decide (key b ≤ key a)) = true
  := by
  rw [Bool.or_eq_true, decide_eq_true_eq, decide_eq_true_eq]
  exact le_total (key a) (key b)

theorem pairwise_sortBy (key : α → κ) (xs : List α) :
  (sortBy key xs).Pairwise fun x y => key x ≤ key y
  := by
  apply (pairwise_mergeSort decide_le_trans decide_le_total xs).imp
  intro x y hle
  exact of_decide_eq_true hle

theorem filter_sortBy (want : κ) (xs : List α) :
  (sortBy key xs).filter (fun x => decide (key x = want))
    = xs.filter fun x => decide (key x = want)
  := by
  have hequal : (xs.filter fun x => decide (key x = want)).Pairwise
      fun x y => decide (key x ≤ key y) = true := by
    rw [pairwise_iff_getElem]
    intro i j hi hj _
    have hi' := (mem_filter.mp (getElem_mem hi)).2
    have hj' := (mem_filter.mp (getElem_mem hj)).2
    rw [decide_eq_true_eq] at hi' hj' ⊢
    rw [hi', hj']
  have hsublist := (sublist_mergeSort decide_le_trans decide_le_total hequal
    filter_sublist).filter fun x => decide (key x = want)
  rw [filter_filter] at hsublist
  simp only [Bool.and_self] at hsublist
  have hperm := (mergeSort_perm xs fun x y => decide (key x ≤ key y)).filter
    fun x => decide (key x = want)
  exact (hsublist.eq_of_length hperm.length_eq.symm).symm

/-- The run of a key in a sorted list is what the list had of it. -/
theorem run_sortBy (key : α → κ) (want : κ) (xs : List α) :
  run key want (sortBy key xs) = xs.filter fun x => decide (key x = want)
  := by
  rw [run_eq_filter (pairwise_sortBy key xs), filter_sortBy]

end Search
