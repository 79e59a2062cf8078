import Mathlib

/-!
# Counting what is named

Each place `i` names the elements of a list `f i`, and all places that name anything are in a
finite set `S`. Of a list `T` of places `part` counts how often they name an element, and `rest`
counts this for the places of `S` that are not in `T`. So a change at the places of `T` changes
the total by what it changes there.
-/

open Finset

namespace Tally

open List

variable {ι X : Type} [DecidableEq ι] [BEq X]

/-- How often the places of a finite set name an element. -/
def total (S : Finset ι) (f : ι → List X) (x : X) : ℕ :=
  ∑ i ∈ S, (f i).count x

/-- How often the places outside a list name an element. -/
def rest (S : Finset ι) (T : List ι) (f : ι → List X) (x : X) : ℕ :=
  ∑ i ∈ S with i ∉ T, (f i).count x

omit [DecidableEq ι] in
/-- How often the places of a list name an element. -/
def part (T : List ι) (f : ι → List X) (x : X) : ℕ :=
  (T.map (fun i => (f i).count x)).sum

variable {S : Finset ι} {T : List ι} {f : ι → List X} {i : ι}

theorem total_eq_part_add_rest (nodup : T.Nodup) (outside : ∀ i ∉ S, f i = []) (x : X) :
  total S f x = part T f x + rest S T f x
  := by
  have hpart : part T f x = ∑ i ∈ S with i ∈ T, (f i).count x := by
    rw [part, ← sum_toFinset _ nodup]
    symm
    apply sum_subset
    · intro i hi
      rw [mem_toFinset]
      exact (mem_filter.mp hi).2
    intro i hi hnot
    have hS : i ∉ S := fun hS =>
      hnot (mem_filter.mpr ⟨hS, mem_toFinset.mp hi⟩)
    rw [outside i hS, count_nil]
  rw [hpart, total, rest, sum_filter_add_sum_filter_not]

theorem rest_congr {S' : Finset ι} {f' : ι → List X} (outside : ∀ i ∉ S, f i = [])
    (outside' : ∀ i ∉ S', f' i = []) (h : ∀ i ∉ T, f' i = f i) (x : X) :
  rest S' T f' x = rest S T f x
  := by
  have hunion : ∀ {R : Finset ι} {g : ι → List X}, R ⊆ S ∪ S' → (∀ i ∉ R, g i = []) →
      rest R T g x = rest (S ∪ S') T g x := by
    intro R g hR houtside
    apply sum_subset (filter_subset_filter _ hR)
    intro i hi hnot
    rw [Finset.mem_filter] at hi hnot
    have hiR : i ∉ R := fun hiR => hnot ⟨hiR, hi.2⟩
    rw [houtside i hiR, count_nil]
  rw [hunion subset_union_right outside', hunion subset_union_left outside]
  apply sum_congr rfl
  intro i hi
  rw [h i (mem_filter.mp hi).2]

theorem rest_pos [LawfulBEq X] {x : X} (hi : i ∈ S) (hT : i ∉ T) (hx : x ∈ f i) :
  0 < rest S T f x
  := by
  have hcount : (f i).count x ≤ rest S T f x := by
    apply single_le_sum (f := fun i => (f i).count x)
    · intro j _
      exact Nat.zero_le _
    rw [Finset.mem_filter]
    exact ⟨hi, hT⟩
  exact (count_pos_iff.mpr hx).trans_le hcount

omit [DecidableEq ι] in
theorem part_pos [LawfulBEq X] {x : X} (hT : i ∈ T) (hx : x ∈ f i) :
  0 < part T f x
  := by
  have hcount : (f i).count x ≤ part T f x := by
    apply le_sum_of_mem
    exact mem_map_of_mem hT
  exact (count_pos_iff.mpr hx).trans_le hcount

end Tally
