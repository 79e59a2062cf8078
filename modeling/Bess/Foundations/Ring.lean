import Bess.Foundations.Probe
import Mathlib.Data.List.Range

/-!
# Queues in a ring of cells

A queue kept in `n` cells: its first entry is in the cell `head`, and the entries follow one
another around the ring. Entries are added at the tail and taken at the head.
-/

namespace Ring

open Function List

variable {α : Type*} {n head count : ℕ} {items : ℕ → α}

/-- The entries of the queue, the first one first. -/
def contents (n : ℕ) (items : ℕ → α) (head count : ℕ) : List α :=
  (List.range count).map fun k => items (Probe.place n head k)

@[simp] theorem length_contents (n : ℕ) (items : ℕ → α) (head count : ℕ) :
  (contents n items head count).length = count
  := by
  rw [contents, length_map, length_range]

@[simp] theorem contents_zero :
  contents n items head 0 = []
  := rfl

theorem contents_succ :
  contents n items head (count + 1)
    = contents n items head count ++ [items (Probe.place n head count)]
  := by
  rw [contents, range_succ, map_append]
  rfl

/-- An entry is added at the tail, which no other entry uses. -/
theorem contents_push (hroom : count < n) (a : α) :
  contents n (update items (Probe.place n head count) a) head (count + 1)
    = contents n items head count ++ [a]
  := by
  rw [contents_succ, update_self]
  congr 1
  apply map_congr_left
  intro k hk
  rw [mem_range] at hk
  apply update_of_ne
  intro heq
  have := Probe.place_inj (hk.trans hroom) hroom heq
  omega

theorem contents_pop (hhead : head < n) :
  contents n items head (count + 1)
    = items head :: contents n items (Probe.place n head 1) count
  := by
  rw [contents, range_succ_eq_map, map_cons, map_map, Probe.place_zero hhead]
  congr 1
  apply map_congr_left
  intro k _
  rw [Function.comp_apply, Probe.place_place, Nat.succ_eq_add_one, Nat.add_comm k 1]

end Ring
