import Mathlib.Data.Nat.ModEq

/-!
# Walks around a ring of cells

The cells of an open-addressing table are numbered below `count` and visited one after the other
from a home cell, past the last one back to the first. Positions of a walk are given by their
distance from home, which determines the cell as long as it is below `count`.
-/

namespace Probe

open Function

/-- The cell after `b`. -/
def next (count b : ℕ) : ℕ :=
  if b + 1 = count then 0 else b + 1

/-- The cell at distance `e` from `home`. -/
def place (count home e : ℕ) : ℕ :=
  (home + e) % count

section

variable {count home b e d : ℕ} {α : Type*}

theorem place_lt (hcount : 0 < count) (home e : ℕ) :
  place count home e < count
  := by
  apply Nat.mod_lt _ hcount

@[simp] theorem place_zero (hhome : home < count) :
  place count home 0 = home
  := by
  apply Nat.mod_eq_of_lt
  exact hhome

theorem next_place (hcount : 0 < count) (home e : ℕ) :
  next count (place count home e) = place count home (e + 1)
  := by
  have hlt := place_lt hcount home e
  have hsucc : place count home (e + 1) = (place count home e + 1) % count := by
    rw [place, place, Nat.mod_add_mod, Nat.add_assoc]
  rw [next, hsucc]
  split
  case isTrue h => rw [h, Nat.mod_self]
  case isFalse h => rw [Nat.mod_eq_of_lt (by omega)]

theorem next_lt (hb : b < count) :
  next count b < count
  := by
  rw [next]
  split <;> omega

theorem place_place (home e e' : ℕ) :
  place count (place count home e) e' = place count home (e + e')
  := by
  rw [place, place, place, Nat.mod_add_mod, Nat.add_assoc]

theorem place_ne {k : ℕ} (hpos : 0 < k) (hk : k < count) :
  place count home (e + k) ≠ place count home e
  := by
  intro h
  have hmod : home + e + k ≡ home + e + 0 [MOD count] := by
    rw [Nat.add_assoc]
    exact h
  have hzero : k ≡ 0 [MOD count] := Nat.ModEq.add_left_cancel' _ hmod
  rw [Nat.ModEq, Nat.zero_mod, Nat.mod_eq_of_lt hk] at hzero
  omega

theorem place_inj {e' : ℕ} (he : e < count) (he' : e' < count)
    (h : place count home e = place count home e') :
  e = e'
  := by
  rcases lt_trichotomy e e' with hlt | heq | hlt
  · obtain ⟨k, rfl⟩ := Nat.exists_eq_add_of_lt hlt
    apply absurd h.symm
    apply place_ne (k := k + 1) <;> omega
  · exact heq
  obtain ⟨k, rfl⟩ := Nat.exists_eq_add_of_lt hlt
  apply absurd h
  apply place_ne (k := k + 1) <;> omega

/-- Every cell is on the walk from any home, at a distance below `count`. -/
theorem exists_place (hhome : home < count) (hb : b < count) :
  ∃ e < count, place count home e = b
  := by
  rcases Nat.lt_or_ge b home with hlt | hle
  · use b + count - home, by omega
    rw [place, show home + (b + count - home) = b + count by omega, Nat.add_mod_right,
      Nat.mod_eq_of_lt hb]
  use b - home, by omega
  rw [place, show home + (b - home) = b by omega, Nat.mod_eq_of_lt hb]

/-- Changes `d` cells with `f`, one after the other from `b` on. -/
def along {α : Type*} (count : ℕ) (f : α → α) : ℕ → ℕ → (ℕ → α) → ℕ → α
  | 0, _, g => g
  | d + 1, b, g => along count f d (next count b) (update g b (f (g b)))

/-- A walk that does not come back to its first cell changes each cell it passes once. -/
theorem along_apply (f : α → α) (hcount : 0 < count) (hd : d ≤ count)
    (home e : ℕ) (g : ℕ → α) (b : ℕ) [Decidable (∃ k < d, place count home (e + k) = b)] :
  along count f d (place count home e) g b
    = if ∃ k < d, place count home (e + k) = b then f (g b) else g b
  := by
  induction d generalizing e g with
  | zero => simp [along]
  | succ d ih =>
  rw [along, next_place hcount, ih (by omega)]
  by_cases hfirst : place count home e = b
  case pos =>
    have hlater : ¬ ∃ k < d, place count home (e + 1 + k) = b := by
      rintro ⟨k, hk, h⟩
      have hne : place count home (e + (1 + k)) ≠ place count home e :=
        place_ne (by omega) (by omega)
      apply hne
      rw [← Nat.add_assoc, h, hfirst]
    rw [if_neg hlater, if_pos ⟨0, by omega, hfirst⟩, hfirst, update_self]
  case neg =>
  have hpassed : (∃ k < d, place count home (e + 1 + k) = b)
      ↔ ∃ k < d + 1, place count home (e + k) = b := by
    constructor
    · rintro ⟨k, hk, h⟩
      exact ⟨k + 1, by omega, by rw [← h]; congr 1; omega⟩
    rintro ⟨k, hk, h⟩
    obtain _ | k := k
    · exact absurd h hfirst
    · exact ⟨k, by omega, by rw [← h]; congr 1; omega⟩
  rw [update_of_ne (Ne.symm hfirst)]
  simp only [hpassed]

theorem along_home (f : α → α) (hd : d ≤ count)
    (hhome : home < count) (g : ℕ → α) (b : ℕ) [Decidable (∃ k < d, place count home k = b)] :
  along count f d home g b = if ∃ k < d, place count home k = b then f (g b) else g b
  := by
  have h := along_apply f (by omega : 0 < count) hd home 0 g b
  rw [place_zero hhome] at h
  simpa only [Nat.zero_add] using h

end

end Probe
