import Mathlib.Data.List.Pairwise
import Mathlib.Data.Set.Insert
import Mathlib.Tactic.Common

/-!
# Handles stamped with a generation

Slots are used again and again, and each has a generation: odd while it is in use, even while it is
not. A handle names a slot and the generation that the slot had when the handle was issued. A use
ends by one more generation, except that the last one is followed by 0; a slot is then retired and
not issued again. A run is recorded as the list of the handles issued and ended. The record
determines the generations (`Recorded`), each step keeps that, and so the handle of a use is the one
that the slot's generation stands for from its issue to its end (`Recorded.live_iff`).
-/

namespace Stamps

open List

/-- Handles of `H` name slots of `ι` and generations up to the last one; `issues h` and `ends h` are
the events of `E` that issue and end the handle. -/
structure Naming (E H ι : Type) : Type where
  slot : H → ι
  stamp : H → ℕ
  last : ℕ
  issues : H → Set E
  ends : H → Set E
  ext : ∀ {h h' : H}, slot h = slot h' → stamp h = stamp h' → h = h'
  last_odd : last % 2 = 1

variable {E H ι : Type} (n : Naming E H ι)

theorem Naming.eq_iff {n : Naming E H ι} {h h' : H} (hslot : n.slot h' = n.slot h) :
  h' = h ↔ n.stamp h' = n.stamp h
  := by
  constructor
  · rintro rfl
    rfl
  · exact n.ext hslot

def Naming.issued (tr : List E) : Set H := { h | ∃ e ∈ tr, e ∈ n.issues h }

def Naming.ended (tr : List E) : Set H := { h | ∃ e ∈ tr, e ∈ n.ends h }

/-- The use of the slot's last generation has ended. -/
def Naming.Retired (tr : List E) (i : ι) : Prop :=
  ∃ h ∈ n.ended tr, n.slot h = i ∧ n.stamp h = n.last

/-- The later of two events issues no handle that the earlier one issued, and none of a slot that
the earlier one retired. -/
def Naming.Fresh (e e' : E) : Prop :=
  ∀ h', e' ∈ n.issues h' →
    e ∉ n.issues h' ∧ ∀ h, e ∈ n.ends h → n.stamp h = n.last → n.slot h ≠ n.slot h'

/-- The record of a run and the generations it has led to. -/
structure Recorded (valid : Set ι) (gen : ι → ℕ) (tr : List E) : Prop where
  le : ∀ i, gen i ≤ n.last
  used : ∀ h ∈ n.issued tr, n.slot h ∈ valid
  issued_iff : ∀ h, h ∈ n.issued tr ↔ n.stamp h % 2 = 1 ∧ n.stamp h ≤ n.last
    ∧ (n.stamp h ≤ gen (n.slot h) ∨ n.Retired tr (n.slot h))
  ended_iff : ∀ h, h ∈ n.ended tr ↔ n.stamp h % 2 = 1 ∧ n.stamp h ≤ n.last
    ∧ (n.stamp h < gen (n.slot h) ∨ n.Retired tr (n.slot h))
  retired : ∀ i, n.Retired tr i → gen i = 0
  fresh : tr.Pairwise n.Fresh

section Events

variable {n} (tr : List E) {e : E} {h : H}

theorem issued_append_of_eq (he : ∀ h', e ∈ n.issues h' ↔ h' = h) :
  n.issued (tr ++ [e]) = insert h (n.issued tr)
  := by
  ext h'
  simp [Naming.issued, he, or_comm]

theorem issued_append_of_notMem (he : ∀ h, e ∉ n.issues h) :
  n.issued (tr ++ [e]) = n.issued tr
  := by
  simp [Naming.issued, he]

theorem ended_append_of_eq (he : ∀ h', e ∈ n.ends h' ↔ h' = h) :
  n.ended (tr ++ [e]) = insert h (n.ended tr)
  := by
  ext h'
  simp [Naming.ended, he, or_comm]

theorem ended_append_of_notMem (he : ∀ h, e ∉ n.ends h) :
  n.ended (tr ++ [e]) = n.ended tr
  := by
  simp [Naming.ended, he]

end Events

namespace Recorded

variable {n} {valid : Set ι} {gen gen' : ι → ℕ} {tr : List E} {e : E} {h : H}

theorem init (valid : Set ι) : Recorded n valid (fun _ => 0) [] := by
  have hretired (i : ι) : ¬ n.Retired [] i := by
    rintro ⟨h, ⟨e, he, -⟩, -⟩
    cases he
  constructor
  case le => exact fun _ => Nat.zero_le _
  case used =>
    rintro h ⟨e, he, -⟩
    cases he
  case issued_iff =>
    intro h
    simp only [hretired, or_false, Naming.issued, not_mem_nil, false_and, exists_false]
    constructor
    · intro h
      cases h
    rintro ⟨hodd, -, hle⟩
    omega
  case ended_iff =>
    intro h
    simp only [hretired, or_false, Naming.ended, not_mem_nil, false_and, exists_false]
    constructor
    · intro h
      cases h
    rintro ⟨-, -, hlt⟩
    omega
  case retired => exact fun i hi => absurd hi (hretired i)
  case fresh => exact List.Pairwise.nil

variable (r : Recorded n valid gen tr)

include r

/-- The handle of the next use of a slot that is not in use has not been issued before. -/
theorem notMem (hlive : ¬ n.Retired tr (n.slot h)) (hstamp : n.stamp h = gen (n.slot h) + 1) :
  h ∉ n.issued tr
  := by
  rw [r.issued_iff]
  rintro ⟨-, -, hle | hretired⟩
  · omega
  · exact hlive hretired

/-- A slot not in use and not retired is issued. -/
theorem issue (hissues : ∀ h', e ∈ n.issues h' ↔ h' = h)
    (hends : ∀ h', e ∉ n.ends h') (hvalid : n.slot h ∈ valid) (heven : gen (n.slot h) % 2 = 0)
    (hlive : ¬ n.Retired tr (n.slot h)) (hstamp : n.stamp h = gen (n.slot h) + 1)
    (hself : gen' (n.slot h) = n.stamp h) (hother : ∀ j ≠ n.slot h, gen' j = gen j) :
  Recorded n valid gen' (tr ++ [e])
  := by
  have hended := ended_append_of_notMem tr hends
  have hretired (i : ι) : n.Retired (tr ++ [e]) i ↔ n.Retired tr i := by
    rw [Naming.Retired, hended, Naming.Retired]
  have hlast : n.stamp h ≤ n.last := by
    have := r.le (n.slot h)
    have := n.last_odd
    omega
  constructor
  case le =>
    intro i
    by_cases hi : i = n.slot h
    · rwa [hi, hself]
    rw [hother i hi]
    exact r.le i
  case used =>
    rw [issued_append_of_eq tr hissues]
    rintro h' (rfl | hmem)
    · exact hvalid
    · exact r.used h' hmem
  case issued_iff =>
    intro h'
    rw [issued_append_of_eq tr hissues, Set.mem_insert_iff, hretired]
    by_cases hi : n.slot h' = n.slot h
    case pos =>
      rw [Naming.eq_iff hi, r.issued_iff, hi]
      simp only [hlive, or_false]
      omega
    case neg =>
    rw [hother _ hi, ← r.issued_iff]
    apply or_iff_right
    rintro rfl
    exact hi rfl
  case ended_iff =>
    intro h'
    rw [hended, hretired, r.ended_iff]
    by_cases hi : n.slot h' = n.slot h
    case pos =>
      rw [hi]
      simp only [hlive, or_false]
      omega
    case neg => rw [hother _ hi]
  case retired =>
    intro i hi
    rw [hretired] at hi
    rw [hother, r.retired i hi]
    rintro rfl
    exact hlive hi
  case fresh =>
  rw [pairwise_append]
  refine ⟨r.fresh, pairwise_singleton .., ?_⟩
  intro e₀ he₀ e' he' h' hissues'
  rw [mem_singleton.mp he', hissues] at hissues'
  rw [hissues']
  constructor
  · intro hissued
    exact r.notMem hlive hstamp ⟨e₀, he₀, hissued⟩
  intro h₀ hends₀ hlast₀ hslot
  exact hlive ⟨h₀, ⟨e₀, he₀, hends₀⟩, hslot, hlast₀⟩

theorem finish (hends : ∀ h', e ∈ n.ends h' ↔ h' = h)
    (hissues : ∀ h', e ∉ n.issues h') (hodd : n.stamp h % 2 = 1) (hstamp : gen (n.slot h) = n.stamp h)
    (hself : gen' (n.slot h) = (n.stamp h + 1) % (n.last + 1))
    (hother : ∀ j ≠ n.slot h, gen' j = gen j) :
  Recorded n valid gen' (tr ++ [e])
  := by
  have hle := r.le (n.slot h)
  have hlive : ¬ n.Retired tr (n.slot h) := by
    intro hr
    have := r.retired _ hr
    omega
  have hwrap : n.stamp h = n.last ∧ gen' (n.slot h) = 0
      ∨ n.stamp h < n.last ∧ gen' (n.slot h) = n.stamp h + 1 := by
    rw [hself]
    obtain heq | hlt := Nat.eq_or_lt_of_le (hstamp ▸ hle)
    · exact .inl ⟨heq, by rw [heq, Nat.mod_self]⟩
    · exact .inr ⟨hlt, Nat.mod_eq_of_lt (by omega)⟩
  have hended := ended_append_of_eq tr hends
  have hretired (i : ι) :
      n.Retired (tr ++ [e]) i ↔ n.Retired tr i ∨ n.slot h = i ∧ n.stamp h = n.last := by
    rw [Naming.Retired, hended]
    constructor
    · rintro ⟨h', rfl | hmem, hh'⟩
      · exact .inr hh'
      · exact .inl ⟨h', hmem, hh'⟩
    rintro (⟨h', hmem, hh'⟩ | hh)
    · exact ⟨h', .inr hmem, hh'⟩
    · exact ⟨h, .inl rfl, hh⟩
  constructor
  case le =>
    intro i
    by_cases hi : i = n.slot h
    · rw [hi]
      omega
    rw [hother i hi]
    exact r.le i
  case used =>
    rw [issued_append_of_notMem tr hissues]
    exact r.used
  case issued_iff =>
    intro h'
    rw [issued_append_of_notMem tr hissues, r.issued_iff, hretired]
    by_cases hi : n.slot h' = n.slot h
    case pos =>
      rw [hi]
      simp only [hlive, or_false, false_or, true_and]
      omega
    case neg =>
    rw [hother _ hi]
    simp only [Ne.symm hi, false_and, or_false]
  case ended_iff =>
    intro h'
    rw [hended, Set.mem_insert_iff, r.ended_iff, hretired]
    by_cases hi : n.slot h' = n.slot h
    case pos =>
      rw [hi, Naming.eq_iff hi]
      simp only [hlive, or_false, false_or, true_and]
      omega
    case neg =>
    have hne : h' ≠ h := by
      rintro rfl
      exact hi rfl
    rw [hother _ hi]
    simp only [hne, Ne.symm hi, false_and, or_false, false_or]
  case retired =>
    intro i hi
    rw [hretired] at hi
    obtain hr | ⟨rfl, heq⟩ := hi
    · rw [hother, r.retired i hr]
      rintro rfl
      exact hlive hr
    · omega
  case fresh =>
  rw [pairwise_append]
  refine ⟨r.fresh, pairwise_singleton .., ?_⟩
  intro e₀ _ e' he' h' hissues'
  rw [mem_singleton.mp he'] at hissues'
  exact absurd hissues' (hissues h')

/-- A handle is issued and not ended when the slot's generation is the handle's, and odd. -/
theorem live_iff (h : H) :
  h ∈ n.issued tr ∧ h ∉ n.ended tr ↔ gen (n.slot h) = n.stamp h ∧ n.stamp h % 2 = 1
  := by
  have hle := r.le (n.slot h)
  rw [r.issued_iff, r.ended_iff]
  by_cases hr : n.Retired tr (n.slot h)
  · have := r.retired _ hr
    simp only [hr, or_true, and_true]
    omega
  simp only [hr, or_false]
  omega

end Recorded

end Stamps
