import Mathlib

/-!
# The queue lock

`mcs_lock`, `mcs_unlock` and `mcs_trylock` (`core/utils/mcslock.h`). A thread brings a node, which
stands for it here, and takes one atomic operation at a time, in any order with the others; the
memory is sequentially consistent. The lock serves its threads as a ticket lock does.
-/

namespace Utils

open Function

/-- The next operation of a thread: the first store to its node, the second, the exchange of the
tail, the store to its predecessor, the load of its flag, the first load of `mcs_unlock` after the
critical section, its exchange of the tail, the load of its loop, the store to its successor. -/
inductive Pc (N : Type)
  | idle
  | arm (trying : Bool)
  | swap (trying : Bool)
  | link (pre : N)
  | spin
  | held
  | release
  | await
  | pass (next : N)

/-- From the exchange to the last store. -/
@[grind =]
def Pc.inside {N : Type} : Pc N → Bool
  | .idle | .arm _ | .swap _ => false
  | .link _ | .spin | .held | .release | .await | .pass _ => true

@[grind =]
def Pc.holding {N : Type} : Pc N → Bool
  | .idle | .arm _ | .swap _ | .link _ | .spin => false
  | .held | .release | .await | .pass _ => true

@[grind →]
theorem Pc.inside_of_holding {N : Type} {p : Pc N} (h : p.holding = true) :
  p.inside = true
  := by
  cases p <;> first | rfl | cases h

/-- The lock with its nodes and threads. No operation reads the tickets: a thread draws one with
its exchange, and its last operation has the next one served. -/
structure McsLock (N : Type) where
  tail : Option N := none
  next : N → Option N
  locked : N → Bool
  pc : N → Pc N := fun _ => .idle
  ticket : N → ℕ
  issued : ℕ := 0
  served : ℕ := 0

namespace McsLock

variable {N : Type} [DecidableEq N] {s : McsLock N} {n m : N} {p : Pc N} {b : Bool}

@[simp]
def goto (s : McsLock N) (n : N) (p : Pc N) : McsLock N := { s with pc := update s.pc n p }

@[simp]
def enter (s : McsLock N) (n : N) : McsLock N :=
  { s with tail := some n, ticket := update s.ticket n s.issued, issued := s.issued + 1 }

/-- An idle thread calls `mcs_trylock` or `mcs_lock`. -/
def step (s : McsLock N) (n : N) (trying : Bool) : McsLock N :=
  match s.pc n with
  | .idle => { s with next := update s.next n none }.goto n (.arm trying)
  | .arm trying => { s with locked := update s.locked n true }.goto n (.swap trying)
  | .swap trying =>
      if trying = true ∧ s.tail ≠ none then s.goto n .idle
      else (s.enter n).goto n (s.tail.elim .held .link)
  | .link pre => { s with next := update s.next pre (some n) }.goto n .spin
  | .spin => if s.locked n then s else s.goto n .held
  | .held => s.goto n ((s.next n).elim .release .pass)
  | .release =>
      if s.tail = some n then { s with tail := none, served := s.served + 1 }.goto n .idle
      else s.goto n .await
  | .await => (s.next n).elim s fun next => s.goto n (.pass next)
  | .pass next =>
      { s with locked := update s.locked next false, served := s.served + 1 }.goto n .idle

@[grind =]
def Inside (s : McsLock N) (n : N) : Prop := (s.pc n).inside = true

@[grind =]
def Holds (s : McsLock N) (n : N) : Prop :=
  (s.pc n).holding = true ∨ s.pc n = .spin ∧ s.locked n = false

/-- The threads inside have the tickets from the one that is served on, the last of them is the
tail, and each knows the one after it once that one has linked itself. -/
structure Queued (s : McsLock N) : Prop where
  range : ∀ n, Inside s n → s.served ≤ s.ticket n ∧ s.ticket n < s.issued
  inj : ∀ n m, Inside s n → Inside s m → s.ticket n = s.ticket m → n = m
  onto : ∀ k, s.served ≤ k → k < s.issued → ∃ n, Inside s n ∧ s.ticket n = k
  empty : s.tail = none → s.served = s.issued
  last : ∀ n, s.tail = some n → Inside s n ∧ s.ticket n + 1 = s.issued
  holds : ∀ n, Inside s n → (s.ticket n = s.served ↔ Holds s n)
  link : ∀ n a, s.pc n = .link a →
    Inside s a ∧ s.ticket a + 1 = s.ticket n ∧ s.next a = none ∧ s.locked n = true
  next : ∀ n m, Inside s n → s.next n = some m → s.pc m = .spin ∧ s.ticket n + 1 = s.ticket m
  spin : ∀ n m, Inside s n → s.pc m = .spin → s.ticket n + 1 = s.ticket m → s.next n = some m
  await : ∀ n, s.pc n = .await → s.tail ≠ some n
  pass : ∀ n m, s.pc n = .pass m → s.next n = some m
  arm : ∀ n b, s.pc n = .arm b → s.next n = none
  swap : ∀ n b, s.pc n = .swap b → s.next n = none ∧ s.locked n = true

namespace Queued

variable (h : Queued s)

include h

/-- A thread outside stays there. -/
theorem own {next : N → Option N} {locked : N → Bool} (hn : ¬ Inside s n) (hp : p.inside = false)
    (hframe : ∀ m ≠ n, next m = s.next m ∧ locked m = s.locked m)
    (hnext : next n = none ∨ p = .idle) (hlocked : locked n = true ∨ ∀ b, p ≠ .swap b) :
  Queued ({ s with next, locked }.goto n p)
  := by
  cases h
  rw [goto]
  constructor <;> grind

theorem enter (hn : s.pc n = .swap b) :
  Queued ((s.enter n).goto n (s.tail.elim .held .link))
  := by
  have hlast : ∀ a, s.tail = some a → s.next a = none := by
    intro a ha
    cases hm : s.next a with
    | none => rfl
    | some m =>
    obtain ⟨hin, hissued⟩ := h.last a ha
    obtain ⟨hspin, hticket⟩ := h.next a m hin hm
    have := h.range m (by grind)
    omega
  cases h with | mk _ _ honto =>
  rw [McsLock.enter, goto]
  constructor
  case onto =>
    intro k hk _
    by_cases hlt : k < s.issued
    · obtain ⟨m, hm, rfl⟩ := honto k hk hlt
      exact ⟨m, by grind, by grind⟩
    · exact ⟨n, by cases s.tail <;> grind, by grind⟩
  all_goals cases htail : s.tail <;> grind

theorem linked {pre : N} (hn : s.pc n = .link pre) :
  Queued ({ s with next := update s.next pre (some n) }.goto n .spin)
  := by
  cases h
  rw [goto]
  constructor <;> grind

/-- A thread that holds the lock goes on. -/
theorem moves (hn : Holds s n) (hp : p.holding = true) (hawait : p = .await → s.tail ≠ some n)
    (hpass : ∀ m, p = .pass m → s.next n = some m) :
  Queued (s.goto n p)
  := by
  cases h
  rw [goto]
  constructor <;> grind

theorem leave (hn : s.pc n = .release) (htail : s.tail = some n) :
  Queued ({ s with tail := none, served := s.served + 1 }.goto n .idle)
  := by
  cases h
  rw [goto]
  constructor <;> grind

theorem passOn (hn : s.pc n = .pass m) :
  Queued ({ s with locked := update s.locked m false, served := s.served + 1 }.goto n .idle)
  := by
  cases h
  rw [goto]
  constructor <;> grind

theorem step (n : N) (trying : Bool) :
  Queued (s.step n trying)
  := by
  rw [McsLock.step]
  split
  next hpc => exact h.own (by grind) rfl (by grind) (by grind) (by grind)
  next b hpc => exact h.own (by grind) rfl (by grind) (.inl (h.arm n b hpc)) (by grind)
  next b hpc =>
    split
    · exact h.own (by grind) rfl (by grind) (by grind) (by grind)
    · exact h.enter hpc
  next pre hpc => exact h.linked hpc
  next hpc =>
    split
    · exact h
    · exact h.moves (by grind) rfl (by simp) (by simp)
  next hpc => cases hnext : s.next n <;> exact h.moves (by grind) rfl (by grind) (by grind)
  next hpc =>
    split
    next htail => exact h.leave hpc htail
    next htail => exact h.moves (by grind) rfl (fun _ => htail) (by simp)
  next hpc =>
    cases hnext : s.next n with
    | none => exact h
    | some m => exact h.moves (by grind) rfl (by grind) (by grind)
  next m hpc => exact h.passOn hpc

end Queued

variable (next : N → Option N) (locked : N → Bool) (ticket : N → ℕ) (schedule : List (N × Bool))

/-- After a schedule, from `mcs_lock_init` and nodes of any content. -/
def run : McsLock N :=
  schedule.foldl (fun s call => s.step call.1 call.2) { next, locked, ticket }

theorem queued_run :
  Queued (run next locked ticket schedule)
  := by
  rw [run]
  apply List.foldlRecOn
  · constructor <;> grind
  intro s h call _
  apply h.step

/-- The threads inside hold the lock in the order of their exchanges, one at a time; no store goes
to the node of a thread outside; and `mcs_is_locked` tells whether a thread is inside. -/
theorem serves_in_order :
  let s : McsLock N := run next locked ticket schedule
  (∀ n, Inside s n → s.served ≤ s.ticket n ∧ s.ticket n < s.issued
      ∧ (Holds s n ↔ s.ticket n = s.served))
    ∧ (∀ n m, Inside s n → Inside s m → s.ticket n = s.ticket m → n = m)
    ∧ (∀ n m, s.pc n = .link m ∨ s.pc n = .pass m → Inside s m)
    ∧ (s.tail = none ↔ ∀ n, ¬ Inside s n)
  := by
  intro s
  have h : Queued s := queued_run next locked ticket schedule
  cases h with | mk hrange hinj =>
  refine ⟨by grind, hinj, by grind, by grind, ?_⟩
  intro hout
  cases htail : s.tail <;> grind

/-- Only the two loops wait. -/
theorem step_eq_self (h : s.step n b = s) :
  s.pc n = .spin ∧ s.locked n = true ∨ s.pc n = .await ∧ s.next n = none
  := by
  replace h := congrArg (fun s => s.pc n) h
  cases hn : s.pc n <;> cases hnext : s.next n <;> cases htail : s.tail
  all_goals simp [step, apply_ite pc, ite_apply, hn, hnext, htail] at h ⊢
  all_goals grind

/-- While threads are inside, the one that is served or the one after it can go on. -/
theorem goes_on :
  let s : McsLock N := run next locked ticket schedule
  (∀ n, ¬ Inside s n) ∨ ∃ n, Inside s n ∧ s.ticket n ≤ s.served + 1 ∧ ∀ b, s.step n b ≠ s
  := by
  intro s
  have h : Queued s := queued_run next locked ticket schedule
  by_contra! ⟨⟨n, hn⟩, hstuck⟩
  obtain ⟨hserved, hissued⟩ := h.range n hn
  obtain ⟨m, hm, hticket⟩ := h.onto s.served le_rfl (hserved.trans_lt hissued)
  have hholds := (h.holds m hm).mp hticket
  obtain ⟨b, hb⟩ := hstuck m hm (by omega)
  -- The thread that is served waits only for the next one to link itself.
  obtain ⟨hawait, hnone⟩ : s.pc m = .await ∧ s.next m = none := by grind [step_eq_self hb]
  cases htail : s.tail with
  | none => grind [h.empty htail]
  | some a =>
  obtain ⟨ha, hlast⟩ := h.last a htail
  have hne : a ≠ m := by
    rintro rfl
    exact h.await a hawait htail
  have hlt : s.ticket m + 1 < s.issued := by
    have := h.range m hm
    have := mt (h.inj a m ha hm) hne
    omega
  obtain ⟨k, hk, hafter⟩ := h.onto (s.ticket m + 1) (by omega) hlt
  obtain ⟨b', hb'⟩ := hstuck k hk (by omega)
  grind [h.spin m k hm, (h.holds k hk).mpr, step_eq_self hb']

end McsLock

end Utils
