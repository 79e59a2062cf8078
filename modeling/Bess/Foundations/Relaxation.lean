import Mathlib.Data.Finset.Lattice.Fold

/-!
# Ranks of a graph by relaxation

`succ v` are the vertices that have to rank below `v`. A sweep goes over a list of vertices and
gives each one more than the highest rank of its successors, with the ranks as the sweep has
them so far. Sweeps are repeated until one changes nothing, or a number of them is used up.

A sweep that changes nothing leaves each vertex above its successors. A vertex that changes in
the sweep with number `k` has a path of `k` edges from it, so with as many sweeps as there are
vertices, and one more, the last one changes something if and only if there is a cycle.
-/

namespace Relaxation

open Function List

variable {α : Type} [DecidableEq α] {v u : α}

/-- The rank a vertex should have, from the ranks of its successors. -/
def target (succ : α → List α) (rank : α → ℕ) (v : α) : ℕ :=
  (succ v).foldl (fun m u => max m (rank u + 1)) 0

/-- One vertex of a sweep, and whether anything has changed so far. -/
def relax (succ : α → List α) (p : (α → ℕ) × Bool) (v : α) : (α → ℕ) × Bool :=
  if target succ p.1 v = p.1 v then p else (update p.1 v (target succ p.1 v), true)

def sweep (succ : α → List α) (l : List α) (rank : α → ℕ) : (α → ℕ) × Bool :=
  l.foldl (relax succ) (rank, false)

/-- At most `n + 1` sweeps, until one changes nothing. -/
def settle (succ : α → List α) (l : List α) : ℕ → (α → ℕ) → (α → ℕ) × Bool
  | 0, rank => sweep succ l rank
  | n + 1, rank =>
      if (sweep succ l rank).2 then settle succ l n (sweep succ l rank).1
      else sweep succ l rank

/-! ### A sweep that changes nothing -/

section

omit [DecidableEq α]

variable {succ : α → List α} {rank : α → ℕ}

theorem lt_target (h : u ∈ succ v) :
  rank u < target succ rank v
  := by
  have hfold : ∀ (l : List α) (m : ℕ),
      m ≤ l.foldl (fun m u => max m (rank u + 1)) m
        ∧ ∀ u ∈ l, rank u < l.foldl (fun m u => max m (rank u + 1)) m := by
    intro l
    induction l with
    | nil => simp
    | cons w l ih =>
    intro m
    obtain ⟨hm, hl⟩ := ih (max m (rank w + 1))
    rw [foldl_cons, forall_mem_cons]
    refine ⟨?_, ?_, hl⟩ <;> omega
  exact (hfold (succ v) 0).2 u h

theorem target_congr {rank' : α → ℕ} (h : ∀ u ∈ succ v, rank' u = rank u) :
  target succ rank' v = target succ rank v
  := by
  apply foldl_ext
  intro m u hu
  rw [h u hu]

end

variable {l : List α} {succ : α → List α}

theorem foldl_relax_changed (l : List α) (rank : α → ℕ) :
  (l.foldl (relax succ) (rank, true)).2 = true
  := by
  apply List.foldlRecOn (motive := fun p : (α → ℕ) × Bool => p.2 = true)
  · rfl
  intro p hp v _
  unfold relax
  split
  case isTrue => exact hp
  case isFalse => rfl

variable {rank : α → ℕ} {n k : ℕ}

theorem sweep_of_unchanged (h : (sweep succ l rank).2 = false) :
  (sweep succ l rank).1 = rank ∧ ∀ v ∈ l, target succ rank v = rank v
  := by
  unfold sweep at h ⊢
  induction l with
  | nil => simp
  | cons v l ih =>
  rw [foldl_cons, relax] at h ⊢
  split at h
  case isTrue hv =>
    obtain ⟨hrank, hl⟩ := ih h
    rw [if_pos hv, forall_mem_cons]
    exact ⟨hrank, hv, hl⟩
  case isFalse =>
  rw [foldl_relax_changed] at h
  exact absurd h (by simp)

theorem settle_of_unchanged (h : (settle succ l n rank).2 = false) :
  ∀ v ∈ l, ∀ u ∈ succ v, (settle succ l n rank).1 u < (settle succ l n rank).1 v
  := by
  have hsweep : ∀ {rank : α → ℕ}, (sweep succ l rank).2 = false →
      ∀ v ∈ l, ∀ u ∈ succ v, (sweep succ l rank).1 u < (sweep succ l rank).1 v := by
    intro rank h v hv u hu
    obtain ⟨hrank, htarget⟩ := sweep_of_unchanged h
    rw [hrank, ← htarget v hv]
    exact lt_target hu
  induction n generalizing rank with
  | zero => exact hsweep h
  | succ n ih =>
  rw [settle] at h ⊢
  split at h
  case isTrue hchanged =>
    rw [if_pos hchanged]
    exact ih h
  case isFalse hchanged =>
  rw [if_neg hchanged]
  exact hsweep h

/-! ### Sweeps that change something -/

theorem sweep_cons (succ : α → List α) (v : α) (l : List α) (rank : α → ℕ) :
  (sweep succ (v :: l) rank).1
    = (sweep succ l (update rank v (target succ rank v))).1
  := by
  have hflag : ∀ (l : List α) (rank : α → ℕ) (b b' : Bool),
      (l.foldl (relax succ) (rank, b)).1 = (l.foldl (relax succ) (rank, b')).1 := by
    intro l
    induction l with
    | nil => simp
    | cons v l ih =>
    intro rank b b'
    rw [foldl_cons, foldl_cons, relax, relax]
    split
    case isTrue => apply ih
    case isFalse => rfl
  unfold sweep
  rw [foldl_cons, relax]
  split
  case isTrue h =>
    rw [h, update_eq_self]
  case isFalse => apply hflag

theorem sweep_of_not_mem (h : u ∉ l) (rank : α → ℕ) :
  (sweep succ l rank).1 u = rank u
  := by
  induction l generalizing rank with
  | nil => rfl
  | cons v l ih =>
  rw [mem_cons, not_or] at h
  rw [sweep_cons, ih h.2, update_of_ne h.1]

/-- What a sweep does to a vertex: those before it in the list have their new ranks by then. -/
theorem sweep_apply {before after : List α} (nodup : (before ++ v :: after).Nodup) (rank : α → ℕ) :
  (sweep succ (before ++ v :: after) rank).1 v
    = target succ (fun u => if u ∈ before
        then (sweep succ (before ++ v :: after) rank).1 u else rank u) v
  := by
  induction before generalizing rank with
  | nil =>
    have hv : v ∉ after := (nodup_cons.mp nodup).1
    rw [nil_append, sweep_cons, sweep_of_not_mem hv]
    simp
  | cons w before ih =>
  rw [cons_append, nodup_cons] at nodup
  rw [cons_append, sweep_cons, ih nodup.2]
  congr 1
  funext u
  rw [mem_append, not_or] at nodup
  by_cases huw : u = w
  case pos =>
    subst huw
    simp only [nodup.1.1, if_false, mem_cons_self, if_true]
    rw [sweep_of_not_mem]
    rw [mem_append, not_or]
    exact nodup.1
  case neg => simp [huw]

theorem sweep_changes (nodup : l.Nodup) (h : (sweep succ l rank).2 = true) :
  ∃ v ∈ l, (sweep succ l rank).1 v ≠ rank v
  := by
  induction l generalizing rank with
  | nil => simp [sweep] at h
  | cons v l ih =>
  rw [nodup_cons] at nodup
  rw [sweep_cons]
  by_cases hv : target succ rank v = rank v
  case pos =>
    rw [sweep, foldl_cons, relax, if_pos hv] at h
    obtain ⟨u, hu, hchanged⟩ := ih nodup.2 h
    use u, mem_cons_of_mem _ hu
    rwa [hv, update_eq_self]
  case neg =>
  use v, mem_cons_self
  rwa [sweep_of_not_mem nodup.1, update_self]

/-! ### Cycles -/

section

omit [DecidableEq α]

/-- There is a path of so many edges from a vertex. -/
def Long (succ : α → List α) : ℕ → α → Prop
  | 0, _ => True
  | k + 1, v => ∃ u ∈ succ v, Long succ k u

theorem Long.pred (h : Long succ (k + 1) v) :
  Long succ k v
  := by
  induction k generalizing v with
  | zero => trivial
  | succ k ih =>
  obtain ⟨u, hu, hlong⟩ := h
  exact ⟨u, hu, ih hlong⟩

/-- Some vertex is reached from itself. -/
def Cyclic (succ : α → List α) : Prop :=
  ∃ v, Relation.TransGen (fun v u => u ∈ succ v) v v

theorem not_cyclic_of_lt (h : ∀ v, ∀ u ∈ succ v, rank u < rank v) :
  ¬ Cyclic succ
  := by
  rintro ⟨v, hv⟩
  have hlt : ∀ u, Relation.TransGen (fun v u => u ∈ succ v) v u → rank u < rank v := by
    intro u hu
    induction hu with
    | single hu => exact h v _ hu
    | tail _ hu ih => exact (h _ _ hu).trans ih
  exact lt_irrefl _ (hlt v hv)

end

/-- Without a cycle, a path has no more edges than there are vertices to reach. -/
theorem Long.le_card (acyclic : ¬ Cyclic succ) (h : Long succ k v) {S : Finset α}
    (hS : ∀ u, Relation.TransGen (fun v u => u ∈ succ v) v u → u ∈ S) :
  k ≤ S.card
  := by
  induction k generalizing v S with
  | zero => simp
  | succ k ih =>
  obtain ⟨u, hu, hlong⟩ := h
  have huS : u ∈ S := hS u (.single hu)
  -- what is reached from `u` is reached from `v`, and is not `u`
  have hrest : k ≤ (S.erase u).card := by
    apply ih hlong
    intro w hw
    rw [Finset.mem_erase]
    constructor
    · rintro rfl
      exact acyclic ⟨w, hw⟩
    · exact hS w (.head hu hw)
  rw [Finset.card_erase_of_mem huS] at hrest
  have hpos := Finset.card_pos.mpr ⟨u, huS⟩
  omega

/-- The ranks after a number of sweeps. -/
def sweeps (succ : α → List α) (l : List α) : ℕ → (α → ℕ) → (α → ℕ)
  | 0, rank => rank
  | n + 1, rank => (sweep succ l (sweeps succ l n rank)).1

theorem sweeps_succ' (succ : α → List α) (l : List α) (n : ℕ) (rank : α → ℕ) :
  sweeps succ l (n + 1) rank = sweeps succ l n (sweep succ l rank).1
  := by
  induction n with
  | zero => rfl
  | succ n ih => rw [sweeps, ih, sweeps]

theorem settle_changes (h : (settle succ l n rank).2 = true) :
  (sweep succ l (sweeps succ l n rank)).2 = true
  := by
  induction n generalizing rank with
  | zero => exact h
  | succ n ih =>
  rw [settle] at h
  split at h
  case isTrue =>
    rw [sweeps_succ']
    exact ih h
  case isFalse hchanged => exact absurd h hchanged

/-- A vertex that changes in a sweep has a path of as many edges as there have been sweeps. -/
theorem long_of_changed (nodup : l.Nodup) (k : ℕ) :
  ∀ v ∈ l, sweeps succ l (k + 1) (fun _ => 0) v ≠ sweeps succ l k (fun _ => 0) v →
    Long succ (k + 1) v
  := by
  -- on the number of sweeps, and within one on the vertices before `v`
  induction k with
  | zero =>
    intro v hv hchanged
    obtain ⟨before, after, rfl⟩ := append_of_mem hv
    have hsucc : succ v ≠ [] := by
      intro hsucc
      apply hchanged
      change (sweep succ _ (fun _ => 0)).1 v = 0
      rw [sweep_apply nodup, target, hsucc, foldl_nil]
    obtain ⟨u, hu⟩ := exists_mem_of_ne_nil _ hsucc
    exact ⟨u, hu, trivial⟩
  | succ k ih =>
  have hinit : ∀ before after : List α, l = before ++ after → ∀ v ∈ before,
      sweeps succ l (k + 2) (fun _ => 0) v ≠ sweeps succ l (k + 1) (fun _ => 0) v →
      Long succ (k + 2) v := by
    intro before
    induction before using List.reverseRecOn with
    | nil => simp
    | append_singleton before v ihb =>
    intro after hl u hu hchanged
    rw [append_assoc] at hl
    rw [mem_append, mem_singleton] at hu
    obtain hu | rfl := hu
    case inl => exact ihb _ hl u hu hchanged
    case inr =>
    have happly : ∀ rank : α → ℕ, (sweep succ l rank).1 u = target succ
        (fun w => if w ∈ before then (sweep succ l rank).1 w else rank w) u := by
      intro rank
      rw [hl] at nodup ⊢
      exact sweep_apply nodup rank
    have hdiffer : ∃ w ∈ succ u,
        (if w ∈ before then sweeps succ l (k + 2) (fun _ => 0) w
          else sweeps succ l (k + 1) (fun _ => 0) w)
        ≠ (if w ∈ before then sweeps succ l (k + 1) (fun _ => 0) w
          else sweeps succ l k (fun _ => 0) w) := by
      by_contra hsame
      push Not at hsame
      apply hchanged
      rw [sweeps, happly, sweeps, happly]
      exact target_congr hsame
    obtain ⟨w, hw, hne⟩ := hdiffer
    refine ⟨w, hw, ?_⟩
    by_cases hbefore : w ∈ before
    case pos =>
      rw [if_pos hbefore, if_pos hbefore] at hne
      exact (ihb _ hl w hbefore hne).pred
    case neg =>
    rw [if_neg hbefore, if_neg hbefore] at hne
    apply ih w _ hne
    by_contra hwl
    apply hne
    rw [sweeps, sweep_of_not_mem hwl]
  intro v hv
  exact hinit l [] (by simp) v hv

/-- With one sweep more than there are vertices, the last one changes something if and only if
there is a cycle. -/
theorem settle_changes_iff (nodup : l.Nodup) (closed : ∀ v, ∀ u ∈ succ v, v ∈ l ∧ u ∈ l) :
  (settle succ l l.length (fun _ => 0)).2 = true ↔ Cyclic succ
  := by
  constructor
  · intro h
    by_contra acyclic
    obtain ⟨v, hv, hchanged⟩ := sweep_changes nodup (settle_changes h)
    have hlong := long_of_changed nodup l.length v hv hchanged
    have hcard := hlong.le_card acyclic (by
      intro u hu
      rw [mem_toFinset]
      cases hu with
      | single hu => exact (closed _ _ hu).2
      | tail _ hu => exact (closed _ _ hu).2)
    rw [toFinset_card_of_nodup nodup] at hcard
    omega
  intro hcyclic
  by_contra h
  rw [Bool.not_eq_true] at h
  have hlt : ∀ v, ∀ u ∈ succ v, (settle succ l l.length (fun _ => 0)).1 u
      < (settle succ l l.length (fun _ => 0)).1 v := by
    intro v u hu
    exact settle_of_unchanged h v (closed v u hu).1 u hu
  exact not_cyclic_of_lt hlt hcyclic

end Relaxation
