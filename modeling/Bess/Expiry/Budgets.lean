import Bess.Expiry.Structure
import Mathlib.Data.Prod.Lex
import Mathlib.Order.Lattice.Nat

/-!
# Work budgets do not change what fires

A poll whose budget is used up stops between two rounds of its loop, and the next one goes on from
there. `round` is one round with no regard to the budget, and `Rounds` are the states rounds lead
to: a poll stops in one of them, and the rounds of polls one after another, their times not going
back, are rounds of one poll at the last time (`polls_agree`).
-/

open Option

namespace Expiry

open Function List Serial Callback

variable {c : Shape} {P : Type}

/-- The callback from the `n`-th delivery on. -/
def Callback.after {D : Type} (fn : Callback D P) (n : ℕ) : Callback D P := fun k p => fn (n + k) p

/-- A callback that arms each timer again. -/
def Callback.renew {D : Type} (d : D) : Callback D P := fun _ _ => ([], some d)

namespace Wheel

/-! ### Rounds -/

/-- One round of the loop of a poll: a unit of work, or the next event up to the target. -/
def round (target : c.Tick) (fn : Callback c.Tick P) (s : Progress c P) : Option (Progress c P) :=
  if s.wheel.working then some (workOne fn s)
  else (s.wheel.arrival target).map fun w => { s with wheel := w }

/-- Some rounds lead from the one state to the other. -/
def Rounds (target : c.Tick) (fn : Callback c.Tick P) : Progress c P → Progress c P → Prop :=
  Relation.ReflTransGen fun s s' => round target fn s = some s'

variable {fn : Callback c.Tick P} {w w' w'' : Wheel c P} {tr : List Event} {s s' : Progress c P}
  {t₀ t₁ t₂ d : c.Tick} {again : Option c.Tick} {i : ℕ}

section Rounds

variable {target : c.Tick}

theorem round_cases (e : round target fn s = some s') :
  s.wheel.working = true ∧ s' = workOne fn s
    ∨ s.wheel.working = false ∧ ∃ w, s.wheel.arrival target = some w ∧ s' = { s with wheel := w }
  := by
  rw [round] at e
  split at e
  case isTrue hw => exact .inl ⟨hw, (some.inj e).symm⟩
  case isFalse hw =>
  obtain ⟨w, ha, hs⟩ := map_eq_some_iff.mp e
  exact .inr ⟨by simpa using hw, w, ha, hs.symm⟩

theorem Rounds.work_le (h : Rounds target fn s s') : s.work ≤ s'.work := by
  induction h with
  | refl => apply le_rfl
  | tail _ e ih =>
  apply ih.trans
  obtain ⟨-, rfl⟩ | ⟨-, w, -, rfl⟩ := round_cases e
  · rw [(workOne_counts fn _).1]
    omega
  · apply le_rfl

/-- Where a poll stops: with work left and the budget used up, or with nothing up to the target. -/
def Stops (target : c.Tick) (budget : ℕ) (fn : Callback c.Tick P) (s s' : Progress c P) : Prop :=
  ∃ s₁, Rounds target fn s s₁ ∧ s₁.result.exhausted = false ∧ s₁.work ≤ budget
    ∧ ((s₁.wheel.working = true ∧ s₁.work = budget
        ∧ s' = { s₁ with result := { s₁.result with exhausted := true } })
      ∨ (round target fn s₁ = none ∧ s' = { s₁ with wheel := { s₁.wheel with cur := target } }))

theorem pollLoop_stops {budget fuel : ℕ} (h : pollLoop target budget fn fuel s = some s')
    (hex : s.result.exhausted = false) (hwork : s.work ≤ budget) :
  Stops target budget fn s s'
  := by
  induction fuel generalizing s with
  | zero => cases h
  | succ fuel ih =>
  rw [pollLoop_succ] at h
  cases hw : s.wheel.working with
  | true =>
    rw [hw, if_pos rfl] at h
    split at h
    case isTrue hb => exact ⟨s, .refl, hex, hwork, .inl ⟨hw, hb, (some.inj h).symm⟩⟩
    case isFalse hb =>
    obtain ⟨hn, he⟩ := workOne_counts fn s
    obtain ⟨s₁, hr, hrest⟩ := ih h (he.trans hex) (by omega)
    exact ⟨s₁, .head (by rw [round, hw, if_pos rfl]) hr, hrest⟩
  | false =>
  have hround : round target fn s
      = (s.wheel.arrival target).map fun w => { s with wheel := w } := by
    rw [round, hw, if_neg (by simp)]
  rw [hw] at h
  cases ha : s.wheel.arrival target with
  | some w =>
    rw [ha] at h hround
    obtain ⟨s₁, hr, hrest⟩ := ih h hex hwork
    exact ⟨s₁, .head hround hr, hrest⟩
  | none =>
  rw [ha] at h hround
  exact ⟨s, .refl, hex, hwork, .inr ⟨hround, (some.inj h).symm⟩⟩

/-- The counts of a poll are exact: what it fired is what it delivered, and its work is what it
fired and moved. -/
def Progress.Counted (s : Progress c P) : Prop :=
  s.result.fired = s.deliveries.length ∧ s.result.fired + s.result.moved = s.work

theorem counted_workOne (fn : Callback c.Tick P) (h : s.Counted) :
  (workOne fn s).Counted
  := by
  obtain ⟨h₁, h₂⟩ := h
  have hmoved : s.result.fired + (s.result.moved + 1) = s.work + 1 := by omega
  rw [workOne]
  split
  · rw [deliver]
    split
    · exact ⟨h₁, hmoved⟩
    refine ⟨?_, ?_⟩
    · rw [length_append, ← h₁]
      rfl
    change s.result.fired + 1 + s.result.moved = s.work + 1
    omega
  · exact ⟨h₁, hmoved⟩

theorem Rounds.counted (h : Rounds target fn s s') (h₀ : s.Counted) : s'.Counted := by
  induction h with
  | refl => apply h₀
  | tail _ e ih =>
  obtain ⟨-, rfl⟩ | ⟨-, w, -, rfl⟩ := round_cases e
  · apply counted_workOne fn ih
  · apply ih

/-! ### Resuming -/

/-- A state of a poll after what was done before it. -/
def Progress.following (s₀ s : Progress c P) : Progress c P where
  wheel := s.wheel
  work := s₀.work + s.work
  result :=
    ⟨s₀.result.fired + s.result.fired, s₀.result.moved + s.result.moved, s.result.exhausted⟩
  deliveries := s₀.deliveries ++ s.deliveries

/-- A unit of work is done after what was done before as it is from the start. -/
theorem workOne_following (fn : Callback c.Tick P) (s₀ s : Progress c P) :
  workOne fn (s₀.following s) = s₀.following (workOne (fn.after s₀.result.fired) s)
  := by
  rw [workOne, workOne, apply_ite s₀.following]
  apply if_congr Iff.rfl
  · rw [deliver, deliver]
    rw [apply_ite s₀.following]
    apply if_congr Iff.rfl
    · simp only [Progress.following, Nat.add_assoc]
    simp only [Progress.following, append_assoc]
    rfl
  · simp only [move, Progress.following, Nat.add_assoc]

theorem round_following (target : c.Tick) (fn : Callback c.Tick P) (s₀ s : Progress c P) :
  round target fn (s₀.following s)
    = (round target (fn.after s₀.result.fired) s).map s₀.following
  := by
  rw [round, round, workOne_following, apply_ite (Option.map s₀.following)]
  rw [Option.map_map]
  rfl

theorem Rounds.following (s₀ : Progress c P)
    (h : Rounds target (fn.after s₀.result.fired) s s') :
  Rounds target fn (s₀.following s) (s₀.following s')
  := by
  refine Relation.ReflTransGen.lift s₀.following ?_ _ _ h
  intro a b e
  change round target fn (s₀.following a) = _
  rw [round_following, e]
  rfl

end Rounds

/-! ### What the callback arms -/

/-- At the same wheel time, an armed node is armed for the timer and the deadline that it was armed for
before, or has a deadline of `late`. -/
structure Spares (late : c.Tick → Prop) (w w' : Wheel c P) : Prop where
  capacity : w'.capacity = w.capacity
  shift : w'.shift = w.shift
  cur : w'.cur = w.cur
  armed : ∀ i, w'.ArmedNode i → late (w'.nodes i).deadline
    ∨ w.ArmedNode i ∧ (w'.nodes i).generation = (w.nodes i).generation
      ∧ (w'.nodes i).deadline = (w.nodes i).deadline

section Spares

variable {late : c.Tick → Prop}

theorem Spares.trans (h : Spares late w w') (h' : Spares late w' w'') : Spares late w w'' where
  capacity := h'.capacity.trans h.capacity
  shift := h'.shift.trans h.shift
  cur := h'.cur.trans h.cur
  armed i hi := by
    rcases h'.armed i hi with hlate | ⟨hi', hg', hd'⟩
    · exact .inl hlate
    rcases h.armed i hi' with hlate | ⟨hi, hg, hd⟩
    · exact .inl (hd' ▸ hlate)
    · exact .inr ⟨hi, hg'.trans hg, hd'.trans hd⟩

theorem Kept.spares (k : Kept w w') : Spares late w w' where
  capacity := k.capacity
  shift := k.shift
  cur := k.cur
  armed i hi := by
    rw [ArmedNode, k.capacity, k.generation] at hi
    exact .inr ⟨hi, k.generation i, k.deadline i⟩

/-- One node changes, and gets a deadline of `late` if it is armed. -/
theorem spares_of_ne (hfixed : w'.capacity = w.capacity ∧ w'.shift = w.shift ∧ w'.cur = w.cur)
    (hother : ∀ j, j ≠ i → (w'.nodes j).generation = (w.nodes j).generation
      ∧ (w'.nodes j).deadline = (w.nodes j).deadline)
    (hself : w'.ArmedNode i → late (w'.nodes i).deadline) :
  Spares late w w'
  := by
  refine ⟨hfixed.1, hfixed.2.1, hfixed.2.2, fun j hj => ?_⟩
  by_cases e : j = i
  · subst e
    exact .inl (hself hj)
  rw [ArmedNode, hfixed.1, (hother j e).1] at hj
  exact .inr ⟨hj, hother j e⟩

theorem spares_setDeadline (w : Wheel c P) (i : ℕ) (hd : late d) :
  Spares late w (w.setDeadline i d)
  := by
  refine spares_of_ne (i := i) ⟨rfl, rfl, rfl⟩ (fun j hj => ?_) fun _ => ?_
  · simp [setDeadline, hj]
  · simpa [setDeadline] using hd

theorem spares_free (w : Wheel c P) (hodd : (w.nodes i).generation % 2 = 1 ∨ ∀ d, late d) :
  Spares late w (w.free i)
  := by
  refine spares_of_ne (i := i) ⟨free_capacity w i, free_shift w i, free_cur w i⟩ (fun j hj => ?_) ?_
  · rw [nodes_free_of_ne w hj]
    exact ⟨rfl, rfl⟩
  intro hi
  have hgen := hi.2.2
  rw [generation_free_self] at hgen
  rcases hodd with hodd | hlate
  · omega
  · exact hlate _

theorem spares_exec (w : Wheel c P) (call : Call c.Tick P) (h : ∀ d, call.deadline = some d → late d) :
  Spares late w (w.exec call).1
  := by
  have hmove (w : Wheel c P) (i : ℕ) {d : c.Tick} (hd : late d) : Spares late w (w.moveTo i d) := by
    rw [moveTo]
    split
    · exact spares_setDeadline w i hd
    · exact (spares_setDeadline w i hd).trans ((kept_unlink _ i).trans (kept_place _ i)).spares
  cases call with
  | schedule d p =>
    change Spares late w (w.schedule d p).1
    rw [schedule]
    split
    · exact (Kept.refl w).spares
    have harm : Spares late w (w.arm w.freeHead d p) := by
      refine spares_of_ne (i := w.freeHead) ⟨rfl, rfl, rfl⟩ (fun j hj => ?_) fun _ => ?_
      · simp [arm, setPayload, setDeadline, advance, hj]
      · simpa [arm, setPayload, setDeadline] using h d rfl
    exact harm.trans (kept_place _ _).spares
  | refresh t d =>
    change Spares late w (w.refresh t d).1
    rw [refresh]
    split
    · exact (Kept.refl w).spares
    · exact hmove w t.id (h d rfl)
  | reschedule t d p =>
    change Spares late w (w.reschedule t d p).1
    rw [reschedule]
    split
    · exact (Kept.refl w).spares
    have hpayload : Spares late w (w.setPayload t.id p) := by
      refine ⟨rfl, rfl, rfl, fun j hj => .inr ?_⟩
      rw [ArmedNode, generation_setPayload] at hj
      refine ⟨hj, generation_setPayload w t.id p j, ?_⟩
      by_cases e : j = t.id <;> simp [setPayload, e]
    exact hpayload.trans (hmove _ t.id (h d rfl))
  | cancel t =>
  change Spares late w (w.cancel t).1
  rw [cancel]
  split
  case isTrue => exact (Kept.refl w).spares
  case isFalse hr =>
  refine (kept_unlink w t.id).spares.trans (spares_free _ (.inl ?_))
  rw [(kept_unlink w t.id).generation]
  simp only [resolves, Bool.not_eq_true', Bool.not_eq_false, Bool.and_eq_true, beq_iff_eq] at hr
  exact hr.2

theorem spares_execAll :
    ∀ (calls : List (Call c.Tick P)) (w : Wheel c P),
      (∀ call ∈ calls, ∀ d, call.deadline = some d → late d) → Spares late w (w.execAll calls).1
  | [], w, _ => (Kept.refl w).spares
  | call :: calls, w, h =>
    (spares_exec w call (h call mem_cons_self)).trans
      (spares_execAll calls _ fun call' hc => h call' (mem_cons_of_mem _ hc))

theorem spares_settled (w : Wheel c P) (t : ExpiryHandle)
    (hagain : ∀ d, again = some d → late d) (hodd : t.generation % 2 = 1 ∨ ∀ d, late d) :
  Spares late w (w.settled t again)
  := by
  rw [settled.eq_def]
  split
  case isFalse => exact (Kept.refl w).spares
  case isTrue hg =>
  cases again with
  | some d => exact (spares_setDeadline w t.id (hagain d rfl)).trans (kept_place _ _).spares
  | none => exact spares_free w (hg ▸ hodd)

/-- With a callback whose deadlines are all late, where the node that is delivered is armed. -/
theorem spares_workOne (hfn : ∀ d ∈ fn.deadlines, late d)
    (hodd : s.wheel.pending c.kReady = true →
      (s.wheel.nodes (s.wheel.nodes c.kReady).next).generation % 2 = 1 ∨ ∀ d, late d) :
  Spares late s.wheel (workOne fn s).wheel
  := by
  rw [workOne]
  split
  case isFalse => exact ((kept_unlink s.wheel _).trans (kept_place _ _)).spares
  case isTrue hr =>
  have hodd := hodd hr
  generalize (s.wheel.nodes c.kReady).next = i at hodd
  rw [deliver]
  split
  case isTrue => exact ((kept_unlink s.wheel i).trans (kept_place _ _)).spares
  case isFalse =>
  have k := (kept_unlink s.wheel i).trans ((kept_setPrev _ i i).trans (kept_setNext _ i i))
  refine (k.spares.trans (spares_execAll _ _ fun call hc d hd => ?_)).trans
    (spares_settled _ ⟨i, _⟩ (fun d hd => ?_) ?_)
  · exact hfn d ⟨_, _, .inl ⟨call, hc, hd⟩⟩
  · exact hfn d ⟨_, _, .inr hd⟩
  · rwa [← (kept_unlink s.wheel i).generation i] at hodd

theorem cur_workOne (fn : Callback c.Tick P) (s : Progress c P) :
  (workOne fn s).wheel.cur = s.wheel.cur
  := by
  have h : Spares (fun _ => True) s.wheel (workOne fn s).wheel :=
    spares_workOne (fun _ _ => trivial) fun _ => .inr fun _ => trivial
  exact h.cur

theorem kept_arrive (w : Wheel c P) (t : c.Tick) : Kept { w with cur := t } (w.arrive t) := by
  have hlevels : ∀ (levels : List ℕ) (w : Wheel c P), Kept w (levels.foldl (arriveLevel t) w) := by
    intro levels
    induction levels with
    | nil => exact Kept.refl
    | cons level levels ih =>
    intro w
    refine Kept.trans ?_ (ih _)
    rw [arriveLevel]
    split
    · apply kept_splice
    · apply Kept.refl
  exact (hlevels _ _).trans (kept_splice _ _ _)

end Spares

/-! ### Times -/

theorem cur_arrive (w : Wheel c P) (t : c.Tick) : (w.arrive t).cur = t := (kept_arrive w t).cur

/-- How far a time is after another. -/
def since (t₀ t : c.Tick) : ℕ := (t - t₀).toNat

theorem toNat_sub_of_since_le {t t' : c.Tick} (h : since t₀ t ≤ since t₀ t') :
  (t' - t).toNat = since t₀ t' - since t₀ t
  := by
  have e : t' - t = (t' - t₀) - (t - t₀) := by grind
  rw [e, BitVec.toNat_sub_of_le (BitVec.le_def.mpr h)]
  rfl

/-- A round stays a round when the target is later, and does not pass the target. -/
theorem round_mono (e : round t₁ fn s = some s') (h₁ : since t₀ s.wheel.cur ≤ since t₀ t₁)
    (h₂ : since t₀ t₁ ≤ since t₀ t₂) :
  round t₂ fn s = some s' ∧ since t₀ s'.wheel.cur ≤ since t₀ t₁
  := by
  obtain ⟨hw, rfl⟩ | ⟨hw, w, ha, rfl⟩ := round_cases e
  · rw [round, hw, if_pos rfl, cur_workOne]
    exact ⟨rfl, h₁⟩
  obtain ⟨dist, he, ha⟩ := bind_eq_some_iff.mp ha
  obtain ⟨hle, ha⟩ | ⟨-, ⟨⟩⟩ := ite_eq_iff.mp ha
  have hd₁ := toNat_sub_of_since_le h₁
  have hd₂ := toNat_sub_of_since_le (h₁.trans h₂)
  rw [BitVec.le_def] at hle
  have hle₂ : dist ≤ t₂ - s.wheel.cur := by
    rw [BitVec.le_def]
    omega
  rw [round, hw, if_neg (by simp), arrival, he, bind_some, if_pos hle₂, ha]
  refine ⟨rfl, ?_⟩
  cases ha
  have e' : s.wheel.cur + dist - t₀ = (s.wheel.cur - t₀) + dist := by grind
  rw [cur_arrive, since, e', BitVec.toNat_add, Nat.mod_eq_of_lt]
  all_goals
    simp only [since] at *
    omega

theorem Rounds.mono (h : Rounds t₁ fn s s') (h₁ : since t₀ s.wheel.cur ≤ since t₀ t₁)
    (h₂ : since t₀ t₁ ≤ since t₀ t₂) :
  Rounds t₂ fn s s' ∧ since t₀ s'.wheel.cur ≤ since t₀ t₁
  := by
  induction h with
  | refl => exact ⟨.refl, h₁⟩
  | tail _ e ih =>
  obtain ⟨hr, hle⟩ := ih
  obtain ⟨e', hle'⟩ := round_mono e hle h₂
  exact ⟨hr.tail e', hle'⟩

/-! ### Targets -/

section Targets

variable {busy : Option ExpiryHandle} {now : c.Tick}

/-- The times of polls rounded down, counted from the wheel time. -/
theorem Intact.diff_roundDown (H : Intact tr busy w) :
  ∃ T, ∀ now, diff (now &&& ~~~unitMask c w.shift) w.cur
    = roundDown w.shift (T + diff now w.cur) - T
  := by
  obtain ⟨lists, frees, loose, T, H⟩ := H
  refine ⟨T, fun now => ?_⟩
  have hnow : now = tick c (T + diff now w.cur) := by
    rw [tick, BitVec.ofInt_add, diff, ← H.clocked.cur_eq]
    grind
  have hlo : -2 ^ (c.digits - 1) ≤ diff now w.cur := BitVec.le_toInt _
  have hhi : diff now w.cur < 2 ^ (c.digits - 1) := BitVec.toInt_lt
  have hshift := shift_lt H.wf.shift_le
  have hdvd : (2 : ℤ) ^ w.shift ∣ T - 2 ^ (c.digits - 1) := by
    apply Int.dvd_sub H.clocked.dvd
    apply pow_dvd_pow
    omega
  have hdown := le_roundDown (t := T + diff now w.cur) hdvd (by omega)
  have hle := roundDown_le w.shift (T + diff now w.cur)
  have hmask : now &&& ~~~unitMask c w.shift
      = tick c (roundDown w.shift (T + diff now w.cur)) := by
    rw [unitMask, tick, ← ofInt_and_not_mask hshift.le, ← tick, ← hnow]
  rw [hmask]
  nth_rewrite 2 [H.clocked.cur_eq]
  exact toInt_sub_ofInt c.digits_pos (by omega) (by omega)

theorem since_target (w : Wheel c P) (now : c.Tick) :
  (since w.cur (w.target now) : ℤ) = max 0 (diff (now &&& ~~~unitMask c w.shift) w.cur)
  := by
  rw [target, since]
  split
  case isTrue h =>
    rw [max_eq_left h.le, BitVec.sub_self]
    rfl
  case isFalse h =>
  rw [not_lt, diff] at h
  rw [diff, max_eq_right h, BitVec.toInt_eq_toNat_of_lt (BitVec.toInt_pos_iff.mp h)]

theorem Intact.target_mono (H : Intact tr busy w) {now' : c.Tick}
    (h : diff now w.cur ≤ diff now' w.cur) :
  since w.cur (w.target now) ≤ since w.cur (w.target now')
  := by
  obtain ⟨T, hT⟩ := H.diff_roundDown
  have hle : roundDown w.shift (T + diff now w.cur) ≤ roundDown w.shift (T + diff now' w.cur) := by
    apply roundDown_mono
    omega
  have h₁ := since_target w now
  have h₂ := since_target w now'
  rw [hT] at h₁ h₂
  omega

/-- The target stays the same while the wheel is on its way to it. -/
theorem target_resume (hshift : w'.shift = w.shift)
    (hle : since w.cur w'.cur ≤ since w.cur (w.target now)) :
  w'.target now = w.target now
  := by
  have hst := since_target w now
  by_cases h : diff (now &&& ~~~unitMask c w.shift) w.cur < 0
  · have hcur : w'.cur = w.cur := by
      have h₀ : (w'.cur - w.cur).toNat = 0 := by
        rw [since] at hle
        omega
      have : w'.cur - w.cur = 0#_ := BitVec.eq_of_toNat_eq h₀
      grind
    rw [target, target, hcur, hshift]
  have ht : w.target now = now &&& ~~~unitMask c w.shift := by rw [target, if_neg h]
  rw [ht] at hle
  have hd := toNat_sub_of_since_le hle
  rw [not_lt, diff, BitVec.toInt_pos_iff] at h
  rw [ht, target, hshift, if_neg]
  rw [not_lt, diff, BitVec.toInt_pos_iff]
  simp only [since] at *
  omega

end Targets

/-! ### Polls one after another -/

/-- The state a poll starts its loop in. -/
def start (w : Wheel c P) : Progress c P := ⟨w, 0, ⟨0, 0, false⟩, []⟩

/-- Polls one after another, all of them exhausted: the wheel they leave, and what they delivered.
The callback goes on counting. -/
inductive Polls (fn : Callback c.Tick P) (w : Wheel c P) :
    List (c.Tick × ℕ) → Wheel c P → List (Delivery c P) → Prop
  | nil : Polls fn w [] w []
  | more {calls : List (c.Tick × ℕ)} {w' : Wheel c P} {ds : List (Delivery c P)} {now : c.Tick}
      {budget : ℕ} {s : Progress c P} :
      Polls fn w calls w' ds → w'.poll now budget (fn.after ds.length) = some s →
      s.result.exhausted = true →
      Polls fn w (calls ++ [(now, budget)]) s.wheel (ds ++ s.deliveries)

section Polls

variable {now target : c.Tick} {budget : ℕ} {calls : List (c.Tick × ℕ)} {ds : List (Delivery c P)}

theorem poll_stops (hb : 1 ≤ budget) (h : w.poll now budget fn = some s) :
  Stops (w.target now) budget fn w.start s
  := by
  rw [poll] at h
  rw [if_neg (by omega)] at h
  apply pollLoop_stops h rfl (Nat.zero_le _)

/-- A poll delivers and moves no more than its budget. -/
theorem poll_within_budget (h : w.poll now budget fn = some s) :
  s.result.fired + s.result.moved ≤ budget
  := by
  by_cases hb : budget = 0
  · rw [poll] at h
    rw [if_pos hb] at h
    cases h
    simp
  obtain ⟨s₁, hr, -, hwork, hstop⟩ := poll_stops (by omega) h
  have hsum := (hr.counted ⟨rfl, rfl⟩).2
  rcases hstop with ⟨-, -, rfl⟩ | ⟨-, rfl⟩
  · exact hsum.trans_le hwork
  · exact hsum.trans_le hwork

theorem rounds_unique :
  Relator.RightUnique fun s s' : Progress c P => round target fn s = some s'
  := fun _ _ _ e e' => some.inj (e.symm.trans e')

/-- Nothing follows the state in which the rounds end. -/
theorem Rounds.eq_of_end (h : Rounds target fn s s') (hend : round target fn s = none) :
  s' = s
  := by
  rcases Relation.ReflTransGen.cases_head_iff.mp h with e | ⟨s₁, e, -⟩
  · exact e.symm
  have e' : round target fn s = some s₁ := e
  rw [hend] at e'
  cases e'

/-- A poll whose budget covers the rounds ends where they end. -/
theorem Intact.poll_of_rounds (H : Intact tr none w) {s₁ : Progress c P}
    (hr : Rounds (w.target now) fn w.start s₁) (hend : round (w.target now) fn s₁ = none)
    (hb : s₁.work < budget) :
  w.poll now budget fn = some { s₁ with wheel := { s₁.wheel with cur := w.target now } }
    ∧ s₁.result.exhausted = false
  := by
  obtain ⟨s, -, he, -⟩ := H.poll now budget fn
  obtain ⟨s₂, hr₂, hex₂, -, hstop⟩ := poll_stops (by omega) he
  have hsame : s₂ = s₁ := by
    rcases Relation.ReflTransGen.total_of_right_unique rounds_unique hr hr₂ with h | h
    · apply Rounds.eq_of_end h hend
    rcases hstop with ⟨hw, hwork, -⟩ | ⟨hend₂, -⟩
    · have := Rounds.work_le h
      omega
    · exact (Rounds.eq_of_end h hend₂).symm
  subst hsame
  rcases hstop with ⟨-, hwork, -⟩ | ⟨-, rfl⟩
  · omega
  · exact ⟨he, hex₂⟩

/-- A poll goes on with the rounds of a poll from the start. -/
theorem Rounds.resume {s₀ : Progress c P} (hr₀ : Rounds (w.target now) fn w.start s₀)
    (hex₀ : s₀.result.exhausted = false) (hshift : s₀.wheel.shift = w.shift)
    (hcur : since w.cur s₀.wheel.cur ≤ since w.cur (w.target now)) (hb : 1 ≤ budget)
    (he : s₀.wheel.poll now budget (fn.after s₀.result.fired) = some s) :
  ∃ s₁, Rounds (w.target now) fn w.start (s₀.following s₁) ∧ s₁.result.exhausted = false
    ∧ ((s₁.work = budget ∧ s = { s₁ with result := { s₁.result with exhausted := true } })
      ∨ (round (w.target now) fn (s₀.following s₁) = none
        ∧ s = { s₁ with wheel := { s₁.wheel with cur := w.target now } }))
  := by
  obtain ⟨s₁, hr₁, hex₁, -, hstop⟩ := poll_stops hb he
  rw [target_resume hshift hcur] at hr₁ hstop
  have hstart : s₀.following s₀.wheel.start = s₀ := by
    obtain ⟨w₀, n, ⟨f, m, x⟩, ds⟩ := s₀
    cases hex₀
    simp [Progress.following, start]
  have hf := hr₁.following s₀
  rw [hstart] at hf
  refine ⟨s₁, hr₀.trans hf, hex₁, ?_⟩
  rcases hstop with ⟨-, hwork, hs⟩ | ⟨hend, hs⟩
  · exact .inl ⟨hwork, hs⟩
  right
  rw [round_following, hend]
  exact ⟨rfl, hs⟩

/-- The rounds of polls one after another, all exhausted, are rounds of one poll at any time that
is not before theirs. -/
theorem Polls.rounds (H : Intact tr none w) (h : Polls fn w calls w' ds)
    (hb : ∀ call ∈ calls, 1 ≤ call.2)
    (hmono : calls.Pairwise fun a b => since w.cur (w.target a.1) ≤ since w.cur (w.target b.1)) :
  (∃ tr', Intact tr' none w') ∧ w'.shift = w.shift
    ∧ ∀ t, (∀ call ∈ calls, since w.cur (w.target call.1) ≤ since w.cur t) →
      ∃ s, Rounds t fn w.start s ∧ s.wheel = w' ∧ s.deliveries = ds
        ∧ s.result.exhausted = false ∧ calls.length ≤ s.work
        ∧ since w.cur w'.cur ≤ since w.cur t
  := by
  have hzero : since w.cur w.cur = 0 := by
    rw [since, BitVec.sub_self]
    rfl
  induction h with
  | nil =>
    refine ⟨⟨tr, H⟩, rfl, fun t _ => ?_⟩
    exact ⟨w.start, .refl, rfl, rfl, rfl, le_rfl, hzero ▸ Nat.zero_le _⟩
  | @more calls w' ds now budget s hp he hex ih =>
  rw [pairwise_append] at hmono
  obtain ⟨⟨tr', H'⟩, hshift, hrounds⟩ := ih (fun call hc => hb call (mem_append_left _ hc)) hmono.1
  have hlast : ∀ call ∈ calls, since w.cur (w.target call.1) ≤ since w.cur (w.target now) :=
    fun call hc => hmono.2.2 call hc (now, budget) (mem_singleton_self _)
  obtain ⟨s₀, hr₀, rfl, rfl, hex₀, hlen, hcur⟩ := hrounds (w.target now) hlast
  have hbudget : 1 ≤ budget := hb (now, budget) (by simp)
  obtain ⟨s', tr'', he', hsteps⟩ := H'.poll now budget (fn.after s₀.deliveries.length)
  obtain ⟨H'', hfix⟩ := H'.steps hsteps
  rw [he, some.injEq] at he'
  subst he'
  refine ⟨⟨_, H''⟩, hfix.shift.trans hshift, fun t ht => ?_⟩
  rw [← (hr₀.counted ⟨rfl, rfl⟩).1] at he
  obtain ⟨s₁, hr, hex₁, hstop⟩ := hr₀.resume hex₀ hshift hcur hbudget he
  rcases hstop with ⟨hwork, rfl⟩ | ⟨-, rfl⟩
  · have ht' := ht (now, budget) (by simp)
    obtain ⟨hr', hcur'⟩ := hr.mono (hzero ▸ Nat.zero_le _) ht'
    refine ⟨_, hr', rfl, rfl, hex₁, ?_, hcur'.trans ht'⟩
    rw [length_append]
    change calls.length + 1 ≤ s₀.work + s₁.work
    omega
  rw [hex₁] at hex
  cases hex

/-- Polls one after another, all exhausted but the last, deliver what one poll at the last time
delivers, and leave the same wheel. -/
theorem Polls.agree (H : Intact tr none w)
    (hp : Polls fn w calls w' ds) (hb : ∀ call ∈ calls ++ [(now, budget)], 1 ≤ call.2)
    (hmono : (calls ++ [(now, budget)]).Pairwise fun a b =>
      since w.cur (w.target a.1) ≤ since w.cur (w.target b.1))
    (he : w'.poll now budget (fn.after ds.length) = some s) (hex : s.result.exhausted = false) :
  ∃ s₁, Rounds (w.target now) fn w.start s₁ ∧ s₁.deliveries = ds ++ s.deliveries
    ∧ ∀ B, s₁.work < B → ∃ s', w.poll now B fn = some s' ∧ s'.result.exhausted = false
        ∧ s'.deliveries = ds ++ s.deliveries ∧ s'.wheel = s.wheel
  := by
  rw [pairwise_append] at hmono
  obtain ⟨-, hshift, hrounds⟩ := hp.rounds H (fun call hc => hb call (mem_append_left _ hc)) hmono.1
  obtain ⟨s₀, hr₀, rfl, rfl, hex₀, -, hcur⟩ := hrounds (w.target now)
    fun call hc => hmono.2.2 call hc (now, budget) (mem_singleton_self _)
  rw [← (hr₀.counted ⟨rfl, rfl⟩).1] at he
  obtain ⟨s₁, hr, hex₁, hstop⟩ := hr₀.resume hex₀ hshift hcur (hb (now, budget) (by simp)) he
  rcases hstop with ⟨-, rfl⟩ | ⟨hend, rfl⟩
  · cases hex
  refine ⟨_, hr, rfl, fun B hB => ?_⟩
  obtain ⟨hpoll, hex'⟩ := H.poll_of_rounds hr hend hB
  exact ⟨_, hpoll, hex', rfl, rfl⟩

end Polls

/-! ### Callbacks that arm no due timer -/

/-- The armed nodes whose deadline is not late. -/
def dueNodes (late : c.Tick → Prop) [DecidablePred late] (w : Wheel c P) : Finset ℕ :=
  w.armedNodes.filter fun i => ¬ late (w.nodes i).deadline

section

variable {late : c.Tick → Prop} [DecidablePred late]

theorem mem_dueNodes : i ∈ w.dueNodes late ↔ w.ArmedNode i ∧ ¬ late (w.nodes i).deadline := by
  rw [dueNodes, Finset.mem_filter, mem_armedNodes]

theorem Spares.subset (h : Spares late w w') :
  w'.dueNodes late ⊆ w.dueNodes late
  := by
  intro i hi
  obtain ⟨harm, hdue⟩ := mem_dueNodes.mp hi
  obtain ⟨harm', -, hd⟩ := (h.armed i harm).resolve_left hdue
  exact mem_dueNodes.mpr ⟨harm', hd ▸ hdue⟩

/-- When the callback has returned, its timer is not armed any more or has a late deadline. -/
theorem not_due_settled (h : Spares late w w') {t : ExpiryHandle}
    (hg : (w.nodes t.id).generation = t.generation) (hodd : t.generation % 2 = 1)
    (hagain : ∀ d, again = some d → late d) :
  t.id ∉ (w'.settled t again).dueNodes late
  := by
  rw [mem_dueNodes, settled.eq_def]
  rintro ⟨harm, hdue⟩
  split at harm
  case isFalse hne =>
    rw [if_neg hne] at hdue
    obtain ⟨-, hsame, -⟩ := (h.armed _ harm).resolve_left hdue
    exact hne (hsame.trans hg)
  case isTrue hsame =>
  rw [if_pos hsame] at hdue
  cases again with
  | some d =>
    apply hdue
    rw [(kept_place _ _).deadline]
    simpa [setDeadline] using hagain d rfl
  | none =>
  have hgen := harm.2.2
  rw [generation_free_self, hsame] at hgen
  omega

end

section Due

variable {lists : ℕ → List ℕ} {frees : List ℕ} {loose retired : Set ℕ} {T : ℤ} {w₀ : Wheel c P}
  {target : c.Tick}

/-- How much the loop has to do before it can go on to the next event. -/
def load (c : Shape) (lists : ℕ → List ℕ) : ℕ :=
  2 * (lists c.kMoving).length + (lists c.kReady).length

/-- A node taken out of the list of `head` and placed again. -/
theorem Placed.move (H : Placed w lists frees loose T retired none ∅) {head : ℕ}
    (hp : w.pending head = true)
    (hh : head = c.kMoving ∨ head = c.kReady ∧ ¬ (w.unlink (w.nodes head).next).due (w.nodes head).next) :
  ∃ lists' loose', Placed ((w.unlink (w.nodes head).next).place (w.nodes head).next) lists' frees
      loose' T retired none ∅ ∧ load c lists' < load c lists
  := by
  have hlt : head < c.kFirst := by
    rcases hh with rfl | ⟨rfl, -⟩
    · apply c.kMoving_lt
    · apply c.kReady_lt
  have hmem := H.wf.next_mem hlt hp
  generalize (w.nodes head).next = i at hmem hh ⊢
  obtain ⟨lists₁, H₁, herase⟩ := H.pick (H.wf.armed_of_mem head hlt i hmem)
  obtain ⟨head', hkind, H₂⟩ := H₁.place (by simp)
  refine ⟨_, _, H₂, ?_⟩
  have hne : c.kMoving ≠ c.kReady := by
    rw [Shape.kMoving, Shape.kReady]
    omega
  have hlen := length_erase_of_mem hmem
  have hpos := length_pos_of_mem hmem
  have hother : ∀ h < c.kFirst, (lists₁ h).length ≤ (lists h).length := by
    intro h hh'
    rw [herase h hh']
    apply length_erase_le
  have hslot : head' < c.kWheelNodes → head' ≠ c.kMoving ∧ head' ≠ c.kReady := by
    rw [Shape.kMoving, Shape.kReady]
    omega
  have hr := hother _ c.kReady_lt
  have hm := hother _ c.kMoving_lt
  rw [← herase head hlt] at hlen
  rw [load, load]
  rcases hh with rfl | ⟨rfl, hlate⟩
  · rcases hkind with ⟨-, rfl⟩ | ⟨-, hs⟩
    · rw [update_of_ne hne, update_self, length_append, length_singleton]
      omega
    rw [update_of_ne (hslot hs).1.symm, update_of_ne (hslot hs).2.symm]
    omega
  rcases hkind with ⟨hle, -⟩ | ⟨-, hs⟩
  · exact absurd (not_lt.mpr hle) hlate
  rw [update_of_ne (hslot hs).1.symm, update_of_ne (hslot hs).2.symm]
  omega

theorem endOf_congr (h : w'.shift = w.shift) (d : c.Tick) : w'.endOf d = w.endOf d := by
  rw [endOf, endOf, unit, unit, h]

/-- A unit of work with a callback that arms late timers only: a timer is delivered, and its node is
no due node any more, or there is less to do before the next event. -/
theorem Placed.workOne {late : c.Tick → Prop} [DecidablePred late]
    (H : Placed s.wheel lists frees loose T (retiredBy tr) none ∅) (hw : s.wheel.working = true)
    (hfn : ∀ d ∈ fn.deadlines, late d)
    (hlate : ∀ d, ¬ 0 < diff (s.wheel.endOf d) s.wheel.cur → ¬ late d) :
  Spares late s.wheel (workOne fn s).wheel
    ∧ ((∃ δ, (workOne fn s).deliveries = s.deliveries ++ [δ] ∧ δ.handle.id ∈ s.wheel.dueNodes late
        ∧ δ.handle.id ∉ (workOne fn s).wheel.dueNodes late)
      ∨ (workOne fn s).deliveries = s.deliveries
        ∧ ∃ lists' loose', Placed (workOne fn s).wheel lists' frees loose' T (retiredBy tr) none ∅
          ∧ load c lists' < load c lists)
  := by
  refine ⟨spares_workOne hfn fun hr => .inl (H.wf.armed_next c.kReady_lt hr).2.2, ?_⟩
  rw [Wheel.workOne]
  cases hr : s.wheel.pending c.kReady with
  | false =>
    rw [working, hr] at hw
    obtain ⟨lists', loose', h⟩ := H.move hw (.inl rfl)
    exact .inr ⟨rfl, lists', loose', h⟩
  | true =>
  have harm := H.wf.armed_next c.kReady_lt hr
  rw [if_pos rfl, deliver]
  dsimp only
  split
  case isTrue hlt =>
    obtain ⟨lists', loose', h⟩ := H.move hr (.inr ⟨rfl, not_not.mpr hlt⟩)
    exact .inr ⟨rfl, lists', loose', h⟩
  case isFalse hdue =>
  generalize (s.wheel.nodes c.kReady).next = i at *
  have k := kept_unlink s.wheel i
  refine .inl ⟨_, rfl, mem_dueNodes.mpr ⟨harm, hlate _ ?_⟩, ?_⟩
  · rwa [k.deadline, endOf_congr k.shift, k.cur] at hdue
  have k' := (kept_setPrev (s.wheel.unlink i) i i).trans (kept_setNext _ i i)
  have hodd : ((s.wheel.unlink i).nodes i).generation % 2 = 1 := by
    rw [k.generation]
    exact harm.2.2
  refine not_due_settled (t := ⟨i, ((s.wheel.unlink i).nodes i).generation⟩)
    (spares_execAll _ _ fun call hc d hd => ?_) (k'.generation i) hodd fun d hd => ?_
  · exact hfn d ⟨_, _, .inl ⟨call, hc, hd⟩⟩
  · exact hfn d ⟨_, _, .inr hd⟩

/-- The deadline is after the time, as counted from the time of the wheel. -/
def Later (w : Wheel c P) (t d : c.Tick) : Prop := (since w.cur t : ℤ) < diff (w.endOf d) w.cur

instance (w : Wheel c P) (t : c.Tick) : DecidablePred (w.Later t) :=
  fun _ => inferInstanceAs (Decidable (_ < _))

/-- A wheel on its way from `w₀` to the target. -/
structure Underway (w₀ : Wheel c P) (target : c.Tick) (w : Wheel c P) : Prop where
  intact : ∃ tr, Intact tr none w
  shift : w.shift = w₀.shift
  cur_le : since w₀.cur w.cur ≤ since w₀.cur target

theorem Intact.underway (H : Intact tr none w) (target : c.Tick) : Underway w target w := by
  refine ⟨⟨tr, H⟩, rfl, ?_⟩
  rw [since, BitVec.sub_self]
  apply Nat.zero_le

theorem Underway.round (U : Underway w₀ target s.wheel) (e : round target fn s = some s') :
  Underway w₀ target s'.wheel
  := by
  have hcur := (round_mono e U.cur_le le_rfl).2
  obtain ⟨tr, H⟩ := U.intact
  obtain ⟨hw, rfl⟩ | ⟨hw, w, ha, rfl⟩ := round_cases e
  · obtain ⟨tr', hsteps⟩ := workOne_steps fn s hw
    obtain ⟨H', hfix⟩ := H.steps hsteps
    exact ⟨⟨_, H'⟩, hfix.shift.trans U.shift, hcur⟩
  obtain ⟨st, -⟩ := H.arrival hw ha
  obtain ⟨H', -, hfix⟩ := H.step st
  exact ⟨⟨_, H'⟩, hfix.shift.trans U.shift, hcur⟩

/-- On the way no deadline is due that is after the target. -/
theorem Underway.not_later (U : Underway w₀ target w) (hd : ¬ 0 < diff (w.endOf d) w.cur) :
  ¬ w₀.Later target d
  := by
  intro hlater
  rw [Later, ← endOf_congr U.shift] at hlater
  have hpos : 0 < diff (w.endOf d) w₀.cur := by omega
  have hnat : diff (w.endOf d) w₀.cur = since w₀.cur (w.endOf d) := by
    rw [diff] at hpos ⊢
    rw [since, BitVec.toInt_eq_toNat_of_lt (BitVec.toInt_pos_iff.mp hpos.le)]
  have hle := U.cur_le
  have hsub : (w.endOf d - w.cur).toNat = since w₀.cur (w.endOf d) - since w₀.cur w.cur :=
    toNat_sub_of_since_le (by omega)
  have hhalf := BitVec.toInt_pos_iff.mp hpos.le
  apply hd
  rw [diff, BitVec.toInt_eq_toNat_of_lt]
  all_goals
    simp only [since] at *
    omega

theorem dueNodes_arrival (late : c.Tick → Prop) [DecidablePred late]
    (ha : w.arrival target = some w') :
  w'.dueNodes late ⊆ w.dueNodes late
  := by
  obtain ⟨dist, -, ha⟩ := bind_eq_some_iff.mp ha
  obtain ⟨-, ha⟩ | ⟨-, ⟨⟩⟩ := ite_eq_iff.mp ha
  cases ha
  exact (kept_arrive w (w.cur + dist)).spares.subset

theorem lex_lt {a a' b b' l l' : ℕ} (h : a' < a ∨ a' ≤ a ∧ (b' < b ∨ b' = b ∧ l' < l)) :
  toLex (a', toLex (b', l')) < toLex (a, toLex (b, l))
  := by
  simp only [Prod.Lex.toLex_lt_toLex]
  omega

section

variable (hfn : ∀ d ∈ fn.deadlines, w₀.Later target d)

include hfn

/-- The states after units of work and events fire no timer twice. -/
theorem Rounds.nodup (h : Rounds target fn s s')
    (U : Underway w₀ target s.wheel) (h₀ : s.deliveries = []) :
  Underway w₀ target s'.wheel ∧ (s'.deliveries.map Delivery.handle).Nodup
    ∧ ∀ δ ∈ s'.deliveries, δ.handle.id ∉ s'.wheel.dueNodes (w₀.Later target)
  := by
  induction h with
  | refl =>
    rw [h₀]
    exact ⟨U, nodup_nil, by simp⟩
  | tail _ e ih =>
  obtain ⟨U', hnd, hdis⟩ := ih
  refine ⟨U'.round e, ?_⟩
  obtain ⟨hw, rfl⟩ | ⟨-, w, ha, rfl⟩ := round_cases e
  case inr => exact ⟨hnd, fun δ hm hc => hdis δ hm (dueNodes_arrival _ ha hc)⟩
  case inl =>
  obtain ⟨tr, lists, frees, loose, T, H⟩ := U'.intact
  obtain ⟨hs, ⟨δ, hδ, hdue, hnot⟩ | ⟨hδ, -⟩⟩ := H.workOne hw hfn fun d => U'.not_later
  · rw [hδ]
    constructor
    · rw [map_append, nodup_append]
      refine ⟨hnd, nodup_singleton _, ?_⟩
      intro a ha b hb eab
      obtain ⟨δ', hδ', rfl⟩ := mem_map.mp ha
      rw [map_singleton, mem_singleton] at hb
      apply hdis δ' hδ'
      rwa [eab, hb]
    intro δ' hm
    rcases mem_append.mp hm with hm | hm
    · exact fun hc => hdis δ' hm (hs.subset hc)
    · rwa [mem_singleton.mp hm]
  rw [hδ]
  exact ⟨hnd, fun δ hm hc => hdis δ hm (hs.subset hc)⟩

/-- Rounds with a callback that arms no timer up to the target end: each of them leaves one due node
less, comes nearer to the target, or has less to do before the next event. -/
theorem Rounds.exists_end (m : ℕ ×ₗ ℕ ×ₗ ℕ) :
    ∀ {s : Progress c P} {lists : ℕ → List ℕ} {frees : List ℕ} {loose : Set ℕ} {T : ℤ}
      {tr : List Event}, Underway w₀ target s.wheel →
      Placed s.wheel lists frees loose T (retiredBy tr) none ∅ →
      m = toLex ((s.wheel.dueNodes (w₀.Later target)).card,
        toLex ((target - s.wheel.cur).toNat, load c lists)) →
      ∃ s', Rounds target fn s s' ∧ round target fn s' = none
  := by
  induction m using WellFoundedLT.induction with
  | ind m ih =>
  rintro s lists frees loose T tr U H rfl
  cases hw : s.wheel.working with
  | true =>
    have hround : round target fn s = some (Wheel.workOne fn s) := by
      rw [round, hw, if_pos rfl]
    have U' := U.round hround
    obtain ⟨hs, ⟨δ, -, hdue, hnot⟩ | ⟨-, lists', loose', H', hload⟩⟩ :=
      H.workOne hw hfn fun d => U.not_later
    · obtain ⟨tr', lists', frees', loose', T', H'⟩ := U'.intact
      have hcard := Finset.card_lt_card ((Finset.ssubset_iff_of_subset hs.subset).mpr ⟨_, hdue, hnot⟩)
      obtain ⟨s', hr, hend⟩ := ih _ (lex_lt (.inl hcard)) U' H' rfl
      exact ⟨s', .head hround hr, hend⟩
    have hdist : (target - (Wheel.workOne fn s).wheel.cur).toNat
        = (target - s.wheel.cur).toNat := by
      rw [cur_workOne]
    obtain ⟨s', hr, hend⟩ :=
      ih _ (lex_lt (.inr ⟨Finset.card_le_card hs.subset, .inr ⟨hdist, hload⟩⟩)) U' H' rfl
    exact ⟨s', .head hround hr, hend⟩
  | false =>
  cases ha : s.wheel.arrival target with
  | none =>
    refine ⟨s, .refl, ?_⟩
    rw [round, hw, ha]
    rfl
  | some w =>
  have hround : round target fn s = some { s with wheel := w } := by
    rw [round, hw, ha]
    rfl
  have U' := U.round hround
  have hsub := Finset.card_le_card (dueNodes_arrival (w₀.Later target) ha)
  obtain ⟨tr', lists', frees', loose', T', H'⟩ := U'.intact
  obtain ⟨dist, he, ha⟩ := bind_eq_some_iff.mp ha
  obtain ⟨hle, ha⟩ | ⟨-, ⟨⟩⟩ := ite_eq_iff.mp ha
  obtain ⟨E, -, -, hd, hE⟩ := H.nextEvent_cur he
  cases ha
  have hdist : (target - (s.wheel.arrive (s.wheel.cur + dist)).cur).toNat
      < (target - s.wheel.cur).toNat := by
    have e : target - (s.wheel.cur + dist) = (target - s.wheel.cur) - dist := by
      grind
    rw [cur_arrive, e, BitVec.toNat_sub_of_le hle]
    rw [BitVec.le_def] at hle
    omega
  obtain ⟨s', hr, hend⟩ := ih _ (lex_lt (.inr ⟨hsub, .inl hdist⟩)) U' H' rfl
  exact ⟨s', .head hround hr, hend⟩

end

/-- The calls of a sequence before the `n`-th. -/
def callsBefore (now : ℕ → c.Tick) (budget : ℕ → ℕ) (n : ℕ) : List (c.Tick × ℕ) :=
  (List.range n).map fun i => (now i, budget i)

theorem callsBefore_succ (now : ℕ → c.Tick) (budget : ℕ → ℕ) (n : ℕ) :
  callsBefore now budget (n + 1) = callsBefore now budget n ++ [(now n, budget n)]
  := by rw [callsBefore, range_succ, map_append, callsBefore, map_singleton]

section Last

variable {now : ℕ → c.Tick} {budget : ℕ → ℕ} (hb : ∀ i, 1 ≤ budget i)
  (hmono : Monotone fun i => since w.cur (w.target (now i)))

include hb in
theorem one_le_of_callsBefore (n : ℕ) : ∀ call ∈ callsBefore now budget n, 1 ≤ call.2 := by
  intro call hm
  obtain ⟨i, -, rfl⟩ := mem_map.mp hm
  apply hb

include hmono in
theorem pairwise_callsBefore (n : ℕ) :
  (callsBefore now budget n).Pairwise fun a b =>
    since w.cur (w.target a.1) ≤ since w.cur (w.target b.1)
  := by
  rw [callsBefore, pairwise_map]
  exact pairwise_lt_range.imp fun h => hmono h.le

include hb hmono in
/-- Polls one after another with a callback that arms no timer up to their times are not all
exhausted. -/
theorem Intact.exists_last (H : Intact tr none w)
    (hfn : ∀ i, ∀ d ∈ fn.deadlines, w.Later (w.target (now i)) d) :
  ∃ n w' ds s, Polls fn w (callsBefore now budget n) w' ds
    ∧ w'.poll (now n) (budget n) (fn.after ds.length) = some s ∧ s.result.exhausted = false
  := by
  by_contra hc
  have hall : ∀ n, ∃ w' ds, Polls fn w (callsBefore now budget n) w' ds := by
    intro n
    induction n with
    | zero => exact ⟨w, [], .nil⟩
    | succ n ih =>
    obtain ⟨w', ds, hp⟩ := ih
    obtain ⟨⟨tr', H'⟩, -, -⟩ := hp.rounds H (one_le_of_callsBefore hb n) (pairwise_callsBefore hmono n)
    obtain ⟨s, -, he, -⟩ := H'.poll (now n) (budget n) (fn.after ds.length)
    cases hex : s.result.exhausted with
    | false => exact absurd ⟨n, w', ds, s, hp, he, hex⟩ hc
    | true =>
    rw [callsBefore_succ]
    exact ⟨_, _, hp.more he hex⟩
  -- All rounds are rounds to the last of the targets, and those end.
  obtain ⟨m, hm⟩ : ∃ m, ∀ i, since w.cur (w.target (now i)) ≤ since w.cur (w.target (now m)) := by
    have hbound : BddAbove (Set.range fun i => since w.cur (w.target (now i))) :=
      ⟨2 ^ c.digits, by rintro _ ⟨i, rfl⟩; exact (BitVec.isLt _).le⟩
    obtain ⟨m, hm⟩ := Nat.sSup_mem (Set.range_nonempty _) hbound
    exact ⟨m, fun i => (le_csSup hbound ⟨i, rfl⟩).trans hm.ge⟩
  have U := H.underway (w.target (now m))
  obtain ⟨_, _, _, _, HP⟩ := id H
  obtain ⟨s₁, hr₁, hend⟩ := Rounds.exists_end (hfn m) _ (s := w.start) U HP rfl
  obtain ⟨w', ds, hp⟩ := hall (s₁.work + 1)
  obtain ⟨-, -, hrounds⟩ := hp.rounds H (one_le_of_callsBefore hb _) (pairwise_callsBefore hmono _)
  obtain ⟨s₂, hr₂, -, -, -, hlen, -⟩ := hrounds (w.target (now m)) fun call hcall => by
    obtain ⟨i, -, rfl⟩ := mem_map.mp hcall
    apply hm
  rw [callsBefore, length_map, length_range] at hlen
  rcases Relation.ReflTransGen.total_of_right_unique rounds_unique hr₁ hr₂ with h | h
  · rw [Rounds.eq_of_end h hend] at hlen
    omega
  have := Rounds.work_le h
  omega

end Last

end Due

/-! ### The result -/

/-- Polls with budgets of at least 1, at times that do not go back as counted from the wheel time
at the first of them, all exhausted but the last: one poll at the last time, with any budget large
enough, delivers the same timers in the same order and leaves the same wheel, and no timer fires
twice if the callback arms none up to that time. If it arms none up to the times of the polls,
there is such a last poll. No poll delivers and moves more than its budget. -/
theorem polls_agree [Inhabited P] {tr : List Event} {w : Wheel c P} (r : Run tr none w)
    (fn : Callback c.Tick P) (now : ℕ → c.Tick) (budget : ℕ → ℕ) (hb : ∀ i, 1 ≤ budget i)
    (hnow : ∀ i, diff (now i) w.cur ≤ diff (now (i + 1)) w.cur) :
  (∀ n w' ds s, Polls fn w (callsBefore now budget n) w' ds →
      w'.poll (now n) (budget n) (fn.after ds.length) = some s → s.result.exhausted = false →
      (∃ B₀, ∀ B > B₀, ∃ s', w.poll (now n) B fn = some s' ∧ s'.result.exhausted = false
          ∧ s'.deliveries = ds ++ s.deliveries ∧ s'.wheel = s.wheel)
        ∧ ((∀ d ∈ fn.deadlines, w.Later (w.target (now n)) d) →
          ((ds ++ s.deliveries).map Delivery.handle).Nodup))
    ∧ ((∀ i, ∀ d ∈ fn.deadlines, w.Later (w.target (now i)) d) →
      ∃ n w' ds s, Polls fn w (callsBefore now budget n) w' ds
        ∧ w'.poll (now n) (budget n) (fn.after ds.length) = some s ∧ s.result.exhausted = false)
    ∧ ∀ (w' : Wheel c P) now' B fn' s, w'.poll now' B fn' = some s →
        s.result.fired + s.result.moved ≤ B
  := by
  have H := r.intact
  have hmono : Monotone fun i => since w.cur (w.target (now i)) :=
    monotone_nat_of_le_succ fun i => H.target_mono (hnow i)
  refine ⟨?_, fun hfn => H.exists_last hb hmono hfn, fun w' now' B fn' s => poll_within_budget⟩
  intro n w' ds s hp he hex
  -- The rounds of the calls up to the `n`-th are those of one poll at its time.
  obtain ⟨s₁, hr, hds, hall⟩ := hp.agree H (callsBefore_succ now budget n ▸ one_le_of_callsBefore hb _)
    (callsBefore_succ now budget n ▸ pairwise_callsBefore hmono _) he hex
  refine ⟨⟨s₁.work, hall⟩, fun hfn => ?_⟩
  rw [← hds]
  exact (hr.nodup hfn (H.underway _) rfl).2.1

theorem deliverAll_renew (d : ℤ) {h : ExpiryHandle} :
    ∀ (n : ℕ) (m : Timers P) (δs : List (Delivery c P)), (∃ t, m h = some t) →
      ∃ t, Timers.deliverAll (renew d) n m δs h = some t
  | _, _, [], hm => hm
  | n, m, δ :: δs, ⟨t, ht⟩ => by
    apply deliverAll_renew d (n + 1) _ δs
    change ∃ t, update m δ.handle ((m δ.handle).bind fun t => some (d, t.2)) h = some t
    by_cases e : h = δ.handle
    · subst e
      simp [ht]
    · simp [e, ht]

/-- The wheel with timers at 1 and 2. -/
def twoTimers : Wheel World.byteTicks ℕ :=
  ((emptyWheel.exec (.schedule 1 1)).1.exec (.schedule 2 2)).1

theorem run_twoTimers : Run [.scheduled ⟨8, 1⟩, .scheduled ⟨9, 1⟩] none twoTimers :=
  ⟨2, 0, 0, emptyWheel, rfl, (Step.call none _ (.schedule 1 1)).single.trans
    (Step.call none _ (.schedule 2 2)).single⟩

/-- With one timer at 1 and a callback that arms it again for that time, a poll is exhausted whatever
its budget. -/
theorem exhausted_renew (B : ℕ) :
  ∃ s, (emptyWheel.exec (.schedule 1 1)).1.poll 1 B (renew 1) = some s ∧ s.result.exhausted = true
  := by
  have hcreate := show Wheel.create World.byteTicks 2 (tick World.byteTicks 0) 0 = .ok emptyWheel from rfl
  have S₀ : Sound emptyWheel 0 _ none := ⟨_, _, _, _, (holds_create hcreate).1⟩
  obtain ⟨S, -, -⟩ := S₀.exec (show Call.Admitted World.byteTicks 0 0 _ (.schedule 1 1) from
    ⟨by decide, by decide⟩)
  set m := Timers.exec _ none (Call.schedule 1 1) _
  have hown : ∀ d ∈ (renew 1 : Callback ℤ ℕ).deadlines, d = 1 := by
    rintro d ⟨_, _, ⟨_, hc, -⟩ | hd⟩
    · cases hc
    · exact (some.inj hd).symm
  have hall : ∀ d ∈ (renew 1 : Callback ℤ ℕ).deadlines ∪ m.deadlines, d = 1 := by
    refine Set.union_subset hown (Timers.deadlines_exec ?_ none ?_ _)
    · rintro d ⟨h, p, ⟨⟩⟩
    rintro d ⟨⟩
    rfl
  have hadm : PollAdmitted World.byteTicks 0 0 m 1 (renew 1) := by
    refine ⟨by decide, by decide, fun d hd => ?_, fun d hd d' hd' => ?_⟩
    · rw [hown d hd]
      decide
    rw [hown d hd, hall d' hd']
    decide
  obtain ⟨r, T, hr, R, hdone⟩ := poll_spec S hadm B
  refine ⟨r, hr, ?_⟩
  by_contra hex
  obtain ⟨t, ht⟩ := deliverAll_renew 1 0 m r.deliveries (h := ⟨8, 1⟩) ⟨_, rfl⟩
  have hlt := hdone (by simpa using hex) _ t ht
  rw [hall t.1 (R.deadlines ⟨_, t.2, ht⟩)] at hlt
  exact absurd hlt (by decide)

/-- On a wheel at the time 0, polls at 127 and then at 129 fire two timers, and one poll at 129 fires
none: 129 is more than half the tick range after 0, and so counts as before it. With a callback that
arms a timer again for a time that is due, a poll fires it twice, or polls go on for ever. -/
theorem polls_differ_later :
  (∃ tr, Run tr none twoTimers) ∧ 0 < diff (129 : World.byteTicks.Tick) 127
    ∧ (∃ w' ds s, Polls inert twoTimers [(127, 1)] w' ds
        ∧ w'.poll 129 8 (inert.after ds.length) = some s ∧ s.result.exhausted = false
        ∧ (ds ++ s.deliveries).length = 2)
    ∧ (∀ B ≥ 1, ∃ s, twoTimers.poll 129 B inert = some s ∧ s.result.exhausted = false
        ∧ s.deliveries = [])
    ∧ (∃ s, twoTimers.poll 1 8 (fun n _ => ([], if n = 0 then some 1 else none)) = some s
        ∧ s.result.exhausted = false ∧ s.deliveries.map Delivery.handle = [⟨8, 1⟩, ⟨8, 1⟩])
    ∧ ∃ w : Wheel World.byteTicks ℕ, (∃ tr, Run tr none w) ∧ ∀ budget, (∀ i, 1 ≤ budget i) →
        ¬ ∃ n w' ds s, Polls (renew 1) w (callsBefore (fun _ => 1) budget n) w' ds
          ∧ w'.poll 1 (budget n) (renew 1) = some s ∧ s.result.exhausted = false
  := by
  have H := run_twoTimers.intact
  have hone : Run _ none (emptyWheel.exec (.schedule 1 1)).1 :=
    ⟨2, 0, 0, emptyWheel, rfl, (Step.call none _ (.schedule 1 1)).single⟩
  refine ⟨⟨_, run_twoTimers⟩, by decide, ?_, ?_, ?_, _, ⟨_, hone⟩, ?_⟩
  · obtain ⟨s, tr, he, hs⟩ := H.poll 127 1 inert
    obtain ⟨s', -, he', -⟩ := (H.steps hs).1.poll 129 8 inert
    have hval : ((twoTimers.poll 127 1 inert).bind fun s : Progress World.byteTicks ℕ =>
        (s.wheel.poll 129 8 inert).map fun s' : Progress World.byteTicks ℕ =>
          (s.result.exhausted, s'.result.exhausted, (s.deliveries ++ s'.deliveries).length))
        = some (true, false, 2) := by decide +kernel
    rw [he, bind_some, he', map_some, some.injEq] at hval
    simp only [Prod.mk.injEq] at hval
    exact ⟨s.wheel, s.deliveries, s', Polls.nil.more he hval.1, he', hval.2.1, hval.2.2⟩
  · intro B hB
    have hidle : twoTimers.working = false := by decide +kernel
    have hnone : twoTimers.arrival (twoTimers.target 129) = none := by
      decide +kernel
    have hpoll : twoTimers.poll 129 B inert
        = some ⟨{ twoTimers with cur := twoTimers.target 129 }, 0, ⟨0, 0, false⟩, []⟩ := by
      rw [poll]
      rw [if_neg (by omega), pollLoop_succ]
      rw [hidle, if_neg (by simp), hnone]
    exact ⟨_, hpoll, rfl, rfl⟩
  · obtain ⟨s, -, he, -⟩ := H.poll 1 8 fun n _ => ([], if n = 0 then some 1 else none)
    have hval : (twoTimers.poll 1 8 (fun n _ => ([], if n = 0 then some 1 else none))).map
        (fun s : Progress World.byteTicks ℕ => (s.result.exhausted, s.deliveries.map Delivery.handle))
        = some (false, [⟨8, 1⟩, ⟨8, 1⟩]) := by decide +kernel
    rw [he, map_some, some.injEq, Prod.mk.injEq] at hval
    exact ⟨s, he, hval⟩
  rintro budget hb ⟨n, w', ds, s, hp, he, hex⟩
  have hcalls := callsBefore_succ (fun _ => (1 : World.byteTicks.Tick)) budget n
  obtain ⟨s₁, -, -, hall⟩ := hp.agree hone.intact (hcalls ▸ one_le_of_callsBefore hb _)
    (hcalls ▸ pairwise_callsBefore monotone_const _) he hex
  obtain ⟨s', he', hex', -⟩ := hall _ (Nat.lt_succ_self _)
  obtain ⟨s'', he'', hex''⟩ := exhausted_renew (s₁.work + 1)
  cases he'.symm.trans he''
  cases hex'.symm.trans hex''

/-- A callback that arms the timer again and one more, both after the time of the polls. -/
def rearm : Callback World.byteTicks.Tick ℕ := fun _ p => ([.schedule 9 p], some 7)

/-- Polls of the wheel with budgets of 1, one after another. -/
theorem polls_agree_twoTimers :
  ∃ n w' ds s, Polls rearm twoTimers (callsBefore (fun _ => 2) (fun _ => 1) n) w' ds
    ∧ w'.poll 2 1 (rearm.after ds.length) = some s ∧ s.result.exhausted = false
    ∧ ((ds ++ s.deliveries).map Delivery.handle).Nodup
    ∧ ∃ B₀, ∀ B > B₀, ∃ s', twoTimers.poll 2 B rearm = some s'
      ∧ s'.deliveries = ds ++ s.deliveries
  := by
  have hlater : ∀ d ∈ rearm.deadlines, twoTimers.Later (twoTimers.target 2) d := by
    rintro d ⟨n, p, ⟨call, hc, hd⟩ | hd⟩
    · rw [mem_singleton.mp hc] at hd
      cases hd
      decide +kernel
    cases hd
    decide +kernel
  obtain ⟨hagree, hends, -⟩ := polls_agree run_twoTimers rearm (fun _ => 2) (fun _ => 1)
    (fun _ => le_rfl) (fun _ => le_rfl)
  obtain ⟨n, w', ds, s, hp, he, hex⟩ := hends fun _ => hlater
  obtain ⟨⟨B₀, hall⟩, honce⟩ := hagree n w' ds s hp he hex
  refine ⟨n, w', ds, s, hp, he, hex, honce hlater, B₀, fun B hB => ?_⟩
  obtain ⟨s', he', -, hds, -⟩ := hall B hB
  exact ⟨s', he', hds⟩

end Wheel

end Expiry
