import Bess.Expiry.Refinement

/-!
# Polling with an owner's state

The owner of a wheel gives `Poll` a callback that reads and changes the owner's own state and does
not call the wheel. `pollWith` threads such a state through the loop of a poll; `fuel` bounds the
rounds of the loop. After a poll the owner's state is what the callbacks of its deliveries, one
after another, make of it (`pollWith_state`).
-/

namespace Expiry

namespace Wheel

variable {c : Shape} {P σ : Type}

variable (fn : σ → P → σ × Option c.Tick)

/-- Take the node at the head of the due list, with the owner's state. -/
def deliverWith (s : Progress c P × σ) (index : ℕ) : Progress c P × σ :=
  let w := s.1.wheel.unlink index
  let node := w.nodes index
  if 0 < diff (w.endOf node.deadline) w.cur then (deliver Callback.inert s.1 index, s.2)
  else
    let (state, again) := fn s.2 node.payload
    (deliver (fun _ _ => ([], again)) s.1 index, state)

def pollLoopWith (target : c.Tick) (budget : ℕ) (fn : σ → P → σ × Option c.Tick) :
    ℕ → Progress c P × σ → Option (Progress c P × σ)
  | 0, _ => none
  | fuel + 1, (s, state) =>
      if s.wheel.pending c.kReady then
        if s.work = budget then
          some ({ s with result := { s.result with exhausted := true } }, state)
        else
          pollLoopWith target budget fn fuel
            (deliverWith fn ({ s with work := s.work + 1 }, state) (s.wheel.nodes c.kReady).next)
      else if s.wheel.pending c.kMoving then
        if s.work = budget then
          some ({ s with result := { s.result with exhausted := true } }, state)
        else
          pollLoopWith target budget fn fuel
            (move { s with work := s.work + 1 } (s.wheel.nodes c.kMoving).next, state)
      else
        match s.wheel.nextEvent with
        | some dist =>
            if dist ≤ target - s.wheel.cur then
              pollLoopWith target budget fn fuel
                ({ s with wheel := s.wheel.arrive (s.wheel.cur + dist) }, state)
            else some ({ s with wheel := { s.wheel with cur := target } }, state)
        | none => some ({ s with wheel := { s.wheel with cur := target } }, state)

/-- `Poll`, with the owner's state before and after it. -/
def pollWith (w : Wheel c P) (now : c.Tick) (budget : ℕ) (fn : σ → P → σ × Option c.Tick)
    (fuel : ℕ) (state : σ) : Option (Progress c P × σ) :=
  let target := w.target now
  if budget = 0 then
    let due :=
      match w.nextEvent with
      | some dist => decide (dist ≤ target - w.cur)
      | none => false
    some (⟨w, 0, ⟨0, 0, w.pending c.kReady || w.pending c.kMoving || due⟩, []⟩, state)
  else pollLoopWith target budget fn fuel (⟨w, 0, ⟨0, 0, false⟩, []⟩, state)

/-! ### The owner's state after a poll -/

/-- The owner's state after callbacks with these payloads. -/
def handled (state : σ) (payloads : List P) : σ :=
  payloads.foldl (fun state p => (fn state p).1) state

/-- The deliveries of a poll and the owner's state belong together. -/
def Threaded (state : σ) (s : Progress c P × σ) : Prop :=
  s.2 = handled fn state (s.1.deliveries.map Delivery.payload)

variable {fn : σ → P → σ × Option c.Tick} {state : σ} {budget : ℕ}

theorem Threaded.deliverWith {s : Progress c P × σ} (h : Threaded fn state s) (index : ℕ) :
  Threaded fn state (deliverWith fn s index)
  := by
  rw [Wheel.deliverWith]
  simp only
  split
  case isTrue hlate =>
    rw [Wheel.deliver]
    simp only [if_pos hlate]
    exact h
  case isFalse hdue =>
  rw [Threaded, Wheel.deliver]
  simp only [if_neg hdue, List.map_append, List.map_cons, List.map_nil, handled,
    List.foldl_append, List.foldl_cons, List.foldl_nil]
  rw [Threaded, handled] at h
  rw [← h]

theorem Threaded.pollLoopWith {target : c.Tick} :
    ∀ {fuel : ℕ} {s r : Progress c P × σ}, Threaded fn state s →
      pollLoopWith target budget fn fuel s = some r → Threaded fn state r
  | 0, _, _, _, hr => by cases hr
  | fuel + 1, (s, _), r, h, hr => by
    rw [Wheel.pollLoopWith] at hr
    split at hr
    · split at hr
      · cases hr
        exact h
      refine Threaded.pollLoopWith (Threaded.deliverWith ?_ _) hr
      exact h
    split at hr
    · split at hr
      · cases hr
        exact h
      refine Threaded.pollLoopWith ?_ hr
      exact h
    split at hr
    · split at hr
      · refine Threaded.pollLoopWith ?_ hr
        exact h
      cases hr
      exact h
    cases hr
    exact h

/-- The owner's state after a poll is what the callbacks of its deliveries make of it. -/
theorem pollWith_state {w : Wheel c P} {now : c.Tick} {fuel : ℕ} {r : Progress c P × σ}
    (h : w.pollWith now budget fn fuel state = some r) :
  r.2 = handled fn state (r.1.deliveries.map Delivery.payload)
  := by
  rw [pollWith] at h
  split at h
  · cases h
    rfl
  · exact Threaded.pollLoopWith (s := (⟨w, 0, ⟨0, 0, false⟩, []⟩, state)) rfl h

end Wheel

end Expiry
