import Bess.Conntrack.Handshake

/-!
# Deadlines of shared connections

A worker that stores a deadline then loads `armed`, and a poll that stores `armed` then loads the
deadline again, so one of them sees what the other has stored. What goes wrong is a third party: a
worker that found the timer armed too late moves it when it has the tracker's lock, even if another
worker has moved it further back in the meantime. In a run without such a move the timer of a
connection is armed at or before its deadline whenever no call is in progress.
-/

namespace Conntrack

open Function Napt Option

namespace Tracking

variable {U : Type} [Inhabited U] {base : ℕ → Tick} {σ τ : Tracking U} {w h : ℕ} {packet : Packet}
  {tcp : TcpState} {due : Tick}

/-! ### The steps of a worker -/

variable {policy : TimeoutPolicy} {σ' : Tracking U} {place old : Place} {choice : Choice}

omit [Inhabited U] in
/-- The tracker's lock is free when it is taken. -/
theorem Inv.take (inv : Inv base σ) (hw : σ.workers w = old) (hplain : ∀ h, ¬ Handles h old)
    (hstored : ∀ h, ¬ Stored h old) (hpend : ∀ h, Pending base σ h old → Pending base σ h place)
    (hplace : At base { σ with lock := some w } w place) (htake : σ.take w place = some σ') :
  Inv base σ'
  := by
  rw [Tracking.take, ite_none_left_eq_some, some_inj] at htake
  obtain ⟨hfree, rfl⟩ := htake
  apply inv.relock hw _ hplace _ _ hstored
  · intro w' _ hheld
    rw [hheld] at hfree
    exact absurd rfl hfree
  · exact fun h _ hh => absurd hh (hplain h)
  · exact fun h _ hh => .inr (hpend h hh)

/-- What is asked of a step: the packets of a connection come within a quarter of the range of ticks,
and a timer is moved to a tick that is not after both the one that it is armed for and the stored
deadline. -/
def Careful (base : ℕ → Tick) (σ : Tracking U) (w : ℕ) (_ : Choice) : Prop :=
  match σ.workers w with
  | .locking packet h => since (base h) packet.now < 2 ^ 62
  | .emplacing packet _ => since (base σ.made) packet.now < 2 ^ 62
  | .moving h due =>
      later due (σ.entries h).armed = false ∨ later due (σ.entries h).deadline = false
  | _ => True

omit [Inhabited U] in
theorem Inv.begin {call : Begin} (inv : Inv base σ) (hw : σ.workers w = .idle) :
  Inv base (σ.begin w call)
  := by
  cases call with
  | expire now =>
    rw [Tracking.begin]
    rcases htake : σ.take w (.polling now) with _ | σ'
    · exact inv
    have hplace : At base { σ with lock := some w } w (.polling now) := rfl
    exact inv.take hw (fun _ => id) (by rintro _ ⟨_, ⟨⟩⟩) (fun _ => False.elim) hplace htake
  | track f p now zone mayCreate =>
  rw [Tracking.begin]
  split
  case isTrue => exact inv.goPlain hw plain_idle fun h hh => (inv.directory hh).1
  case isFalse =>
  split
  case isTrue =>
    split
    case h_1 => exact inv
    case h_2 => exact inv.goPlain hw plain_idle fun h hh => (inv.directory hh).1
  case isFalse => exact inv

/-- The state machine does not touch the deadlines. -/
theorem advance_frame (policy : TimeoutPolicy) (e : SharedEntry U) (packet : Packet) :
  (advance policy e packet).1 = { e with
      toSession := (advance policy e packet).1.toSession
      user := (advance policy e packet).1.user }
    ∧ ∀ due ∈ (advance policy e packet).2, ∃ timeout, due = Napt.BasicNat.after packet.now timeout
  := by
  rw [advance]
  split
  case h_1 => exact ⟨rfl, nofun⟩
  case h_2 | h_3 => exact ⟨rfl, fun due hdue => ⟨_, (Option.some.inj hdue).symm⟩⟩

section Steps

variable (inv : Inv base σ)

include inv

omit [Inhabited U]

theorem Inv.enter {e : SharedEntry U} (hw : σ.workers w = old)
    (plain : Plain base σ old) (hh : h < σ.made) (hfree : (σ.entries h).lock = none)
    (he : e = { σ.entries h with toSession := e.toSession, user := e.user, lock := some w })
    (hplace : At base (σ.setEntry h e) w place) :
  Inv base ((σ.setEntry h e).goTo w place)
  := by
  have hself : (σ.setEntry h e).entries h = e := update_self ..
  have harmed : e.armed = (σ.entries h).armed := by rw [he]
  have hkey : e.key = (σ.entries h).key := by rw [he]
  have hdue : e.deadline = (σ.entries h).deadline := by rw [he]
  have guarded : Guarded σ (σ.setEntry h e) h := guarded_setEntry harmed hkey fun _ _ => rfl
  refine inv.guarded hw guarded ?_ hplace ?_ plain.handles ?_ (.inl ?_)
    (fun h' _ => plain.stored h') ?_
  · intro w' _ hheld
    rw [hfree] at hheld
    cases hheld
  · rw [hself, hdue]
    exact (inv.within h hh).2
  · exact fun h' hp => absurd hp (plain.pending h')
  · rw [hself, hdue]
  rw [hself, hdue]
  exact fun hcase => .inl (hcase.resolve_right (plain.stored h))

theorem Inv.looking {found : Option ℕ} (hw : σ.workers w = .looking packet found) :
  Inv base (σ.goTo w (looked policy σ packet found))
  := by
  have hfound := inv.placed hw
  have hopened : At base σ w (opened policy packet) := by
    rw [opened]
    split
    case h_1 => trivial
    case h_2 => split <;> trivial
  apply inv.goPlain hw ⟨fun _ => id, fun _ => id, nofun⟩
  cases found with
  | none => exact hopened
  | some h =>
  rw [looked]
  split
  case isTrue => exact hfound h rfl
  case isFalse => exact hopened

theorem Inv.locking [Inhabited U] (hw : σ.workers w = .locking packet h)
    (hfree : (σ.entries h).lock = none) (hnow : since (base h) packet.now < 2 ^ 62) :
  Inv base ((σ.setEntry h { (advance policy (σ.entries h) packet).1 with lock := some w }).goTo w
    (match (advance policy (σ.entries h) packet).2 with
      | some due => Place.storing h due
      | none => .unlocking h none))
  := by
  have hh := inv.placed hw
  obtain ⟨hframe, hdue⟩ := advance_frame policy (σ.entries h) packet
  apply inv.enter hw ⟨fun _ => id, fun _ => id, nofun⟩ hh hfree
  · rw [hframe]
  have hlock : ∀ e : SharedEntry U,
      ((σ.setEntry h { e with lock := some w }).entries h).lock = some w := by
    intro e
    change (update σ.entries h _ h).lock = _
    rw [update_self]
  split
  case h_1 due hsome =>
    obtain ⟨timeout, rfl⟩ := hdue due hsome
    exact ⟨within_after hnow timeout, hh, hlock _⟩
  case h_2 => exact ⟨hh, hlock _, nofun⟩

theorem Inv.relating (hw : σ.workers w = .relating h) (hfree : (σ.entries h).lock = none) :
  Inv base ((σ.setEntry h { σ.entries h with lock := some w }).goTo w (.unlocking h none))
  := by
  have hh := inv.placed hw
  apply inv.enter hw ⟨fun _ => id, fun _ => id, nofun⟩ hh hfree rfl
  refine ⟨hh, ?_, nofun⟩
  change (update σ.entries h _ h).lock = _
  rw [update_self]

/-- The store of a deadline: from now on the worker sees to the timer. -/
theorem Inv.storing (hw : σ.workers w = .storing h due) :
  Inv base ((σ.setEntry h { σ.entries h with deadline := due }).goTo w (.unlocking h (some due)))
  := by
  obtain ⟨hdue, hh, hlock⟩ := inv.placed hw
  let e := { σ.entries h with deadline := due }
  have hself : (σ.setEntry h e).entries h = e := update_self ..
  have guarded : Guarded σ (σ.setEntry h e) h := guarded_setEntry rfl rfl fun _ _ => rfl
  have hpend : Pending base (σ.setEntry h e) h (.unlocking h (some due)) := by
    refine ⟨rfl, ?_⟩
    rw [hself]
  refine inv.guarded hw guarded (fun _ => lock_ne hlock) ?_ ?_ (fun _ => id) (fun _ => False.elim)
    (.inr hpend) (fun _ _ => nofun) fun _ => .inr ⟨due, rfl⟩
  · refine ⟨hh, ?_, ?_⟩
    · rw [hself]
      exact hlock
    intro d hd
    rw [hself]
    cases hd
    exact ⟨hdue, rfl⟩
  rw [hself]
  exact hdue

theorem Inv.unlocking (hw : σ.workers w = .unlocking h (some due)) :
  Inv base (({ σ with last := update σ.last h due }.setEntry h
    { σ.entries h with lock := none }).goTo w (.checking h due))
  := by
  obtain ⟨hh, hlock, hstored⟩ := inv.placed hw
  obtain ⟨hdue, hdeadline⟩ := hstored due rfl
  let e := { σ.entries h with lock := none }
  let τ := { σ with last := update σ.last h due }.setEntry h e
  have hself : τ.entries h = e := update_self ..
  have guarded : Guarded σ τ h := guarded_setEntry rfl rfl fun h' hne => update_of_ne hne ..
  have hsame : (τ.entries h).deadline = (σ.entries h).deadline := by
    rw [hself]
  refine inv.guarded hw guarded (fun _ => lock_ne hlock) ⟨hdue, hh⟩ ?_ (fun _ => id) ?_ (.inl hsame)
    ?_ ?_
  · rw [hsame]
    exact (inv.within h hh).2
  · rintro h' ⟨rfl, hle⟩
    refine ⟨rfl, ?_⟩
    rw [hsame]
    exact hle
  · rintro h' hne ⟨_, hplace⟩
    cases hplace
    exact hne rfl
  intro _
  left
  rw [hsame, hdeadline]
  exact update_self ..

/-- The release of an entry's lock by a worker that has stored nothing. -/
theorem Inv.unlockingNone (hw : σ.workers w = .unlocking h none) :
  Inv base ((σ.setEntry h { σ.entries h with lock := none }).goTo w .idle)
  := by
  obtain ⟨hh, hlock, _⟩ := inv.placed hw
  let e := { σ.entries h with lock := none }
  have hself : (σ.setEntry h e).entries h = e := update_self ..
  have guarded : Guarded σ (σ.setEntry h e) h := guarded_setEntry rfl rfl fun _ _ => rfl
  have hsame : ((σ.setEntry h e).entries h).deadline = (σ.entries h).deadline := by
    rw [hself]
  refine inv.guarded hw guarded (fun _ => lock_ne hlock) trivial ?_ (fun _ => id)
    (fun _ => False.elim) (.inl hsame) (fun _ _ => nofun) ?_
  · rw [hsame]
    exact (inv.within h hh).2
  rw [hsame]
  exact fun hcase => .inl (hcase.resolve_right nofun)

/-- The load of `armed`: a timer that is armed later is moved. -/
theorem Inv.checking (hw : σ.workers w = .checking h due) :
  Inv base (σ.goTo w (if later (σ.entries h).armed due then .waiting h due else .idle))
  := by
  obtain ⟨hdue, hh⟩ := inv.placed hw
  split
  case isTrue =>
    have hplace : At base σ w (.waiting h due) := ⟨hdue, hh⟩
    exact inv.go hw hplace (fun _ _ => False.elim) (fun _ _ hp => .inr hp) fun _ => nofun
  case isFalse hearly =>
  rw [later_iff (inv.within h hh).1 hdue, Nat.not_lt] at hearly
  have hplace : At base σ w .idle := trivial
  apply inv.go hw hplace (fun _ _ => False.elim) _ fun _ => nofun
  rintro h' _ ⟨rfl, hle⟩
  exact .inl (hearly.trans hle)

theorem Inv.waiting (hw : σ.workers w = .waiting h due)
    (htake : σ.take w (.moving h due) = some σ') :
  Inv base σ'
  := by
  obtain ⟨hdue, hh⟩ := inv.placed hw
  have hplace : At base { σ with lock := some w } w (.moving h due) := ⟨hdue, hh, rfl⟩
  apply inv.take hw (fun _ => id) (fun _ => nofun) _ hplace htake
  exact fun _ hp => hp

/-- Only the holder of the tracker's lock has timers out of the wheel. -/
theorem Inv.lock_of_handles (hhandles : Handles h (σ.workers w)) :
  σ.lock = some w
  := by
  have hat := inv.places w
  generalize σ.workers w = place at hat hhandles
  cases place with
  | fired | loading | erasing => exact hat.2
  | scheduling | arming | rereading | rearming | deciding => exact hat.2.1
  | _ => exact hhandles.elim

theorem Inv.moving (hw : σ.workers w = .moving h due)
    (careful : later due (σ.entries h).armed = false ∨ later due (σ.entries h).deadline = false) :
  Inv base ((if σ.live h = true ∧ (σ.timers h).isSome = true then
    (σ.setTimer h (some due)).setArmed h due else σ).goTo w (.releasing none))
  := by
  obtain ⟨hdue, hh, hlock⟩ := inv.placed hw
  obtain ⟨harmed, hdeadline⟩ := inv.within h hh
  split
  case isTrue =>
    have hplace : At base ((σ.setTimer h (some due)).setArmed h due) w (.releasing none) :=
      at_releasing hlock
    apply inv.rearm hw hh hlock hdue hplace (.inl rfl)
    · intro hcase
      left
      rw [← Bool.not_eq_true, ← Bool.not_eq_true, later_iff hdue harmed, later_iff hdue hdeadline,
        Nat.not_lt, Nat.not_lt] at careful
      rcases careful with hle | hle
      · rcases hcase with hearly | ⟨_, hle'⟩
        · exact hle.trans hearly
        · exact hle'
      · exact hle
    · exact fun h' hne => ⟨id, fun hp => hne hp.1.symm⟩
    · exact fun _ => nofun
  case isFalse hgone =>
  -- The timer of a live connection is in the wheel while no one else has the lock.
  have hdead : σ.live h = false := by
    rw [← Bool.not_eq_true]
    intro hlive
    apply hgone
    refine ⟨hlive, ?_⟩
    rcases inv.armed h hlive with htimer | ⟨w', hhandles⟩
    · rw [htimer]
      rfl
    have hheld := inv.lock_of_handles hhandles
    rw [hlock] at hheld
    obtain rfl := Option.some.inj hheld
    rw [hw] at hhandles
    exact hhandles.elim
  have hplace : At base σ w (.releasing none) := at_releasing hlock
  apply inv.go hw hplace (fun _ _ => False.elim) _ fun _ => nofun
  rintro h' hlive ⟨rfl, _⟩
  rw [hdead] at hlive
  cases hlive

theorem Inv.emplacing [Inhabited U] (hw : σ.workers w = .emplacing packet tcp)
    (hstep : σ.step policy w choice = some σ') (hnow : since (base σ.made) packet.now < 2 ^ 62) :
  Inv base σ'
  := by
  have hlock := inv.placed hw
  have plain : Plain base σ (.emplacing packet tcp) := ⟨fun _ => id, fun _ => id, nofun⟩
  have hrelease : Inv base (σ.goTo w (.releasing none)) := inv.goPlain hw plain (at_releasing hlock)
  rw [Tracking.step, hw] at hstep
  dsimp only at hstep
  split at hstep
  case isTrue =>
    cases hstep
    exact hrelease
  case isFalse =>
  split at hstep
  case h_1 h hsome =>
    cases hstep
    apply inv.goPlain hw plain
    refine ⟨hlock, ?_⟩
    intro r hr
    cases hr
    exact (inv.directory hsome).1
  case h_2 hnone =>
  split at hstep
  case isTrue =>
    cases hstep
    exact hrelease
  case isFalse =>
  cases hstep
  exact inv.emplace (hw ▸ plain) hlock hnone (within_after hnow _)

/-- A timer is put into the wheel or taken out of it, and `armed` stays. -/
theorem Inv.retime {timer : Option Tick} (hw : σ.workers w = old)
    (hh : h < σ.made) (hlock : σ.lock = some w) (hplace : At base (σ.setTimer h timer) w place)
    (htimer : timer = some (σ.entries h).armed ∨ Handles h place)
    (hothers : ∀ h' ≠ h, ¬ Handles h' old) (hpend : ∀ h', ¬ Pending base σ h' old)
    (hstored : ∀ h', ¬ Stored h' old) :
  Inv base ((σ.setTimer h timer).goTo w place)
  := by
  have hsame : (σ.setTimer h timer).setArmed h (σ.entries h).armed = σ.setTimer h timer :=
    setArmed_self (σ := σ.setTimer h timer)
  rw [← hsame] at hplace ⊢
  exact inv.rearm hw hh hlock (inv.within h hh).1 hplace htimer
    (fun hcase => .inl (hcase.resolve_right (hpend h)))
    (fun h' hne => ⟨hothers h' hne, hpend h'⟩) hstored

theorem Inv.scheduling (hw : σ.workers w = .scheduling h due) (scheduled : Bool) :
  Inv base ((if scheduled then σ.setTimer h (some due) else σ.eraseFlow h).goTo w (.releasing none))
  := by
  obtain ⟨hh, hlock, rfl⟩ := inv.placed hw
  split
  case isTrue =>
    exact inv.retime hw hh hlock (at_releasing hlock) (.inl rfl) (fun _ hne hp => hne hp.symm)
      (fun _ => id) fun _ => nofun
  case isFalse =>
  have hplace : At base (σ.eraseFlow h) w (.releasing none) := by
    apply at_releasing
    rw [eraseFlow]
    split <;> exact hlock
  exact inv.erase hw hplace (fun h' hne => ⟨fun hp => hne hp.symm, id⟩) fun _ => nofun

theorem Inv.releasing {next : Option (Packet × ℕ)}
    (hw : σ.workers w = .releasing next) (hplace : At base { σ with lock := none } w place) :
  Inv base ({ σ with lock := none }.goTo w place)
  := by
  have hat := inv.placed hw
  apply inv.relockPlain hw ⟨fun _ => id, fun _ => id, nofun⟩ _ hplace
  exact fun w' hne hheld => absurd hheld (lock_ne hat.1 hne)

/-! ### The steps of a poll -/

variable {now : Tick}

theorem Inv.polling (hw : σ.workers w = .polling now) (hsome : (σ.timers h).isSome = true) :
  Inv base ((σ.setTimer h none).goTo w (.fired now h))
  := by
  have hlock := inv.placed hw
  have hh := inv.timers hsome
  have hplace : At base (σ.setTimer h none) w (.fired now h) := ⟨hh, hlock⟩
  exact inv.retime hw hh hlock hplace (.inr rfl) (fun _ _ => id) (fun _ => id) fun _ => nofun

theorem Inv.fired (hw : σ.workers w = .fired now h) :
  Inv base (σ.goTo w (if σ.live h then .loading now h else .polling now))
  := by
  have hat := inv.placed hw
  split
  case isTrue =>
    have hplace : At base σ w (.loading now h) := hat
    exact inv.go hw hplace (fun _ _ hp => .inr hp) (fun _ _ => False.elim) fun _ => nofun
  case isFalse hdead =>
  have hplace : At base σ w (.polling now) := hat.2
  apply inv.go hw hplace _ (fun _ _ => False.elim) fun _ => nofun
  rintro h' hlive rfl
  exact absurd hlive hdead

theorem Inv.loading (hw : σ.workers w = .loading now h) :
  Inv base (σ.goTo w (if later (σ.entries h).deadline now then
    .arming now h (σ.entries h).deadline else .erasing now h))
  := by
  obtain ⟨hh, hlock⟩ := inv.placed hw
  split
  case isTrue =>
    have hplace : At base σ w (.arming now h (σ.entries h).deadline) :=
      ⟨hh, hlock, (inv.within h hh).2⟩
    exact inv.go hw hplace (fun _ _ hp => .inr hp) (fun _ _ => False.elim) fun _ => nofun
  case isFalse =>
  have hplace : At base σ w (.erasing now h) := ⟨hh, hlock⟩
  exact inv.go hw hplace (fun _ _ hp => .inr hp) (fun _ _ => False.elim) fun _ => nofun

/-- The store of `armed`: from now on the poll sees to the timer. -/
theorem Inv.arming (hw : σ.workers w = .arming now h due) :
  Inv base ((σ.setArmed h due).goTo w (.rereading now h due))
  := by
  obtain ⟨hh, hlock, hdue⟩ := inv.placed hw
  have hplace : At base ((σ.setTimer h (σ.timers h)).setArmed h due) w (.rereading now h due) := by
    refine ⟨hh, hlock, ?_⟩
    rw [entries_setArmed, if_pos rfl]
  have hnext := inv.rearm hw hh hlock hdue hplace (.inr rfl) (fun _ => .inr rfl)
    (fun h' hne => ⟨fun hp => hne hp.symm, id⟩) fun _ => nofun
  rw [setTimer_self] at hnext
  exact hnext

theorem Inv.rereading (hw : σ.workers w = .rereading now h due) :
  Inv base (σ.goTo w (if later due (σ.entries h).deadline then
    .rearming now h (σ.entries h).deadline else .deciding now h due))
  := by
  obtain ⟨hh, hlock, rfl⟩ := inv.placed hw
  obtain ⟨harmed, hdue⟩ := inv.within h hh
  split
  case isFalse hearly =>
    rw [later_iff harmed hdue, Nat.not_lt] at hearly
    have hplace : At base σ w (.deciding now h (σ.entries h).armed) := ⟨hh, hlock, rfl⟩
    apply inv.go hw hplace (fun _ _ hp => .inr hp) _ fun _ => nofun
    rintro h' _ rfl
    exact .inl hearly
  case isTrue hlater =>
  rw [later_iff harmed hdue] at hlater
  have hplace : At base σ w (.rearming now h (σ.entries h).deadline) :=
    ⟨hh, hlock, hdue, hlater.le⟩
  apply inv.go hw hplace (fun _ _ hp => .inr hp) _ fun _ => nofun
  rintro h' _ rfl
  exact .inr ⟨rfl, le_refl _⟩

theorem Inv.rearming {again : Tick} (hw : σ.workers w = .rearming now h again) :
  Inv base ((σ.setArmed h again).goTo w (.deciding now h again))
  := by
  obtain ⟨hh, hlock, hagain, hle⟩ := inv.placed hw
  have hplace : At base ((σ.setTimer h (σ.timers h)).setArmed h again) w (.deciding now h again) := by
    refine ⟨hh, hlock, ?_⟩
    rw [entries_setArmed, if_pos rfl]
  have hnext := inv.rearm hw hh hlock hagain hplace (.inr rfl) ?_
    (fun h' hne => ⟨fun hp => hne hp.symm, fun hp => hne hp.1.symm⟩) fun _ => nofun
  · rw [setTimer_self] at hnext
    exact hnext
  rintro (hearly | ⟨_, hle'⟩)
  · exact .inl (hle.trans hearly)
  · exact .inl hle'

theorem Inv.deciding (hw : σ.workers w = .deciding now h due) :
  Inv base (if later due now then (σ.setTimer h (some due)).goTo w (.polling now)
    else σ.goTo w (.erasing now h))
  := by
  obtain ⟨hh, hlock, rfl⟩ := inv.placed hw
  split
  case isTrue =>
    have hplace : At base (σ.setTimer h (some (σ.entries h).armed)) w (.polling now) := hlock
    exact inv.retime hw hh hlock hplace (.inl rfl) (fun _ hne hp => hne hp.symm) (fun _ => id)
      fun _ => nofun
  case isFalse =>
  have hplace : At base σ w (.erasing now h) := ⟨hh, hlock⟩
  exact inv.go hw hplace (fun _ _ hp => .inr hp) (fun _ _ => False.elim) fun _ => nofun

theorem Inv.erasing (hw : σ.workers w = .erasing now h) :
  Inv base ((σ.eraseFlow h).goTo w (.polling now))
  := by
  have hat := inv.placed hw
  have hplace : At base (σ.eraseFlow h) w (.polling now) := by
    rw [eraseFlow]
    split <;> exact hat.2
  exact inv.erase hw hplace (fun h' hne => ⟨fun hp => hne hp.symm, id⟩) (by rintro _ ⟨_, ⟨⟩⟩)

end Steps

/-! ### Runs -/

theorem Inv.step (inv : Inv base σ) (careful : Careful base σ w choice)
    (hstep : σ.step policy w choice = some σ') :
  Inv base σ'
  := by
  have hat := inv.places w
  have hwhole := hstep
  rw [Careful] at careful
  rw [Tracking.step] at hstep
  cases hw : σ.workers w
  all_goals
    rw [hw] at hat careful hstep
    dsimp only at careful hstep
  case idle =>
    cases hstep
    exact inv.begin hw
  case looking =>
    cases hstep
    exact inv.looking hw
  case locking =>
    rw [ite_none_left_eq_some, Bool.not_eq_true, isSome_eq_false_iff, isNone_iff_eq_none] at hstep
    obtain ⟨hfree, hstep⟩ := hstep
    cases hstep
    exact inv.locking hw hfree careful
  case storing =>
    cases hstep
    exact inv.storing hw
  case unlocking h due =>
    cases hstep
    cases due with
    | none => exact inv.unlockingNone hw
    | some due => exact inv.unlocking hw
  case checking =>
    cases hstep
    exact inv.checking hw
  case waiting => exact inv.waiting hw hstep
  case moving =>
    cases hstep
    exact inv.moving hw careful
  case opening packet tcp =>
    have hplace : At base { σ with lock := some w } w (.emplacing packet tcp) := rfl
    exact inv.take hw (fun _ => id) (by rintro _ ⟨_, ⟨⟩⟩) (fun _ => False.elim) hplace hstep
  case emplacing => exact inv.emplacing hw hwhole careful
  case scheduling =>
    cases hstep
    exact inv.scheduling hw _
  case releasing next =>
    cases hstep
    cases next with
    | none => exact inv.releasing hw trivial
    | some r => exact inv.releasing hw (hat.2 r rfl)
  case quoting =>
    cases hstep
    apply inv.goPlain hw ⟨fun _ => id, fun _ => id, by rintro _ ⟨_, ⟨⟩⟩⟩
    split
    case h_1 h =>
      split
      case isTrue => exact hat h rfl
      case isFalse => trivial
    case h_2 => trivial
  case relating =>
    rw [ite_none_left_eq_some, Bool.not_eq_true, isSome_eq_false_iff, isNone_iff_eq_none] at hstep
    obtain ⟨hfree, hstep⟩ := hstep
    cases hstep
    exact inv.relating hw hfree
  case polling =>
    split at hstep
    case h_1 =>
      cases hstep
      have hplace : At base σ w (.releasing none) := at_releasing hat
      exact inv.goPlain hw ⟨fun _ => id, fun _ => id, by rintro _ ⟨_, ⟨⟩⟩⟩ hplace
    case h_2 =>
    rw [ite_none_left_eq_some, Bool.not_eq_true, isNone_eq_false_iff] at hstep
    obtain ⟨hsome, hstep⟩ := hstep
    cases hstep
    exact inv.polling hw hsome
  case fired =>
    cases hstep
    exact inv.fired hw
  case loading =>
    cases hstep
    exact inv.loading hw
  case arming =>
    cases hstep
    exact inv.arming hw
  case rereading =>
    cases hstep
    exact inv.rereading hw
  case rearming =>
    cases hstep
    exact inv.rearming hw
  case deciding =>
    cases hstep
    exact inv.deciding hw
  case erasing =>
  cases hstep
  exact inv.erasing hw

omit [Inhabited U] in
theorem inv_create (e : SharedEntry U) :
  Inv base (create e)
  := by
  refine ⟨fun _ => trivial, nofun, ?_, nofun, ?_, ?_, ?_⟩
  · exact fun h hh => absurd hh (Nat.not_lt_zero h)
  · exact fun h hlive => absurd (of_decide_eq_true hlive) nofun
  · exact fun h hlive => absurd (of_decide_eq_true hlive) nofun
  · exact fun h hh => absurd hh (Nat.not_lt_zero h)

theorem Reached.inv (reached : Reached policy (Careful base) σ) :
  Inv base σ
  := by
  induction reached with
  | create e => exact inv_create e
  | step _ hok hstep ih => exact ih.step hok hstep

/-- In every run with careful steps: whenever no call is in progress, the timer of each live
connection is armed at or before its deadline, and the deadline is the one set by the packet that
held the entry's lock last. -/
theorem deadline_kept {policy : TimeoutPolicy} (reached : Reached policy (Careful base) σ)
    (quiet : σ.Quiet) (hlive : σ.live h = true) :
  (∃ timer, σ.timers h = some timer ∧ later timer (σ.entries h).deadline = false)
    ∧ (σ.entries h).deadline = σ.last h
  := by
  have inv := reached.inv
  have hh := (inv.directory (of_decide_eq_true hlive)).1
  obtain ⟨harmed, hdue⟩ := inv.within h hh
  have hno {P : Place → Prop} (hidle : ¬ P .idle) : ¬ ∃ w, P (σ.workers w) := by
    rintro ⟨w, hw⟩
    rw [quiet w] at hw
    exact hidle hw
  constructor
  · refine ⟨_, (inv.armed h hlive).resolve_right (hno id), ?_⟩
    have hearly := (inv.early h hlive).resolve_right (hno id)
    rw [← Bool.not_eq_true, later_iff harmed hdue, Nat.not_lt]
    exact hearly
  · exact ((inv.last h hh).resolve_right (hno nofun)).symm

/-! ### A deadline that is lost -/

instance (base : ℕ → Tick) (σ : Tracking U) (w : ℕ) (choice : Choice) :
    Decidable (Careful base σ w choice) := by
  unfold Careful
  split <;> infer_instance

/-- A TCP packet of a connection between port 1000 of one address and port 80 of another, at
time 0. -/
def packetAt (fromClient : Bool) (flags : BitVec 8) : Choice :=
  let client : ℕ → BitVec 8 := fun _ => 1
  let server : ℕ → BitVec 8 := fun _ => 2
  let p : ParsedFrame :=
    { l3 := .ipv6, l4 := .tcp, protocol := 6, tcpFlags := flags
      src := if fromClient then client else server
      dst := if fromClient then server else client
      srcPort := if fromClient then 1000 else 80
      dstPort := if fromClient then 80 else 1000 }
  ⟨.track ⟨0, fun _ => 0⟩ p 0 0 true, true, true, true, none⟩

def emptyEntry : SharedEntry Unit :=
  { key := ⟨⟨0, 0⟩, ⟨0, 0⟩, 0, 0, 0, 0, 0⟩, deadline := 0, armed := 0, user := () }

/-- The client's SYN makes a connection. Worker 1 has the server's SYN|ACK and worker 2 the client's
RST; both find the timer armed too late, and worker 2 moves it first. -/
def crossing : List (ℕ × Choice) :=
  List.replicate 6 (0, packetAt true 0x02) ++ List.replicate 6 (1, packetAt false 0x12)
    ++ List.replicate 9 (2, packetAt true 0x04) ++ List.replicate 3 (1, packetAt false 0x12)

/-- The client's SYN makes a connection and its RST moves the timer. -/
def closing : List (ℕ × Choice) :=
  List.replicate 6 (0, packetAt true 0x02) ++ List.replicate 9 (0, packetAt true 0x04)

/-- What a schedule leads to, as far as it concerns the first connection. -/
def outcome (σ : Tracking Unit) : Bool × Option Tick × Tick × Tick × List Bool :=
  (σ.live 0, σ.timers 0, (σ.entries 0).deadline, σ.last 0,
    (List.range 3).map fun w => (σ.workers w).isIdle)

theorem quiet_follow {Ok : Tracking Unit → ℕ → Choice → Prop}
    [∀ σ w choice, Decidable (Ok σ w choice)] {steps : List (ℕ × Choice)} {σ : Tracking Unit}
    (hfollow : follow policy Ok (create emptyEntry) steps = some σ)
    (hfew : ∀ step ∈ steps, step.1 < 3)
    (hidle : (List.range 3).map (fun w => (σ.workers w).isIdle) = [true, true, true]) :
  σ.Quiet
  := by
  intro w
  rcases Nat.lt_or_ge w 3 with hlt | hge
  · apply Place.eq_idle
    have hall := List.all_eq_true.mp (show
      ((List.range 3).map fun w => (σ.workers w).isIdle).all id = true by rw [hidle]; rfl)
    exact hall _ (List.mem_map_of_mem (List.mem_range.mpr hlt))
  rw [workers_follow hfollow fun step hmem => ((hfew step hmem).trans_le hge).ne]
  rfl

/-- Without care a deadline is lost: the connection's deadline is 10, as the RST has set it, and
its timer is armed for 60. -/
theorem deadline_lost :
  ∃ σ : Tracking Unit, Reached {} (fun _ _ _ => True) σ ∧ σ.Quiet ∧ σ.live 0 = true
    ∧ σ.timers 0 = some 60 ∧ (σ.entries 0).deadline = 10 ∧ later 60 10 = true
  := by
  have hrun : (follow {} (fun _ _ _ => True) (create emptyEntry) crossing).map outcome
      = some (true, some 60, 10, 10, [true, true, true]) := by
    decide +kernel
  obtain ⟨σ, hfollow, hrun⟩ := map_eq_some_iff.mp hrun
  simp only [outcome, Prod.mk.injEq] at hrun
  obtain ⟨hlive, htimer, hdue, _, hidle⟩ := hrun
  have start : Reached {} (fun _ _ _ => True) (create emptyEntry) := .create emptyEntry
  exact ⟨σ, start.follow hfollow, quiet_follow hfollow (by decide) hidle, hlive, htimer, hdue,
    by decide⟩

theorem deadline_kept_closing :
  ∃ σ : Tracking Unit, Reached {} (Careful fun _ => 0) σ ∧ σ.Quiet ∧ σ.live 0 = true
    ∧ (∃ timer, σ.timers 0 = some timer ∧ later timer (σ.entries 0).deadline = false)
    ∧ σ.last 0 = 10
  := by
  have hrun : (follow {} (Careful fun _ => 0) (create emptyEntry) closing).map outcome
      = some (true, some 10, 10, 10, [true, true, true]) := by
    decide +kernel
  obtain ⟨σ, hfollow, hrun⟩ := map_eq_some_iff.mp hrun
  simp only [outcome, Prod.mk.injEq] at hrun
  obtain ⟨hlive, _, _, hlast, hidle⟩ := hrun
  have start : Reached {} (Careful fun _ => 0) (create emptyEntry) := .create emptyEntry
  have reached := start.follow hfollow
  have quiet := quiet_follow hfollow (by decide) hidle
  exact ⟨σ, reached, quiet, hlive, (deadline_kept reached quiet hlive).1, hlast⟩

end Tracking

end Conntrack
