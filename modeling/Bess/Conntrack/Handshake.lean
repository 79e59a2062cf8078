import Bess.Conntrack.Workers

/-!
# The handshake of packets and polls

What a worker relies on at each place of its call, and the invariant of all workers: the timer of a
live connection is in the wheel or in the hands of the worker with the tracker's lock, and it is
armed at or before the deadline, or some worker will yet see to that. A step is described by what it
changes: nothing, a lock, the words under the lock of an entry, or those under the tracker's lock.
-/

namespace Conntrack

open Function

namespace Tracking

variable {U : Type} {base : ℕ → Tick} {σ τ : Tracking U} {w w' h : ℕ} {lock : Option ℕ} {t : Tick}

/-! ### Ticks -/

/-- A tick as the time since `base`. -/
def since (base : Tick) (t : Tick) : ℕ :=
  (t - base).toNat

/-- Ticks in one half of their range after `base` are compared as times. -/
def Within (base : Tick) (t : Tick) : Prop :=
  since base t < 2 ^ 63

theorem toInt_sub_pos {a b c : BitVec 64} (ha : (a - c).toNat < 2 ^ 63)
    (hb : (b - c).toNat < 2 ^ 63) :
  0 < (a - b).toInt ↔ (b - c).toNat < (a - c).toNat
  := by
  rw [BitVec.toInt_eq_toNat_cond]
  bv_omega

theorem later_iff {a b : Tick} (ha : Within t a) (hb : Within t b) :
  later a b = true ↔ since t b < since t a
  := decide_eq_true_iff.trans (toInt_sub_pos ha hb)

/-- A deadline is in the half of the range if its packet comes in the first quarter. -/
theorem within_after {now : Tick} (hnow : since t now < 2 ^ 62) (timeout : Tick) :
  Within t (Napt.BasicNat.after now timeout)
  := by
  have hclamp : ∀ c d n : BitVec 64, (n - c).toNat < 2 ^ 62 → d.toNat < 2 ^ 62 →
      (n + d - c).toNat < 2 ^ 63 := by
    bv_omega
  apply hclamp t _ now hnow
  split
  case isTrue => decide
  case isFalse h =>
  have hle : timeout.toNat ≤ Napt.wheelShape.kMaxTimeout.toNat := BitVec.not_lt.mp h
  have hmax : Napt.wheelShape.kMaxTimeout.toNat < 2 ^ 62 := by decide
  exact hle.trans_lt hmax

/-! ### What a worker relies on -/

/-- What holds of the shared state while a worker is at a place, where the times of a connection count
from its own `base`. -/
def At (base : ℕ → Tick) (σ : Tracking U) (w : ℕ) : Place → Prop
  | .idle => True
  | .looking _ found => ∀ h ∈ found, h < σ.made
  | .locking _ h => h < σ.made
  | .storing h due => Within (base h) due ∧ h < σ.made ∧ (σ.entries h).lock = some w
  | .unlocking h due =>
      h < σ.made ∧ (σ.entries h).lock = some w
        ∧ ∀ d ∈ due, Within (base h) d ∧ (σ.entries h).deadline = d
  | .checking h due => Within (base h) due ∧ h < σ.made
  | .waiting h due => Within (base h) due ∧ h < σ.made
  | .moving h due => Within (base h) due ∧ h < σ.made ∧ σ.lock = some w
  | .opening _ _ => True
  | .emplacing _ _ => σ.lock = some w
  | .scheduling h due => h < σ.made ∧ σ.lock = some w ∧ (σ.entries h).armed = due
  | .releasing next => σ.lock = some w ∧ ∀ r ∈ next, r.2 < σ.made
  | .quoting found => ∀ h ∈ found, h < σ.made
  | .relating h => h < σ.made
  | .polling _ => σ.lock = some w
  | .fired _ h => h < σ.made ∧ σ.lock = some w
  | .loading _ h => h < σ.made ∧ σ.lock = some w
  | .arming _ h due => h < σ.made ∧ σ.lock = some w ∧ Within (base h) due
  | .rereading _ h due => h < σ.made ∧ σ.lock = some w ∧ (σ.entries h).armed = due
  | .rearming _ h again =>
      h < σ.made ∧ σ.lock = some w ∧ Within (base h) again
        ∧ since (base h) again ≤ since (base h) (σ.entries h).armed
  | .deciding _ h due => h < σ.made ∧ σ.lock = some w ∧ (σ.entries h).armed = due
  | .erasing _ h => h < σ.made ∧ σ.lock = some w

theorem lock_ne (hlock : lock = some w) (hne : w' ≠ w) :
  lock ≠ some w'
  := by
  rw [hlock]
  exact fun heq => hne (Option.some.inj heq).symm

theorem at_releasing (hlock : σ.lock = some w) :
  At base σ w (.releasing none)
  := ⟨hlock, fun r hr => absurd hr (Option.not_mem_none r)⟩

/-- What a step of a worker leaves alone: the others' places, and the words under their locks. -/
structure Respects (σ τ : Tracking U) (w : ℕ) : Prop where
  made : σ.made ≤ τ.made
  workers : τ.workers = σ.workers
  tracker : ∀ {w'}, w' ≠ w → σ.lock = some w' →
    τ.lock = some w' ∧ ∀ h < σ.made, (τ.entries h).armed = (σ.entries h).armed
  entry : ∀ {w'}, w' ≠ w → ∀ h < σ.made, (σ.entries h).lock = some w' →
    (τ.entries h).lock = some w' ∧ (τ.entries h).deadline = (σ.entries h).deadline

variable {place old : Place}

theorem At.respects (hne : w' ≠ w) (respects : Respects σ τ w) (h : At base σ w' place) :
  At base τ w' place
  := by
  have hmade {h : ℕ} (hh : h < σ.made) : h < τ.made := hh.trans_le respects.made
  cases place with
  | idle | opening => trivial
  | looking _ found | quoting found => exact fun x hx => hmade (h x hx)
  | locking _ h' | relating h' => exact hmade h
  | storing h' due => exact ⟨h.1, hmade h.2.1, (respects.entry hne h' h.2.1 h.2.2).1⟩
  | unlocking h' due =>
    obtain ⟨hh, hlock, hdue⟩ := h
    obtain ⟨hlock', hdeadline⟩ := respects.entry hne h' hh hlock
    rw [At, hdeadline]
    exact ⟨hmade hh, hlock', hdue⟩
  | checking | waiting => exact ⟨h.1, hmade h.2⟩
  | moving h' due => exact ⟨h.1, hmade h.2.1, (respects.tracker hne h.2.2).1⟩
  | emplacing | polling => exact (respects.tracker hne h).1
  | scheduling h' due | rereading _ h' due | deciding _ h' due =>
    obtain ⟨hh, hlock, harmed⟩ := h
    obtain ⟨hlock', hsame⟩ := respects.tracker hne hlock
    exact ⟨hmade hh, hlock', (hsame h' hh).trans harmed⟩
  | releasing next =>
    exact ⟨(respects.tracker hne h.1).1, fun r hr => hmade (h.2 r hr)⟩
  | fired | loading | erasing => exact ⟨hmade h.1, (respects.tracker hne h.2).1⟩
  | arming now h' due => exact ⟨hmade h.1, (respects.tracker hne h.2.1).1, h.2.2⟩
  | rearming now h' again =>
  obtain ⟨hh, hlock, hwithin, hle⟩ := h
  obtain ⟨hlock', hsame⟩ := respects.tracker hne hlock
  refine ⟨hmade hh, hlock', hwithin, ?_⟩
  rw [hsame h' hh]
  exact hle

/-! ### The invariant -/

/-- The worker has the connection's timer out of the wheel. -/
def Handles (h : ℕ) : Place → Prop
  | .scheduling h' _ => h' = h
  | .fired _ h' => h' = h
  | .loading _ h' => h' = h
  | .arming _ h' _ => h' = h
  | .rereading _ h' _ => h' = h
  | .rearming _ h' _ => h' = h
  | .deciding _ h' _ => h' = h
  | .erasing _ h' => h' = h
  | _ => False

/-- The worker will see to it that the connection's timer is not armed after its deadline: it has
stored a deadline and will load `armed`, or it has stored `armed` and will load the deadline. -/
def Pending (base : ℕ → Tick) (σ : Tracking U) (h : ℕ) : Place → Prop
  | .unlocking h' (some due) => h' = h ∧ since (base h) due ≤ since (base h) (σ.entries h).deadline
  | .checking h' due => h' = h ∧ since (base h) due ≤ since (base h) (σ.entries h).deadline
  | .waiting h' due => h' = h ∧ since (base h) due ≤ since (base h) (σ.entries h).deadline
  | .moving h' due => h' = h ∧ since (base h) due ≤ since (base h) (σ.entries h).deadline
  | .rereading _ h' _ => h' = h
  | .rearming _ h' again => h' = h ∧ since (base h) again ≤ since (base h) (σ.entries h).deadline
  | _ => False

/-- `armed` is at or before the deadline. -/
def Early (base : ℕ → Tick) (σ : Tracking U) (h : ℕ) : Prop :=
  since (base h) (σ.entries h).armed ≤ since (base h) (σ.entries h).deadline

/-- The worker has stored a deadline and still holds the lock. -/
def Stored (h : ℕ) (place : Place) : Prop :=
  ∃ due, place = .unlocking h (some due)

structure Inv (base : ℕ → Tick) (σ : Tracking U) : Prop where
  places : ∀ w, At base σ w (σ.workers w)
  directory : ∀ {key h}, σ.directory key = some h → h < σ.made ∧ (σ.entries h).key = key
  within : ∀ h < σ.made, Within (base h) (σ.entries h).armed
    ∧ Within (base h) (σ.entries h).deadline
  timers : ∀ {h}, (σ.timers h).isSome = true → h < σ.made
  armed : ∀ h, σ.live h = true → σ.timers h = some (σ.entries h).armed
    ∨ ∃ w, Handles h (σ.workers w)
  early : ∀ h, σ.live h = true → Early base σ h ∨ ∃ w, Pending base σ h (σ.workers w)
  last : ∀ h < σ.made, σ.last h = (σ.entries h).deadline ∨ ∃ w, Stored h (σ.workers w)

theorem Inv.placed (inv : Inv base σ) (hw : σ.workers w = place) :
  At base σ w place
  := hw ▸ inv.places w

theorem workers_goTo_self :
  (τ.goTo w place).workers w = place
  := update_self ..

/-- If one of the workers is at such a place before a step of `w`, and `Q` holds or `w` is at such a
place after it unless only another worker was, then so it is after the step. What is new has to be
so by the step alone. -/
theorem exists_goTo {P P' : Place → Prop} {old Q Q' : Prop} (hworkers : τ.workers = σ.workers)
    (hsome : old → Q ∨ ∃ w', P (σ.workers w'))
    (hothers : old → (∀ place', P place' → P' place') ∨ P' place)
    (hnext : (old → Q ∨ P (σ.workers w)) → Q' ∨ P' place) :
  Q' ∨ ∃ w', P' ((τ.goTo w place).workers w')
  := by
  have hself (hplace : P' place) : ∃ w', P' ((τ.goTo w place).workers w') := by
    refine ⟨w, ?_⟩
    rw [workers_goTo_self]
    exact hplace
  by_cases hold : old
  case neg => exact (hnext fun hold' => absurd hold' hold).imp id hself
  case pos =>
  rcases hsome hold with hQ | ⟨w', hw'⟩
  · exact (hnext fun _ => .inl hQ).imp id hself
  rcases eq_or_ne w' w with rfl | hne
  · exact (hnext fun _ => .inr hw').imp id hself
  rcases hothers hold with hothers | hplace
  · refine .inr ⟨w', ?_⟩
    rw [workers_goTo_of_ne hne, hworkers]
    exact hothers _ hw'
  · exact .inr (hself hplace)

theorem Pending.congr (hpend : Pending base σ h place)
    (hdue : (τ.entries h).deadline = (σ.entries h).deadline) :
  Pending base τ h place
  := by
  unfold Pending at hpend ⊢
  rw [hdue]
  exact hpend

/-- A step of a worker: it changes the shared state to that of `τ` and goes to `place`. A connection
is new, or the step has to keep what was ensured of it by the state itself or by the worker. -/
theorem Inv.next (inv : Inv base σ) (respects : Respects σ τ w) (hplace : At base τ w place)
    (hdir : ∀ {key h}, τ.directory key = some h → h < τ.made ∧ (τ.entries h).key = key)
    (hwithin : ∀ h < τ.made, Within (base h) (τ.entries h).armed
      ∧ Within (base h) (τ.entries h).deadline)
    (htimers : ∀ {h}, (τ.timers h).isSome = true → h < τ.made)
    (harmed : ∀ h, τ.live h = true →
      (σ.live h = true → σ.timers h = some (σ.entries h).armed ∨ Handles h (σ.workers w)) →
      τ.timers h = some (τ.entries h).armed ∨ Handles h place)
    (hdue : ∀ h, τ.live h = true → σ.live h = true →
      (τ.entries h).deadline = (σ.entries h).deadline ∨ Pending base τ h place)
    (hearly : ∀ h, τ.live h = true →
      (σ.live h = true → Early base σ h ∨ Pending base σ h (σ.workers w)) →
      Early base τ h ∨ Pending base τ h place)
    (hlast : ∀ h < τ.made,
      (h < σ.made → σ.last h = (σ.entries h).deadline ∨ Stored h (σ.workers w)) →
      τ.last h = (τ.entries h).deadline ∨ Stored h place) :
  Inv base (τ.goTo w place)
  := by
  constructor
  case places =>
    intro w'
    rcases eq_or_ne w' w with rfl | hne
    · rw [workers_goTo_self]
      cases place <;> exact hplace
    have hat := (inv.places w').respects hne respects
    rw [workers_goTo_of_ne hne, respects.workers]
    generalize σ.workers w' = place' at hat
    cases place' <;> exact hat
  case directory => exact hdir
  case within => exact hwithin
  case timers => exact htimers
  case armed =>
    intro h hlive
    exact exists_goTo respects.workers (inv.armed h) (fun _ => .inl fun _ hp => hp) (harmed h hlive)
  case early =>
    intro h hlive
    apply exists_goTo respects.workers (inv.early h) _ (hearly h hlive)
    intro hold
    exact (hdue h hlive hold).imp (fun hsame _ hp => hp.congr hsame) id
  case last =>
  intro h hh
  exact exists_goTo respects.workers (inv.last h) (fun _ => .inl fun _ hp => hp) (hlast h hh)

/-! ### Steps by what they change -/

/-- A step that takes or releases the tracker's lock, or only goes elsewhere. -/
theorem Inv.relock (inv : Inv base σ) (hw : σ.workers w = old)
    (hlock : ∀ w' ≠ w, σ.lock = some w' → lock = some w')
    (hplace : At base { σ with lock := lock } w place)
    (hhandles : ∀ h, σ.live h = true → Handles h old →
      σ.timers h = some (σ.entries h).armed ∨ Handles h place)
    (hpend : ∀ h, σ.live h = true → Pending base σ h old →
      Early base σ h ∨ Pending base σ h place)
    (hstored : ∀ h, ¬ Stored h old) :
  Inv base ({ σ with lock := lock }.goTo w place)
  := by
  subst hw
  apply inv.next
  case respects =>
    constructor
    case made => exact Nat.le_refl _
    case workers => rfl
    case tracker => exact fun hne hheld => ⟨hlock _ hne hheld, fun _ _ => rfl⟩
    case entry => exact fun _ _ _ hheld => ⟨hheld, rfl⟩
  case hplace => exact hplace
  case hdir => exact inv.directory
  case hwithin => exact inv.within
  case htimers => exact inv.timers
  case harmed => exact fun h hlive hcase => (hcase hlive).elim .inl (hhandles h hlive)
  case hdue => exact fun _ _ _ => .inl rfl
  case hearly =>
    intro h hlive hcase
    have hnext := (hcase hlive).elim .inl (hpend h hlive)
    exact hnext.imp id fun hp => hp.congr rfl
  case hlast => exact fun h hh hcase => .inl ((hcase hh).resolve_right (hstored h))

theorem Inv.go (inv : Inv base σ) (hw : σ.workers w = old) (hplace : At base σ w place)
    (hhandles : ∀ h, σ.live h = true → Handles h old →
      σ.timers h = some (σ.entries h).armed ∨ Handles h place)
    (hpend : ∀ h, σ.live h = true → Pending base σ h old →
      Early base σ h ∨ Pending base σ h place)
    (hstored : ∀ h, ¬ Stored h old) :
  Inv base (σ.goTo w place)
  := inv.relock hw (fun _ _ hheld => hheld) hplace hhandles hpend hstored

/-- A place that says nothing of any connection's timer or deadline. -/
structure Plain (base : ℕ → Tick) (σ : Tracking U) (place : Place) : Prop where
  handles : ∀ h, ¬ Handles h place
  pending : ∀ h, ¬ Pending base σ h place
  stored : ∀ h, ¬ Stored h place

theorem plain_idle :
  Plain base σ .idle
  := ⟨fun _ => id, fun _ => id, nofun⟩

section

variable (inv : Inv base σ) (hw : σ.workers w = old) (plain : Plain base σ old)

include inv hw plain

theorem Inv.relockPlain (hlock : ∀ w' ≠ w, σ.lock = some w' → lock = some w')
    (hplace : At base { σ with lock := lock } w place) :
  Inv base ({ σ with lock := lock }.goTo w place)
  := inv.relock hw hlock hplace (fun h _ hh => absurd hh (plain.handles h))
    (fun h _ hh => absurd hh (plain.pending h)) plain.stored

theorem Inv.goPlain (hplace : At base σ w place) :
  Inv base (σ.goTo w place)
  := inv.relockPlain hw plain (fun _ _ hheld => hheld) hplace

end

/-- `τ` differs from `σ` only in the words that the lock of one entry guards. -/
structure Guarded (σ τ : Tracking U) (h : ℕ) : Prop where
  made : τ.made = σ.made
  workers : τ.workers = σ.workers
  lock : τ.lock = σ.lock
  timers : τ.timers = σ.timers
  directory : τ.directory = σ.directory
  key : ∀ h', (τ.entries h').key = (σ.entries h').key
  armed : ∀ h', (τ.entries h').armed = (σ.entries h').armed
  others : ∀ h' ≠ h, τ.entries h' = σ.entries h' ∧ τ.last h' = σ.last h'

theorem guarded_setEntry {e : SharedEntry U} {last : ℕ → Tick}
    (harmed : e.armed = (σ.entries h).armed) (hkey : e.key = (σ.entries h).key)
    (hlast : ∀ h' ≠ h, last h' = σ.last h') :
  Guarded σ ({ σ with last := last }.setEntry h e) h
  := by
  have hself : ({ σ with last := last }.setEntry h e).entries h = e := update_self ..
  have hothers : ∀ h' ≠ h, ({ σ with last := last }.setEntry h e).entries h' = σ.entries h' :=
    fun h' hne => update_of_ne hne ..
  refine ⟨rfl, rfl, rfl, rfl, rfl, ?_, ?_, fun h' hne => ⟨hothers h' hne, hlast h' hne⟩⟩
  · intro h'
    rcases eq_or_ne h' h with rfl | hne
    · rw [hself, hkey]
    · rw [hothers h' hne]
  intro h'
  rcases eq_or_ne h' h with rfl | hne
  · rw [hself, harmed]
  · rw [hothers h' hne]

theorem Guarded.live (guarded : Guarded σ τ h) (h' : ℕ) :
  τ.live h' = σ.live h'
  := by
  rw [Tracking.live, Tracking.live, guarded.directory, guarded.key]

theorem Guarded.respects (guarded : Guarded σ τ h)
    (hheld : ∀ w' ≠ w, (σ.entries h).lock ≠ some w') :
  Respects σ τ w
  := by
  constructor
  case made => rw [guarded.made]
  case workers => exact guarded.workers
  case tracker =>
    intro w' _ hlock
    rw [guarded.lock]
    exact ⟨hlock, fun h' _ => guarded.armed h'⟩
  case entry =>
  intro w' hne h' _ hlock
  have hne' : h' ≠ h := by
    rintro rfl
    exact hheld w' hne hlock
  rw [(guarded.others h' hne').1]
  exact ⟨hlock, rfl⟩

theorem Inv.guarded (inv : Inv base σ) (hw : σ.workers w = old) (guarded : Guarded σ τ h)
    (hheld : ∀ w' ≠ w, (σ.entries h).lock ≠ some w') (hplace : At base τ w place)
    (hwithin : Within (base h) (τ.entries h).deadline) (hhandles : ∀ h', ¬ Handles h' old)
    (hpend : ∀ h', Pending base σ h' old → Pending base τ h' place)
    (hdue : (τ.entries h).deadline = (σ.entries h).deadline ∨ Pending base τ h place)
    (hstored : ∀ h' ≠ h, ¬ Stored h' old)
    (hlast : (σ.last h = (σ.entries h).deadline ∨ Stored h old) →
      τ.last h = (τ.entries h).deadline ∨ Stored h place) :
  Inv base (τ.goTo w place)
  := by
  subst hw
  have hdeadlines : ∀ h', (τ.entries h').deadline = (σ.entries h').deadline
      ∨ Pending base τ h' place := by
    intro h'
    rcases eq_or_ne h' h with rfl | hne
    · exact hdue
    rw [(guarded.others h' hne).1]
    exact .inl rfl
  apply inv.next (guarded.respects hheld) hplace
  case hdir =>
    intro key h' hkey
    rw [guarded.directory] at hkey
    rw [guarded.made, guarded.key]
    exact inv.directory hkey
  case hwithin =>
    intro h' hh'
    rw [guarded.made] at hh'
    rcases eq_or_ne h' h with rfl | hne
    · rw [guarded.armed]
      exact ⟨(inv.within h' hh').1, hwithin⟩
    rw [(guarded.others h' hne).1]
    exact inv.within h' hh'
  case htimers =>
    intro h' htimer
    rw [guarded.timers] at htimer
    rw [guarded.made]
    exact inv.timers htimer
  case harmed =>
    intro h' hlive hcase
    rw [guarded.live] at hlive
    rw [guarded.timers, guarded.armed]
    exact .inl ((hcase hlive).resolve_right (hhandles h'))
  case hdue => exact fun h' _ _ => hdeadlines h'
  case hearly =>
    intro h' hlive hcase
    rw [guarded.live] at hlive
    rcases hcase hlive with hearly | hp
    · rcases hdeadlines h' with hsame | hp
      · left
        rw [Early, guarded.armed, hsame]
        exact hearly
      · exact .inr hp
    · exact .inr (hpend h' hp)
  case hlast =>
  intro h' hh' hcase
  rw [guarded.made] at hh'
  rcases eq_or_ne h' h with rfl | hne
  · exact hlast (hcase hh')
  rw [(guarded.others h' hne).1, (guarded.others h' hne).2]
  exact .inl ((hcase hh').resolve_right (hstored h' hne))

theorem entries_setArmed (h' : ℕ) (armed : Tick) :
  (σ.setArmed h armed).entries h'
    = { σ.entries h' with armed := if h' = h then armed else (σ.entries h').armed }
  := by
  change update σ.entries h _ h' = _
  rcases eq_or_ne h' h with rfl | hne
  · rw [update_self, if_pos rfl]
  · rw [update_of_ne hne, if_neg hne]

theorem setArmed_self :
  σ.setArmed h (σ.entries h).armed = σ
  := by
  rw [setArmed, setEntry, update_eq_self_iff.mpr rfl]

theorem setTimer_self :
  σ.setTimer h (σ.timers h) = σ
  := by
  rw [setTimer, update_eq_self]

/-- A step that moves a timer, or tells where it is, under the tracker's lock. -/
theorem Inv.rearm {timer : Option Tick} {armed : Tick} (inv : Inv base σ)
    (hw : σ.workers w = old) (hh : h < σ.made) (hlock : σ.lock = some w) (hwithin : Within (base h) armed)
    (hplace : At base ((σ.setTimer h timer).setArmed h armed) w place)
    (htimer : timer = some armed ∨ Handles h place)
    (hearly : Early base σ h ∨ Pending base σ h old →
      since (base h) armed ≤ since (base h) (σ.entries h).deadline ∨ Pending base σ h place)
    (hothers : ∀ h' ≠ h, ¬ Handles h' old ∧ ¬ Pending base σ h' old)
    (hstored : ∀ h', ¬ Stored h' old) :
  Inv base (((σ.setTimer h timer).setArmed h armed).goTo w place)
  := by
  subst hw
  let τ := (σ.setTimer h timer).setArmed h armed
  have hentry (h' : ℕ) : τ.entries h'
      = { σ.entries h' with armed := if h' = h then armed else (σ.entries h').armed } :=
    entries_setArmed h' armed
  have hlive (h' : ℕ) : τ.live h' = σ.live h' := by
    rw [live, hentry]
    rfl
  apply inv.next (τ := τ)
  case respects =>
    constructor
    case made => exact Nat.le_refl _
    case workers => rfl
    case tracker =>
      exact fun hne hheld => absurd hheld (lock_ne hlock hne)
    case entry =>
    intro w' _ h' _ hheld
    rw [hentry]
    exact ⟨hheld, rfl⟩
  case hplace => exact hplace
  case hdir =>
    intro key h' hkey
    rw [hentry]
    exact inv.directory hkey
  case hwithin =>
    intro h' hh'
    obtain ⟨harmed, hdue⟩ := inv.within h' hh'
    rw [hentry]
    refine ⟨?_, hdue⟩
    split
    case isTrue heq => exact heq ▸ hwithin
    case isFalse => exact harmed
  case htimers =>
    intro h' hsome
    rcases eq_or_ne h' h with rfl | hne
    · exact hh
    change (update σ.timers h timer h').isSome = true at hsome
    rw [update_of_ne hne] at hsome
    exact inv.timers hsome
  case harmed =>
    intro h' hlive' hcase
    rw [hlive] at hlive'
    rw [hentry]
    change update σ.timers h timer h' = some (if h' = h then armed else _) ∨ _
    rcases eq_or_ne h' h with rfl | hne
    · rw [update_self, if_pos rfl]
      exact htimer
    rw [update_of_ne hne, if_neg hne]
    exact .inl ((hcase hlive').resolve_right (hothers h' hne).1)
  case hdue =>
    intro h' _ _
    left
    rw [hentry]
  case hearly =>
    intro h' hlive' hcase
    rw [hlive] at hlive'
    have hdue : (τ.entries h').deadline = (σ.entries h').deadline := by
      rw [hentry]
    rw [Early, hentry]
    rcases eq_or_ne h' h with rfl | hne
    · rw [if_pos rfl]
      exact (hearly (hcase hlive')).imp id fun hp => hp.congr hdue
    rw [if_neg hne]
    exact .inl ((hcase hlive').resolve_right (hothers h' hne).2)
  case hlast =>
  intro h' hh' hcase
  left
  rw [hentry]
  exact (hcase hh').resolve_right (hstored h')

theorem live_eraseFlow (h' : ℕ) :
  (σ.eraseFlow h).live h' = true ↔ h' ≠ h ∧ σ.live h' = true
  := by
  rw [eraseFlow]
  split
  case isFalse hdead =>
    refine (and_iff_right_of_imp ?_).symm
    rintro hlive rfl
    exact hdead hlive
  case isTrue hlive =>
  rw [live, decide_eq_true_iff] at hlive
  rw [live, live, decide_eq_true_iff, decide_eq_true_iff]
  change update σ.directory (σ.entries h).key none (σ.entries h').key = some h' ↔ _
  rw [update_apply]
  split
  case isTrue hkey =>
    rw [hkey, hlive]
    refine iff_of_false (by rintro ⟨⟩) ?_
    rintro ⟨hne, heq⟩
    exact hne (Option.some.inj heq).symm
  case isFalse hkey =>
  refine (and_iff_right_of_imp ?_).symm
  rintro _ rfl
  exact hkey rfl

/-- A step that erases a connection, under the tracker's lock. -/
theorem Inv.erase (inv : Inv base σ) (hw : σ.workers w = old)
    (hplace : At base (σ.eraseFlow h) w place)
    (hothers : ∀ h' ≠ h, ¬ Handles h' old ∧ ¬ Pending base σ h' old)
    (hstored : ∀ h', ¬ Stored h' old) :
  Inv base ((σ.eraseFlow h).goTo w place)
  := by
  subst hw
  have hframe : σ.eraseFlow h = { σ with directory := (σ.eraseFlow h).directory } := by
    rw [eraseFlow]
    split <;> rfl
  have hdir : ∀ {key h'}, (σ.eraseFlow h).directory key = some h' →
      σ.directory key = some h' := by
    intro key h' hkey
    rw [eraseFlow] at hkey
    split at hkey
    case isTrue =>
      change update σ.directory _ none key = some h' at hkey
      rw [update_apply] at hkey
      obtain ⟨-, ⟨⟩⟩ | ⟨_, hkey⟩ := ite_eq_iff.mp hkey
      exact hkey
    case isFalse => exact hkey
  have hlive := live_eraseFlow (σ := σ) (h := h)
  rw [hframe] at hplace hlive ⊢
  apply inv.next
  case respects =>
    constructor
    case made => exact Nat.le_refl _
    case workers => rfl
    case tracker => exact fun _ hheld => ⟨hheld, fun _ _ => rfl⟩
    case entry => exact fun _ _ _ hheld => ⟨hheld, rfl⟩
  case hplace => exact hplace
  case hdir => exact fun hkey => inv.directory (hdir hkey)
  case hwithin => exact inv.within
  case htimers => exact inv.timers
  case harmed =>
    intro h' hlive' hcase
    obtain ⟨hne, hold⟩ := (hlive h').mp hlive'
    exact .inl ((hcase hold).resolve_right (hothers h' hne).1)
  case hdue => exact fun _ _ _ => .inl rfl
  case hearly =>
    intro h' hlive' hcase
    obtain ⟨hne, hold⟩ := (hlive h').mp hlive'
    exact .inl ((hcase hold).resolve_right (hothers h' hne).2)
  case hlast => exact fun h' hh' hcase => .inl ((hcase hh').resolve_right (hstored h'))

variable [Inhabited U] {packet : Packet} {tcp : TcpState} {due : Tick}

theorem entries_emplace_of_ne (hne : h ≠ σ.made) :
  (σ.emplace packet tcp due).entries h = σ.entries h
  := update_of_ne hne ..

theorem live_emplace (hnone : σ.directory packet.c.key = none) (hne : h ≠ σ.made) :
  (σ.emplace packet tcp due).live h = σ.live h
  := by
  rw [live, live, entries_emplace_of_ne hne]
  change decide (update σ.directory packet.c.key (some σ.made) (σ.entries h).key = some h) = _
  rw [update_apply]
  split
  case isTrue hkey =>
    rw [hkey, hnone, decide_eq_false, decide_eq_false nofun]
    intro heq
    exact hne (Option.some.inj heq).symm
  case isFalse => rfl

/-- A connection is made, under the tracker's lock. -/
theorem Inv.emplace (inv : Inv base σ) (plain : Plain base σ (σ.workers w))
    (hlock : σ.lock = some w) (hnone : σ.directory packet.c.key = none)
    (hdue : Within (base σ.made) due) :
  Inv base ((σ.emplace packet tcp due).goTo w (.scheduling σ.made due))
  := by
  have hself : ∃ s : Session, (σ.emplace packet tcp due).entries σ.made
      = { s with key := packet.c.key, deadline := due, armed := due, user := default } :=
    ⟨_, update_self ..⟩
  obtain ⟨s, hself⟩ := hself
  have hlast : ∀ h ≠ σ.made, (σ.emplace packet tcp due).last h = σ.last h :=
    fun h hne => update_of_ne hne ..
  apply inv.next
  case respects =>
    constructor
    case made => exact Nat.le_succ _
    case workers => rfl
    case tracker =>
      intro w' _ hheld
      refine ⟨hheld, ?_⟩
      intro h hh
      rw [entries_emplace_of_ne hh.ne]
    case entry =>
    intro w' _ h hh hheld
    rw [entries_emplace_of_ne hh.ne]
    exact ⟨hheld, rfl⟩
  case hplace =>
    refine ⟨Nat.lt_succ_self _, hlock, ?_⟩
    rw [hself]
  case hdir =>
    intro key h hkey
    change update σ.directory packet.c.key (some σ.made) key = some h at hkey
    rw [update_apply] at hkey
    split at hkey
    case isTrue heq =>
      cases hkey
      refine ⟨Nat.lt_succ_self _, ?_⟩
      rw [hself, heq]
    case isFalse =>
    obtain ⟨hh, hkey⟩ := inv.directory hkey
    rw [entries_emplace_of_ne hh.ne]
    exact ⟨hh.trans (Nat.lt_succ_self _), hkey⟩
  case hwithin =>
    intro h hh
    rcases eq_or_ne h σ.made with rfl | hne
    · rw [hself]
      exact ⟨hdue, hdue⟩
    rw [entries_emplace_of_ne hne]
    exact inv.within h (lt_of_le_of_ne (Nat.le_of_lt_succ hh) hne)
  case htimers => exact fun hsome => (inv.timers hsome).trans (Nat.lt_succ_self _)
  case harmed =>
    intro h hlive hcase
    rcases eq_or_ne h σ.made with rfl | hne
    · exact .inr rfl
    rw [live_emplace hnone hne] at hlive
    rw [entries_emplace_of_ne hne]
    exact .inl ((hcase hlive).resolve_right (plain.handles h))
  case hdue =>
    intro h hlive hold
    left
    rw [live, decide_eq_true_iff] at hold
    rw [entries_emplace_of_ne (inv.directory hold).1.ne]
  case hearly =>
    intro h hlive hcase
    rcases eq_or_ne h σ.made with rfl | hne
    · left
      rw [Early, hself]
    rw [live_emplace hnone hne] at hlive
    rw [Early, entries_emplace_of_ne hne]
    exact .inl ((hcase hlive).resolve_right (plain.pending h))
  case hlast =>
  intro h hh hcase
  left
  rcases eq_or_ne h σ.made with rfl | hne
  · rw [hself]
    exact update_self ..
  rw [hlast h hne, entries_emplace_of_ne hne]
  have hold := lt_of_le_of_ne (Nat.le_of_lt_succ hh) hne
  exact (hcase hold).resolve_right (plain.stored h)

end Tracking

end Conntrack
