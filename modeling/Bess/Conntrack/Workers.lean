import Bess.Conntrack.Tracker

/-!
# The shared connection tracker

`SharedConntrack` (`core/conntrack/shared_conntrack.h`), with any number of workers in its calls. A
step of a worker makes one access that another worker can see: it loads or stores an atomic, looks a
handle up, or takes or releases a lock. What a worker does to an entry's state machine while it
holds the entry's lock, and to the wheel while it holds the tracker's, goes with the step that leads
there.

A connection is a number that is never given twice, as its handle is. The wheel is the tick that each
connection's timer is armed for; which timers a poll delivers, and whether the table and the wheel
have room, is open. An erase is one step, and so is an insert. What the calls return is left out.
-/

namespace Conntrack

open Function Napt Option

/-- `SharedConntrack::Entry`. Its timer is found under the connection's number. -/
structure SharedEntry (U : Type) : Type extends Session where
  key : CtKey
  /-- The worker that holds the entry's lock. -/
  lock : Option ℕ := none
  deadline : Tick
  armed : Tick
  user : U

/-- A packet with a key. -/
structure Packet : Type where
  p : ParsedFrame
  c : CanonicalKey
  now : Tick
  mayCreate : Bool

/-- Where a worker is. -/
inductive Place : Type where
  | idle
  /-- `Track`, after `FindHandle`. -/
  | looking (packet : Packet) (found : Option ℕ)
  /-- `Existing`, before `LockEntry`. -/
  | locking (packet : Packet) (h : ℕ)
  /-- Before the store of the deadline. -/
  | storing (h : ℕ) (due : Tick)
  /-- Before `UnlockEntry`, with the deadline stored, if any was. -/
  | unlocking (h : ℕ) (due : Option Tick)
  /-- Before the load of `armed`. -/
  | checking (h : ℕ) (due : Tick)
  /-- Before the tracker's lock is taken to move the timer. -/
  | waiting (h : ℕ) (due : Tick)
  | moving (h : ℕ) (due : Tick)
  /-- `Create`, before the tracker's lock is taken. -/
  | opening (packet : Packet) (tcp : TcpState)
  | emplacing (packet : Packet) (tcp : TcpState)
  | scheduling (h : ℕ) (due : Tick)
  /-- Before the tracker's lock is released; a connection that another worker made is then an
  existing one. -/
  | releasing (next : Option (Packet × ℕ))
  /-- `Unkeyed`, after `FindHandle` of the quoted packet. -/
  | quoting (found : Option ℕ)
  | relating (h : ℕ)
  /-- `Expire`, between two timers. -/
  | polling (now : Tick)
  /-- In the callback, before `Lookup`. -/
  | fired (now : Tick) (h : ℕ)
  | loading (now : Tick) (h : ℕ)
  | arming (now : Tick) (h : ℕ) (due : Tick)
  /-- Before the deadline is loaded again. -/
  | rereading (now : Tick) (h : ℕ) (due : Tick)
  | rearming (now : Tick) (h : ℕ) (again : Tick)
  | deciding (now : Tick) (h : ℕ) (due : Tick)
  | erasing (now : Tick) (h : ℕ)

def Place.isIdle : Place → Bool
  | .idle => true
  | _ => false

variable {place : Place}

theorem Place.eq_idle (h : place.isIdle = true) :
  place = .idle
  := by
  cases place with
  | idle => rfl
  | _ => cases h

/-- A call. -/
inductive Begin : Type where
  | track (f : Frame) (p : ParsedFrame) (now : Tick) (zone : BitVec 16) (mayCreate : Bool)
  | expire (now : Tick)

/-- What a step depends on besides the state: the call that an idle worker makes, the room in the
wheel and the table, and the timer that a poll delivers next. -/
structure Choice : Type where
  call : Begin
  wheelRoom : Bool := true
  tableRoom : Bool := true
  scheduled : Bool := true
  fires : Option ℕ := none

structure Tracking (U : Type) : Type where
  directory : CtKey → Option ℕ
  entries : ℕ → SharedEntry U
  /-- The connections made so far. -/
  made : ℕ
  timers : ℕ → Option Tick
  /-- The worker that holds the tracker's lock. -/
  lock : Option ℕ
  workers : ℕ → Place
  /-- The deadline set by the packet that held a connection's lock last. -/
  last : ℕ → Tick

namespace Tracking

variable {U : Type} [Inhabited U]

/-- No connections, and no worker in a call. -/
def create (e : SharedEntry U) : Tracking U where
  directory := fun _ => none
  entries := fun _ => e
  made := 0
  timers := fun _ => none
  lock := none
  workers := fun _ => .idle
  last := fun _ => 0

variable (σ : Tracking U)

/-- The table has the connection. -/
def live (h : ℕ) : Bool :=
  σ.directory (σ.entries h).key = some h

def goTo (w : ℕ) (place : Place) : Tracking U :=
  { σ with workers := update σ.workers w place }

def setEntry (h : ℕ) (e : SharedEntry U) : Tracking U :=
  { σ with entries := update σ.entries h e }

def setTimer (h : ℕ) (timer : Option Tick) : Tracking U :=
  { σ with timers := update σ.timers h timer }

def setArmed (h : ℕ) (armed : Tick) : Tracking U :=
  σ.setEntry h { σ.entries h with armed := armed }

/-- `Erase` -/
def eraseFlow (h : ℕ) : Tracking U :=
  if σ.live h then
    { σ with directory := update σ.directory (σ.entries h).key none }
  else σ

/-- `a` is later than `b`, as the code compares ticks. -/
def later (a b : Tick) : Bool :=
  0 < (a - b).toInt

/-- Takes the tracker's lock, if it is free. -/
def take (w : ℕ) (place : Place) : Option (Tracking U) :=
  if σ.lock.isSome then none else some ({ σ with lock := some w }.goTo w place)

/-! ### The steps of a worker -/

/-- A call up to its first access. -/
def begin (w : ℕ) : Begin → Tracking U
  | .track f p now zone mayCreate =>
      if keyed p then
        let c := makeKey p zone
        σ.goTo w (.looking ⟨p, c, now, mayCreate⟩ (σ.directory c.key))
      else if p.l3 ≠ .none ∧ p.l4 ≠ .none ∧ (p.l4 = .icmp ∨ p.l4 = .icmpv6)
          ∧ isIcmpError p.l4 p.icmpType = true then
        match quotedKey f p zone with
        | none => σ
        | some c => σ.goTo w (.quoting (σ.directory c.key))
      else σ
  | .expire now => (σ.take w (.polling now)).getD σ

section

variable (policy : TimeoutPolicy)

/-- `Create`, up to the tracker's lock. -/
def opened (packet : Packet) : Place :=
  match openingState policy packet.p with
  | none => .idle
  | some tcp => if packet.mayCreate = false then .idle else .opening packet tcp

/-- The rest of `Track`, after `Lookup`. -/
def looked (σ : Tracking U) (packet : Packet) (found : Option ℕ) : Place :=
  match found with
  | some h => if σ.live h then .locking packet h else opened policy packet
  | none => opened policy packet

/-- The state machine under the entry's lock: the entry, and the deadline to store if the packet is
valid. -/
def advance (e : SharedEntry U) (packet : Packet) :
    SharedEntry U × Option Tick :=
  let dir := directionOf e.toSession packet.c
  match stepExisting e.toSession packet.p dir packet.mayCreate with
  | (.invalid, _) => (e, none)
  | (.reopen, _) =>
      let s : Session := { tcp := .synSent, initiatorIsA := packet.c.srcIsA }
      ({ e with toSession := s, user := default },
        some (BasicNat.after packet.now (timeoutFor policy packet.p.l4 s)))
  | (.existing, s) =>
      ({ e with toSession := s },
        some (BasicNat.after packet.now (timeoutFor policy packet.p.l4 s)))

/-- The deadline of a new connection. -/
def firstDue (packet : Packet) (tcp : TcpState) : Tick :=
  BasicNat.after packet.now (timeoutFor policy packet.p.l4 { tcp := tcp })

end

/-- `Emplace`, of a key that the table does not have. -/
def emplace (packet : Packet) (tcp : TcpState) (due : Tick) : Tracking U :=
  let e : SharedEntry U :=
    { tcp := tcp, initiatorIsA := packet.c.srcIsA, key := packet.c.key, deadline := due
      armed := due, user := default }
  { σ.setEntry σ.made e with
    directory := update σ.directory packet.c.key (some σ.made)
    made := σ.made + 1
    last := update σ.last σ.made due }

/-- One step of a worker, or nothing while it waits for a lock. -/
def step (policy : TimeoutPolicy) (σ : Tracking U) (w : ℕ) (choice : Choice) :
    Option (Tracking U) :=
  match σ.workers w with
  | .idle => some (σ.begin w choice.call)
  | .looking packet found => some (σ.goTo w (looked policy σ packet found))
  | .locking packet h =>
      if (σ.entries h).lock.isSome then none
      else
        let (e, due) := advance policy (σ.entries h) packet
        let place := match due with
          | some due => Place.storing h due
          | none => .unlocking h none
        some ((σ.setEntry h { e with lock := some w }).goTo w place)
  | .storing h due =>
      some ((σ.setEntry h { σ.entries h with deadline := due }).goTo w (.unlocking h (some due)))
  | .unlocking h due =>
      let place := match due with
        | some due => Place.checking h due
        | none => .idle
      let last := match due with
        | some due => update σ.last h due
        | none => σ.last
      some (({ σ with last := last }.setEntry h { σ.entries h with lock := none }).goTo w place)
  | .checking h due =>
      some (σ.goTo w (if later (σ.entries h).armed due then .waiting h due else .idle))
  | .waiting h due => σ.take w (.moving h due)
  | .moving h due =>
      let moved :=
        if σ.live h = true ∧ (σ.timers h).isSome = true then (σ.setTimer h (some due)).setArmed h due
        else σ
      some (moved.goTo w (.releasing none))
  | .opening packet tcp => σ.take w (.emplacing packet tcp)
  | .emplacing packet tcp =>
      if choice.wheelRoom = false then some (σ.goTo w (.releasing none))
      else
        match σ.directory packet.c.key with
        | some h => some (σ.goTo w (.releasing (some (packet, h))))
        | none =>
            if choice.tableRoom = false then some (σ.goTo w (.releasing none))
            else
              let due := firstDue policy packet tcp
              some ((σ.emplace packet tcp due).goTo w (.scheduling σ.made due))
  | .scheduling h due =>
      let scheduled := if choice.scheduled then σ.setTimer h (some due) else σ.eraseFlow h
      some (scheduled.goTo w (.releasing none))
  | .releasing next =>
      let place := match next with
        | some (packet, h) => Place.locking packet h
        | none => .idle
      some ({ σ with lock := none }.goTo w place)
  | .quoting found =>
      some (σ.goTo w (match found with
        | some h => if σ.live h then .relating h else .idle
        | none => .idle))
  | .relating h =>
      if (σ.entries h).lock.isSome then none
      else
        let e := { σ.entries h with lock := some w }
        some ((σ.setEntry h e).goTo w (.unlocking h none))
  | .polling now =>
      match choice.fires with
      | none => some (σ.goTo w (.releasing none))
      | some h =>
          if (σ.timers h).isNone then none
          else some ((σ.setTimer h none).goTo w (.fired now h))
  | .fired now h => some (σ.goTo w (if σ.live h then .loading now h else .polling now))
  | .loading now h =>
      let due := (σ.entries h).deadline
      some (σ.goTo w (if later due now then .arming now h due else .erasing now h))
  | .arming now h due => some ((σ.setArmed h due).goTo w (.rereading now h due))
  | .rereading now h due =>
      let again := (σ.entries h).deadline
      some (σ.goTo w (if later due again then .rearming now h again else .deciding now h due))
  | .rearming now h again => some ((σ.setArmed h again).goTo w (.deciding now h again))
  | .deciding now h due =>
      some (if later due now then (σ.setTimer h (some due)).goTo w (.polling now)
        else σ.goTo w (.erasing now h))
  | .erasing now h => some ((σ.eraseFlow h).goTo w (.polling now))

/-- What can be reached when every step meets a condition on the state before it. -/
inductive Reached (policy : TimeoutPolicy) (Ok : Tracking U → ℕ → Choice → Prop) :
    Tracking U → Prop where
  | create (e : SharedEntry U) : Reached policy Ok (create e)
  | step {σ σ' : Tracking U} {w : ℕ} {choice : Choice} (h : Reached policy Ok σ)
      (hok : Ok σ w choice) (hstep : σ.step policy w choice = some σ') : Reached policy Ok σ'

/-- No call is in progress. -/
def Quiet : Prop :=
  ∀ w, σ.workers w = .idle

/-! ### Schedules -/

section Schedule

variable (policy : TimeoutPolicy) (Ok : Tracking U → ℕ → Choice → Prop)
  [∀ σ w choice, Decidable (Ok σ w choice)]

/-- Runs a schedule of steps, unless a worker would have to wait or a step does not meet the
condition. -/
def follow : Tracking U → List (ℕ × Choice) → Option (Tracking U)
  | σ, [] => some σ
  | σ, (w, choice) :: steps =>
      if Ok σ w choice then (σ.step policy w choice).bind fun σ' => follow σ' steps else none

variable {policy Ok} {w w' : ℕ}

theorem Reached.follow :
    ∀ {steps : List (ℕ × Choice)} {σ σ' : Tracking U}, Reached policy Ok σ →
      follow policy Ok σ steps = some σ' → Reached policy Ok σ'
  | [], _, _, reached, hfollow => by
    cases hfollow
    exact reached
  | (w, choice) :: steps, σ, σ', reached, hfollow => by
    rw [Tracking.follow, ite_none_right_eq_some] at hfollow
    obtain ⟨hok, hbind⟩ := hfollow
    obtain ⟨next, hstep, hrest⟩ := bind_eq_some_iff.mp hbind
    exact (reached.step hok hstep).follow hrest

omit [Inhabited U] in
theorem workers_goTo_of_ne {τ : Tracking U} (hne : w' ≠ w) :
  (τ.goTo w place).workers w' = τ.workers w'
  := update_of_ne hne ..

omit [Inhabited U] in
theorem workers_take {σ σ' : Tracking U} (hne : w' ≠ w) (htake : σ.take w place = some σ') :
  σ'.workers w' = σ.workers w'
  := by
  rw [take, ite_none_left_eq_some, some_inj] at htake
  obtain ⟨_, rfl⟩ := htake
  exact workers_goTo_of_ne hne

omit [Inhabited U] in
theorem workers_begin {σ : Tracking U} (hne : w' ≠ w) (call : Begin) :
  (σ.begin w call).workers w' = σ.workers w'
  := by
  cases call with
  | expire now =>
    rw [begin]
    rcases htake : σ.take w (.polling now) with _ | σ'
    · rfl
    · exact workers_take hne htake
  | track f p now zone mayCreate =>
  rw [begin]
  split
  case isTrue => exact workers_goTo_of_ne hne
  case isFalse =>
  split
  case isTrue =>
    split
    case h_1 => rfl
    case h_2 => exact workers_goTo_of_ne hne
  case isFalse => rfl

/-- A step of a worker leaves the other workers where they are. -/
theorem workers_step {σ σ' : Tracking U} {choice : Choice} (hne : w' ≠ w)
    (hstep : σ.step policy w choice = some σ') :
  σ'.workers w' = σ.workers w'
  := by
  have hgoes {τ : Tracking U} {place : Place} (hτ : some (τ.goTo w place) = some σ')
      (hworkers : τ.workers = σ.workers) : σ'.workers w' = σ.workers w' := by
    cases hτ
    rw [workers_goTo_of_ne hne, hworkers]
  have herase (h : ℕ) : (σ.eraseFlow h).workers = σ.workers := by
    rw [eraseFlow]
    split <;> rfl
  rw [Tracking.step] at hstep
  cases hw : σ.workers w
  all_goals
    rw [hw] at hstep
    dsimp only at hstep
  case idle =>
    cases hstep
    exact workers_begin hne _
  case waiting | opening => exact workers_take hne hstep
  case locking | relating =>
    rw [ite_none_left_eq_some] at hstep
    exact hgoes hstep.2 rfl
  case moving =>
    apply hgoes hstep
    split <;> rfl
  case emplacing =>
    split at hstep
    case isTrue => exact hgoes hstep rfl
    case isFalse =>
    split at hstep
    case h_1 => exact hgoes hstep rfl
    case h_2 =>
    split at hstep
    case isTrue | isFalse => exact hgoes hstep rfl
  case scheduling h _ =>
    apply hgoes hstep
    split
    case isTrue => rfl
    case isFalse => exact herase h
  case polling =>
    split at hstep
    case h_1 => exact hgoes hstep rfl
    case h_2 =>
    rw [ite_none_left_eq_some] at hstep
    exact hgoes hstep.2 rfl
  case deciding =>
    split at hstep
    case isTrue | isFalse => exact hgoes hstep rfl
  case erasing h => exact hgoes hstep (herase h)
  all_goals exact hgoes hstep rfl

theorem workers_follow :
    ∀ {steps : List (ℕ × Choice)} {σ σ' : Tracking U} {w : ℕ},
      follow policy Ok σ steps = some σ' → (∀ step ∈ steps, step.1 ≠ w) →
      σ'.workers w = σ.workers w
  | [], _, _, _, hfollow, _ => by
    cases hfollow
    rfl
  | (w, choice) :: steps, σ, σ', w', hfollow, hothers => by
    rw [Tracking.follow, ite_none_right_eq_some] at hfollow
    obtain ⟨_, hbind⟩ := hfollow
    obtain ⟨next, hstep, hrest⟩ := bind_eq_some_iff.mp hbind
    have hne : w' ≠ w := fun h => hothers _ List.mem_cons_self h.symm
    rw [workers_follow hrest fun step hmem => hothers step (List.mem_cons_of_mem _ hmem)]
    exact workers_step hne hstep

end Schedule

end Tracking

end Conntrack
