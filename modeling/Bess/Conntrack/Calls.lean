import Bess.Conntrack.Tracker
import Bess.Flow.Plain

/-!
# What the calls of a tracker do

One specification of `Track` for a packet with a key: it is refused and changes nothing, it renews
the connection of its key, or it opens one. `TrackBatch` does what `Track` does packet by packet.
The runs of a tracker are given with a record `G` that each tracked packet may extend.
-/

namespace Conntrack

open Expiry Flow Function List Napt Option Tracker

/-- `p` was parsed from the frame, or from the IP packet, that `f` holds. -/
def Parsed (f : Frame) (p : ParsedFrame) : Prop :=
  (∃ totalLen, p = (f.parseFrame totalLen).2) ∨ p = f.parseIpPacket.2

namespace Tracker

variable {U : Type} (hash : CtKey → BitVec 64)

/-- The connections of a tracker. -/
def conns (ct : Tracker U) (h : FlowHandle) : Option (CtKey × Entry U) :=
  ct.table.entries (tableTraits hash) h

/-- The table of a tracker is well formed. -/
abbrev WF (ct : Tracker U) : Prop :=
  WorkerFlowTable.WF (tableTraits hash) ct.table

variable {hash} {ct : Tracker U}

theorem WF.lookup (wf : ct.WF hash) (h : FlowHandle) :
  ct.table.lookup h = (ct.conns hash h).map Prod.snd
  := WorkerFlowTable.WF.lookup_eq_entries wf h

variable {p : ParsedFrame} {ct' : Tracker U} {e : Entry U} {h : FlowHandle}
  {c : CanonicalKey} {mayCreate : Bool} {key : CtKey}

/-! ### A packet with a key -/

/-- How a packet moves the session of its connection. -/
inductive Moves (s : Session) (p : ParsedFrame) (c : CanonicalKey) (mayCreate : Bool) :
    Session → TrackStatus → Direction → Prop where
  | existing {s' : Session}
      (hstep : stepExisting s p (directionOf s c) mayCreate = (.existing, s')) :
      Moves s p c mayCreate s' .existing (directionOf s c)
  | reopen (hstep : (stepExisting s p (directionOf s c) mayCreate).1 = .reopen) :
      Moves s p c mayCreate { tcp := .synSent, initiatorIsA := c.srcIsA } .new .original

theorem Moves.status_eq {s s' : Session}
    {status : TrackStatus} {dir : Direction} (moves : Moves s p c mayCreate s' status dir) :
  status = .existing ∨ status = .new
  := by
  cases moves with
  | existing => exact .inl rfl
  | reopen => exact .inr rfl

/-- What `Track` does with a packet of the key `c`. -/
inductive Tracked (hash : CtKey → BitVec 64) (ct : Tracker U) (p : ParsedFrame) (c : CanonicalKey)
    (now : Tick) (mayCreate : Bool) : Tracker U → Result → Prop where
  | refused {r : Result} (hnew : r.status ≠ .new) (hexisting : r.status ≠ .existing) :
      Tracked hash ct p c now mayCreate ct r
  | renewed {h : FlowHandle} {e e' : Entry U} {r : Result} {ct' : Tracker U}
      (hconn : ct.conns hash h = some (c.key, e)) (htimer : e'.timer = e.timer)
      (hmoves : Moves e.toSession p c mayCreate e'.toSession r.status r.direction)
      (hhandle : r.handle = h) (hwf : ct'.WF hash)
      (hconns : ct'.conns hash = update (ct.conns hash) h (some (c.key, e')))
      (hwheel : ct'.wheel = (ct.wheel.refresh e.timer (ct.dueAt p now e'.toSession)).1)
      (hpolicy : ct'.policy = ct.policy) (hstaged : ct'.staged = ct.staged) :
      Tracked hash ct p c now mayCreate ct' r
  | opened {h : FlowHandle} {tcp : TcpState} {e' : Entry U} {ct' : Tracker U}
      (hfresh : ∀ h e, ct.conns hash h ≠ some (c.key, e)) (hnone : ct.conns hash h = none)
      (hopening : openingState ct.policy p = some tcp)
      (hsession : e'.toSession = { tcp := tcp, initiatorIsA := c.srcIsA })
      (hroom : ct.wheel.freeHead ≠ kNil)
      (harmed : ct.wheel.schedule (ct.dueAt p now e'.toSession) h = (ct'.wheel, e'.timer))
      (hwf : ct'.WF hash)
      (hconns : ct'.conns hash = update (ct.conns hash) h (some (c.key, e')))
      (hpolicy : ct'.policy = ct.policy) (hstaged : ct'.staged = ct.staged) :
      Tracked hash ct p c now mayCreate ct' { status := .new, handle := h }

theorem WF.renew (wf : ct.WF hash) (hconn : ct.conns hash h = some (key, e))
    (e' : Entry U) (due : Tick) :
  (ct.renew h e' due).WF hash
    ∧ (ct.renew h e' due).conns hash = update (ct.conns hash) h (some (key, e'))
  := by
  obtain ⟨hwf, hentries⟩ := WorkerFlowTable.WF.modify_entries wf h fun _ => e'
  refine ⟨hwf, ?_⟩
  change WorkerFlowTable.entries (tableTraits hash) (ct.table.modify h fun _ => e') = _
  have hconn' : ct.table.entries (tableTraits hash) h = some (key, e) := hconn
  rw [hentries, hconn']
  rfl

variable [Inhabited U] {now : Tick} {f : Frame}

theorem WF.resolveExisting (wf : ct.WF hash)
    (hconn : ct.conns hash h = some (c.key, e)) (now : Tick) (mayCreate : Bool) :
  Tracked hash ct p c now mayCreate (ct.resolveExisting p c h e now mayCreate).1
    (ct.resolveExisting p c h e now mayCreate).2
  := by
  rw [Tracker.resolveExisting]
  split
  case h_1 => exact .refused nofun nofun
  case h_2 hstep =>
    obtain ⟨hwf, hconns⟩ := wf.renew hconn
      { tcp := .synSent, initiatorIsA := c.srcIsA, timer := e.timer, user := default } _
    refine .renewed hconn ?_ ?_ rfl hwf hconns rfl rfl rfl
    · rfl
    · exact .reopen (by rw [hstep])
  case h_3 s hstep =>
  obtain ⟨hwf, hconns⟩ := wf.renew hconn { e with toSession := s } _
  refine .renewed hconn ?_ ?_ rfl hwf hconns rfl rfl rfl
  · rfl
  · exact .existing hstep

omit [Inhabited U] in
/-- A wheel with a free node has a handle for a new timer. -/
theorem schedule_ne_kNoExpiry {w : Wheel wheelShape FlowHandle} (hroom : w.freeHead ≠ kNil)
    (due : Tick) (h : FlowHandle) :
  (w.schedule due h).2 ≠ kNoExpiry
  := by
  rw [Wheel.schedule, if_neg hroom]
  intro heq
  exact hroom (congrArg ExpiryHandle.id heq)

theorem WF.resolveNew (wf : ct.WF hash)
    (hfresh : ∀ h e, ct.conns hash h ≠ some (c.key, e)) (now : Tick) (mayCreate : Bool) :
  Tracked hash ct p c now mayCreate (ct.resolveNew hash p c now mayCreate).1
    (ct.resolveNew hash p c now mayCreate).2
  := by
  rw [Tracker.resolveNew]
  split
  case h_1 => exact .refused nofun nofun
  case h_2 tcp hopening =>
  split
  case isTrue => exact .refused nofun nofun
  case isFalse =>
  split
  case isTrue => exact .refused nofun nofun
  case isFalse hroom =>
  simp only
  obtain ⟨hwf, ⟨h, e, hconn, _⟩ | ⟨_, _, hmade⟩ | ⟨_, _, h, table, hmade, hnone, hentries⟩⟩ :=
    WorkerFlowTable.WF.emplace_entries wf rfl c.key
      ({ tcp := tcp, initiatorIsA := c.srcIsA, user := default } : Entry U)
  · exact absurd hconn (hfresh h e)
  · rw [hmade]
    exact .refused nofun nofun
  rw [hmade] at hwf ⊢
  simp only [ne_eq, not_true_eq_false, if_false]
  rw [if_neg (schedule_ne_kNoExpiry hroom _ h)]
  set armed := ct.wheel.schedule (ct.dueAt p now { tcp := tcp, initiatorIsA := c.srcIsA }) h
    with harmed
  let e' : Entry U := { tcp := tcp, initiatorIsA := c.srcIsA, timer := armed.2, user := default }
  obtain ⟨hwf', hentries'⟩ := WorkerFlowTable.WF.modify_entries hwf h fun e : Entry U =>
    { e with timer := armed.2 }
  have hconns : WorkerFlowTable.entries (tableTraits hash)
      (table.modify h fun e => { e with timer := armed.2 })
      = update (ct.conns hash) h (some (c.key, e')) := by
    rw [hentries', hentries, update_self, update_idem]
    rfl
  refine .opened hfresh hnone hopening ?_ hroom ?_ hwf' hconns rfl rfl
  · rfl
  · rw [harmed]

theorem WF.track_keyed (wf : ct.WF hash) (f : Frame) (hkeyed : keyed p = true) (now : Tick)
    (zone : BitVec 16) (mayCreate : Bool) :
  Tracked hash ct p (makeKey p zone) now mayCreate (ct.track hash f p now zone mayCreate).1
    (ct.track hash f p now zone mayCreate).2
  := by
  rw [track, if_pos hkeyed]
  rw [resolve]
  rcases WorkerFlowTable.WF.findRef_entries wf rfl (makeKey p zone).key with
    ⟨h, e, hconn, href⟩ | ⟨hfresh, href⟩
  · rw [href, wf.lookup, conns, hconn]
    exact wf.resolveExisting hconn now mayCreate
  rw [href]
  exact wf.resolveNew hfresh now mayCreate

theorem track_unkeyed (f : Frame) (hkeyed : keyed p = false) (now : Tick) (zone : BitVec 16)
    (mayCreate : Bool) :
  ct.track hash f p now zone mayCreate = (ct, ct.unkeyed hash f p zone)
  := by
  rw [track, hkeyed]
  rfl

omit [Inhabited U] in
theorem unkeyed_status (f : Frame) (p : ParsedFrame) (zone : BitVec 16) :
  (ct.unkeyed hash f p zone).status ≠ .new ∧ (ct.unkeyed hash f p zone).status ≠ .existing
  := by
  rw [unkeyed]
  split
  case isFalse => exact ⟨nofun, nofun⟩
  case isTrue =>
  rw [related]
  split
  case h_1 => exact ⟨nofun, nofun⟩
  case h_2 =>
  simp only
  split
  case h_1 | h_2 => exact ⟨nofun, nofun⟩

/-! ### Batches -/

section Batch

variable {c : CanonicalKey} {now : Tick} {mayCreate : Bool} {r : Result}

omit [Inhabited U] in
theorem Tracked.wf (tracked : Tracked hash ct p c now mayCreate ct' r) (wf : ct.WF hash) :
  ct'.WF hash
  := by
  cases tracked with
  | refused => exact wf
  | renewed _ _ _ _ hwf | opened _ _ _ _ _ _ hwf => exact hwf

omit [Inhabited U] in
theorem Tracked.keeps (tracked : Tracked hash ct p c now mayCreate ct' r)
    (hconn : ct.conns hash h = some (key, e)) :
  ∃ e', ct'.conns hash h = some (key, e')
  := by
  cases tracked with
  | refused => exact ⟨e, hconn⟩
  | @opened h' _ e' _ _ hnone _ _ _ _ _ hconns =>
    have hne : h ≠ h' := by
      rintro rfl
      rw [hnone] at hconn
      cases hconn
    exact ⟨e, by rw [hconns, update_of_ne hne, hconn]⟩
  | @renewed h' e₀ e' _ _ hconn' _ _ _ _ hconns =>
  rw [hconns]
  rcases eq_or_ne h h' with rfl | hne
  · rw [hconn] at hconn'
    obtain ⟨rfl, rfl⟩ := Prod.mk.inj (Option.some.inj hconn')
    exact ⟨e', update_self ..⟩
  · exact ⟨e, by rw [update_of_ne hne, hconn]⟩

/-- The references found for the packets with a key name their connections, where they name
any. -/
def Sighted (hash : CtKey → BitVec 64) (ct : Tracker U) (zone : BitVec 16) :
    List (Frame × ParsedFrame) → List (FlowRef (Entry U)) → Prop
  | [], _ => True
  | (_, p) :: packets, refs =>
      if keyed p then
        (∀ ref, refs.head? = some ref → ref.state.isSome = true →
          ∃ e, ct.conns hash ref.handle = some ((makeKey p zone).key, e))
          ∧ Sighted hash ct zone packets refs.tail
      else Sighted hash ct zone packets refs

variable {zone : BitVec 16}

omit [Inhabited U] in
theorem Sighted.mono (hkeeps : ∀ h key e, ct.conns hash h = some (key, e) →
      ∃ e', ct'.conns hash h = some (key, e')) :
    ∀ {packets : List (Frame × ParsedFrame)} {refs : List (FlowRef (Entry U))},
      Sighted hash ct zone packets refs → Sighted hash ct' zone packets refs
  | [], _, _ => trivial
  | (_, p) :: packets, refs, h => by
    rw [Sighted] at h ⊢
    split
    case isTrue hkeyed =>
      rw [if_pos hkeyed] at h
      refine ⟨?_, h.2.mono hkeeps⟩
      intro ref href hsome
      obtain ⟨e, hconn⟩ := h.1 ref href hsome
      exact hkeeps _ _ e hconn
    case isFalse hkeyed =>
      rw [if_neg hkeyed] at h
      exact h.mono hkeeps

omit [Inhabited U] in
theorem WF.sighted (wf : ct.WF hash) (zone : BitVec 16) :
    ∀ packets : List (Frame × ParsedFrame), Sighted hash ct zone packets
      ((packets.filter fun packet => keyed packet.2).map fun packet =>
        ct.table.findRef (tableTraits hash) (makeKey packet.2 zone).key)
  | [] => trivial
  | (f, p) :: packets => by
    rw [Sighted]
    split
    case isFalse hkeyed =>
      rw [filter_cons, if_neg hkeyed]
      exact wf.sighted zone packets
    case isTrue hkeyed =>
    rw [filter_cons, if_pos hkeyed, map_cons]
    refine ⟨?_, wf.sighted zone packets⟩
    rintro ref href hsome
    obtain rfl := Option.some.inj href
    rcases WorkerFlowTable.WF.findRef_entries wf rfl (makeKey p zone).key with
      ⟨h, e, hconn, hfound⟩ | ⟨_, hfound⟩
    · exact ⟨e, by rw [hfound]; exact hconn⟩
    rw [hfound] at hsome
    cases hsome

/-- A reference that names the packet's connection leads where the packet's own lookup does. -/
theorem WF.resolve_eq_track (wf : ct.WF hash) (hkeyed : keyed p = true)
    {ref : FlowRef (Entry U)} (hsome : ref.state.isSome = true)
    (hconn : ct.conns hash ref.handle = some ((makeKey p zone).key, e)) :
  ct.resolve hash p (makeKey p zone) ref now mayCreate = ct.track hash f p now zone mayCreate
  := by
  rw [track, if_pos hkeyed]
  simp only
  rcases WorkerFlowTable.WF.findRef_entries wf rfl (makeKey p zone).key with
    ⟨h, e', hconn', hfound⟩ | ⟨hfresh, _⟩
  · obtain rfl := WorkerFlowTable.WF.entries_unique wf rfl hconn hconn'
    obtain ⟨s, hs⟩ := isSome_iff_exists.mp hsome
    rw [hfound, resolve, resolve, hs, bind_some, bind_some]
  · exact absurd hconn (hfresh _ e)

/-- The loop of a batch tracks its packets one after another. -/
theorem WF.resolveEach_eq :
    ∀ {packets : List (Frame × ParsedFrame)} {refs : List (FlowRef (Entry U))} {ct : Tracker U},
      ct.WF hash → Sighted hash ct zone packets refs →
      resolveEach hash now zone mayCreate ct packets refs
        = trackEach hash now zone mayCreate ct packets
  | [], _, _, _, _ => rfl
  | (f, p) :: packets, refs, ct, wf, sighted => by
    rw [resolveEach, trackEach]
    rw [Sighted] at sighted
    by_cases hkeyed : keyed p = true
    · rw [if_pos hkeyed] at sighted ⊢
      have htracked := wf.track_keyed f hkeyed now zone mayCreate
      have hfirst : ∀ ref, (ref = ct.table.findRef (tableTraits hash) (makeKey p zone).key
            ∨ refs.head? = some ref ∧ ref.state.isSome = true) →
          ct.resolve hash p (makeKey p zone) ref now mayCreate
            = ct.track hash f p now zone mayCreate := by
        rintro ref (rfl | ⟨href, hsome⟩)
        · rw [track, if_pos hkeyed]
        obtain ⟨e, hconn⟩ := sighted.1 ref href hsome
        exact wf.resolve_eq_track hkeyed hsome hconn
      simp only
      rw [hfirst]
      · rw [WF.resolveEach_eq (htracked.wf wf)
          (sighted.2.mono fun h key e hconn => htracked.keeps hconn)]
      split
      case h_1 ref href =>
        split
        case isTrue hsome => exact .inr ⟨href, hsome⟩
        case isFalse => exact .inl rfl
      case h_2 => exact .inl rfl
    rw [if_neg hkeyed] at sighted ⊢
    rw [track_unkeyed f (Bool.eq_false_iff.mpr hkeyed)]
    rw [WF.resolveEach_eq wf sighted]

theorem WF.trackBatch_eq (wf : ct.WF hash) (packets : List (Frame × ParsedFrame)) (now : Tick)
    (zone : BitVec 16) (mayCreate : Bool) :
  ct.trackBatch hash packets now zone mayCreate = trackEach hash now zone mayCreate ct packets
  := by
  rw [trackBatch]
  split
  case isTrue => rfl
  case isFalse => exact WF.resolveEach_eq wf (wf.sighted zone packets)

end Batch

/-! ### Expiry and removal -/

section Removal

omit [Inhabited U]

/-- The callbacks of a poll erase the connections that they are given. -/
theorem handled_onTimer :
    ∀ (payloads : List FlowHandle) {s : WorkerFlowTable CtKey (Entry U) × ℕ},
      WorkerFlowTable.WF (tableTraits hash) s.1 →
      WorkerFlowTable.WF (tableTraits hash) (Wheel.handled (onTimer hash) s payloads).1
        ∧ ∀ h, (Wheel.handled (onTimer hash) s payloads).1.entries (tableTraits hash) h
          = if h ∈ payloads then none else s.1.entries (tableTraits hash) h
  | [], s, wf => ⟨wf, fun h => rfl⟩
  | h₀ :: payloads, s, wf => by
    obtain ⟨hwf, hentries, _⟩ := WorkerFlowTable.WF.eraseHandle_entries wf h₀
    obtain ⟨hwf', hrest⟩ := handled_onTimer payloads (s := (onTimer hash s h₀).1) hwf
    refine ⟨hwf', ?_⟩
    intro h
    have hfirst : (onTimer hash s h₀).1.1.entries (tableTraits hash)
        = update (s.1.entries (tableTraits hash)) h₀ none := hentries
    rw [Wheel.handled, foldl_cons]
    rw [Wheel.handled] at hrest
    rw [hrest h, hfirst]
    rcases eq_or_ne h h₀ with rfl | hne
    · rw [update_self, if_pos mem_cons_self]
      exact ite_self none
    rw [update_of_ne hne]
    simp only [mem_cons, hne, false_or]

/-- `Expire` removes the connections of the timers that its poll delivers. -/
theorem WF.expire (wf : ct.WF hash) {budget fuel n : ℕ}
    (h : ct.expire hash now budget fuel = some (ct', n)) :
  ∃ r : Wheel.Progress wheelShape FlowHandle × WorkerFlowTable CtKey (Entry U) × ℕ,
    ct.expirePoll hash now budget fuel = some r ∧ ct'.wheel = r.1.wheel ∧ ct'.table = r.2.1
      ∧ ct'.policy = ct.policy ∧ ct'.staged = ct.staged ∧ ct'.WF hash
      ∧ ∀ h, ct'.conns hash h
        = if h ∈ r.1.deliveries.map Delivery.payload then none else ct.conns hash h
  := by
  obtain ⟨r, hpoll, heq⟩ := map_eq_some_iff.mp h
  cases heq
  have hstate := Wheel.pollWith_state hpoll
  obtain ⟨hwf, hentries⟩ := handled_onTimer (r.1.deliveries.map Delivery.payload)
    (s := (ct.table, 0)) wf
  rw [← hstate] at hwf hentries
  exact ⟨r, hpoll, rfl, rfl, rfl, rfl, hwf, hentries⟩

theorem WF.remove (wf : ct.WF hash) (h : FlowHandle) :
  (ct.remove hash h).1.WF hash
    ∧ (ct.remove hash h).1.conns hash = update (ct.conns hash) h none
    ∧ (ct.remove hash h).1.policy = ct.policy
  := by
  rw [Tracker.remove]
  split
  case h_1 hmiss =>
    refine ⟨wf, ?_, rfl⟩
    rw [wf.lookup, map_eq_none_iff] at hmiss
    exact (update_eq_self_iff.mpr hmiss.symm).symm
  case h_2 =>
  obtain ⟨hwf, hentries, _⟩ := WorkerFlowTable.WF.eraseHandle_entries wf h
  exact ⟨hwf, hentries, rfl⟩

theorem setDeadline_table (ct : Tracker U) (h : FlowHandle) (deadline : Tick) :
  (ct.setDeadline h deadline).1.table = ct.table
    ∧ (ct.setDeadline h deadline).1.policy = ct.policy
  := by
  rw [setDeadline]
  split <;> exact ⟨rfl, rfl⟩

end Removal

/-! ### Runs -/

section Runs

variable {G : Type} (note : G → ParsedFrame → BitVec 16 → Result → G)

/-- A record of the packets so far, extended by the answers to some more. -/
def noteEach (zone : BitVec 16) (g : G) (packets : List (Frame × ParsedFrame))
    (results : List Result) : G :=
  (packets.zip results).foldl (fun g answered => note g answered.1.2 zone answered.2) g

/-- The trackers that calls lead to, with a record of the packets and their answers. -/
inductive Reached (hash : CtKey → BitVec 64) (note : G → ParsedFrame → BitVec 16 → Result → G)
    (g₀ : G) : Tracker U → G → Prop where
  | create {capacity : ℕ} {policy : TimeoutPolicy} {start : Tick} {granularityShift : ℕ}
      {staged : Bool} {ct : Tracker U}
      (hcreate : create hash capacity policy start granularityShift staged = some ct) :
      Reached hash note g₀ ct g₀
  | track {ct : Tracker U} {g : G} (h : Reached hash note g₀ ct g) {f : Frame} {p : ParsedFrame}
      (hparsed : Parsed f p) (now : Tick) (zone : BitVec 16) (mayCreate : Bool) :
      Reached hash note g₀ (ct.track hash f p now zone mayCreate).1
        (note g p zone (ct.track hash f p now zone mayCreate).2)
  | trackBatch {ct : Tracker U} {g : G} (h : Reached hash note g₀ ct g)
      {packets : List (Frame × ParsedFrame)}
      (hparsed : ∀ packet ∈ packets, Parsed packet.1 packet.2) (now : Tick) (zone : BitVec 16)
      (mayCreate : Bool) :
      Reached hash note g₀ (ct.trackBatch hash packets now zone mayCreate).1
        (noteEach note zone g packets (ct.trackBatch hash packets now zone mayCreate).2)
  | expire {ct ct' : Tracker U} {g : G} (h : Reached hash note g₀ ct g) {now : Tick}
      {budget fuel n : ℕ} (hexpire : ct.expire hash now budget fuel = some (ct', n)) :
      Reached hash note g₀ ct' g
  | remove {ct : Tracker U} {g : G} (h : Reached hash note g₀ ct g) (handle : FlowHandle) :
      Reached hash note g₀ (ct.remove hash handle).1 g
  | setDeadline {ct : Tracker U} {g : G} (h : Reached hash note g₀ ct g) (handle : FlowHandle)
      (deadline : Tick) :
      Reached hash note g₀ (ct.setDeadline handle deadline).1 g

variable {note} {g₀ : G} {zone : BitVec 16}

theorem WF.track (wf : ct.WF hash) (f : Frame) (p : ParsedFrame) (now : Tick) (zone : BitVec 16)
    (mayCreate : Bool) :
  (ct.track hash f p now zone mayCreate).1.WF hash
  := by
  by_cases hkeyed : keyed p = true
  · exact (wf.track_keyed f hkeyed now zone mayCreate).wf wf
  rw [track_unkeyed f (Bool.eq_false_iff.mpr hkeyed)]
  exact wf

/-- A property that each packet keeps is kept by packets tracked one after another. -/
theorem WF.trackEach
    {Inv : Tracker U → G → Prop}
    (htrack : ∀ {ct g f p}, ct.WF hash → Parsed f p → Inv ct g →
      Inv (ct.track hash f p now zone mayCreate).1
        (note g p zone (ct.track hash f p now zone mayCreate).2)) :
    ∀ {packets : List (Frame × ParsedFrame)} {ct : Tracker U} {g : G},
      (∀ packet ∈ packets, Parsed packet.1 packet.2) → ct.WF hash → Inv ct g →
      (trackEach hash now zone mayCreate ct packets).1.WF hash
        ∧ Inv (trackEach hash now zone mayCreate ct packets).1
          (noteEach note zone g packets (trackEach hash now zone mayCreate ct packets).2)
  | [], _, _, _, wf, inv => ⟨wf, inv⟩
  | (f, p) :: packets, ct, g, hparsed, wf, inv => by
    rw [Tracker.trackEach]
    have hp := hparsed _ mem_cons_self
    exact WF.trackEach htrack (fun packet hmem => hparsed _ (mem_cons_of_mem _ hmem))
      (wf.track f p now zone mayCreate) (htrack wf hp inv)

/-- A property that packets keep, and that does not suffer from removals, holds throughout. -/
theorem Reached.invariant (Inv : Tracker U → G → Prop)
    (hcreate : ∀ {ct}, (∀ h, ct.conns hash h = none) → Inv ct g₀)
    (htrack : ∀ {ct g f p now zone mayCreate}, ct.WF hash → Parsed f p → Inv ct g →
      Inv (ct.track hash f p now zone mayCreate).1
        (note g p zone (ct.track hash f p now zone mayCreate).2))
    (hshrink : ∀ {ct ct' g}, ct'.policy = ct.policy →
      (∀ h x, ct'.conns hash h = some x → ct.conns hash h = some x) → Inv ct g → Inv ct' g)
    {g : G} (reached : Reached hash note g₀ ct g) :
  ct.WF hash ∧ Inv ct g
  := by
  induction reached with
  | create hmake =>
    obtain ⟨table, htable, hmake⟩ := bind_eq_some_iff.mp hmake
    split at hmake
    case h_1 => cases hmake
    case h_2 =>
    cases hmake
    exact ⟨(WorkerFlowTable.wf_create htable (.inl rfl)).1,
      hcreate (WorkerFlowTable.entries_create htable)⟩
  | track _ hparsed now zone mayCreate ih =>
    exact ⟨ih.1.track _ _ now zone mayCreate, htrack ih.1 hparsed ih.2⟩
  | trackBatch _ hparsed now zone mayCreate ih =>
    rw [ih.1.trackBatch_eq]
    exact WF.trackEach htrack hparsed ih.1 ih.2
  | expire _ hexpire ih =>
    obtain ⟨r, _, _, _, hpol, _, hwf, hconns⟩ := ih.1.expire hexpire
    refine ⟨hwf, hshrink hpol ?_ ih.2⟩
    intro h x hx
    rw [hconns] at hx
    split at hx
    · cases hx
    · exact hx
  | remove _ handle ih =>
    obtain ⟨hwf, hconns, hpol⟩ := ih.1.remove handle
    refine ⟨hwf, hshrink hpol ?_ ih.2⟩
    intro h x hx
    rw [hconns, update_apply] at hx
    split at hx
    · cases hx
    · exact hx
  | @setDeadline ct _ _ handle deadline ih =>
  obtain ⟨htable, hpol⟩ := ct.setDeadline_table handle deadline
  have hwf : (ct.setDeadline handle deadline).1.WF hash := by
    rw [WF, htable]
    exact ih.1
  refine ⟨hwf, hshrink hpol ?_ ih.2⟩
  intro h x hx
  rw [conns, htable] at hx
  exact hx

theorem Reached.wf {g : G} (reached : Reached hash note g₀ ct g) :
  ct.WF hash
  := by
  suffices hkept : ct.WF hash ∧ True from hkept.1
  apply Reached.invariant (fun _ _ => True) _ _ _ reached
  · intro ct _
    trivial
  · intro ct g f p now zone mayCreate _ _ _
    trivial
  intro ct ct' g _ _ _
  trivial

/-- A packet whose connection is neither new nor known leaves the tracker as it is. -/
theorem WF.track_refused (wf : ct.WF hash)
    (hnew : (ct.track hash f p now zone mayCreate).2.status ≠ .new)
    (hexisting : (ct.track hash f p now zone mayCreate).2.status ≠ .existing) :
  (ct.track hash f p now zone mayCreate).1 = ct
  := by
  by_cases hkeyed : keyed p = true
  · have htracked := wf.track_keyed f hkeyed now zone mayCreate
    generalize ct.track hash f p now zone mayCreate = answered at htracked hnew hexisting
    obtain ⟨ct', r⟩ := answered
    cases htracked with
    | refused => rfl
    | renewed _ _ hmoves =>
      rcases hmoves.status_eq with heq | heq
      · exact absurd heq hexisting
      · exact absurd heq hnew
    | opened => exact absurd rfl hnew
  · rw [track_unkeyed f (Bool.eq_false_iff.mpr hkeyed)]

/-- A batch is answered as its packets are one after another, and leaves the tracker that they
leave. A packet that is invalid, untracked, related to a connection or refused for want of room
leaves the tracker as it is. -/
theorem Reached.trackBatch_eq_track {g : G} (reached : Reached hash note g₀ ct g) (now : Tick)
    (zone : BitVec 16) (mayCreate : Bool) :
  (∀ packets : List (Frame × ParsedFrame),
    ct.trackBatch hash packets now zone mayCreate = trackEach hash now zone mayCreate ct packets)
    ∧ ∀ f p, (ct.track hash f p now zone mayCreate).2.status
        ∈ [TrackStatus.invalid, .untracked, .related, .full] →
      (ct.track hash f p now zone mayCreate).1 = ct
  := by
  have wf := reached.wf
  constructor
  · intro packets
    apply wf.trackBatch_eq
  intro f p hstatus
  apply wf.track_refused
  · intro hnew
    rw [hnew] at hstatus
    revert hstatus
    decide
  intro hexisting
  rw [hexisting] at hstatus
  revert hstatus
  decide

end Runs

/-- A datagram between two ports of one host. -/
def datagram (src dst : BitVec 16) : Frame × ParsedFrame :=
  (⟨0, fun _ => 0⟩,
    { l3 := .ipv4, l4 := .udp, protocol := 17, srcPort := src, dstPort := dst })

/-- In a tracker for one connection, a batch opens it, answers it, and has no room for another. -/
theorem trackBatch_eq_track_full :
  ∃ ct : Tracker Unit, create (fun _ => 0) 1 {} 0 0 true = some ct
    ∧ (ct.trackBatch (fun _ => 0) [datagram 1 2, datagram 2 1, datagram 1 3] 5 0 true).2.map
        Result.status = [.new, .existing, .full]
    ∧ ct.trackBatch (fun _ => 0) [datagram 1 2, datagram 2 1, datagram 1 3] 5 0 true
      = trackEach (fun _ => 0) 5 0 true ct [datagram 1 2, datagram 2 1, datagram 1 3]
  := by
  have hrun : ((create (U := Unit) (fun _ => 0) 1 {} 0 0 true).map fun ct =>
      (ct.trackBatch (fun _ => 0) [datagram 1 2, datagram 2 1, datagram 1 3] 5 0 true).2.map
        Result.status) = some [.new, .existing, .full] := by
    decide +kernel
  obtain ⟨ct, hcreate, hstatuses⟩ := map_eq_some_iff.mp hrun
  have reached : Reached (fun _ => 0) (fun g _ _ _ => g) () ct () := .create hcreate
  use ct, hcreate, hstatuses
  apply (Reached.trackBatch_eq_track reached 5 0 true).1

end Tracker

end Conntrack
