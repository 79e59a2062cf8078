import Bess.Conntrack.Calls

/-!
# No connection is established by one side

The packets accepted for a TCP connection since it was created or last reopened, and what its state
says about them. Unless connections are picked up, a connection past `SYN_SENT` that is not in
`CLOSE` has had a packet of the responder, and an established one a SYN|ACK and then an ACK of the
initiator.
-/

namespace Conntrack

open Flow Function List Napt

/-- An accepted packet: whether endpoint A sent it, and its flags. -/
structure Accepted : Type where
  fromA : Bool
  flags : BitVec 8

/-- The packets accepted for each connection since it was created or last reopened. -/
abbrev History : Type :=
  FlowHandle → List Accepted

/-- `Track` has answered a packet. -/
def History.note (history : History) (p : ParsedFrame) (zone : BitVec 16) (r : Result) : History :=
  let accepted : Accepted := ⟨(makeKey p zone).srcIsA, p.tcpFlags⟩
  if r.status = .new then update history r.handle [accepted]
  else if r.status = .existing then
    update history r.handle (history r.handle ++ [accepted])
  else history

/-- The responder has sent a packet. -/
def Answered (initiatorIsA : Bool) (packets : List Accepted) : Prop :=
  ∃ packet ∈ packets, packet.fromA ≠ initiatorIsA

/-- There is a SYN|ACK. -/
def SynAcked (packets : List Accepted) : Prop :=
  ∃ packet ∈ packets, classOf packet.flags = .synAck

/-- There is a SYN|ACK, and after it an ACK of the initiator. -/
def Confirmed (initiatorIsA : Bool) (packets : List Accepted) : Prop :=
  ∃ synAck ack, [synAck, ack].Sublist packets ∧ classOf synAck.flags = .synAck
    ∧ classOf ack.flags = .ack ∧ ack.fromA = initiatorIsA

/-! ### What a state says -/

/-- What a TCP state says about whether the responder has answered, whether there was a SYN|ACK and
whether the initiator has confirmed it. -/
def TcpState.Implies (answered synAcked confirmed : Prop) : TcpState → Prop
  | .none => False
  | .synSent | .close => True
  | .synRecv => answered ∧ synAcked
  | .established => answered ∧ confirmed
  | .finWait | .closeWait | .lastAck | .timeWait | .synSent2 => answered

variable {dir : Direction} {s : TcpState}

/-- The table leads from a state that is right about the past to one that is right about it and the
packet. -/
theorem TcpState.Implies.next {flags : FlagClass} {s' : TcpState} {answered synAcked confirmed : Prop}
    (h : s.Implies answered synAcked confirmed) (hnext : tcpTable dir flags s = .next s') :
  s'.Implies (answered ∨ dir = .reply) (synAcked ∨ flags = .synAck)
    (confirmed ∨ synAcked ∧ flags = .ack ∧ dir = .original)
  := by
  cases dir <;> cases flags <;> cases s <;>
    simp [tcpTable, tcpRow, TcpState.column] at hnext <;> subst hnext <;>
    simp_all [TcpState.Implies]

theorem TcpState.Implies.mono {a k c a' k' c' : Prop} (h : s.Implies a k c)
    (ha : a → a') (hk : k → k') (hc : c → c') :
  s.Implies a' k' c'
  := by
  cases s with
  | none => exact h
  | synSent | close => trivial
  | synRecv => exact ⟨ha h.1, hk h.2⟩
  | established => exact ⟨ha h.1, hc h.2⟩
  | finWait | closeWait | lastAck | timeWait | synSent2 => exact ha h

/-! ### What the packets say -/

section

variable {initiatorIsA : Bool} {packets : List Accepted} {packet : Accepted}

theorem Answered.append (h : Answered initiatorIsA packets ∨ packet.fromA ≠ initiatorIsA) :
  Answered initiatorIsA (packets ++ [packet])
  := by
  rcases h with ⟨q, hmem, hq⟩ | h
  · exact ⟨q, mem_append_left _ hmem, hq⟩
  · exact ⟨packet, mem_append_right _ mem_cons_self, h⟩

theorem SynAcked.append (h : SynAcked packets ∨ classOf packet.flags = .synAck) :
  SynAcked (packets ++ [packet])
  := by
  rcases h with ⟨q, hmem, hq⟩ | h
  · exact ⟨q, mem_append_left _ hmem, hq⟩
  · exact ⟨packet, mem_append_right _ mem_cons_self, h⟩

theorem Confirmed.append
    (h : Confirmed initiatorIsA packets
      ∨ SynAcked packets ∧ classOf packet.flags = .ack ∧ packet.fromA = initiatorIsA) :
  Confirmed initiatorIsA (packets ++ [packet])
  := by
  rcases h with ⟨synAck, ack, hsub, h⟩ | ⟨⟨synAck, hmem, hsynAck⟩, hack, hfrom⟩
  · exact ⟨synAck, ack, hsub.trans (sublist_append_left ..), h⟩
  refine ⟨synAck, packet, ?_, hsynAck, hack, hfrom⟩
  exact (singleton_sublist.mpr hmem).append (List.Sublist.refl [packet])

end

/-- A session is right about the packets accepted for it. -/
structure Session.Tells (s : Session) (packets : List Accepted) : Prop where
  first : packets.head?.map Accepted.fromA = some s.initiatorIsA
  state : s.tcp.Implies (Answered s.initiatorIsA packets) (SynAcked packets)
    (Confirmed s.initiatorIsA packets)

theorem Session.tells_opening (accepted : Accepted) :
  Session.Tells { tcp := .synSent, initiatorIsA := accepted.fromA } [accepted]
  := ⟨rfl, trivial⟩

variable {mayCreate : Bool} {p : ParsedFrame} {s s' : Session}

/-- The session after a TCP packet that the state machine accepts. -/
theorem stepExisting_tcp
    (htcp : p.l4 = .tcp) (hstep : stepExisting s p dir mayCreate = (.existing, s')) :
  s'.initiatorIsA = s.initiatorIsA
    ∧ (s'.tcp = s.tcp ∨ tcpTable dir (classOf p.tcpFlags) s.tcp = .next s'.tcp)
  := by
  rw [Conntrack.stepExisting] at hstep
  simp only [htcp, if_true, nextState] at hstep
  obtain ⟨-, ⟨⟩⟩ | ⟨_, hstep⟩ := ite_eq_iff.mp hstep
  split at hstep
  case h_1 => cases hstep
  case h_2 hcell =>
  split at hstep
  case isTrue =>
    have hfst := congrArg Prod.fst hstep
    split at hfst <;> cases hfst
  case isFalse =>
  cases hstep
  refine ⟨rfl, ?_⟩
  split at hcell
  case h_1 => cases hcell
  case h_2 =>
    cases hcell
    exact .inl rfl
  case h_3 hnext =>
  cases hcell
  exact .inr hnext

/-- A session stays right about its packets when it accepts one more. -/
theorem Session.Tells.stepExisting {packets : List Accepted}
    {c : CanonicalKey} (tells : s.Tells packets) (htcp : p.l4 = .tcp)
    (hstep : stepExisting s p (directionOf s c) mayCreate = (.existing, s')) :
  s'.Tells (packets ++ [⟨c.srcIsA, p.tcpFlags⟩])
  := by
  obtain ⟨hinitiator, hstate⟩ := stepExisting_tcp htcp hstep
  have hreply : directionOf s c = .reply → c.srcIsA ≠ s.initiatorIsA := by
    rw [directionOf]
    split
    case isTrue => nofun
    case isFalse hne => exact fun _ => hne
  have horiginal : directionOf s c = .original → c.srcIsA = s.initiatorIsA := by
    rw [directionOf]
    split
    case isTrue heq => exact fun _ => heq
    case isFalse => nofun
  constructor
  case first =>
    rw [hinitiator, ← tells.first]
    cases packets with
    | nil => cases tells.first
    | cons => rfl
  case state =>
  rw [hinitiator]
  rcases hstate with hsame | hnext
  · rw [hsame]
    apply tells.state.mono <;> exact fun h => .append (.inl h)
  apply (tells.state.next hnext).mono
  · exact fun h => .append (h.imp_right hreply)
  · exact fun h => .append h
  rintro (h | ⟨hsynAck, hack, hdir⟩)
  · exact .append (.inl h)
  · exact .append (.inr ⟨hsynAck, hack, horiginal hdir⟩)

/-! ### Runs -/

namespace Tracker

variable {U : Type} [Inhabited U] {hash : CtKey → BitVec 64} {ct : Tracker U} {history : History}

/-- The sessions of the TCP connections are right about their packets, unless connections may be
picked up. -/
def Told (hash : CtKey → BitVec 64) (ct : Tracker U) (history : History) : Prop :=
  ct.policy.tcpPickup = false →
    ∀ h key e, ct.conns hash h = some (key, e) → key.protocol = 6 →
      e.toSession.Tells (history h)

variable {f : Frame} {p : ParsedFrame} {zone : BitVec 16} {now : Tick}

/-- A packet with a key is a TCP packet if its protocol is TCP's. -/
theorem l4_eq_tcp (hparsed : Parsed f p) (hkeyed : keyed p = true) (hproto : p.protocol = 6) :
  p.l4 = .tcp
  := by
  have htells : Frame.TellsTcp p := by
    rcases hparsed with ⟨totalLen, rfl⟩ | rfl
    · exact f.parseFrame_tellsTcp totalLen
    · exact Frame.parseIp_tellsTcp _ _ _ rfl
  rcases htells with hnone | hiff
  · rw [keyed, if_pos (.inr hnone)] at hkeyed
    cases hkeyed
  · exact hiff.mpr hproto

theorem openingState_tcp {policy : TimeoutPolicy} {tcp : TcpState} (htcp : p.l4 = .tcp)
    (hpickup : policy.tcpPickup = false) (hopening : openingState policy p = some tcp) :
  tcp = .synSent
  := by
  rw [openingState] at hopening
  simp only [hpickup, Bool.false_eq_true, and_false, if_false] at hopening
  split_ifs at hopening
  exact (Option.some.inj hopening).symm

omit [Inhabited U] in
theorem Told.tracked {ct' : Tracker U} {r : Result} (hparsed : Parsed f p) (hkeyed : keyed p = true)
    (told : ct.Told hash history) (tracked : Tracked hash ct p (makeKey p zone) now mayCreate ct' r) :
  ct'.Told hash (history.note p zone r)
  := by
  intro hpickup h key e hconn hproto
  cases tracked with
  | refused hnew hexisting =>
    rw [History.note, if_neg hnew, if_neg hexisting]
    exact told hpickup h key e hconn hproto
  | @renewed h' e₀ e' _ _ hconn₀ _ hmoves hhandle _ hconns _ hpol _ =>
    rw [hpol] at hpickup
    rw [hconns] at hconn
    rcases eq_or_ne h h' with rfl | hne
    · -- The packet is for this connection.
      rw [update_self] at hconn
      obtain ⟨rfl, rfl⟩ := Prod.mk.inj (Option.some.inj hconn)
      have htcp := l4_eq_tcp hparsed hkeyed hproto
      have tells := told hpickup h _ e₀ hconn₀ hproto
      rw [History.note, hhandle]
      generalize r.status = status, r.direction = dir, e'.toSession = s' at hmoves ⊢
      cases hmoves with
      | existing hstep =>
        rw [if_neg nofun, if_pos rfl, update_self]
        exact tells.stepExisting htcp hstep
      | reopen =>
      rw [if_pos rfl, update_self]
      exact Session.tells_opening ⟨(makeKey p zone).srcIsA, p.tcpFlags⟩
    rw [update_of_ne hne] at hconn
    have hsame : history.note p zone r h = history h := by
      rw [History.note, hhandle]
      split_ifs
      · exact update_of_ne hne ..
      · exact update_of_ne hne ..
      · rfl
    rw [hsame]
    exact told hpickup h key e hconn hproto
  | @opened h' tcp e' _ _ _ hopening hsession _ _ _ hconns hpol _ =>
  rw [hpol] at hpickup
  rw [hconns] at hconn
  rw [History.note, if_pos rfl]
  rcases eq_or_ne h h' with rfl | hne
  · rw [update_self] at hconn
    obtain ⟨rfl, rfl⟩ := Prod.mk.inj (Option.some.inj hconn)
    have htcp := l4_eq_tcp hparsed hkeyed hproto
    obtain rfl := openingState_tcp htcp hpickup hopening
    rw [update_self, hsession]
    exact Session.tells_opening ⟨(makeKey p zone).srcIsA, p.tcpFlags⟩
  rw [update_of_ne hne] at hconn
  rw [update_of_ne hne]
  exact told hpickup h key e hconn hproto

theorem Told.track (wf : ct.WF hash) (hparsed : Parsed f p) (told : ct.Told hash history) :
  (ct.track hash f p now zone mayCreate).1.Told hash
    (history.note p zone (ct.track hash f p now zone mayCreate).2)
  := by
  by_cases hkeyed : keyed p = true
  · exact told.tracked hparsed hkeyed (wf.track_keyed f hkeyed now zone mayCreate)
  obtain ⟨hnew, hexisting⟩ : (ct.unkeyed hash f p zone).status ≠ .new
    ∧ (ct.unkeyed hash f p zone).status ≠ .existing := unkeyed_status f p zone
  rw [track_unkeyed f (Bool.eq_false_iff.mpr hkeyed), History.note, if_neg hnew, if_neg hexisting]
  exact told

theorem Reached.told (reached : Reached hash History.note (fun _ => []) ct history) :
  ct.Told hash history
  := by
  suffices hkept : ct.WF hash ∧ ct.Told hash history from hkept.2
  apply Reached.invariant _ _ _ _ reached
  · intro ct hnone _ h key e hconn
    rw [hnone] at hconn
    cases hconn
  · intro ct history f p now zone mayCreate wf hparsed told
    exact told.track wf hparsed
  intro ct ct' history hpol hshrink told hpickup h key e hconn
  rw [hpol] at hpickup
  exact told hpickup h key e (hshrink h _ hconn)

/-- Without pickup, a TCP connection that is neither in `SYN_SENT` nor in `CLOSE` has had a packet
of the responder since it was created or last reopened, and an established one a SYN|ACK and after
it an ACK of the initiator. The initiator is the endpoint of the first packet. -/
theorem no_one_sided_establishment
    (reached : Reached hash History.note (fun _ => []) ct history)
    (hpickup : ct.policy.tcpPickup = false) {h : FlowHandle} {key : CtKey} {e : Entry U}
    (hconn : ct.conns hash h = some (key, e)) (htcp : key.protocol = 6) :
  (history h).head?.map Accepted.fromA = some e.initiatorIsA
    ∧ (e.tcp ≠ .synSent → e.tcp ≠ .close → Answered e.initiatorIsA (history h))
    ∧ (e.tcp = .established → Confirmed e.initiatorIsA (history h))
    ∧ ((∀ packet ∈ history h, packet.fromA = e.initiatorIsA) →
      e.tcp = .synSent ∨ e.tcp = .close)
  := by
  obtain ⟨hfirst, hstate⟩ := reached.told hpickup h key e hconn htcp
  have hanswered : e.tcp ≠ .synSent → e.tcp ≠ .close → Answered e.initiatorIsA (history h) := by
    intro hsynSent hclose
    generalize e.tcp = tcp at hstate hsynSent hclose
    cases tcp with
    | none => exact hstate.elim
    | synSent => exact absurd rfl hsynSent
    | close => exact absurd rfl hclose
    | synRecv | established => exact hstate.1
    | finWait | closeWait | lastAck | timeWait | synSent2 => exact hstate
  refine ⟨hfirst, hanswered, ?_, ?_⟩
  · intro hest
    rw [hest] at hstate
    exact hstate.2
  intro honly
  by_contra hpast
  rw [not_or] at hpast
  obtain ⟨packet, hmem, hresponder⟩ := hanswered hpast.1 hpast.2
  exact hresponder (honly packet hmem)

/-- A TCP segment without data between `10.0.0.1:1000` and `10.0.0.2:80`. -/
def segment (fromClient : Bool) (flags : BitVec 8) : Frame :=
  let client : List (BitVec 8) := [10, 0, 0, 1]
  let server : List (BitVec 8) := [10, 0, 0, 2]
  let addresses := if fromClient then client ++ server else server ++ client
  let ports : List (BitVec 8) := if fromClient then [3, 232, 0, 80] else [0, 80, 3, 232]
  ⟨40, fun i => ([0x45, 0, 0, 40, 0, 0, 0, 0, 64, 6, 0, 0] ++ addresses ++ ports
    ++ [0, 0, 0, 0, 0, 0, 0, 0, 0x50, flags] : List (BitVec 8)).getD i 0⟩

/-- A SYN, a SYN|ACK and an ACK. -/
def handshake : List (Frame × ParsedFrame) :=
  [segment true 0x02, segment false 0x12, segment true 0x10].map fun f => (f, f.parseIpPacket.2)

theorem parsed_handshake :
  ∀ packet ∈ handshake, Parsed packet.1 packet.2
  := by
  intro packet hmem
  obtain ⟨f, _, rfl⟩ := mem_map.mp hmem
  exact .inr rfl

/-- A tracker for one connection has the handshake's connection established. -/
theorem established_handshake :
  ∃ ct₀ : Tracker Unit, create (fun _ => 0) 1 {} 0 0 true = some ct₀
    ∧ (ct₀.trackBatch (fun _ => 0) handshake 5 0 true).1.policy.tcpPickup = false
    ∧ ∃ key e, (ct₀.trackBatch (fun _ => 0) handshake 5 0 true).1.conns (fun _ => 0) ⟨1, 1⟩
        = some (key, e) ∧ key.protocol = 6 ∧ e.tcp = .established
  := by
  have hrun : ((create (U := Unit) (fun _ => 0) 1 {} 0 0 true).map fun ct₀ =>
      let ct := (ct₀.trackBatch (fun _ => 0) handshake 5 0 true).1
      (ct.policy.tcpPickup,
        (ct.conns (fun _ => 0) ⟨1, 1⟩).map fun conn => (conn.1.protocol, conn.2.tcp)))
      = some (false, some (6, .established)) := by
    decide +kernel
  obtain ⟨ct₀, hcreate, hrun⟩ := Option.map_eq_some_iff.mp hrun
  obtain ⟨hpickup, hconn⟩ := Prod.mk.inj hrun
  obtain ⟨⟨key, e⟩, hconn, hstate⟩ := Option.map_eq_some_iff.mp hconn
  obtain ⟨hproto, hest⟩ := Prod.mk.inj hstate
  exact ⟨ct₀, hcreate, hpickup, key, e, hconn, hproto, hest⟩

theorem no_one_sided_establishment_handshake :
  ∃ (ct : Tracker Unit) (history : History) (key : CtKey) (e : Entry Unit),
    Reached (fun _ => 0) History.note (fun _ => []) ct history
      ∧ ct.policy.tcpPickup = false ∧ key.protocol = 6
      ∧ ct.conns (fun _ => 0) ⟨1, 1⟩ = some (key, e) ∧ e.tcp = .established
      ∧ Confirmed e.initiatorIsA (history ⟨1, 1⟩)
  := by
  obtain ⟨ct₀, hcreate, hpickup, key, e, hconn, hproto, hest⟩ := established_handshake
  have start : Reached (fun _ => 0) History.note (fun _ => []) ct₀ fun _ => [] := .create hcreate
  have reached := start.trackBatch parsed_handshake 5 0 true
  obtain ⟨_, _, hconfirmed, _⟩ := no_one_sided_establishment reached hpickup hconn hproto
  exact ⟨_, _, key, e, reached, hpickup, hproto, hconn, hest, hconfirmed hest⟩

end Tracker

end Conntrack
