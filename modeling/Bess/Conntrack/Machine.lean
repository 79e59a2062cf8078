import Bess.Conntrack.Key

/-!
# The state machine of a connection

The TCP states and their table, the check of flag combinations, the step that a packet makes a
connection take, and its timeout (`core/conntrack/conntrack.h`). The owned and the shared tracker
use the same step, on the part of an entry that `Session` holds.
-/

namespace Conntrack

open Napt

inductive Direction : Type where
  | original
  | reply
  deriving DecidableEq, Repr

inductive TcpState : Type where
  | none
  | synSent
  | synRecv
  | established
  | finWait
  | closeWait
  | lastAck
  | timeWait
  | close
  /-- A simultaneous open. -/
  | synSent2
  deriving DecidableEq, Repr

inductive FlagClass : Type where
  | syn
  | synAck
  | fin
  | ack
  | rst
  | noFlags
  deriving DecidableEq, Repr

/-- An entry of the table: a new state, or `kIg`, or `kIv`. -/
inductive Cell : Type where
  | next (s : TcpState)
  | ignore
  | invalid
  deriving DecidableEq, Repr

def TcpState.column : TcpState → ℕ
  | .none => 0
  | .synSent => 1
  | .synRecv => 2
  | .established => 3
  | .finWait => 4
  | .closeWait => 5
  | .lastAck => 6
  | .timeWait => 7
  | .close => 8
  | .synSent2 => 9

private abbrev sS : Cell := .next .synSent
private abbrev sR : Cell := .next .synRecv
private abbrev sE : Cell := .next .established
private abbrev sF : Cell := .next .finWait
private abbrev sW : Cell := .next .closeWait
private abbrev sL : Cell := .next .lastAck
private abbrev sT : Cell := .next .timeWait
private abbrev sC : Cell := .next .close
private abbrev s2 : Cell := .next .synSent2
private abbrev ig : Cell := .ignore
private abbrev iv : Cell := .invalid

/-- `kTcpTable`, one row for a direction and a class of flags; the columns are the states. -/
def tcpRow : Direction → FlagClass → List Cell
  | .original, .syn => [sS, sS, ig, ig, ig, ig, ig, sS, sS, s2]
  | .original, .synAck => [iv, iv, sR, iv, iv, iv, iv, iv, iv, sR]
  | .original, .fin => [iv, iv, sF, sF, sL, sL, sL, sT, sC, iv]
  | .original, .ack => [sE, iv, sE, sE, sW, sW, sT, sT, sC, iv]
  | .original, .rst => [iv, sC, sC, sC, sC, sC, sC, sC, sC, sC]
  | .original, .noFlags => [iv, iv, iv, iv, iv, iv, iv, iv, iv, iv]
  | .reply, .syn => [iv, s2, iv, iv, iv, iv, iv, sS, iv, s2]
  | .reply, .synAck => [iv, sR, ig, ig, ig, ig, ig, ig, ig, sR]
  | .reply, .fin => [iv, iv, sF, sF, sL, sL, sL, sT, sC, iv]
  | .reply, .ack => [iv, ig, sR, sE, sW, sW, sT, sT, sC, ig]
  | .reply, .rst => [iv, sC, sC, sC, sC, sC, sC, sC, sC, sC]
  | .reply, .noFlags => [iv, iv, iv, iv, iv, iv, iv, iv, iv, iv]

def tcpTable (dir : Direction) (flags : FlagClass) (s : TcpState) : Cell :=
  (tcpRow dir flags).getD s.column .invalid

/-! ### Flags -/

def kTcpFin : BitVec 8 := 0x01
def kTcpSyn : BitVec 8 := 0x02
def kTcpRst : BitVec 8 := 0x04
def kTcpAck : BitVec 8 := 0x10
def kTcpUrg : BitVec 8 := 0x20

def classOf (flags : BitVec 8) : FlagClass :=
  if flags &&& kTcpRst ≠ 0 then .rst
  else if flags &&& kTcpSyn ≠ 0 then if flags &&& kTcpAck ≠ 0 then .synAck else .syn
  else if flags &&& kTcpFin ≠ 0 then .fin
  else if flags &&& kTcpAck ≠ 0 then .ack
  else .noFlags

def kCheckedFlags : BitVec 8 :=
  kTcpFin ||| kTcpSyn ||| kTcpRst ||| kTcpAck ||| kTcpUrg

def flagSet (flags : BitVec 8) : BitVec 64 :=
  1#64 <<< flags.toNat

def kValidFlagSets : BitVec 64 :=
  flagSet kTcpSyn ||| flagSet (kTcpSyn ||| kTcpUrg) ||| flagSet (kTcpSyn ||| kTcpAck)
    ||| flagSet kTcpRst ||| flagSet (kTcpRst ||| kTcpAck) ||| flagSet (kTcpFin ||| kTcpAck)
    ||| flagSet (kTcpFin ||| kTcpAck ||| kTcpUrg) ||| flagSet kTcpAck
    ||| flagSet (kTcpAck ||| kTcpUrg)

def validFlags (flags : BitVec 8) : Bool :=
  (kValidFlagSets >>> (flags &&& kCheckedFlags).toNat) &&& 1 ≠ 0

/-! ### ICMP -/

def isIcmpError (kind : L4Kind) (type : BitVec 8) : Bool :=
  if kind = .icmp then type = 3 ∨ type = 4 ∨ type = 5 ∨ type = 11 ∨ type = 12
  else 1 ≤ type ∧ type ≤ 4

def isEchoRequest (kind : L4Kind) (type : BitVec 8) : Bool :=
  if kind = .icmp then type = 8 else type = 128

def isEchoReply (kind : L4Kind) (type : BitVec 8) : Bool :=
  if kind = .icmp then type = 0 else type = 129

/-- A packet that has a connection key. -/
def keyed (p : ParsedFrame) : Bool :=
  if p.l3 = .none ∨ p.l4 = .none then false
  else if p.l4 = .icmp ∨ p.l4 = .icmpv6 then
    isEchoRequest p.l4 p.icmpType || isEchoReply p.l4 p.icmpType
  else true

/-! ### The step of a connection -/

/-- What the state machine keeps of a connection: its TCP state, whether endpoint A sent the first
packet, and whether a packet has gone in the reply direction. -/
structure Session : Type where
  tcp : TcpState := .none
  initiatorIsA : Bool := true
  replied : Bool := false
  deriving DecidableEq

inductive Step : Type where
  | invalid
  | existing
  | reopen
  deriving DecidableEq

/-- The state that the table leads to, or nothing if it refuses the packet. -/
def nextState (dir : Direction) (flags : BitVec 8) (s : TcpState) : Option TcpState :=
  match tcpTable dir (classOf flags) s with
  | .invalid => none
  | .ignore => some s
  | .next s' => some s'

/-- A packet that the table takes back to `SYN_SENT` from the end of a connection. -/
def reopens (dir : Direction) (flags : BitVec 8) (s : TcpState) : Bool :=
  tcpTable dir (classOf flags) s = .next .synSent && (s = .timeWait || s = .close)

def stepExisting (e : Session) (p : ParsedFrame) (dir : Direction) (mayCreate : Bool) :
    Step × Session :=
  let replied := e.replied || dir = .reply
  if p.l4 = .tcp then
    if validFlags p.tcpFlags = false then (.invalid, e)
    else
      match nextState dir p.tcpFlags e.tcp with
      | none => (.invalid, e)
      | some s =>
          if reopens dir p.tcpFlags e.tcp then (if mayCreate then .reopen else .invalid, e)
          else (.existing, { e with tcp := s, replied := replied })
  else (.existing, { e with replied := replied })

/-- The direction of a packet of a connection. -/
def directionOf (e : Session) (c : CanonicalKey) : Direction :=
  if c.srcIsA = e.initiatorIsA then .original else .reply

/-! ### Timeouts -/

structure TimeoutPolicy : Type where
  tcp : TcpState → BitVec 64 := fun
    | .none => 10
    | .synSent => 120
    | .synRecv => 60
    | .established => 432000
    | .finWait => 120
    | .closeWait => 60
    | .lastAck => 30
    | .timeWait => 120
    | .close => 10
    | .synSent2 => 120
  udpUnreplied : BitVec 64 := 30
  udpReplied : BitVec 64 := 120
  icmp : BitVec 64 := 30
  other : BitVec 64 := 600
  tcpPickup : Bool := false

def timeoutFor (policy : TimeoutPolicy) (l4 : L4Kind) (e : Session) : BitVec 64 :=
  match l4 with
  | .tcp => policy.tcp e.tcp
  | .udp => if e.replied then policy.udpReplied else policy.udpUnreplied
  | .icmp | .icmpv6 => policy.icmp
  | .none | .other => policy.other

inductive TrackStatus : Type where
  | new
  | existing
  | related
  | invalid
  | untracked
  | full
  deriving DecidableEq, Repr

/-- The TCP state of a connection that the packet may start, or nothing if it may not start one. -/
def openingState (policy : TimeoutPolicy) (p : ParsedFrame) : Option TcpState :=
  if p.l4 = .tcp then
    if validFlags p.tcpFlags = false then none
    else if classOf p.tcpFlags = .syn then some .synSent
    else if classOf p.tcpFlags = .ack ∧ policy.tcpPickup = true then some .established
    else none
  else if (p.l4 = .icmp ∨ p.l4 = .icmpv6) ∧ isEchoRequest p.l4 p.icmpType = false then none
  else some .none

end Conntrack
