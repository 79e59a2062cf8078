import Bess.Foundations.Links
import Bess.Foundations.Serial

/-!
# The expiry wheel

`ExpiryWheel` (`core/dataplane/expiry_wheel.h`): a hierarchical timing wheel over a fixed
array of nodes linked by indices. Timers and list heads share one array; a head below
`kWheelNodes` is a slot of a level, `kReady` and `kMoving` are the heads of the due timers
and of the timers to be placed again, and the timers start at `kFirst`.

The tick type is an unsigned integer of `digits` bits. The callback of a poll is given by
what it does at each delivery: the calls it makes on the wheel, and the deadline it
returns, if any.
-/

namespace Expiry

open Function

/-- The template arguments of `ExpiryWheel`, with what it requires of them; the width of the ticks may
also be one that no unsigned type has. -/
structure Shape where
  digits : ℕ
  levelBits : ℕ
  levels : ℕ
  one_le_levelBits : 1 ≤ levelBits
  levelBits_le : levelBits ≤ 6
  one_le_levels : 1 ≤ levels
  span_lt : levelBits * levels < digits

namespace Shape

theorem one_le_six :
  1 ≤ 6
  := by decide

section

variable (c : Shape)

/-- The tick type. -/
abbrev Tick : Type := BitVec c.digits

/-- The longest timeout: a quarter of the tick range. -/
def kMaxTimeout : c.Tick := BitVec.allOnes c.digits >>> 2

def kMaxGranularityShift : ℕ := c.digits - 1 - c.levelBits * c.levels

def kSlots : ℕ := 2 ^ c.levelBits

def kSlotMask : ℕ := c.kSlots - 1

def kWheelNodes : ℕ := c.levels * c.kSlots

def kReady : ℕ := c.kWheelNodes

def kMoving : ℕ := c.kWheelNodes + 1

def kFirst : ℕ := c.kWheelNodes + 2

/-- The bits of an occupancy word that stand for a slot. -/
def slotsMask : BitVec 64 :=
  if c.kSlots = 64 then ~~~0#64 else (1#64 <<< c.kSlots) - 1#64

end

end Shape

/-- The end of the free list; a list head, never a timer. -/
def kNil : ℕ := 0

/-- `ExpiryHandle`: the node of a timer and the generation of one arming of it. -/
structure ExpiryHandle where
  id : ℕ
  generation : ℕ
deriving DecidableEq, Repr

/-- The handle of no timer. -/
def kNoExpiry : ExpiryHandle := ⟨0, 0⟩

inductive ExpiryError
  | kInvalidCapacity
  | kInvalidGranularity
deriving DecidableEq, Repr

/-- A timer or a list head. Generations are 32-bit numbers. -/
structure Node (c : Shape) (P : Type) where
  prev : ℕ
  next : ℕ
  generation : ℕ
  deadline : c.Tick
  payload : P

/-- The calls an owner makes on a wheel besides `Poll`, with deadlines in `D`. -/
inductive Call (D P : Type)
  | schedule (deadline : D) (payload : P)
  | refresh (handle : ExpiryHandle) (deadline : D)
  | reschedule (handle : ExpiryHandle) (deadline : D) (payload : P)
  | cancel (handle : ExpiryHandle)

/-- What such a call returns. -/
inductive Answer
  | handle (h : ExpiryHandle)
  | flag (b : Bool)
deriving DecidableEq, Repr

/-- What a callback does at the `n`-th delivery of a poll, given the payload: the calls it
makes on the wheel, and the new deadline it returns. -/
abbrev Callback (D P : Type) : Type := ℕ → P → List (Call D P) × Option D

/-- A callback that does not touch the wheel. -/
def Callback.inert {D P : Type} : Callback D P := fun _ _ => ([], none)

structure PollResult where
  fired : ℕ
  moved : ℕ
  exhausted : Bool
deriving DecidableEq, Repr

/-- One callback of a poll: the arming it was made for, the payload, the wheel time, and
what the calls the callback made returned. -/
structure Delivery (c : Shape) (P : Type) where
  handle : ExpiryHandle
  payload : P
  time : c.Tick
  answers : List Answer

structure Wheel (c : Shape) (P : Type) where
  nodes : ℕ → Node c P
  capacity : ℕ
  shift : ℕ
  cur : c.Tick
  freeHead : ℕ
  size : ℕ
  quarantined : ℕ
  occupied : ℕ → BitVec 64

variable {c : Shape} {P : Type}

/-- The mask of the ticks within one tick of the wheel. -/
def unitMask (c : Shape) (shift : ℕ) : c.Tick := BitVec.ofNat c.digits (2 ^ shift - 1)

/-- Serial-number difference: positive if `a` is after `b`. -/
def diff (a b : c.Tick) : ℤ := (a - b).toInt

namespace Wheel

/-! ### Creation -/

/-- The engine `Create` makes when memory is not refused. -/
def create [Inhabited P] (c : Shape) (capacity : ℕ) (start : c.Tick) (granularityShift : ℕ) :
    Except ExpiryError (Wheel c P) :=
  if capacity = 0 ∨ 2 ^ 32 - 1 - c.kFirst < capacity then .error .kInvalidCapacity
  else if c.kMaxGranularityShift < granularityShift then .error .kInvalidGranularity
  else .ok
    { nodes := fun i =>
        { prev := if i < c.kFirst then i else 0
          next := if i < c.kFirst then i
            else if i + 1 < c.kFirst + capacity then i + 1 else kNil
          generation := 0
          deadline := 0
          payload := default }
      capacity := capacity
      shift := granularityShift
      cur := start &&& ~~~unitMask c granularityShift
      freeHead := c.kFirst
      size := 0
      quarantined := 0
      occupied := fun _ => 0 }

/-! ### Fields of nodes -/

variable (w : Wheel c P)

def setPrev (i v : ℕ) : Wheel c P :=
  { w with nodes := update w.nodes i { w.nodes i with prev := v } }

def setNext (i v : ℕ) : Wheel c P :=
  { w with nodes := update w.nodes i { w.nodes i with next := v } }

def setDeadline (i : ℕ) (deadline : c.Tick) : Wheel c P :=
  { w with nodes := update w.nodes i { w.nodes i with deadline := deadline } }

def setPayload (i : ℕ) (payload : P) : Wheel c P :=
  { w with nodes := update w.nodes i { w.nodes i with payload := payload } }

/-- Advance the generation of a node, a 32-bit number. -/
def advance (i : ℕ) : Wheel c P :=
  { w with
    nodes := update w.nodes i
      { w.nodes i with generation := ((w.nodes i).generation + 1) % 2 ^ 32 } }

/-- The length of the wheel's own tick. -/
def unit : c.Tick := (1 : c.Tick) <<< w.shift

/-- Whether the handle names a timer that is armed and has not fired. -/
def resolves (h : ExpiryHandle) : Bool :=
  c.kFirst ≤ h.id && h.id - c.kFirst < w.capacity &&
    (w.nodes h.id).generation == h.generation && (w.nodes h.id).generation % 2 == 1

/-- Whether the timer is the one a running poll delivers. -/
def delivering (index : ℕ) : Bool := (w.nodes index).prev == index

/-- The deadline rounded up to a multiple of the wheel's tick. -/
def endOf (deadline : c.Tick) : c.Tick :=
  let low := deadline &&& unitMask c w.shift
  deadline - low + (if low ≠ 0 then w.unit else 0)

/-! ### Lists -/

/-- Set the occupancy bit of a slot, given by its head. -/
def occupy (head : ℕ) : Wheel c P :=
  { w with
    occupied := update w.occupied (head / c.kSlots)
      (w.occupied (head / c.kSlots) ||| 1#64 <<< (head % c.kSlots)) }

/-- Clear the occupancy bit of a slot, given by its head. -/
def vacate (head : ℕ) : Wheel c P :=
  { w with
    occupied := update w.occupied (head / c.kSlots)
      (w.occupied (head / c.kSlots) &&& ~~~(1#64 <<< (head % c.kSlots))) }

def link (head index : ℕ) : Wheel c P :=
  let last := (w.nodes head).prev
  let w := w.setPrev index last
  let w := w.setNext index head
  let w := w.setNext last index
  let w := w.setPrev head index
  if head < c.kWheelNodes then w.occupy head else w

def unlink (index : ℕ) : Wheel c P :=
  let prev := (w.nodes index).prev
  let next := (w.nodes index).next
  let w := w.setNext prev next
  let w := w.setPrev next prev
  if prev = next ∧ prev < c.kWheelNodes then w.vacate prev else w

/-- Append the whole of `src` to `dst`, both list heads. -/
def splice (src dst : ℕ) : Wheel c P :=
  if (w.nodes src).next = src then w
  else
    let first := (w.nodes src).next
    let last := (w.nodes src).prev
    let tail := (w.nodes dst).prev
    let w := w.setNext tail first
    let w := w.setPrev first tail
    let w := w.setNext last dst
    let w := w.setPrev dst last
    let w := w.setPrev src src
    let w := w.setNext src src
    if src < c.kWheelNodes then w.vacate src else w

/-- Disarm a node. A node whose generation wrapped is retired, not reused. -/
def free (index : ℕ) : Wheel c P :=
  let w := { w with size := w.size - 1 }
  let w := w.advance index
  if (w.nodes index).generation = 0 then { w with quarantined := w.quarantined + 1 }
  else { w.setNext index w.freeHead with freeHead := index }

/-! ### Placement -/

/-- The shift of a level: one of its slots spans `2 ^ levelShift` ticks. -/
def levelShift (level : ℕ) : ℕ := w.shift + level * c.levelBits

/-- The slot of a level that a time falls into. -/
def slotOf (level : ℕ) (t : c.Tick) : ℕ :=
  (t >>> w.levelShift level).toNat % c.kSlots

/-- How many slots of a level a time is ahead of the wheel time. -/
def ahead (level : ℕ) (t : c.Tick) : c.Tick :=
  ((t >>> w.levelShift level) - (w.cur >>> w.levelShift level))
    &&& (BitVec.allOnes c.digits >>> w.levelShift level)

/-- The list a time is placed in: the due list if it is reached, else the slot of the
lowest level that can hold it, else the farthest slot of the top level. -/
def headFor (t : c.Tick) : ℕ :=
  if diff t w.cur ≤ 0 then c.kReady
  else
    match (List.range c.levels).find? (fun level => (w.ahead level t).toNat ≤ c.kSlotMask) with
    | some level => level * c.kSlots + w.slotOf level t
    | none =>
        (c.levels - 1) * c.kSlots + (w.slotOf (c.levels - 1) w.cur + c.kSlotMask) % c.kSlots

/-- Link an armed node where it will next be looked at. -/
def place (index : ℕ) : Wheel c P :=
  w.link (w.headFor (w.endOf (w.nodes index).deadline)) index

/-! ### Calls -/

def schedule (deadline : c.Tick) (payload : P) : Wheel c P × ExpiryHandle :=
  if w.freeHead = kNil then (w, kNoExpiry)
  else
    let index := w.freeHead
    let w := { w with freeHead := (w.nodes index).next }
    let w := w.advance index
    let w := w.setDeadline index deadline
    let w := w.setPayload index payload
    let w := { w with size := w.size + 1 }
    let w := w.place index
    (w, ⟨index, (w.nodes index).generation⟩)

/-- Give a timer a new deadline: only an earlier one moves the node. -/
def moveTo (index : ℕ) (deadline : c.Tick) : Wheel c P :=
  let later := 0 ≤ diff deadline (w.nodes index).deadline
  let w := w.setDeadline index deadline
  if later then w else (w.unlink index).place index

def refresh (h : ExpiryHandle) (deadline : c.Tick) : Wheel c P × Bool :=
  if !w.resolves h || w.delivering h.id then (w, false)
  else (w.moveTo h.id deadline, true)

def reschedule (h : ExpiryHandle) (deadline : c.Tick) (payload : P) : Wheel c P × Bool :=
  if !w.resolves h || w.delivering h.id then (w, false)
  else ((w.setPayload h.id payload).moveTo h.id deadline, true)

def cancel (h : ExpiryHandle) : Wheel c P × Bool :=
  if !w.resolves h then (w, false)
  else ((w.unlink h.id).free h.id, true)

/-- Run one call. -/
def exec : Call c.Tick P → Wheel c P × Answer
  | .schedule deadline payload => (w.schedule deadline payload).map id .handle
  | .refresh h deadline => (w.refresh h deadline).map id .flag
  | .reschedule h deadline payload => (w.reschedule h deadline payload).map id .flag
  | .cancel h => (w.cancel h).map id .flag

/-- Run calls one after another. -/
def execAll (w : Wheel c P) : List (Call c.Tick P) → Wheel c P × List Answer
  | [] => (w, [])
  | call :: calls =>
      let (w, answer) := w.exec call
      let (w, answers) := w.execAll calls
      (w, answer :: answers)

/-- Whether the handle names an armed timer. -/
def alive (h : ExpiryHandle) : Bool := w.resolves h

/-- The deadline the timer is armed for. -/
def deadlineOf (h : ExpiryHandle) : Option c.Tick :=
  if w.resolves h then some (w.nodes h.id).deadline else none

/-! ### Time -/

/-- The occupancy word of a level, rotated so that bit 0 is the slot after this one. -/
def rotated (level : ℕ) : BitVec 64 :=
  let bits := w.occupied level
  let start := (w.slotOf level w.cur + 1) % c.kSlots
  if start = 0 then bits
  else ((bits >>> start) ||| (bits <<< (c.kSlots - start))) &&& c.slotsMask

/-- The distance from the wheel time to the first occupied slot of a level after it. -/
def levelEvent (level : ℕ) : Option c.Tick :=
  if w.occupied level = 0 then none
  else
    let sh := w.levelShift level
    let d := (w.rotated level).ctz.toNat + 1
    let boundary := ((w.cur >>> sh) + BitVec.ofNat c.digits d) <<< sh
    some (boundary - w.cur)

/-- The distance from the wheel time to the next time something must be looked at. -/
def nextEvent : Option c.Tick :=
  (List.range c.levels).foldl
    (fun best level =>
      match w.levelEvent level, best with
      | none, best => best
      | some dist, none => some dist
      | some dist, some best => if dist < best then some dist else some best)
    none

/-- Queue for placement the slot of a higher level whose range starts at `t`. -/
def arriveLevel (t : c.Tick) (w : Wheel c P) (level : ℕ) : Wheel c P :=
  if t &&& BitVec.ofNat c.digits (2 ^ w.levelShift level - 1) = 0 then
    w.splice (level * c.kSlots + w.slotOf level t) c.kMoving
  else w

/-- Move the wheel to `t` and queue that time's work. -/
def arrive (t : c.Tick) : Wheel c P :=
  let w := { w with cur := t }
  let w := (List.range' 1 (c.levels - 1)).reverse.foldl (arriveLevel t) w
  w.splice (w.slotOf 0 t) c.kReady

/-! ### Polling -/

/-- Whether the list of a head is not empty. -/
def pending (head : ℕ) : Bool := (w.nodes head).next != head

/-- A running poll: the wheel, the units of work done, and what it did so far. -/
structure Progress (c : Shape) (P : Type) where
  wheel : Wheel c P
  work : ℕ
  result : PollResult
  deliveries : List (Delivery c P)

/-- Take the node at the head of the due list: deliver it if it is due, else put it where
its deadline belongs. -/
def deliver (fn : Callback c.Tick P) (s : Progress c P) (index : ℕ) : Progress c P :=
  let w := s.wheel.unlink index
  let node := w.nodes index
  if 0 < diff (w.endOf node.deadline) w.cur then
    { s with wheel := w.place index, result := { s.result with moved := s.result.moved + 1 } }
  else
    let w := (w.setPrev index index).setNext index index
    let (calls, again) := fn s.result.fired node.payload
    let time := w.cur
    let (w, answers) := w.execAll calls
    let w :=
      if (w.nodes index).generation = node.generation then
        match again with
        | some deadline => (w.setDeadline index deadline).place index
        | none => w.free index
      else w
    { s with
      wheel := w
      result := { s.result with fired := s.result.fired + 1 }
      deliveries := s.deliveries ++ [⟨⟨index, node.generation⟩, node.payload, time, answers⟩] }

/-- Place again the node at the head of the moving list. -/
def move (s : Progress c P) (index : ℕ) : Progress c P :=
  { s with
    wheel := (s.wheel.unlink index).place index
    result := { s.result with moved := s.result.moved + 1 } }

/-- The loop of a poll, cut off after `fuel` rounds. -/
def pollLoop (target : c.Tick) (budget : ℕ) (fn : Callback c.Tick P) :
    ℕ → Progress c P → Option (Progress c P)
  | 0, _ => none
  | fuel + 1, s =>
      if s.wheel.pending c.kReady then
        if s.work = budget then some { s with result := { s.result with exhausted := true } }
        else
          pollLoop target budget fn fuel
            (deliver fn { s with work := s.work + 1 } (s.wheel.nodes c.kReady).next)
      else if s.wheel.pending c.kMoving then
        if s.work = budget then some { s with result := { s.result with exhausted := true } }
        else
          pollLoop target budget fn fuel
            (move { s with work := s.work + 1 } (s.wheel.nodes c.kMoving).next)
      else
        match s.wheel.nextEvent with
        | some dist =>
            if dist ≤ target - s.wheel.cur then
              pollLoop target budget fn fuel
                { s with wheel := s.wheel.arrive (s.wheel.cur + dist) }
            else some { s with wheel := { s.wheel with cur := target } }
        | none => some { s with wheel := { s.wheel with cur := target } }

/-- The time a poll at `now` moves the wheel to. -/
def target (w : Wheel c P) (now : c.Tick) : c.Tick :=
  let target := now &&& ~~~unitMask c w.shift
  if diff target w.cur < 0 then w.cur else target

/-- `Poll`. A loop of `2 * budget + 2` rounds is enough: every round but the last does a
unit of work or moves the wheel to a time that has work. -/
def poll (now : c.Tick) (budget : ℕ) (fn : Callback c.Tick P) : Option (Progress c P) :=
  let target := w.target now
  if budget = 0 then
    let due :=
      match w.nextEvent with
      | some dist => decide (dist ≤ target - w.cur)
      | none => false
    some ⟨w, 0, ⟨0, 0, w.pending c.kReady || w.pending c.kMoving || due⟩, []⟩
  else pollLoop target budget fn (2 * budget + 2) ⟨w, 0, ⟨0, 0, false⟩, []⟩

end Wheel

end Expiry
