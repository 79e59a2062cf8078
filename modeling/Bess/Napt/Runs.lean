import Bess.Napt.Growth

/-!
# Runs of the NAT

A run of a NAT starts with `Create` and makes any calls. In every state it reaches, the tables are
sound and the book is in order. The port bits are exactly those of the live bindings as long as
each `MigrateSome` finds a free slot in the larger table for every binding that is left in the old
one. The source relies on that, but slots in quarantine can take it away: a table of which slots
have been reused `2 ^ 31` times can be full with fewer bindings than `BindLocked` counts on, the
binding that cannot be copied is handed back with the old table, and its port is never free again.
-/

namespace Napt

open Expiry Flow List

namespace BasicNat

variable {S : OwnedStore} {leaked : Set (ℕ × ℕ)} {n n' n'' : BasicNat}

/-! ### The bitmaps of the addresses -/

/-- Each of the first entries has the bitmap of the first entry with its address. -/
def FirstOf (addresses : List ExternalAddress) (pools : List ℕ) : Prop :=
  ∀ i < pools.length, ∃ j ≤ i, pools.getD i 0 = j ∧ addrAt addresses j = addrAt addresses i
    ∧ ∀ k < j, addrAt addresses k ≠ addrAt addresses i

theorem firstOf_snoc {addresses : List ExternalAddress} {pools : List ℕ} {p : ℕ}
    (h : FirstOf addresses pools)
    (hp : p ≤ pools.length ∧ addrAt addresses p = addrAt addresses pools.length
      ∧ ∀ k < p, addrAt addresses k ≠ addrAt addresses pools.length) :
  FirstOf addresses (pools ++ [p])
  := by
  intro i hi
  rw [length_append, length_singleton] at hi
  by_cases hlt : i < pools.length
  · obtain ⟨j, hj, hpool, haddr⟩ := h i hlt
    refine ⟨j, hj, ?_, haddr⟩
    rw [getD_append _ _ _ _ hlt, hpool]
  obtain rfl : i = pools.length := by omega
  refine ⟨p, hp.1, ?_, hp.2⟩
  rw [getD_append_right _ _ _ _ (Nat.le_refl _), Nat.sub_self]
  rfl

theorem firstOf_poolsOf (addresses : List ExternalAddress) (count : ℕ) :
  let pools := (List.range count).foldl
    (fun pools i => pools ++
      [match (List.range i).find? fun j => addrAt addresses j = addrAt addresses i with
      | some j => pools.getD j 0
      | none => i])
    []
  pools.length = count ∧ FirstOf addresses pools
  := by
  induction count with
  | zero => exact ⟨rfl, fun i hi => absurd hi (Nat.not_lt_zero i)⟩
  | succ count ih =>
  obtain ⟨hlen, hfirst⟩ := ih
  simp only [range_succ, foldl_append, foldl_cons, foldl_nil]
  refine ⟨by rw [length_append, hlen, length_singleton], firstOf_snoc hfirst ?_⟩
  rw [hlen]
  split
  case h_2 hfind =>
    refine ⟨Nat.le_refl _, rfl, ?_⟩
    intro k hk heq
    exact absurd (find?_eq_none.mp hfind k (mem_range.mpr hk)) (by simpa using heq)
  case h_1 j hfind =>
  have hj := mem_range.mp (mem_of_find?_eq_some hfind)
  have haddr : addrAt addresses j = addrAt addresses count := by
    simpa using find?_some hfind
  obtain ⟨k, hk, hpool, hsame, hleast⟩ := hfirst j (by omega)
  rw [hpool, ← haddr]
  exact ⟨by omega, hsame, hleast⟩

/-- Two entries share a bitmap exactly if they have one address. -/
theorem poolOf_eq_iff {a a' : ℕ} (ha : a < n.addresses.length) (ha' : a' < n.addresses.length) :
  n.poolOf a = n.poolOf a' ↔ addrAt n.addresses a = addrAt n.addresses a'
  := by
  obtain ⟨hlen, hfirst⟩ := firstOf_poolsOf n.addresses n.addresses.length
  obtain ⟨j, _, hpool, haddr, hleast⟩ := hfirst a (hlen.symm ▸ ha)
  obtain ⟨j', _, hpool', haddr', hleast'⟩ := hfirst a' (hlen.symm ▸ ha')
  have hj : n.poolOf a = j := hpool
  have hj' : n.poolOf a' = j' := hpool'
  rw [hj, hj']
  constructor
  · intro heq
    rw [← haddr, ← haddr', heq]
  intro heq
  by_contra hne
  rcases Nat.lt_or_gt_of_ne hne with hlt | hlt
  · exact hleast' j hlt (haddr.trans heq)
  · exact hleast j' hlt (haddr'.trans heq.symm)

/-! ### Runs -/

/-- A call. `ok` is asked of the state before a `MigrateSome`. -/
inductive Step (S : OwnedStore) (ok : BasicNat → Prop) : BasicNat → BasicNat → Prop where
  | translate (n : BasicNat) (f : Frame) (p : ParsedFrame) (dir : Direction) (now : Time) :
      Step S ok n (n.translate S f p dir now).1
  | translateBatch (n : BasicNat) (packets : List Packet) (dir : Direction) (now : Time) :
      Step S ok n (n.translateBatch S packets dir now).1
  | expire {n n' : BasicNat} {now : Time} {budget fuel removed : ℕ}
      (hexpire : n.expire S now budget fuel = some (n', removed)) : Step S ok n n'
  | requestReport (n : BasicNat) : Step S ok n n.requestReport
  | reportSome (n : BasicNat) (slots : ℕ) : Step S ok n (n.reportSome S slots)
  | drainUsage (n : BasicNat) (max : ℕ) : Step S ok n (n.drainUsage max).1
  | adopt (hgrowable : S.kGrowable = true) (n : BasicNat) (capacity place : ℕ) :
      Step S ok n (n.adopt S capacity place)
  | migrateSome (hgrowable : S.kGrowable = true) {n : BasicNat} (hok : ok n) (slots : ℕ) :
      Step S ok n (n.migrateSome S slots)

/-- The states that a NAT reaches. -/
inductive Reached (S : OwnedStore) (config : NatConfig) (ok : BasicNat → Prop) : BasicNat → Prop
    where
  | create {n : BasicNat} (hcreate : BasicNat.create S config = .ok n) : Reached S config ok n
  | step {n n' : BasicNat} (reached : Reached S config ok n) (step : Step S ok n n') :
      Reached S config ok n'

variable {config : NatConfig} {ok : BasicNat → Prop} {roomy : Prop}

section

variable (h : BasicNat.create S config = .ok n)

include h

theorem create_eq :
  config.addresses ≠ []
    ∧ (∀ a ∈ config.addresses, ∀ range ∈ a.ranges, range.bound ≤ 65536)
    ∧ ∃ table wheel, WorkerFlowTable.create S.traits config.capacity = some table
      ∧ Wheel.create wheelShape (max config.capacity config.maxCapacity) config.start
        config.granularityShift = .ok wheel
      ∧ n = ⟨config.addresses, config.timeout, table, wheel, .empty, config.seed,
        max config.capacity config.maxCapacity, none, 0, .create config.usageLog, false, 0, 0, 0,
        none⟩
  := by
  rw [BasicNat.create] at h
  split at h
  · cases h
  case isFalse haddrs =>
  split at h
  · cases h
  case isFalse hranges =>
  split at h
  · cases h
  case h_2 table htable =>
  split at h
  · cases h
  simp only at h
  split at h
  · cases h
  case h_2 wheel hwheel =>
  cases h
  refine ⟨haddrs, ?_, table, wheel, htable, hwheel, rfl⟩
  intro a ha range hrange
  simp only [any_eq_true, Bool.or_eq_true, decide_eq_true_eq, not_exists,
    not_and, not_or, Nat.not_lt] at hranges
  exact (hranges a ha range hrange).2

theorem deref_create (r : BindingRef) :
  n.deref r = none
  := by
  obtain ⟨_, _, table, wheel, htable, _, rfl⟩ := create_eq h
  obtain ⟨_, _, hempty⟩ := Filed.create htable
  obtain ⟨inOld, h⟩ := r
  cases inOld with
  | true => rfl
  | false => exact hempty h

theorem wf_create :
  n.WF S ∅ ∧ n.Unmoved
  := by
  have hempty := deref_create h
  obtain ⟨haddrs, hranges, table, wheel, htable, _, rfl⟩ := create_eq h
  obtain ⟨filed, _, _⟩ := Filed.create htable
  refine ⟨⟨filed, by rintro _ ⟨⟩, hranges, haddrs, ?_⟩, by rintro _ _ ⟨⟩⟩
  convert Book.ordered_empty using 1
  funext r
  exact hempty r

end

theorem Unmoved.shrinks (h : n.Unmoved) (shrinks : Shrinks n n') :
  n'.Unmoved
  := by
  intro handle b hb
  obtain ⟨b', hb'⟩ := shrinks.old hb
  rw [shrinks.cursor]
  exact h handle b' hb'

/-- The tables are sound and the book is in order. With room for every migration nothing has been
left behind and no port bit has leaked. -/
def Sound (S : OwnedStore) (roomy : Prop) (n : BasicNat) : Prop :=
  ∃ leaked, n.WF S leaked ∧ (roomy → leaked = ∅ ∧ n.Unmoved)

theorem Sound.step (h : Sound S roomy n)
    (hwf : ∀ leaked, n.WF S leaked → n'.WF S leaked ∧ (n.Unmoved → n'.Unmoved)) :
  Sound S roomy n'
  := by
  obtain ⟨leaked, wf, hroomy⟩ := h
  obtain ⟨wf', hunmoved⟩ := hwf leaked wf
  exact ⟨leaked, wf', fun h => ⟨(hroomy h).1, hunmoved (hroomy h).2⟩⟩

theorem Sound.quiet (h : Sound S roomy n) (quiet : Quiet n n') :
  Sound S roomy n'
  := h.step fun _ wf => ⟨wf.quiet quiet, fun hunmoved => hunmoved.shrinks (quiet.fewer.shrinks quiet.cursor)⟩

theorem Sound.call (h : Sound S (∀ n, ok n → n.Roomy) n) (step : Step S ok n n') :
  Sound S (∀ n, ok n → n.Roomy) n'
  := by
  cases step with
  | translate _ f p dir now =>
    refine h.step fun leaked wf => ?_
    obtain ⟨wf', _, _, shrinks⟩ := wf.translate f p dir now
    exact ⟨wf', fun hunmoved => hunmoved.shrinks shrinks⟩
  | translateBatch _ packets dir now =>
    refine h.step fun leaked wf => ?_
    obtain ⟨_, wf', _, _, shrinks⟩ := wf.translateBatch packets dir now
    exact ⟨wf', fun hunmoved => hunmoved.shrinks shrinks⟩
  | expire hexpire =>
    refine h.step fun leaked wf => ?_
    obtain ⟨wf', _, fewer, hcursor⟩ := wf.expire hexpire
    exact ⟨wf', fun hunmoved => hunmoved.shrinks (fewer.shrinks hcursor)⟩
  | requestReport => exact h.quiet ⟨⟨rfl, rfl⟩, rfl, rfl, rfl, rfl, rfl⟩
  | reportSome _ slots => exact h.quiet (quiet_reportSome _ slots)
  | drainUsage _ max => exact h.quiet (quiet_drainUsage _ max)
  | adopt _ _ capacity place =>
    refine h.step fun leaked wf => ?_
    obtain ⟨wf', _, _, hunmoved⟩ := wf.adopt capacity place
    exact ⟨wf', hunmoved⟩
  | migrateSome _ hok slots =>
  obtain ⟨leaked, wf, hroomy⟩ := h
  obtain ⟨leaked', wf', _, _, hkept⟩ := wf.migrateSome slots
  refine ⟨leaked', wf', fun hall => ?_⟩
  obtain ⟨hleaked, hunmoved⟩ := hroomy hall
  obtain ⟨hsame, hunmoved', _⟩ := hkept hunmoved (hall _ hok)
  exact ⟨hsame.trans hleaked, hunmoved'⟩

theorem Reached.sound (h : Reached S config ok n) :
  Sound S (∀ n, ok n → n.Roomy) n
  := by
  induction h with
  | create hcreate =>
    obtain ⟨wf, hunmoved⟩ := wf_create hcreate
    exact ⟨∅, wf, fun _ => ⟨rfl, hunmoved⟩⟩
  | step _ step ih => exact ih.call step

/-- A batch is its packets one by one. -/
theorem translateBatch_eq_translateEach (h : Reached S config ok n) (packets : List Packet)
    (dir : Direction) (now : Time) :
  n.translateBatch S packets dir now = translateEach S dir now n packets
  := by
  obtain ⟨leaked, wf, _⟩ := h.sound
  exact (wf.translateBatch packets dir now).1

/-- A NAT with two external ports and place for two bindings. -/
def pocketStore : OwnedStore :=
  ⟨false, false, fun e => e.port.setWidth 64, fun addr => addr⟩

def pocketConfig : NatConfig :=
  { addresses := [⟨0x05050505, [⟨2000, 2002, false⟩]⟩]
    capacity := 2
    maxCapacity := 0
    timeout := 100
    granularityShift := 0
    start := 0
    seed := 0
    usageLog := 0 }

def pocketNat : BasicNat :=
  (BasicNat.create pocketStore pocketConfig).toOption.get (by decide)

/-- A UDP datagram without payload or checksum. -/
def datagram (src : BitVec 32) (srcPort : BitVec 16) (dst : BitVec 32) (dstPort : BitVec 16) :
    Frame :=
  let bytes : List (BitVec 8) :=
    [0, 0, 0, 0, 0, 0, 0, 0, 0, 0, 0, 0, 8, 0,
      0x45, 0, 0, 28, 0, 0, 0, 0, 64, 17, 0, 0,
      src.extractLsb' 24 8, src.extractLsb' 16 8, src.extractLsb' 8 8, src.extractLsb' 0 8,
      dst.extractLsb' 24 8, dst.extractLsb' 16 8, dst.extractLsb' 8 8, dst.extractLsb' 0 8,
      srcPort.extractLsb' 8 8, srcPort.extractLsb' 0 8, dstPort.extractLsb' 8 8,
      dstPort.extractLsb' 0 8, 0, 8, 0, 0]
  ⟨42, fun i => bytes.getD i 0⟩

/-- Two packets of a new flow, and one from the external endpoint that the flow is given. -/
def pocketBatch : List Packet :=
  [datagram 1 1024 2 53, datagram 1 1024 3 53, datagram 0x05050505 2000 2 53].map fun f =>
    ⟨f, some (f.parseFrame 0).2⟩

theorem translateBatch_pocketBatch :
  pocketNat.translateBatch pocketStore pocketBatch .forward 0
      = translateEach pocketStore .forward 0 pocketNat pocketBatch
    ∧ (pocketNat.translateBatch pocketStore pocketBatch .forward 0).2.map Prod.snd
      = [.translated, .translated, .conflict]
  := by
  have reached : Reached pocketStore pocketConfig (fun _ => True) pocketNat := .create rfl
  exact ⟨translateBatch_eq_translateEach reached pocketBatch .forward 0, by decide +kernel⟩

/-- No endpoint belongs to two bindings or to one twice, a lookup finds a binding by its two
endpoints and by no other, and the port bits are those of the bindings' external endpoints. -/
theorem Reached.bindings_exact (h : Reached S config Roomy n) :
  (∀ r r' b b' e, n.deref r = some b → n.deref r' = some b' → b.Has e → b'.Has e → r = r')
    ∧ (∀ r b, n.deref r = some b → b.internal ≠ b.external)
    ∧ (∀ e b, n.find S e = some b ↔ ∃ r, n.deref r = some b ∧ b.Has e)
    ∧ ∀ a < n.addresses.length, ∀ protocol port : BitVec 16,
      n.ports.used (n.poolOf a) protocol port.toNat = true
        ↔ ∃ r b, n.deref r = some b ∧ b.external.addr = addrAt n.addresses a
          ∧ PortPool.classOf b.external.protocol = PortPool.classOf protocol
          ∧ b.external.port = port
  := by
  obtain ⟨leaked, wf, hroomy⟩ := h.sound
  obtain ⟨rfl, _⟩ := hroomy fun _ hroomy => hroomy
  refine ⟨fun _ _ _ _ _ => wf.ordered.apart, fun _ _ => wf.ordered.proper,
    fun _ _ => wf.find_eq_some, ?_⟩
  intro a ha protocol port
  rw [PortPool.used, wf.ordered.bits, or_iff_right (Set.notMem_empty _)]
  refine exists_congr fun r => exists_congr fun b => and_congr_right fun hb => ?_
  obtain ⟨hindex, haddr, _⟩ := wf.ordered.addressed hb
  have hpool : n.poolOf b.addressIndex = n.poolOf a
      ↔ b.external.addr = addrAt n.addresses a := by
    rw [poolOf_eq_iff hindex ha, haddr]
    rfl
  rw [Binding.place, Prod.mk.injEq, PortPool.bitmap_inj, ← hpool, BitVec.toNat_inj, and_assoc]
  rfl

theorem bindings_exact_pocketBatch :
  ∃ n : BasicNat, (n.find pocketStore ⟨1, 1024, 17⟩).isSome = true
    ∧ ∀ e b, n.find pocketStore e = some b ↔ ∃ r, n.deref r = some b ∧ b.Has e
  := by
  have reached : Reached pocketStore pocketConfig Roomy _ :=
    .step (.create rfl) (.translateBatch pocketNat pocketBatch .forward 0)
  exact ⟨_, by decide +kernel, reached.bindings_exact.2.2.1⟩

/-- Lookups do not tell that the table grows, as long as the larger one has room. -/
theorem Reached.growth_invisible (h : Reached S config Roomy n) (hroomy : n.Roomy) (e : Endpoint)
    (slots capacity place : ℕ) :
  (n.migrateSome S slots).find S e = n.find S e
    ∧ (n.adopt S capacity place).find S e = n.find S e
  := by
  obtain ⟨leaked, wf, hsound⟩ := h.sound
  obtain ⟨_, hunmoved⟩ := hsound fun _ hroomy => hroomy
  have hfind {m : BasicNat} {leaked' : Set (ℕ × ℕ)} (wf' : m.WF S leaked')
      (hlists : ∀ b, Book.Lists m.deref b ↔ Book.Lists n.deref b) : m.find S e = n.find S e := by
    ext b
    rw [wf'.find_eq_some, wf.find_eq_some, exists_and_right, exists_and_right]
    exact and_congr_left' (hlists b)
  obtain ⟨_, wf', _, hback, hkept⟩ := wf.migrateSome slots
  obtain ⟨_, _, hforth⟩ := hkept hunmoved hroomy
  obtain ⟨wf'', _, hlists, _⟩ := wf.adopt capacity place
  exact ⟨hfind wf' fun b => ⟨hback b, hforth b⟩, hfind wf'' hlists⟩

/-- The NAT with place for four bindings. -/
def growableStore : OwnedStore :=
  { pocketStore with kGrowable := true }

def growableConfig : NatConfig :=
  { pocketConfig with maxCapacity := 4 }

/-- It has taken a larger table. -/
def growingNat : BasicNat :=
  let n := (BasicNat.create growableStore growableConfig).toOption.get (by decide)
  (n.translateBatch growableStore pocketBatch .forward 0).1.adopt growableStore 4 0

theorem growth_invisible_growingNat :
  growingNat.old.isSome = true
    ∧ (growingNat.migrateSome growableStore 1).find growableStore ⟨1, 1024, 17⟩
      = growingNat.find growableStore ⟨1, 1024, 17⟩
    ∧ (growingNat.find growableStore ⟨1, 1024, 17⟩).isSome = true
  := by
  have reached : Reached growableStore growableConfig Roomy growingNat :=
    .step (.step (.create rfl) (.translateBatch _ pocketBatch .forward 0)) (.adopt rfl _ 4 0)
  have hroomy : growingNat.Roomy := by
    have hroom : growingNat.old.all (fun old => old.size + growingNat.table.size
        + growingNat.table.quarantined ≤ growingNat.table.capacity) = true := by decide +kernel
    intro old hold
    rw [hold, Option.all_some] at hroom
    exact of_decide_eq_true hroom
  have hfind := reached.growth_invisible hroomy ⟨1, 1024, 17⟩ 1 0 0
  exact ⟨by decide +kernel, hfind.1, by decide +kernel⟩

end BasicNat

end Napt
