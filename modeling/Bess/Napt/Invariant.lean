import Bess.Napt.Filed

/-!
# The invariant of the NAT

In every state the tables of a NAT are tables of bindings and its book is in order, with perhaps
some port bits leaked. Each call of the engine keeps that, and its lemma says what the call does to the
book: a translation may open a binding, write to one, or leave the book alone; an expiry closes
bindings; a migration gives them other pointers.
-/

namespace Napt

open Expiry Flow Function Option PortPool

variable {S : OwnedStore} {leaked : Set (ℕ × ℕ)} {n n' : BasicNat} {e : Endpoint} {r : BindingRef}
  {b : Binding} {h : FlowHandle} {now : Time}

namespace BasicNat

/-- The external addresses of a NAT. -/
def estate (n : BasicNat) : Book.Estate :=
  ⟨n.addresses.length, n.poolOf, addrAt n.addresses⟩

structure WF (S : OwnedStore) (leaked : Set (ℕ × ℕ)) (n : BasicNat) : Prop where
  table : Filed S n.table
  old : ∀ {old}, n.old = some old → Filed S old
  ranges : ∀ a ∈ n.addresses, ∀ range ∈ a.ranges, range.bound ≤ 65536
  addresses : n.addresses ≠ []
  ordered : Book.Ordered n.estate n.ports leaked n.deref

/-- What no call changes. -/
structure Fixed (n n' : BasicNat) : Prop where
  addresses : n'.addresses = n.addresses
  timeout : n'.timeout = n.timeout

theorem Fixed.refl (n : BasicNat) :
  Fixed n n
  := ⟨rfl, rfl⟩

variable {n'' : BasicNat}

theorem Fixed.trans (h : Fixed n n') (h' : Fixed n' n'') :
  Fixed n n''
  := ⟨h'.addresses.trans h.addresses, h'.timeout.trans h.timeout⟩

theorem Fixed.estate_eq (h : Fixed n n') :
  n'.estate = n.estate
  := by
  have hpool : n'.poolOf = n.poolOf := by
    funext a
    rw [poolOf, poolOf, h.addresses]
  rw [estate, estate, h.addresses, hpool]

/-! ### Pointers -/

theorem deref_table (n : BasicNat) (h : FlowHandle) :
  n.deref ⟨false, h⟩ = n.table.lookup h
  := rfl

theorem deref_old (n : BasicNat) (h : FlowHandle) :
  n.deref ⟨true, h⟩ = n.old.bind fun old => old.lookup h
  := rfl

theorem deref_congr (hold : n'.old = n.old) (hlook : n'.table.lookup = n.table.lookup) :
  n'.deref = n.deref
  := by
  funext ⟨inOld, h⟩
  cases inOld with
  | true => rw [deref_old, hold, deref_old]
  | false => rw [deref_table, hlook, deref_table]

variable {v : Option Binding}

/-- The book after a change to the current table. -/
theorem deref_update_table (hlook : n'.table.lookup = update n.table.lookup h v)
    (hold : ∀ h', n'.deref ⟨true, h'⟩ = n.deref ⟨true, h'⟩) :
  n'.deref = update n.deref ⟨false, h⟩ v
  := by
  funext ⟨inOld, h'⟩
  rw [update_apply]
  cases inOld with
  | true => rw [hold, if_neg (by simp)]
  | false =>
  rw [deref_table, hlook, update_apply, deref_table]
  simp

theorem deref_update_old {old old' : WorkerFlowTable Endpoint Binding}
    (htable : n'.table.lookup = n.table.lookup) (hold : n.old = some old) (hold' : n'.old = some old')
    (hlook : old'.lookup = update old.lookup h v) :
  n'.deref = update n.deref ⟨true, h⟩ v
  := by
  funext ⟨inOld, h'⟩
  rw [update_apply]
  cases inOld with
  | true =>
    rw [deref_old, hold', deref_old, hold, bind_some, hlook, update_apply]
    simp
  | false =>
    rw [deref_table, htable, if_neg (by simp), deref_table]

section

variable (wf : n.WF S leaked) {book : Book}

include wf

/-- A lookup by key finds the binding that has the endpoint. -/
theorem WF.findAny (e : Endpoint) :
  (∃ r b, n.deref r = some b ∧ b.Has e ∧ n.findAny S e = some r)
    ∨ ¬ Book.Bound n.deref e ∧ n.findAny S e = none
  := by
  rw [BasicNat.findAny]
  rcases wf.table.findIn false e with ⟨h, b, hb, he, _, hfind⟩ | ⟨hnone, _, hfind⟩
  · exact .inl ⟨⟨false, h⟩, b, hb, he, by rw [hfind, some_or]⟩
  rw [hfind]
  rcases hold : n.old with _ | old
  · right
    refine ⟨?_, rfl⟩
    rintro ⟨⟨inOld, h⟩, b, hb, he⟩
    cases inOld with
    | true =>
      rw [deref_old, hold] at hb
      cases hb
    | false => exact hnone h b hb he
  rw [bind_some]
  rcases (wf.old hold).findIn true e with ⟨h, b, hb, he, _, hfind'⟩ | ⟨hnone', _, hfind'⟩
  · refine .inl ⟨⟨true, h⟩, b, ?_, he, hfind'⟩
    rw [deref_old, hold, bind_some, hb]
  right
  refine ⟨?_, hfind'⟩
  rintro ⟨⟨inOld, h⟩, b, hb, he⟩
  cases inOld with
  | true =>
    rw [deref_old, hold] at hb
    exact hnone' h b hb he
  | false => exact hnone h b hb he

theorem WF.findAny_eq_some :
  n.findAny S e = some r ↔ ∃ b, n.deref r = some b ∧ b.Has e
  := by
  rcases wf.findAny e with ⟨r', b', hb', he', hfind⟩ | ⟨hbound, hfind⟩
  · rw [hfind]
    constructor
    · intro h
      cases h
      exact ⟨b', hb', he'⟩
    rintro ⟨b, hb, he⟩
    rw [wf.ordered.apart hb' hb he' he]
  rw [hfind]
  constructor
  · intro h
    cases h
  rintro ⟨b, hb, he⟩
  exact absurd ⟨r, b, hb, he⟩ hbound

theorem WF.find_eq_some :
  n.find S e = some b ↔ ∃ r, n.deref r = some b ∧ b.Has e
  := by
  rw [find, bind_eq_some_iff]
  constructor
  · rintro ⟨r, hr, hb⟩
    obtain ⟨b', hb', he⟩ := wf.findAny_eq_some.mp hr
    rw [hb] at hb'
    cases hb'
    exact ⟨r, hb, he⟩
  rintro ⟨r, hb, he⟩
  exact ⟨r, wf.findAny_eq_some.mpr ⟨b, hb, he⟩, hb⟩

/-! ### Writes -/

/-- The tables and the book of a NAT, and what it knows of its addresses. -/
theorem WF.of_parts {leaked' : Set (ℕ × ℕ)} (fixed : Fixed n n')
    (table : Filed S n'.table) (old : ∀ {old}, n'.old = some old → Filed S old)
    (hbook : n'.deref = book) (ordered : book.Ordered n.estate n'.ports leaked') :
  n'.WF S leaked'
  := by
  refine ⟨table, old, ?_, ?_, ?_⟩
  · rw [fixed.addresses]
    exact wf.ranges
  · rw [fixed.addresses]
    exact wf.addresses
  rw [fixed.estate_eq, hbook]
  exact ordered

/-- A call that changes the current table and the ports. -/
theorem WF.of_table (fixed : Fixed n n') (table : Filed S n'.table) (hold : n'.old = n.old)
    (hbook : n'.deref = book) (ordered : book.Ordered n.estate n'.ports leaked) :
  n'.WF S leaked
  := by
  refine wf.of_parts fixed table ?_ hbook ordered
  intro old h
  rw [hold] at h
  exact wf.old h

theorem WF.write (r : BindingRef) {g : Binding → Binding} (hg : ∀ b : Binding, b.Same (g b)) :
  (n.write r g).WF S leaked ∧ Fixed n (n.write r g)
    ∧ (n.write r g).deref = update n.deref r ((n.deref r).map g)
  := by
  have fixed : Fixed n (n.write r g) := by
    rw [BasicNat.write]
    split <;> exact ⟨rfl, rfl⟩
  obtain ⟨inOld, h⟩ := r
  cases inOld with
  | false =>
    obtain ⟨filed, _, hlook⟩ := wf.table.modify h hg
    have hderef : (n.write ⟨false, h⟩ g).deref
        = update n.deref ⟨false, h⟩ ((n.deref ⟨false, h⟩).map g) :=
      deref_update_table hlook (fun _ => rfl)
    exact ⟨wf.of_table fixed filed rfl hderef (wf.ordered.write hg _), fixed, hderef⟩
  | true =>
  rcases hold : n.old with _ | old
  case none =>
    have hsame : n.write ⟨true, h⟩ g = n := by
      rw [BasicNat.write, if_pos rfl, hold, map_none, ← hold]
    rw [hsame]
    refine ⟨wf, .refl n, ?_⟩
    rw [deref_old, hold, bind_none, map_none]
    symm
    rw [update_eq_self_iff, deref_old, hold, bind_none]
  case some =>
  obtain ⟨filed, _, hlook⟩ := (wf.old hold).modify h hg
  have hold' : (n.write ⟨true, h⟩ g).old = some (old.modify h g) := by
    rw [BasicNat.write, if_pos rfl, hold, map_some]
  have hval : (n.deref ⟨true, h⟩).map g = (old.lookup h).map g := by
    rw [deref_old, hold, bind_some]
  have hderef : (n.write ⟨true, h⟩ g).deref
      = update n.deref ⟨true, h⟩ ((n.deref ⟨true, h⟩).map g) :=
    deref_update_old rfl hold hold' (by rw [hval, hlook])
  refine ⟨wf.of_parts fixed wf.table ?_ hderef (wf.ordered.write hg _), fixed, hderef⟩
  intro old' h'
  rw [hold'] at h'
  cases h'
  exact filed

end

/-! ### New bindings -/

/-- What a timer of the NAT is for. -/
def keyOf (S : OwnedStore) (internal : Endpoint) (handle : FlowHandle) : WheelKey :=
  if S.kGrowable then .endpoint internal else .handle handle

/-- A new binding for `internal` in the current table, with its timer. -/
structure Opened (S : OwnedStore) (n n' : BasicNat) (internal : Endpoint) (now : Time)
    (r : BindingRef) (b : Binding) : Prop where
  new : n.deref r = none
  current : r.inOld = false
  book : n'.deref = update n.deref r (some b)
  internal_eq : b.internal = internal
  refreshed : b.lastRefresh = now
  unused : b.packets = 0 ∧ b.bytes = 0
  timer : n.wheel.schedule (after now n.timeout) (keyOf S internal r.handle) = (n'.wheel, b.timer)
  armed : b.timer ≠ kNoExpiry

/-- The parts of a NAT that creating a binding does not touch. -/
structure Untouched (n n' : BasicNat) : Prop extends Fixed n n' where
  old : n'.old = n.old
  cursor : n'.cursor = n.cursor
  log : n'.log = n.log
  report : n'.reportRequested = n.reportRequested

theorem Untouched.refl (n : BasicNat) :
  Untouched n n
  := ⟨.refl n, rfl, rfl, rfl, rfl⟩

theorem Untouched.trans (h : Untouched n n') (h' : Untouched n' n'') :
  Untouched n n''
  := ⟨h.toFixed.trans h'.toFixed, h'.old.trans h.old, h'.cursor.trans h.cursor,
    h'.log.trans h.log, h'.report.trans h.report⟩

/-- What trying to create a binding does: a verdict and nothing else, or a binding. -/
structure Tried (S : OwnedStore) (leaked : Set (ℕ × ℕ)) (n : BasicNat) (internal : Endpoint) (now : Time)
    (res : BasicNat × Except Verdict BindingRef) : Prop where
  wf : res.1.WF S leaked
  untouched : Untouched n res.1
  refused : ∀ verdict, res.2 = .error verdict →
    verdict ≠ .translated ∧ res.1.deref = n.deref ∧ res.1.wheel = n.wheel
  opened : ∀ r, res.2 = .ok r → ∃ b, Opened S n res.1 internal now r b

theorem Tried.error {internal : Endpoint} {verdict : Verdict} (wf : n'.WF S leaked)
    (untouched : Untouched n n') (hderef : n'.deref = n.deref) (hwheel : n'.wheel = n.wheel)
    (hverdict : verdict ≠ .translated) :
  Tried S leaked n internal now (n', .error verdict)
  := by
  refine ⟨wf, untouched, ?_, ?_⟩
  · rintro _ ⟨⟩
    exact ⟨hverdict, hderef, hwheel⟩
  · rintro _ ⟨⟩

theorem schedule_refused {c : Shape} {P : Type} {w w' : Wheel c P} {deadline : c.Tick} {p : P}
    (h : w.schedule deadline p = (w', kNoExpiry)) :
  w' = w
  := by
  rw [Wheel.schedule] at h
  split at h
  · exact (Prod.mk.inj h).1.symm
  case isFalse hfree =>
  have hid := congrArg ExpiryHandle.id (Prod.mk.inj h).2
  exact absurd hid hfree

end BasicNat

theorem PortPool.bit_release {pool : PortPool} {map port : ℕ} (hfree : pool.bit map port = false)
    (map' port' : ℕ) :
  ((pool.setBit map port true).setBit map port false).bit map' port' = pool.bit map' port'
  := by
  rw [bit_setBit, bit_setBit]
  by_cases h : map' = map ∧ port' = port
  · rw [if_pos h, h.1, h.2, hfree]
  · rw [if_neg h, if_neg h]

namespace BasicNat

theorem portSpan_le {range : PortRange} (h : range.bound ≤ 65536) (protocol port : BitVec 16) :
  (portSpan range protocol port).2 ≤ 65536
  := by
  rw [portSpan]
  split
  · exact h
  split
  · simp only
    omega
  · exact h

variable {internal : Endpoint} {a : ℕ}

/-- The end of a successful creation: the binding is in the table and its port is marked. -/
theorem WF.arm (wf : n.WF S leaked) {external : Endpoint} {ports : PortPool}
    {table : WorkerFlowTable Endpoint Binding}
    (haddr : a < n.addresses.length ∧ external.addr = addrAt n.addresses a)
    (hproto : external.protocol = internal.protocol)
    (hfree : n.ports.bit (bitmap (n.poolOf a) internal.protocol) external.port.toNat = false)
    (hports : ports = n.ports.setBit (bitmap (n.poolOf a) internal.protocol)
      external.port.toNat true) (filed : Filed S table) (hnew : n.table.lookup h = none)
    (hlook : table.lookup = update n.table.lookup h
      (some (.make internal external a now))) (hproper : internal ≠ external)
    (hinternal : ¬ Book.Bound n.deref internal) (hext : ¬ Book.Bound n.deref external) :
  Tried S leaked n internal now
    (arm S { n with ports := ports, table := table } internal external a now h)
  := by
  rw [BasicNat.arm]
  rcases hschedule : n.wheel.schedule (after now n.timeout) (keyOf S internal h) with ⟨wheel, timer⟩
  rw [keyOf] at hschedule
  simp only [hschedule]
  split
  case isTrue hrefused =>
    subst hrefused
    obtain ⟨filed', _, hlook', _⟩ := filed.eraseHandle h
    have hkept : (table.eraseHandle S.traits h).1.lookup = n.table.lookup := by
      rw [hlook', hlook, update_idem, ← hnew, update_eq_self]
    refine .error ?_ ⟨⟨rfl, rfl⟩, rfl, rfl, rfl, rfl⟩ (deref_congr rfl hkept)
      (schedule_refused hschedule) (by decide)
    refine wf.of_table ⟨rfl, rfl⟩ filed' rfl (deref_congr (n := n) rfl hkept) ?_
    apply wf.ordered.congr
    rw [hports]
    exact bit_release hfree
  case isFalse harmed =>
  obtain ⟨filed', _, hlook'⟩ := filed.modify h (g := fun b => { b with timer := timer })
    (fun _ => ⟨rfl, rfl, rfl⟩)
  have hbook : (table.modify h fun b => { b with timer := timer }).lookup
      = update n.table.lookup h
        (some { Binding.make internal external a now with timer := timer }) := by
    rw [hlook', hlook, update_idem, update_self, map_some]
  have hplace : (Binding.make internal external a now).place n.poolOf
      = (bitmap (n.poolOf a) internal.protocol, external.port.toNat) := by
    rw [Binding.place, Binding.make, hproto]
  refine ⟨?_, ⟨⟨rfl, rfl⟩, rfl, rfl, rfl, rfl⟩, (fun _ hres => by cases hres), ?_⟩
  · refine wf.of_table ⟨rfl, rfl⟩ filed' rfl (deref_update_table hbook (fun _ => rfl)) ?_
    refine wf.ordered.add hnew hinternal hext hproper ⟨haddr.1, haddr.2, hproto⟩ ?_ ?_
    · change n.ports.bit ((Binding.make internal external a now).place n.poolOf).1 _ = false
      rw [hplace]
      exact hfree
    intro map port
    change ports.bit map port
      = if (map, port) = (Binding.make internal external a now).place n.poolOf then true else _
    rw [hplace, hports, bit_setBit]
    simp only [Prod.mk.injEq]
  intro r hr
  cases hr
  exact ⟨_, hnew, rfl, deref_update_table hbook (fun _ => rfl), rfl, rfl, ⟨rfl, rfl⟩, hschedule, harmed⟩

/-- The state of the random generator is no part of the invariant. -/
theorem WF.reseed (wf : n.WF S leaked) (seed : BitVec 64) :
  BasicNat.WF S leaked { n with rng := seed }
  := { wf with }

theorem Tried.reseed (seed : BitVec 64) {res : BasicNat × Except Verdict BindingRef}
    (h : Tried S leaked { n with rng := seed } internal now res) :
  Tried S leaked n internal now res
  := by
  refine ⟨h.wf, ?_, h.refused, ?_⟩
  · have hrng : Untouched n { n with rng := seed } := ⟨⟨rfl, rfl⟩, rfl, rfl, rfl, rfl⟩
    exact hrng.trans h.untouched
  intro r hr
  obtain ⟨b, opened⟩ := h.opened r hr
  exact ⟨b, { opened with }⟩

variable (wf : n.WF S leaked)

include wf

/-- No binding of either table has an endpoint that neither table has. -/
theorem WF.not_bound (htable : ∀ h b, n.table.lookup h = some b → ¬ b.Has e)
    (hold : (n.old.bind fun old => findIn S old true e) = none) :
  ¬ Book.Bound n.deref e
  := by
  rintro ⟨⟨inOld, h⟩, b, hb, he⟩
  cases inOld with
  | false => exact htable h b hb he
  | true =>
  rw [deref_old, bind_eq_some_iff] at hb
  obtain ⟨old, hold', hb⟩ := hb
  rw [hold', bind_some] at hold
  rcases (wf.old hold').findIn true e with ⟨_, _, _, _, _, hfind⟩ | ⟨hnone, _⟩
  · rw [hold] at hfind
    cases hfind
  · exact hnone h b hb he

theorem WF.bindRanges (now : Time) (ha : a < n.addresses.length)
    (hinternal : ¬ Book.Bound n.deref internal) {ranges : List PortRange}
    (hranges : ∀ range ∈ ranges, range.bound ≤ 65536) :
  Tried S leaked n internal now (bindRanges S internal now a n ranges)
  := by
  induction ranges generalizing n with
  | nil =>
    exact .error wf (.refl n) rfl rfl (by decide)
  | cons range ranges ih =>
  have hrest : ∀ range ∈ ranges, range.bound ≤ 65536 := fun range h =>
    hranges range (List.mem_cons_of_mem _ h)
  rw [BasicNat.bindRanges]
  split
  case isTrue => exact ih wf ha hinternal hrest
  case isFalse =>
  rcases random n.rng with ⟨seed, start⟩
  apply Tried.reseed seed
  have wf' := wf.reseed seed
  simp only
  split
  case h_1 hnone => exact ih wf' ha hinternal hrest
  case h_2 port ports hsome =>
  obtain ⟨_, hport, hfree, rfl⟩ := allocate_some hsome
  have hbound := portSpan_le (hranges range List.mem_cons_self) internal.protocol internal.port
  have hnat : (BitVec.ofNat 16 port).toNat = port := by
    rw [BitVec.toNat_ofNat, Nat.mod_eq_of_lt (by omega)]
  have hreleased := bit_release hfree
  have hkept : BasicNat.WF S leaked { n with
      rng := seed
      ports := (n.ports.setBit (bitmap (n.poolOf a) internal.protocol) port true).release
        (n.poolOf a) internal.protocol port } :=
    wf'.of_table ⟨rfl, rfl⟩ wf'.table rfl rfl (wf'.ordered.congr hreleased)
  split
  case isTrue =>
    exact .error hkept ⟨⟨rfl, rfl⟩, rfl, rfl, rfl, rfl⟩ rfl rfl (by decide)
  case isFalse hold =>
  have hold := not_isSome_iff_eq_none.mp hold
  split
  case isTrue =>
    exact .error hkept ⟨⟨rfl, rfl⟩, rfl, rfl, rfl, rfl⟩ rfl rfl (by split <;> decide)
  case isFalse hcreated =>
  rcases wf.table.emplace (.make internal
    ⟨addrAt n.addresses a, BitVec.ofNat 16 port, internal.protocol⟩ a now) with
    ⟨_, filed, _, hnew, hlook, hproper, hapart⟩ | ⟨hstatus, _⟩
  · refine wf'.arm ⟨ha, rfl⟩ rfl ?_ ?_ filed hnew hlook hproper hinternal ?_
    · rw [hnat]
      exact hfree
    · rw [hnat]
    · exact wf'.not_bound (fun h b hb => (hapart h b hb).2) hold
  · exact absurd hstatus hcreated

theorem WF.bindLocked (now : Time) (hinternal : ¬ Book.Bound n.deref internal)
    :
  Tried S leaked n internal now (n.bindLocked S internal now)
  := by
  rw [BasicNat.bindLocked]
  split
  case isTrue => exact .error wf (.refl n) rfl rfl (by decide)
  case isFalse =>
  split
  case isTrue => exact .error wf (.refl n) rfl rfl (by decide)
  case isFalse =>
  split
  case h_1 r hr =>
    -- The endpoint would be bound in the old table.
    obtain ⟨old, hold, hfind⟩ := bind_eq_some_iff.mp hr
    rcases (wf.old hold).findIn true internal with ⟨h, b, hb, he, _⟩ | ⟨_, _, hnone⟩
    · refine absurd ⟨⟨true, h⟩, b, ?_, he⟩ hinternal
      rw [deref_old, hold, bind_some, hb]
    rw [hfind] at hnone
    cases hnone
  case h_2 =>
  have ha : n.pickAddress S internal.addr < n.addresses.length := by
    apply Nat.mod_lt
    exact List.length_pos_of_ne_nil wf.addresses
  refine wf.bindRanges now ha hinternal ?_
  rw [List.getD_eq_getElem?_getD, List.getElem?_map]
  intro range hrange
  rw [List.getElem?_eq_getElem ha] at hrange
  exact wf.ranges _ (List.getElem_mem ha) range hrange

theorem WF.bind (now : Time) (hinternal : ¬ Book.Bound n.deref internal) :
  Tried S leaked n internal now (n.bind S internal now)
  := by
  rw [BasicNat.bind]
  split
  · exact .error wf (.refl n) rfl rfl (by decide)
  · exact wf.bindLocked now hinternal

end BasicNat

end Napt
