import Bess.Napt.Invariant

/-!
# The calls of the NAT

What a translation and the end of a timer do to the book of a NAT, each as one relation between the
state before and what the call gives back. A batch of translations is the translations one by one:
its early lookups stay good, because a translation ends no binding and moves none.
-/

namespace Napt

open Expiry Flow Function Option BasicNat

namespace BasicNat

variable {S : OwnedStore} {leaked : Set (ℕ × ℕ)} {n n' n'' : BasicNat} {e : Endpoint}
  {r : BindingRef} {b : Binding}

/-! ### Translations -/

/-- The parts of a NAT that a translation does not touch. -/
structure Steady (n n' : BasicNat) : Prop extends Fixed n n' where
  cursor : n'.cursor = n.cursor
  log : n'.log = n.log
  report : n'.reportRequested = n.reportRequested
  old : n'.old.isSome = n.old.isSome

theorem Steady.refl (n : BasicNat) :
  Steady n n
  := ⟨.refl n, rfl, rfl, rfl, rfl⟩

theorem Steady.trans (h : Steady n n') (h' : Steady n' n'') :
  Steady n n''
  := ⟨h.toFixed.trans h'.toFixed, h'.cursor.trans h.cursor, h'.log.trans h.log,
    h'.report.trans h.report, h'.old.trans h.old⟩

theorem Untouched.steady (h : Untouched n n') :
  Steady n n'
  := ⟨h.toFixed, h.cursor, h.log, h.report, by rw [h.old]⟩

theorem steady_write (n : BasicNat) (r : BindingRef) (g : Binding → Binding) :
  Steady n (n.write r g)
  := by
  rw [write]
  split
  · exact ⟨⟨rfl, rfl⟩, rfl, rfl, rfl, isSome_map⟩
  · exact ⟨⟨rfl, rfl⟩, rfl, rfl, rfl, rfl⟩

theorem wheel_write (n : BasicNat) (r : BindingRef) (g : Binding → Binding) :
  (n.write r g).wheel = n.wheel ∧ (n.write r g).ports = n.ports
  := by
  rw [write]
  split <;> exact ⟨rfl, rfl⟩

theorem same_countPacket (S : OwnedStore) (bytes : BitVec 16) (b : Binding) :
  b.Same (countPacket S bytes b)
  := by
  rw [countPacket]
  split <;> exact ⟨rfl, rfl, rfl⟩

/-- A packet in the forward direction keeps its binding alive. -/
def refreshed (dir : Direction) (now : Time) (b : Binding) : Binding :=
  if dir = .forward then { b with lastRefresh := now } else b

theorem same_refreshed (dir : Direction) (now : Time) (b : Binding) :
  b.Same (refreshed dir now b)
  := by
  rw [refreshed]
  split <;> exact ⟨rfl, rfl, rfl⟩

/-- The end of a translation through the binding under `r`: it is counted, and the packet carries
the binding's other side. -/
structure Carried (S : OwnedStore) (n n' : BasicNat) (f f' : Frame) (p : ParsedFrame)
    (dir : Direction) (before : Endpoint) (r : BindingRef) (b : Binding) : Prop where
  book : n'.deref = update n.deref r (some (countPacket S (f.be16 (p.l3Offset + 2)) b))
  frame : f' = rewrite f p.l3Offset p.l4Offset dir before
    (if dir = .forward then b.external else b.internal)
  wheel : n'.wheel = n.wheel
  ports : n'.ports = n.ports

theorem WF.carry (wf : n.WF S leaked) (f : Frame) (p : ParsedFrame) (dir : Direction) (before : Endpoint)
    (hb : n.deref r = some b) :
  ∃ n' f', n.carry S f p dir before r = (n', f', .translated) ∧ n'.WF S leaked ∧ Steady n n'
    ∧ Carried S n n' f f' p dir before r b
  := by
  obtain ⟨wf', _, hbook⟩ := wf.write r (same_countPacket S (f.be16 (p.l3Offset + 2)))
  obtain ⟨hwheel, hports⟩ := wheel_write n r (countPacket S (f.be16 (p.l3Offset + 2)))
  rw [hb] at hbook
  refine ⟨_, _, ?_, wf', steady_write .., hbook, rfl, hwheel, hports⟩
  rw [BasicNat.carry, hb]

/-- What a translation of a packet with endpoint `before` does. -/
inductive Finished (S : OwnedStore) (n : BasicNat) (f : Frame) (p : ParsedFrame) (dir : Direction)
    (now : Time) (before : Endpoint) : BasicNat × Frame × Verdict → Prop where
  | refused {n' : BasicNat} {verdict : Verdict} (hverdict : verdict ≠ .translated)
      (hbook : n'.deref = n.deref) (hwheel : n'.wheel = n.wheel) :
      Finished S n f p dir now before (n', f, verdict)
  | hit {m n' : BasicNat} {f' : Frame} {r : BindingRef} {b : Binding} (hb : n.deref r = some b)
      (hside : b.side dir = before)
      (hbook : m.deref = update n.deref r (some (refreshed dir now b)))
      (hwheel : m.wheel = n.wheel)
      (carried : Carried S m n' f f' p dir before r (refreshed dir now b)) :
      Finished S n f p dir now before (n', f', .translated)
  | opened {m n' : BasicNat} {f' : Frame} {r : BindingRef} {b : Binding} (hdir : dir = .forward)
      (hbefore : ¬ Book.Bound n.deref before) (opened : Opened S n m before now r b)
      (carried : Carried S m n' f f' p dir before r b) :
      Finished S n f p dir now before (n', f', .translated)

variable {dir : Direction} {before : Endpoint} {f f' : Frame} {p : ParsedFrame} {now : Time}
  {res : BasicNat × Frame × Verdict} {key : WheelKey} {m : BasicNat}

theorem Carried.binding (h : Carried S n n' f f' p dir before r b) (hside : b.side dir = before) :
  ∃ r b, n'.deref r = some b ∧ b.side dir = before
    ∧ f' = rewrite f p.l3Offset p.l4Offset dir before
      (if dir = .forward then b.external else b.internal)
  := by
  have hsame := same_countPacket S (f.be16 (p.l3Offset + 2)) b
  refine ⟨r, _, ?_, (hsame.side_eq dir).trans hside, ?_⟩
  · rw [h.book, update_self]
  · rw [h.frame, hsame.1, hsame.2.1]

/-- A packet that was translated: the binding that carried it, and what it carries now. -/
theorem Finished.translated (h : Finished S n f p dir now before (n', f', .translated)) :
  ∃ r b, n'.deref r = some b ∧ b.side dir = before
    ∧ f' = rewrite f p.l3Offset p.l4Offset dir before
      (if dir = .forward then b.external else b.internal)
  := by
  cases h with
  | refused hverdict => exact absurd rfl hverdict
  | hit _ hside _ _ carried =>
    exact carried.binding (((same_refreshed dir now _).side_eq dir).trans hside)
  | opened hdir _ opened carried =>
  apply carried.binding
  rw [hdir]
  exact opened.internal_eq

/-- A packet whose endpoint belongs to another mapping. -/
theorem finish_other (n : BasicNat) (f : Frame) (p : ParsedFrame) (dir : Direction) (now : Time)
    (hb : n.deref r = some b) (hside : b.side dir ≠ before) :
  ∃ verdict, n.finish S f p dir now before (some r) = (n, f, verdict) ∧ verdict ≠ .translated
  := by
  have hown : ((some r).filter fun r => (n.deref r).map (Binding.side · dir) = some before)
      = none := by
    rw [filter_some, hb]
    simpa using hside
  unfold finish
  rw [hown]
  cases dir with
  | forward | reverse => exact ⟨_, rfl, by decide⟩

theorem finish_own (n : BasicNat) (f : Frame) (p : ParsedFrame) (dir : Direction) (now : Time)
    (hb : n.deref r = some b) (hside : b.side dir = before) :
  n.finish S f p dir now before (some r)
    = (if dir = .forward then n.write r (refreshed .forward now) else n).carry S f p dir before r
  := by
  have hown : ((some r).filter fun r => (n.deref r).map (Binding.side · dir) = some before)
      = some r := by
    rw [filter_some, hb, map_some, hside, if_pos (decide_eq_true rfl)]
  unfold finish
  rw [hown]
  cases dir with
  | forward | reverse => rfl

theorem WF.hit (wf : n.WF S leaked) (f : Frame) (p : ParsedFrame) (now : Time)
    (hb : n.deref r = some b) (hside : b.side dir = before) :
  ∃ n' f', n.finish S f p dir now before (some r) = (n', f', .translated) ∧ n'.WF S leaked
    ∧ Steady n n' ∧ Finished S n f p dir now before (n', f', .translated)
    ∧ f' = rewrite f p.l3Offset p.l4Offset dir before
      (if dir = .forward then b.external else b.internal)
  := by
  obtain ⟨m, hm⟩ : ∃ m, m = if dir = .forward then n.write r (refreshed .forward now) else n :=
    ⟨_, rfl⟩
  obtain ⟨wfm, steadym, hbook, hwheel⟩ : m.WF S leaked ∧ Steady n m
      ∧ m.deref = update n.deref r (some (refreshed dir now b))
      ∧ m.wheel = n.wheel := by
    cases dir with
    | forward =>
      obtain ⟨wf', _, hbook⟩ := wf.write r (same_refreshed .forward now)
      rw [hb] at hbook
      rw [hm]
      exact ⟨wf', steady_write .., hbook, (wheel_write ..).1⟩
    | reverse =>
    rw [hm]
    refine ⟨wf, .refl n, ?_, rfl⟩
    exact (update_eq_self_iff.mpr hb.symm).symm
  obtain ⟨n', f', hcarry, wf', steady, carried⟩ :=
    wfm.carry f p dir before (by rw [hbook, update_self])
  have hsame := same_refreshed dir now b
  refine ⟨n', f', ?_, wf', steadym.trans steady, .hit hb hside hbook hwheel carried, ?_⟩
  · rw [finish_own n f p dir now hb hside, ← hm, hcarry]
  · rw [carried.frame, hsame.1, hsame.2.1]

theorem WF.finish (wf : n.WF S leaked) (f : Frame) (p : ParsedFrame) (dir : Direction) (now : Time)
    (before : Endpoint) :
  let res := n.finish S f p dir now before (n.findAny S before)
  res.1.WF S leaked ∧ Steady n res.1 ∧ Finished S n f p dir now before res
  := by
  rcases wf.findAny before with ⟨r, b, hb, he, hfind⟩ | ⟨hbefore, hfind⟩
  · by_cases hside : b.side dir = before
    · obtain ⟨n', f', hres, wf', steady, finished, _⟩ := wf.hit f p now hb hside
      rw [hfind, hres]
      exact ⟨wf', steady, finished⟩
    obtain ⟨verdict, hres, hverdict⟩ := finish_other n f p dir now hb hside
    rw [hfind, hres]
    exact ⟨wf, .refl n, .refused hverdict rfl rfl⟩
  rw [hfind]
  cases dir with
  | reverse => exact ⟨wf, .refl n, .refused (by decide) rfl rfl⟩
  | forward =>
  have tried := wf.bind now hbefore
  unfold BasicNat.finish
  rcases hbind : n.bind S before now with ⟨m, verdict | r⟩
  · rw [hbind] at tried
    obtain ⟨hverdict, hbook, hwheel⟩ := tried.refused verdict rfl
    exact ⟨tried.wf, tried.untouched.steady, .refused hverdict hbook hwheel⟩
  rw [hbind] at tried
  obtain ⟨b, opened⟩ := tried.opened r rfl
  obtain ⟨n', f', hcarry, wf', steady, carried⟩ :=
    tried.wf.carry f p .forward before (by rw [opened.book, update_self])
  simp only [hcarry]
  exact ⟨wf', tried.untouched.steady.trans steady, .opened rfl hbefore opened carried⟩

/-- Every binding is still there, under the same pointer and with the same endpoints. -/
def Grown (n n' : BasicNat) : Prop :=
  ∀ r b, n.deref r = some b → ∃ b', n'.deref r = some b' ∧ b.Same b'

theorem Grown.refl (n : BasicNat) :
  Grown n n
  := fun _ b hb => ⟨b, hb, rfl, rfl, rfl⟩

theorem Grown.trans (h : Grown n n') (h' : Grown n' n'') :
  Grown n n''
  := by
  intro r b hb
  obtain ⟨b', hb', hinternal, hext, haddr⟩ := h r b hb
  obtain ⟨b'', hb'', hinternal', hext', haddr'⟩ := h' r b' hb'
  exact ⟨b'', hb'', hinternal'.trans hinternal, hext'.trans hext, haddr'.trans haddr⟩

/-- Only the entry of one pointer changes, and a binding there keeps its endpoints. -/
theorem Grown.of_update {v : Option Binding} (hbook : n'.deref = update n.deref r v)
    (hv : ∀ b, n.deref r = some b → ∃ b', v = some b' ∧ b.Same b') :
  Grown n n'
  := by
  intro r' b hb
  rw [hbook, update_apply]
  split
  case isTrue heq =>
    rw [heq] at hb
    exact hv b hb
  case isFalse => exact ⟨b, hb, rfl, rfl, rfl⟩

/-- Nothing comes to the old table, and the walk over it does not go on. -/
structure Shrinks (n n' : BasicNat) : Prop where
  cursor : n'.cursor = n.cursor
  old : ∀ {h b'}, n'.deref ⟨true, h⟩ = some b' → ∃ b, n.deref ⟨true, h⟩ = some b

theorem Shrinks.refl (n : BasicNat) :
  Shrinks n n
  := ⟨rfl, fun h => ⟨_, h⟩⟩

theorem Shrinks.trans (h : Shrinks n n') (h' : Shrinks n' n'') :
  Shrinks n n''
  := by
  refine ⟨h'.cursor.trans h.cursor, ?_⟩
  intro handle b'' hb''
  obtain ⟨b', hb'⟩ := h'.old hb''
  exact h.old hb'

theorem Carried.grown (h : Carried S n n' f f' p dir before r b) (hb : n.deref r = some b) :
  Grown n n'
  := by
  apply Grown.of_update h.book
  intro b' hb'
  rw [hb] at hb'
  cases hb'
  exact ⟨_, rfl, same_countPacket ..⟩

theorem Finished.grown (h : Finished S n f p dir now before res)
    :
  Grown n res.1
  := by
  cases h with
  | refused _ hbook =>
    intro r b hb
    rw [← hbook] at hb
    exact ⟨b, hb, rfl, rfl, rfl⟩
  | hit hb hside hbook hwheel carried =>
    have hrefresh := Grown.of_update hbook (by
      intro b' hb'
      rw [hb] at hb'
      cases hb'
      exact ⟨_, rfl, same_refreshed ..⟩)
    exact hrefresh.trans (carried.grown (by rw [hbook, update_self]))
  | opened _ _ opened carried =>
  have hopen := Grown.of_update opened.book (by
    intro b' hb'
    rw [opened.new] at hb'
    cases hb')
  exact hopen.trans (carried.grown (by rw [opened.book, update_self]))

theorem Finished.shrinks (h : Finished S n f p dir now before res) (steady : Steady n res.1) :
  Shrinks n res.1
  := by
  refine ⟨steady.cursor, ?_⟩
  intro handle b' hb'
  cases h with
  | refused _ hbook =>
    rw [hbook] at hb'
    exact ⟨b', hb'⟩
  | hit hb _ hbook _ carried =>
    rw [carried.book, hbook, update_idem, update_apply] at hb'
    split at hb'
    case isTrue heq =>
      rw [heq]
      exact ⟨_, hb⟩
    case isFalse => exact ⟨b', hb'⟩
  | opened _ _ opened carried =>
  rw [carried.book, opened.book, update_idem, update_of_ne] at hb'
  · exact ⟨b', hb'⟩
  intro heq
  have hcur := opened.current
  rw [← heq] at hcur
  cases hcur

/-- What a translation does: it is refused before the lookup, or finished. -/
theorem WF.translate (wf : n.WF S leaked) (f : Frame) (p : ParsedFrame) (dir : Direction) (now : Time) :
  (n.translate S f p dir now).1.WF S leaked ∧ Steady n (n.translate S f p dir now).1
    ∧ Grown n (n.translate S f p dir now).1 ∧ Shrinks n (n.translate S f p dir now).1
  := by
  rw [BasicNat.translate]
  split
  case h_1 => exact ⟨wf, .refl n, .refl n, .refl n⟩
  case h_2 before _ =>
  obtain ⟨wf', steady, finished⟩ := wf.finish f p dir now before
  exact ⟨wf', steady, finished.grown, finished.shrinks steady⟩

theorem WF.translates (wf : n.WF S leaked) (f : Frame) (now : Time)
    (hbefore : endpointOf p dir = .ok before) (hb : n.deref r = some b)
    (hside : b.side dir = before) :
  ∃ n', n.translate S f p dir now = (n', rewrite f p.l3Offset p.l4Offset dir before
    (if dir = .forward then b.external else b.internal), .translated)
  := by
  have hhas : b.Has before := by
    cases dir with
    | forward => exact .inl hside.symm
    | reverse => exact .inr hside.symm
  obtain ⟨n', f', hres, _, _, _, hframe⟩ := wf.hit f p now hb hside
  refine ⟨n', ?_⟩
  rw [BasicNat.translate, hbefore]
  simp only [wf.findAny_eq_some.mpr ⟨b, hb, hhas⟩, hres, hframe]

/-! ### Batches -/

/-- The packets of a batch translated one after another. A frame that does not parse is not given
to `Translate`. -/
def translateEach (S : OwnedStore) (dir : Direction) (now : Time) :
    BasicNat → List Packet → BasicNat × List (Frame × Verdict)
  | n, [] => (n, [])
  | n, packet :: rest =>
      match packet.parsed with
      | none =>
          let (n, done) := translateEach S dir now n rest
          (n, (packet.frame, .unsupported) :: done)
      | some p =>
          let (n, f, verdict) := n.translate S packet.frame p dir now
          let (n, done) := translateEach S dir now n rest
          (n, (f, verdict) :: done)

/-- A pointer that the first loop found is the one that a lookup finds now. -/
theorem WF.findIn_or_findAny (wfm : m.WF S leaked) (wf : n.WF S leaked) (grown : Grown m n)
    (e : Endpoint) :
  (findIn S m.table false e).or (n.findAny S e) = n.findAny S e
  := by
  rcases wfm.table.findIn false e with ⟨h, b, hb, he, _, hfind⟩ | ⟨_, _, hfind⟩
  · obtain ⟨b', hb', hsame⟩ := grown ⟨false, h⟩ b hb
    rw [hfind]
    exact (wf.findAny_eq_some.mpr ⟨b', hb', (hsame.has_iff e).mpr he⟩).symm
  · rw [hfind, none_or]

theorem WF.finishAll (wfm : m.WF S leaked) (dir : Direction) (now : Time)
    (packets : List Packet) (wf : n.WF S leaked) (grown : Grown m n) :
  let res := finishAll S dir now n
    (packets.map fun packet => (packet.frame, m.lookupFirst S dir packet))
  res = translateEach S dir now n packets ∧ res.1.WF S leaked ∧ Steady n res.1 ∧ Grown n res.1
    ∧ Shrinks n res.1
  := by
  induction packets generalizing n with
  | nil => exact ⟨rfl, wf, .refl n, .refl n, .refl n⟩
  | cons packet packets ih =>
  rw [List.map_cons]
  rcases hparsed : packet.parsed with _ | p
  · obtain ⟨heq, rest⟩ := ih wf grown
    simp only [lookupFirst, hparsed, translateEach]
    rw [← heq]
    exact ⟨rfl, rest⟩
  rcases hbefore : endpointOf p dir with why | before
  · obtain ⟨heq, rest⟩ := ih wf grown
    simp only [lookupFirst, hparsed, hbefore, translateEach, BasicNat.translate]
    rw [← heq]
    exact ⟨rfl, rest⟩
  obtain ⟨wfn, steadyn, finished⟩ := wf.finish packet.frame p dir now before
  obtain ⟨heq, wf', steady, grown', shrinks⟩ := ih wfn (grown.trans finished.grown)
  simp only [lookupFirst, hparsed, hbefore, Except.map, finishAll, translateEach,
    BasicNat.translate, wfm.findIn_or_findAny wf grown]
  rw [← heq]
  exact ⟨rfl, wf', steadyn.trans steady, finished.grown.trans grown',
    (finished.shrinks steadyn).trans shrinks⟩

theorem WF.translateBatch (wf : n.WF S leaked) (packets : List Packet) (dir : Direction) (now : Time) :
  n.translateBatch S packets dir now = translateEach S dir now n packets
    ∧ (n.translateBatch S packets dir now).1.WF S leaked
    ∧ Steady n (n.translateBatch S packets dir now).1
    ∧ Grown n (n.translateBatch S packets dir now).1
    ∧ Shrinks n (n.translateBatch S packets dir now).1
  := wf.finishAll dir now packets wf (.refl n)

/-! ### Timers -/

/-- The binding that a timer is for. -/
def Concerns : WheelKey → BindingRef → Binding → Prop
  | .handle h, r, _ => r = ⟨false, h⟩
  | .endpoint e, _, b => b.Has e

def finalRecord (b : Binding) : UsageRecord :=
  ⟨b.internal, b.external, b.packets, b.bytes, b.lastRefresh, true⟩

/-- The log after the end of a binding. -/
def Logged (S : OwnedStore) (n n' : BasicNat) (b : Binding) : Prop :=
  if S.kUsage then n.log.push (finalRecord b) = some n'.log else n'.log = n.log

/-- What the callback of `Expire` does for a timer. -/
inductive TimerEnd (S : OwnedStore) (n : BasicNat) (now : Time) (key : WheelKey) :
    BasicNat × Bool × Option Time → Prop where
  | absent (habsent : ∀ r b, n.deref r = some b → ¬ Concerns key r b) :
      TimerEnd S n now key (n, false, none)
  | early {r : BindingRef} {b : Binding} (hb : n.deref r = some b) (hkey : Concerns key r b)
      (hearly : 0 < diff (after b.lastRefresh n.timeout) now) :
      TimerEnd S n now key (n, false, some (after b.lastRefresh n.timeout))
  | logFull {r : BindingRef} {b : Binding} (hb : n.deref r = some b) (hkey : Concerns key r b)
      (hdue : ¬ 0 < diff (after b.lastRefresh n.timeout) now)
      (hlog : S.kUsage = true ∧ n.log.push (finalRecord b) = none) :
      TimerEnd S n now key (n, false, some (now + kLogRetry))
  | ended {r : BindingRef} {b : Binding} {n' : BasicNat} (hb : n.deref r = some b)
      (hkey : Concerns key r b) (hdue : ¬ 0 < diff (after b.lastRefresh n.timeout) now)
      (hlog : Logged S n n' b) (hbook : n'.deref = update n.deref r none)
      (hwheel : n'.wheel = n.wheel) :
      TimerEnd S n now key (n', true, none)

structure TimerStep (S : OwnedStore) (leaked : Set (ℕ × ℕ)) (n : BasicNat) (now : Time) (key : WheelKey)
    (res : BasicNat × Bool × Option Time) : Prop where
  ends : TimerEnd S n now key res
  wf : res.1.WF S leaked
  fixed : Fixed n res.1
  cursor : res.1.cursor = n.cursor

/-- The erasure of the binding that a key names. -/
structure Erased (S : OwnedStore) (n : BasicNat) (r : BindingRef) (res : BasicNat × Bool) :
    Prop where
  found : res.2 = true
  table : Filed S res.1.table
  old : ∀ {old}, res.1.old = some old → Filed S old
  book : res.1.deref = update n.deref r none

theorem WF.eraseByHandle (wf : n.WF S leaked) {h : FlowHandle} (hb : n.table.lookup h = some b) :
  Erased S n ⟨false, h⟩ (eraseByHandle S h n)
  := by
  obtain ⟨filed, _, hlook, hfound⟩ := wf.table.eraseHandle h
  refine ⟨?_, filed, ?_, deref_update_table hlook (fun _ => rfl)⟩
  · rw [BasicNat.eraseByHandle, hfound, hb, isSome_some]
  · exact wf.old

theorem WF.eraseByKey (wf : n.WF S leaked) (hb : n.deref r = some b) (he : b.Has e) :
  Erased S n r (eraseByKey S e n)
  := by
  obtain ⟨filed, _, htable⟩ := wf.table.erase e
  have hfiled : ∀ {old}, (BasicNat.eraseByKey S e n).1.old = some old → Filed S old := by
    intro old' hold'
    obtain ⟨p, hp, rfl⟩ := map_eq_some_iff.mp hold'
    obtain ⟨old, hold, rfl⟩ := map_eq_some_iff.mp hp
    exact ((wf.old hold).erase e).1
  obtain ⟨inOld, h⟩ := r
  cases inOld with
  | false =>
    -- The old table has no binding with this endpoint.
    rcases htable with ⟨h', b', hb', he', hlook, hfound⟩ | ⟨hnone, _⟩
    · obtain ⟨_, rfl⟩ := BindingRef.mk.inj (wf.ordered.apart (r := ⟨false, h'⟩) hb' hb he' he)
      refine ⟨?_, filed, hfiled, deref_update_table hlook ?_⟩
      · rw [BasicNat.eraseByKey]
        simp only [hfound, Bool.true_or]
      intro h'
      rw [deref_old, deref_old, eraseByKey]
      rcases hold : n.old with _ | old
      · rfl
      rcases ((wf.old hold).erase e).2.2 with ⟨h'', b'', hb'', he'', _⟩ | ⟨_, hlook', _⟩
      · have hderef : n.deref ⟨true, h''⟩ = some b'' := by
          rw [deref_old, hold, bind_some, hb'']
        cases wf.ordered.apart hderef hb he'' he
      · simp only [map_some, bind_some, hlook']
    · exact absurd he (hnone h b hb)
  | true =>
  obtain ⟨old, hold, hb'⟩ := bind_eq_some_iff.mp hb
  have hkeep : (n.table.erase S.traits e).1.lookup = n.table.lookup := by
    rcases htable with ⟨h', b', hb'', he', _⟩ | ⟨_, hlook, _⟩
    · cases wf.ordered.apart (r := ⟨false, h'⟩) hb'' hb he' he
    · exact hlook
  rcases ((wf.old hold).erase e).2.2 with ⟨h', b'', hb'', he', hlook, hfound⟩ | ⟨hnone, _⟩
  · have hderef : n.deref ⟨true, h'⟩ = some b'' := by
      rw [deref_old, hold, bind_some, hb'']
    obtain ⟨_, rfl⟩ := BindingRef.mk.inj (wf.ordered.apart hderef hb he' he)
    have hold' : (eraseByKey S e n).1.old = some (old.erase S.traits e).1 := by
      simp only [eraseByKey, hold, map_some]
    refine ⟨?_, filed, hfiled, deref_update_old hkeep hold hold' hlook⟩
    simp only [BasicNat.eraseByKey, hold, map_some, hfound, getD_some, Bool.or_true]
  · exact absurd he (hnone h b hb')

theorem logUsage_eq (n : BasicNat) (b : Binding) :
  n.logUsage S b none true
    = if S.kUsage then (n.log.push (finalRecord b)).map fun log => { n with log := log } else some n
  := by
  have hzero (v : BitVec 64) : v + 0 = v := BitVec.add_zero v
  simp only [logUsage, map_none, getD_none, hzero, finalRecord]

/-- A final record leaves everything but the log. -/
theorem logged_of_logUsage (h : n.logUsage S b none true = some n') :
  Logged S n n' b ∧ n' = { n with log := n'.log }
  := by
  rw [logUsage_eq] at h
  rw [Logged]
  split at h
  case isTrue husage =>
    obtain ⟨log, hpush, rfl⟩ := map_eq_some_iff.mp h
    rw [if_pos husage]
    exact ⟨hpush, rfl⟩
  case isFalse husage =>
  cases h
  rw [if_neg husage]
  exact ⟨rfl, rfl⟩

theorem bit_release_place (n : BasicNat) (b : Binding) (map port : ℕ) :
  (n.ports.release (n.poolOf b.addressIndex) b.external.protocol b.external.port.toNat).bit map port
    = if (map, port) = b.place n.estate.pool then false else n.ports.bit map port
  := by
  rw [PortPool.release, PortPool.bit_setBit, Binding.place]
  simp only [Prod.mk.injEq]
  rfl

theorem WF.endBinding (wf : n.WF S leaked) (now : Time) (hb : n.deref r = some b)
    (hkey : Concerns key r b) {remove : BasicNat → BasicNat × Bool}
    (hremove : Erased S n r (remove n))
    (hsame : ∀ log ports, remove { n with log := log, ports := ports }
      = ({ (remove n).1 with log := log, ports := ports }, (remove n).2))
    (hrest : (remove n).1 = { n with table := (remove n).1.table, old := (remove n).1.old }) :
  TimerStep S leaked n now key (n.endBinding S b none now remove)
  := by
  simp only [BasicNat.endBinding]
  rw [show lastOf b none = b.lastRefresh from rfl]
  by_cases hdue : 0 < diff (after b.lastRefresh n.timeout) now
  · rw [if_pos hdue]
    exact ⟨.early hb hkey hdue, wf, .refl n, rfl⟩
  rw [if_neg hdue]
  rcases hlog : n.logUsage S b none true with _ | m
  · refine ⟨.logFull hb hkey hdue ?_, wf, .refl n, rfl⟩
    rw [logUsage_eq] at hlog
    split at hlog
    case isTrue husage => exact ⟨husage, map_eq_none_iff.mp hlog⟩
    case isFalse => cases hlog
  obtain ⟨logged, hm⟩ := logged_of_logUsage hlog
  have hports : m.ports = n.ports := by rw [hm]
  have hpool : m.poolOf = n.poolOf := by rw [hm]; rfl
  obtain ⟨ports, hcleared⟩ : ∃ ports, ports = n.ports.release (n.poolOf b.addressIndex)
    b.external.protocol b.external.port.toNat := ⟨_, rfl⟩
  have hres : remove { m with ports := ports }
      = ({ (remove n).1 with log := m.log, ports := ports }, (remove n).2) := by
    rw [← hsame, hm]
  simp only [hports, hpool, ← hcleared, hres]
  have fixed : Fixed n (remove n).1 := by
    rw [hrest]
    exact ⟨rfl, rfl⟩
  rw [hremove.found]
  refine ⟨.ended hb hkey hdue logged hremove.book ?_, ?_, ⟨fixed.addresses, fixed.timeout⟩, ?_⟩
  · change (remove n).1.wheel = n.wheel
    rw [hrest]
  · exact wf.of_parts ⟨fixed.addresses, fixed.timeout⟩ hremove.table hremove.old hremove.book
      (wf.ordered.remove hb (hcleared ▸ bit_release_place n b))
  change (remove n).1.cursor = n.cursor
  rw [hrest]

theorem WF.expireKey (wf : n.WF S leaked) (now : Time) (key : WheelKey) :
  TimerStep S leaked n now key (n.expireKey S now key)
  := by
  cases key with
  | handle h =>
    rw [BasicNat.expireKey]
    rcases hb : n.table.lookup h with _ | b
    · refine ⟨.absent ?_, wf, .refl n, rfl⟩
      rintro r b hb' rfl
      rw [deref_table, hb] at hb'
      cases hb'
    have hkey : Concerns (.handle h) ⟨false, h⟩ b := rfl
    exact wf.endBinding now (r := ⟨false, h⟩) hb hkey (wf.eraseByHandle hb) (fun _ _ => rfl) rfl
  | endpoint e =>
  have hends {r : BindingRef} {b : Binding} (hb : n.deref r = some b) (he : b.Has e) :
      TimerStep S leaked n now (.endpoint e)
        (n.endBinding S b none now (BasicNat.eraseByKey S e)) := by
    have hkey : Concerns (.endpoint e) r b := he
    exact wf.endBinding now hb hkey (wf.eraseByKey hb he) (fun _ _ => rfl) rfl
  rw [BasicNat.expireKey]
  have hold : (∃ h b, n.deref ⟨true, h⟩ = some b ∧ b.Has e
        ∧ (n.old.bind fun old => old.find S.traits e) = some b)
      ∨ (∀ h b, n.deref ⟨true, h⟩ = some b → ¬ b.Has e)
        ∧ (n.old.bind fun old => old.find S.traits e) = none := by
    rcases hold : n.old with _ | old
    · refine .inr ⟨?_, rfl⟩
      intro h b hb
      rw [deref_old, hold] at hb
      cases hb
    simp only [deref_old, hold]
    rcases (wf.old hold).findIn true e with ⟨h, b, hb, he, hfind, _⟩ | ⟨hnone, hfind, _⟩
    · exact .inl ⟨h, b, hb, he, hfind⟩
    · exact .inr ⟨hnone, hfind⟩
  rcases wf.table.findIn false e with ⟨h, b, hb, he, hfind, _⟩ | ⟨hnone, hfind, _⟩
  · rcases hold with ⟨h', b', hb', he', _⟩ | ⟨_, hfind'⟩
    · cases wf.ordered.apart (r := ⟨false, h⟩) hb hb' he he'
    simp only [hfind, hfind']
    exact hends (r := ⟨false, h⟩) hb he
  rcases hold with ⟨h', b', hb', he', hfind'⟩ | ⟨hnone', hfind'⟩
  · simp only [hfind, hfind']
    exact hends hb' he'
  simp only [hfind, hfind']
  refine ⟨.absent ?_, wf, .refl n, rfl⟩
  rintro ⟨inOld, h⟩ b hb
  cases inOld with
  | false => exact hnone h b hb
  | true => exact hnone' h b hb

/-! ### Reports and expiry -/

/-- The parts of a NAT that reports and drains do not touch. -/
structure Quiet (n n' : BasicNat) : Prop extends Fixed n n' where
  table : n'.table = n.table
  old : n'.old = n.old
  cursor : n'.cursor = n.cursor
  ports : n'.ports = n.ports
  wheel : n'.wheel = n.wheel

theorem Quiet.refl (n : BasicNat) :
  Quiet n n
  := ⟨.refl n, rfl, rfl, rfl, rfl, rfl⟩

theorem Quiet.trans (h : Quiet n n') (h' : Quiet n' n'') :
  Quiet n n''
  := ⟨h.toFixed.trans h'.toFixed, h'.table.trans h.table, h'.old.trans h.old,
    h'.cursor.trans h.cursor, h'.ports.trans h.ports, h'.wheel.trans h.wheel⟩

theorem Quiet.deref_eq (h : Quiet n n') :
  n'.deref = n.deref
  := deref_congr h.old (by rw [h.table])

theorem WF.quiet (wf : n.WF S leaked) (h : Quiet n n') :
  n'.WF S leaked
  := by
  refine wf.of_table h.toFixed ?_ h.old h.deref_eq ?_
  · rw [h.table]
    exact wf.table
  rw [h.ports]
  exact wf.ordered

theorem quiet_logUsage (n : BasicNat) (b : Binding) (final : Bool) :
  Quiet n ((n.logUsage S b none final).getD n)
  := by
  rw [logUsage]
  split
  · simp only
    rcases n.log.push _ with _ | log
    · exact .refl n
    · exact ⟨⟨rfl, rfl⟩, rfl, rfl, rfl, rfl, rfl⟩
  · exact .refl n

theorem quiet_reportSome (n : BasicNat) (slots : ℕ) :
  Quiet n (n.reportSome S slots)
  := by
  have hlogs (bs : List Binding) (n : BasicNat) :
      Quiet n (bs.foldl (fun n b => (n.logUsage S b none false).getD n) n) := by
    induction bs generalizing n with
    | nil => exact .refl n
    | cons b bs ih => exact (quiet_logUsage n b false).trans (ih _)
  rw [reportSome]
  split
  · exact .refl n
  obtain ⟨m, hm⟩ : ∃ m, m = if n.reportTable ≠ some n.tableAt then
      { n with reportTable := some n.tableAt, cursorReport := 0 } else n := ⟨_, rfl⟩
  have hquiet : Quiet n m := by
    rw [hm]
    split <;> exact ⟨⟨rfl, rfl⟩, rfl, rfl, rfl, rfl, rfl⟩
  have hlogged := hquiet.trans (hlogs (visited m.table m.cursorReport slots) m)
  simp only [← hm]
  split <;> exact hlogged.trans ⟨⟨rfl, rfl⟩, rfl, rfl, rfl, rfl, rfl⟩

theorem quiet_drainUsage (n : BasicNat) (max : ℕ) :
  Quiet n (n.drainUsage max).1
  := by
  induction max generalizing n with
  | zero => exact .refl n
  | succ max ih =>
  rw [drainUsage]
  split
  · exact .refl n
  case h_2 record log _ =>
  have hlog : Quiet n { n with log := log } := ⟨⟨rfl, rfl⟩, rfl, rfl, rfl, rfl, rfl⟩
  exact hlog.trans (ih _)

/-- A property that one callback keeps, all the callbacks of a poll keep. -/
theorem handled_induction {P σ : Type} {fn : σ → P → σ × Option Time} (Inv : σ → Prop)
    (hstep : ∀ state p, Inv state → Inv (fn state p).1) (state : σ) (h : Inv state)
    (payloads : List P) :
  Inv (Wheel.handled fn state payloads)
  := by
  induction payloads generalizing state with
  | nil => exact h
  | cons p payloads ih => exact ih _ (hstep state p h)

/-- Bindings go, and none comes or changes. -/
def Fewer (n n' : BasicNat) : Prop :=
  ∀ r b, n'.deref r = some b → n.deref r = some b

theorem Fewer.shrinks (h : Fewer n n') (hcursor : n'.cursor = n.cursor) :
  Shrinks n n'
  := ⟨hcursor, fun hb => ⟨_, h _ _ hb⟩⟩

theorem TimerStep.fewer {res : BasicNat × Bool × Option Time} (h : TimerStep S leaked n now key res) :
  Fewer n res.1
  := by
  intro r b hb
  cases h.ends with
  | absent | early | logFull => exact hb
  | ended _ _ _ _ hbook =>
  rw [hbook, update_apply, ite_none_left_eq_some] at hb
  exact hb.2

theorem Quiet.fewer (h : Quiet n n') :
  Fewer n n'
  := fun _ _ hb => h.deref_eq ▸ hb

theorem WF.expire (wf : n.WF S leaked) {budget fuel removed : ℕ}
    (h : n.expire S now budget fuel = some (n', removed)) :
  n'.WF S leaked ∧ Fixed n n' ∧ Fewer n n' ∧ n'.cursor = n.cursor
  := by
  obtain ⟨⟨r, m, k⟩, hpoll, heq⟩ := map_eq_some_iff.mp h
  have quiet := quiet_reportSome (S := S) n kReportSlots
  have hstate := Wheel.pollWith_state hpoll
  have hinv : m.WF S leaked ∧ Fixed n m ∧ Fewer n m ∧ m.cursor = n.cursor := by
    rw [show m = (r, m, k).2.1 from rfl, hstate]
    refine handled_induction
      (fun state : BasicNat × ℕ => state.1.WF S leaked ∧ Fixed n state.1 ∧ Fewer n state.1
        ∧ state.1.cursor = n.cursor) ?_ (n.reportSome S kReportSlots, 0)
      ⟨wf.quiet quiet, quiet.toFixed, quiet.fewer, quiet.cursor⟩
      (r.deliveries.map Delivery.payload)
    rintro ⟨m, k⟩ key ⟨wfm, fixed, fewer, hcursor⟩
    have step := wfm.expireKey now key
    exact ⟨step.wf, fixed.trans step.fixed, fun r b hb => fewer r b (step.fewer r b hb),
      step.cursor.trans hcursor⟩
  obtain ⟨rfl, rfl⟩ := Prod.mk.inj heq
  obtain ⟨wfm, fixed, fewer, hcursor⟩ := hinv
  refine ⟨?_, ⟨fixed.addresses, fixed.timeout⟩, fewer, hcursor⟩
  exact wfm.of_table ⟨rfl, rfl⟩ wfm.table rfl rfl wfm.ordered

end BasicNat

end Napt
