import Bess.Napt.Reparse
import Bess.Napt.Runs

/-!
# The round trip of a packet

A binding keeps its two endpoints for as long as it lives, whatever calls are made meanwhile. So a
packet that answers one that was translated going out is translated back to the sender's endpoint,
and later packets of the sender carry the same external endpoint. A translation changes nothing of
a frame but the address and the port or identifier of one side, and the two checksums.
-/

namespace Napt

open Flow Expiry

namespace BasicNat

variable {S : OwnedStore} {config : NatConfig} {ok : BasicNat → Prop} {n n' m : BasicNat}
  {i : Endpoint} {r r' : BindingRef} {b b' : Binding}

/-! ### The life of a binding -/

/-- There is a binding for the internal endpoint. -/
def Live (n : BasicNat) (i : Endpoint) : Prop :=
  ∃ r b, n.deref r = some b ∧ b.internal = i

/-- The states that calls from `n` on reach while the internal endpoint is bound. A call that ends
a binding makes none, so it is one binding all the time. -/
inductive Since (S : OwnedStore) (ok : BasicNat → Prop) (i : Endpoint) (n : BasicNat) :
    BasicNat → Prop where
  | refl : Since S ok i n n
  | step {m m' : BasicNat} (since : Since S ok i n m) (step : Step S ok m m') (live : m'.Live i) :
      Since S ok i n m'

variable {leaked : Set (ℕ × ℕ)} {before : Endpoint} {p : ParsedFrame} {dir : Direction} {totalLen : ℕ}
  {f : Frame}

/-- Two bindings of a sound state with one endpoint are one. -/
theorem WF.eq_of_has (wf : n.WF S leaked) {e : Endpoint} (hb : n.deref r = some b)
    (hb' : n.deref r' = some b') (he : b.Has e) (he' : b'.Has e) :
  b = b'
  := by
  rw [wf.ordered.apart hb hb' he he', hb'] at hb
  exact (Option.some.inj hb).symm

/-- A call that only takes bindings away or moves them leaves the endpoints of the others. -/
theorem WF.external_of_lists (wf : n.WF S leaked)
    (hlists : ∀ b, Book.Lists n'.deref b → Book.Lists n.deref b) (hb : n.deref r = some b)
    (hb' : n'.deref r' = some b') (hinternal : b'.internal = b.internal) :
  b'.external = b.external
  := by
  obtain ⟨r'', hb''⟩ := hlists b' ⟨r', hb'⟩
  rw [wf.eq_of_has hb hb'' (.inl rfl) (.inl hinternal.symm)]

/-- A call that ends no binding leaves the endpoints of all. -/
theorem WF.external_of_grown (wf' : n'.WF S leaked) (grown : Grown n n') (hb : n.deref r = some b)
    (hb' : n'.deref r' = some b') (hinternal : b'.internal = b.internal) :
  b'.external = b.external
  := by
  obtain ⟨b'', hb'', hsame⟩ := grown r b hb
  rw [wf'.eq_of_has hb' hb'' (.inl rfl) (.inl (hinternal.trans hsame.1.symm)), hsame.2.1]

/-- A binding that lives through a call keeps its external endpoint. -/
theorem Step.external_eq (step : Step S ok n n') (wf : n.WF S leaked) (hb : n.deref r = some b)
    (hb' : n'.deref r' = some b') (hinternal : b'.internal = b.internal) :
  b'.external = b.external
  := by
  have hquiet (quiet : Quiet n n') : b'.external = b.external := by
    refine wf.external_of_lists ?_ hb hb' hinternal
    rintro b ⟨r, hb⟩
    exact ⟨r, quiet.fewer r b hb⟩
  cases step with
  | translate _ f p dir now =>
    obtain ⟨wf', _, grown, _⟩ := wf.translate f p dir now
    exact wf'.external_of_grown grown hb hb' hinternal
  | translateBatch _ packets dir now =>
    obtain ⟨_, wf', _, grown, _⟩ := wf.translateBatch packets dir now
    exact wf'.external_of_grown grown hb hb' hinternal
  | expire hexpire =>
    obtain ⟨_, _, fewer, _⟩ := wf.expire hexpire
    refine wf.external_of_lists ?_ hb hb' hinternal
    rintro b ⟨r, hb⟩
    exact ⟨r, fewer r b hb⟩
  | requestReport => exact hquiet ⟨⟨rfl, rfl⟩, rfl, rfl, rfl, rfl, rfl⟩
  | reportSome _ slots => exact hquiet (quiet_reportSome _ slots)
  | drainUsage _ max => exact hquiet (quiet_drainUsage _ max)
  | adopt _ _ capacity place =>
    obtain ⟨_, _, hlists, _⟩ := wf.adopt capacity place
    exact wf.external_of_lists (fun b => (hlists b).mp) hb hb' hinternal
  | migrateSome _ _ slots =>
  obtain ⟨_, _, _, hlists, _⟩ := wf.migrateSome slots
  exact wf.external_of_lists hlists hb hb' hinternal

/-- As long as an internal endpoint is bound, its external one is the same. -/
theorem Since.binding (reached : Reached S config ok n) (hb : n.deref r = some b)
    (since : Since S ok b.internal n m) :
  Reached S config ok m
    ∧ ∃ r' b', m.deref r' = some b' ∧ b'.internal = b.internal ∧ b'.external = b.external
  := by
  induction since with
  | refl => exact ⟨reached, r, b, hb, rfl, rfl⟩
  | step _ step live ih =>
  obtain ⟨reachedm, r', b', hb', hinternal, hext⟩ := ih
  obtain ⟨leaked, wf, _⟩ := reachedm.sound
  obtain ⟨r'', b'', hb'', hlive⟩ := live
  refine ⟨.step reachedm step, r'', b'', hb'', hlive, ?_⟩
  rw [step.external_eq wf hb' hb'' (hlive.trans hinternal.symm), hext]

/-! ### The packets -/

/-- The frame `f'` is `f` with another endpoint in one direction: it parses, its endpoint is
`after`, and only the address, the port or identifier and the two checksums have changed. -/
structure Carries (f f' : Frame) (totalLen : ℕ) (p : ParsedFrame) (dir : Direction)
    (after : Endpoint) : Prop where
  parses : ∃ p', f'.parseFrame totalLen = (.ok, p') ∧ endpointOf p' dir = .ok after
  size : f'.size = f.size
  kept : ∀ k, ¬ Frame.Rewritten p.l3Offset p.l4Offset p.protocol dir k → f'.byte k = f.byte k

theorem carries_rewrite {after : Endpoint} (hparse : f.parseFrame totalLen = (.ok, p))
    (hbefore : endpointOf p dir = .ok before) (hproto : after.protocol = before.protocol) :
  Carries f (rewrite f p.l3Offset p.l4Offset dir before after) totalLen p dir after
  := by
  obtain ⟨p', hparse', hafter, hbyte, hspec⟩ := Frame.parseFrame_rewrite hparse hbefore hproto
  refine ⟨⟨p', hparse', hafter⟩, hspec.size, ?_⟩
  rw [hbyte]
  exact hspec.kept

/-- A packet of a live binding is translated to the binding's other side. -/
theorem Reached.carries (reached : Reached S config ok n) (now : Time)
    (hparse : f.parseFrame totalLen = (.ok, p)) (hbefore : endpointOf p dir = .ok before)
    (hb : n.deref r = some b) (hside : b.side dir = before) :
  ∃ n' f', n.translate S f p dir now = (n', f', .translated)
    ∧ Carries f f' totalLen p dir (if dir = .forward then b.external else b.internal)
  := by
  obtain ⟨leaked, wf, _⟩ := reached.sound
  obtain ⟨n', htranslate⟩ := wf.translates f now hbefore hb hside
  refine ⟨n', _, htranslate, carries_rewrite hparse hbefore ?_⟩
  have hproto := (wf.ordered.addressed hb).2.2
  rw [← hside]
  cases dir with
  | forward => exact hproto
  | reverse => exact hproto.symm

/-- A packet that was translated going out and the packets of its binding from then on: those that
come in to the endpoint it now carries go to the endpoint it came from, and those that go out from
there carry the same external endpoint. -/
theorem round_trip (reached : Reached S config ok n) {f f₁ : Frame} {totalLen : ℕ}
    {p : ParsedFrame} {now : Time} {n₁ : BasicNat} (hparse : f.parseFrame totalLen = (.ok, p))
    (hforward : n.translate S f p .forward now = (n₁, f₁, .translated)) :
  ∃ internal external, endpointOf p .forward = .ok internal
    ∧ Carries f f₁ totalLen p .forward external
    ∧ ∀ m, Since S ok internal n₁ m → ∀ g len q later, Frame.parseFrame g len = (.ok, q) →
      (endpointOf q .reverse = .ok external →
        ∃ m' g', m.translate S g q .reverse later = (m', g', .translated)
          ∧ Carries g g' len q .reverse internal)
      ∧ (endpointOf q .forward = .ok internal →
        ∃ m' g', m.translate S g q .forward later = (m', g', .translated)
          ∧ Carries g g' len q .forward external)
  := by
  obtain ⟨leaked, wf, _⟩ := reached.sound
  have hreached : Reached S config ok n₁ := by
    have hstep : Step S ok n (n.translate S f p .forward now).1 := .translate ..
    rw [hforward] at hstep
    exact .step reached hstep
  rw [BasicNat.translate] at hforward
  rcases hbefore : endpointOf p .forward with why | before
  · rw [hbefore] at hforward
    have hverdict := congrArg (fun res => res.2.2) hforward
    exact absurd hverdict (Frame.endpointOf_error hbefore)
  rw [hbefore] at hforward
  obtain ⟨wf₁, _, finished⟩ := wf.finish f p .forward now before
  simp only at hforward
  rw [hforward] at wf₁ finished
  obtain ⟨r, b, hb, rfl, hframe⟩ := finished.translated
  refine ⟨b.internal, b.external, rfl, ?_, ?_⟩
  · rw [hframe]
    exact carries_rewrite hparse hbefore (wf₁.ordered.addressed hb).2.2
  intro m since g len q later hparse'
  obtain ⟨hreached', r', b', hb', hinternal, hext⟩ := since.binding hreached hb
  rw [← hinternal, ← hext]
  exact ⟨fun hreverse => hreached'.carries later hparse' hreverse hb' rfl,
    fun hforward' => hreached'.carries later hparse' hforward' hb' rfl⟩

/-- The first packet of a new flow, and its translation. -/
def pocketFrame : Frame :=
  datagram 1 1024 2 53

def pocketParse : ParsedFrame :=
  (pocketFrame.parseFrame 0).2

def pocketForward : BasicNat × Frame × Verdict :=
  pocketNat.translate pocketStore pocketFrame pocketParse .forward 0

theorem round_trip_pocketFrame :
  ∃ internal external, endpointOf pocketParse .forward = .ok internal
    ∧ Carries pocketFrame pocketForward.2.1 0 pocketParse .forward external
    ∧ ∀ m, Since pocketStore (fun _ => True) internal pocketForward.1 m → ∀ g len q later,
      Frame.parseFrame g len = (.ok, q) →
      (endpointOf q .reverse = .ok external →
        ∃ m' g', m.translate pocketStore g q .reverse later = (m', g', .translated)
          ∧ Carries g g' len q .reverse internal)
      ∧ (endpointOf q .forward = .ok internal →
        ∃ m' g', m.translate pocketStore g q .forward later = (m', g', .translated)
          ∧ Carries g g' len q .forward external)
  := by
  have reached : Reached pocketStore pocketConfig (fun _ => True) pocketNat := .create rfl
  have hstatus : (pocketFrame.parseFrame 0).1 = .ok := by decide
  have hparse : pocketFrame.parseFrame 0 = (.ok, pocketParse) := Prod.ext hstatus rfl
  have hverdict : pocketForward.2.2 = .translated := by decide +kernel
  have hforward : pocketNat.translate pocketStore pocketFrame pocketParse .forward 0
      = (pocketForward.1, pocketForward.2.1, .translated) := by
    rw [← hverdict, ← pocketForward]
  exact round_trip reached hparse hforward

end BasicNat

end Napt
