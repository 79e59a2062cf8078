import Bess.Expiry.Poll

/-!
# The wheel refines its timers

A `World` is a wheel together with what it should hold: its time without wrapping, and the
timers its calls have armed. `Reached` are the worlds that runs from `Create` lead to, by calls
and polls whose times the wheel can tell apart. In each of them the wheel holds the timers, so
a poll fires the due ones.
-/

namespace Expiry

open Function List Serial Wheel Callback

variable {c : Shape} {P : Type} {shift : ℕ} {now : ℤ}

namespace Wheel

/-! ### Creation -/

/-- The free list of a new wheel, from its `k`-th node on. -/
theorem stack_range {next : ℕ → ℕ} (first capacity : ℕ)
    (hnext : ∀ i, first ≤ i → next i = if i + 1 < first + capacity then i + 1 else kNil) :
    ∀ n k, k + n = capacity → 0 < n → Stack next (first + k) (List.range' (first + k) n)
  | 1, k, hk, _ => by
    refine ⟨rfl, ?_⟩
    rw [hnext _ (by omega), if_neg (by omega)]
    rfl
  | n + 2, k, hk, _ => by
    rw [range'_succ]
    refine ⟨rfl, ?_⟩
    rw [hnext _ (by omega), if_pos (by omega)]
    apply stack_range first capacity hnext (n + 1) (k + 1) (by omega) (by omega)

theorem holds_create [Inhabited P] {capacity : ℕ} {start : ℤ} {w : Wheel c P}
    (h : create c capacity (tick c start) shift = .ok w) :
  Holds w (fun _ => []) (List.range' c.kFirst capacity) ∅ (fun _ => 0) (roundDown shift start)
    (fun _ => none) none ∧ w.shift = shift
  := by
  obtain ⟨-, ⟨⟩⟩ | ⟨hcap, h⟩ := ite_eq_iff.mp h
  obtain ⟨-, ⟨⟩⟩ | ⟨hshift, h⟩ := ite_eq_iff.mp h
  cases h
  have hs : shift ≤ c.kMaxGranularityShift := by omega
  refine ⟨⟨?_, ?_, ?_, ?_, ?_, ?_⟩, rfl⟩
  case refine_1 =>
    constructor
    case loops =>
      constructor
      · intro h hh
        have hh' : h < c.kFirst := hh
        refine ⟨nodup_singleton h, ?_, ?_, trivial⟩
        · simp [links, hh']
        · simp [links, hh']
      intro h _ h' _ hne a ha ha'
      rw [mem_singleton] at ha ha'
      apply hne (ha.symm.trans ha')
    case stack =>
      apply stack_range c.kFirst capacity _ capacity 0 (Nat.zero_add _) (by omega)
      intro i hi
      have : ¬ i < c.kFirst := by omega
      simp [links, this]
    case frees_nodup => exact nodup_range'
    case armed_of_mem => simp
    case free_of_mem =>
      intro i hi
      have := mem_range'_1.mp hi
      exact ⟨this.1, this.2, rfl⟩
    case cover =>
      intro i hi
      have := hi.2.2
      simp at this
    case armed_of_loose | loose_apart | generation_lt | occupied_iff | occupied_unused => simp
    case shift_le => apply hs
  case refine_2 =>
    constructor
    case cur_eq =>
      apply ofInt_and_not_mask
      rw [Shape.kMaxGranularityShift] at hs
      omega
    case dvd => apply dvd_roundDown
    case deadline_eq | near =>
      intro i hi
      have := hi.2.2
      simp at this
    case upcoming => simp
  case refine_3 | refine_4 | refine_5 => simp
  case refine_6 =>
  funext h
  symm
  apply timers_eq_none
  simp [resolves]

/-! ### A whole poll -/

variable {w : Wheel c P} {T : ℤ} {m : Timers P}

theorem Sound.target_eq (S : Sound w T m none) (hle : T ≤ roundDown w.shift now)
    (hlt : roundDown w.shift now - T < 2 ^ (c.digits - 1)) :
  w.target (tick c now) = tick c (roundDown w.shift now)
  := by
  obtain ⟨lists, frees, loose, due, H⟩ := S
  have hround : tick c now &&& ~~~unitMask c w.shift = tick c (roundDown w.shift now) :=
    ofInt_and_not_mask (shift_lt H.wf.shift_le).le now
  rw [target, hround, if_neg]
  rw [diff, H.timed.cur_eq, toInt_sub_ofInt c.digits_pos (by omega) hlt]
  omega

/-- A poll returns. Its deliveries are those of armed timers that are due, and if it is not
reported as exhausted, no timer left is. -/
theorem poll_spec {fn : Callback ℤ P} (S : Sound w T m none)
    (hadm : PollAdmitted c w.shift T m now fn) (budget : ℕ) :
  ∃ r T', w.poll (tick c now) budget (fn.map (tick c)) = some r
    ∧ Running fn w.shift T (roundDown w.shift now) m r T'
    ∧ (r.result.exhausted = false →
        ∀ h t, Timers.deliverAll fn 0 m r.deliveries h = some t →
          roundDown w.shift now < roundUp w.shift t.1)
  := by
  have htarget := S.target_eq hadm.le_now hadm.now_lt
  have R : Running fn w.shift T (roundDown w.shift now) m ⟨w, 0, ⟨0, 0, false⟩, []⟩ T :=
    ⟨S, rfl, le_rfl, hadm.le_now, trivial, rfl, Set.subset_union_right⟩
  rw [poll, htarget]
  by_cases hb : budget = 0
  · rw [if_pos hb]
    refine ⟨_, T, rfl, R.congr rfl rfl rfl, ?_⟩
    intro hex
    obtain ⟨hidle, hev⟩ := Bool.or_eq_false_iff.mp hex
    refine ((R.idle hadm hidle).2 ?_).2
    rw [arrival]
    cases he : w.nextEvent with
    | none => rfl
    | some dist =>
    rw [he] at hev
    rw [Option.bind_some, if_neg (of_decide_eq_false hev)]
  rw [if_neg hb]
  obtain ⟨r, T', hr, R', hdone⟩ := pollLoop_spec hadm R (2 * budget + 2)
    (Nat.zero_le budget) (by split <;> simp)
  exact ⟨r, T', hr, R', fun hex => (hdone hex).2⟩

end Wheel

/-! ### A callback that does not touch the wheel -/

namespace Timers

/-- Without calls the timers of the deliveries are gone and the others are kept. -/
theorem deliverAll_inert :
    ∀ (n : ℕ) (m : Timers P) (δs : List (Delivery c P)) (h : ExpiryHandle),
      deliverAll inert n m δs h = if h ∈ δs.map Delivery.handle then none else m h
  | _, _, [], _ => rfl
  | n, m, δ :: δs, h => by
    have hδ : m.deliver inert n δ = update m δ.handle none := by
      change update m δ.handle ((m δ.handle).bind fun _ => none) = _
      rw [Option.bind_fun_none]
    rw [deliverAll, deliverAll_inert, hδ, map_cons]
    by_cases e : h = δ.handle
    · simp [e]
    · simp [e]

/-- Without calls every delivery is that of a timer armed and due when the poll began, and no
timer is delivered twice. -/
theorem Legit.inert {lo hi : ℤ} :
    ∀ {n : ℕ} {m : Timers P} {δs : List (Delivery c P)}, Legit inert shift lo hi n m δs →
      (δs.map Delivery.handle).Nodup
        ∧ ∀ δ ∈ δs, ∃ d, m δ.handle = some (d, δ.payload) ∧ roundUp shift d ≤ hi
  | _, _, [], _ => ⟨nodup_nil, by simp⟩
  | n, m, δ :: δs, ⟨⟨d, _, hm, _, _, hT, hd⟩, _, hrest⟩ => by
    have hδ : m.deliver Callback.inert n δ = update m δ.handle none := by
      change update m δ.handle ((m δ.handle).bind fun _ => none) = _
      rw [Option.bind_fun_none]
    rw [hδ] at hrest
    obtain ⟨hnd, hall⟩ := Legit.inert hrest
    -- A later delivery is of another timer, since this one is gone.
    have hne : ∀ δ' ∈ δs, δ'.handle ≠ δ.handle := by
      intro δ' hmem e
      obtain ⟨d', hm', -⟩ := hall δ' hmem
      rw [e, update_self] at hm'
      cases hm'
    constructor
    · rw [map_cons, nodup_cons]
      refine ⟨?_, hnd⟩
      intro hmem
      obtain ⟨δ', hmem', e⟩ := mem_map.mp hmem
      apply hne δ' hmem' e
    intro δ' hmem
    rcases mem_cons.mp hmem with rfl | hmem
    · exact ⟨d, hm, hd.trans hT⟩
    obtain ⟨d', hm', hd'⟩ := hall δ' hmem
    rw [update_of_ne (hne δ' hmem)] at hm'
    exact ⟨d', hm', hd'⟩

end Timers

/-! ### Runs -/

/-- A wheel, its time, and the timers it should hold. -/
structure World (c : Shape) (P : Type) where
  wheel : Wheel c P
  time : ℤ
  timers : Timers P

/-- What an owner does with a wheel. -/
inductive Step (P : Type)
  | call (call : Call ℤ P)
  | poll (now : ℤ) (budget : ℕ) (fn : Callback ℤ P)

namespace World

/-- A step of the wheel. The timers follow the calls, those of callbacks included; of what the
wheel returns they use the handles of new timers and the deliveries. -/
def step (s : World c P) : Step P → Option (World c P)
  | .call call =>
      let (w, answer) := s.wheel.exec (call.map (tick c))
      some ⟨w, s.time, s.timers.exec none call answer⟩
  | .poll now budget fn =>
      (s.wheel.poll (tick c now) budget (fn.map (tick c))).map fun r =>
        ⟨r.wheel, s.time + (r.wheel.cur - s.wheel.cur).toNat,
          Timers.deliverAll fn 0 s.timers r.deliveries⟩

def run (s : World c P) : List (Step P) → Option (World c P)
  | [] => some s
  | step :: steps => (s.step step).bind fun s => s.run steps

/-- The times a step makes the wheel compare are less than half the tick range apart. -/
def Admits (s : World c P) : Step P → Prop
  | .call call => call.Admitted c s.wheel.shift s.time s.timers
  | .poll now _ fn => PollAdmitted c s.wheel.shift s.time s.timers now fn

/-- The worlds that runs of admitted steps from `Create` lead to. -/
inductive Reached [Inhabited P] : World c P → Prop
  | create {capacity shift : ℕ} {start : ℤ} {w : Wheel c P} :
      create c capacity (tick c start) shift = .ok w →
      Reached ⟨w, roundDown shift start, fun _ => none⟩
  | step {s s' : World c P} (a : Step P) : Reached s → s.Admits a → s.step a = some s' → Reached s'

/-- A poll fires the timers that are due, each once with its payload, and leaves the other
timers armed with their deadlines and nothing else. -/
structure FiresExactly (shift : ℕ) (m : Timers P) (now : ℤ) (r : Progress c P) : Prop where
  once : (r.deliveries.map Delivery.handle).Nodup
  fired_iff : ∀ h p, (∃ δ ∈ r.deliveries, δ.handle = h ∧ δ.payload = p)
    ↔ ∃ d, m h = some (d, p) ∧ roundUp shift d ≤ roundDown shift now
  kept : ∀ h d p, m h = some (d, p) → roundDown shift now < roundUp shift d →
    r.wheel.deadlineOf h = some (tick c d) ∧ (r.wheel.nodes h.id).payload = p
  armed : ∀ h, r.wheel.alive h = true →
    ∃ d p, m h = some (d, p) ∧ roundDown shift now < roundUp shift d

variable {s : World c P}

/-- In every world a run reaches, the wheel holds the timers. -/
theorem Reached.sound [Inhabited P] (hs : Reached s) :
  s.wheel.Sound s.time s.timers none
  := by
  induction hs with
  | create h => exact ⟨_, _, _, _, (holds_create h).1⟩
  | @step s s' a _ hadm hstep ih =>
  cases a with
  | call call =>
    cases hstep
    apply (ih.exec hadm).1
  | poll now budget fn =>
  obtain ⟨r, T', hr, R, -⟩ := poll_spec ih hadm budget
  rw [World.step, hr] at hstep
  cases hstep
  -- The wheel time grew by less than half the range, so its tick tells by how much.
  have htime : s.time + (r.wheel.cur - s.wheel.cur).toNat = T' := by
    obtain ⟨_, _, _, _, H⟩ := ih
    obtain ⟨_, _, _, _, H'⟩ := R.sound
    have hpow : (2 : ℤ) ^ (c.digits - 1) ≤ 2 ^ c.digits := pow_le_pow_right₀ (by omega) (by omega)
    have := hadm.now_lt
    have := R.time_le
    rw [H.timed.cur_eq, H'.timed.cur_eq, toNat_sub_ofInt R.le_time (by omega)]
    omega
  subst htime
  exact R.sound

/-- In every run whose steps are admitted, the calls are answered as the timers have it, a poll
returns, the callbacks are made for armed timers that are due, and a poll that is not exhausted
and whose callback does not touch the wheel fires exactly the timers that are due. -/
theorem wheel_refines_timers [Inhabited P] {s : World c P} (hs : Reached s) :
  (∀ call, s.Admits (.call call) →
      s.timers.Answers none call (s.wheel.exec (call.map (tick c))).2)
    ∧ ∀ now budget fn, s.Admits (.poll now budget fn) →
        ∃ r, s.wheel.poll (tick c now) budget (fn.map (tick c)) = some r
          ∧ Timers.Legit fn s.wheel.shift s.time (roundDown s.wheel.shift now) 0 s.timers r.deliveries
          ∧ (fn = inert → r.result.exhausted = false →
              FiresExactly s.wheel.shift s.timers now r)
  := by
  constructor
  · intro call hadm
    apply (hs.sound.exec hadm).2.1
  intro now budget fn hadm
  obtain ⟨r, T', hr, R, hdone⟩ := poll_spec hs.sound hadm budget
  refine ⟨r, hr, R.legit, ?_⟩
  rintro rfl hex
  obtain ⟨honce, hdue⟩ := R.legit.inert
  have hleft := hdone hex
  have hinert := Timers.deliverAll_inert 0 s.timers r.deliveries
  obtain ⟨lists, frees, loose, due, H⟩ := R.sound
  constructor
  case once => apply honce
  case fired_iff =>
    intro h p
    constructor
    · rintro ⟨δ, hmem, rfl, rfl⟩
      apply hdue δ hmem
    rintro ⟨d, hm, hd⟩
    by_cases hfired : h ∈ r.deliveries.map Delivery.handle
    · obtain ⟨δ, hmem, rfl⟩ := mem_map.mp hfired
      obtain ⟨d', hm', -⟩ := hdue δ hmem
      rw [hm] at hm'
      cases hm'
      exact ⟨δ, hmem, rfl, rfl⟩
    have := hleft h (d, p) (by rw [hinert, if_neg hfired, hm])
    exact absurd hd (not_le.mpr this)
  case kept =>
    intro h d p hm hd
    have hnot : h ∉ r.deliveries.map Delivery.handle := by
      intro hfired
      obtain ⟨δ, hmem, rfl⟩ := mem_map.mp hfired
      obtain ⟨d', hm', hd'⟩ := hdue δ hmem
      rw [hm] at hm'
      cases hm'
      omega
    obtain ⟨harm, hg, e⟩ := H.armed_of_handle (by rw [hinert, if_neg hnot, hm])
    obtain ⟨rfl, rfl⟩ := Prod.mk.inj e
    refine ⟨?_, rfl⟩
    rw [deadlineOf, if_pos ((resolves_iff _ h).mpr ⟨harm, hg⟩), H.timed.deadline_eq _ harm]
  case armed =>
  intro h halive
  have hsome : r.wheel.timers due h = some _ := timers_of_resolves halive
  rw [← H.timers_eq] at hsome
  have hlate := hleft h _ hsome
  rw [hinert] at hsome
  split at hsome
  · cases hsome
  · exact ⟨_, _, hsome, hlate⟩

/-- A poll whose callback does not touch the wheel compares the times of the wheel and of the
poll only. -/
theorem pollAdmitted_inert {T : ℤ} {m : Timers P} (hle : T ≤ roundDown shift now)
    (hlt : roundDown shift now - T < 2 ^ (c.digits - 1)) :
  PollAdmitted c shift T m now inert
  := by
  have hnone : ∀ d, d ∉ (inert : Callback ℤ P).deadlines := by
    rintro d ⟨_, _, ⟨_, hmem, -⟩ | h⟩
    · exact absurd hmem not_mem_nil
    · cases h
  exact ⟨hle, hlt, fun d hd => absurd hd (hnone d), fun d hd => absurd hd (hnone d)⟩

/-- The wheel is at the last polled time `L`, rounded down, and no deadline is farther ahead of
it than the longest timeout. -/
structure Timely (s : World c P) (L : ℤ) : Prop where
  time_eq : s.time = roundDown s.wheel.shift L
  le_timeout : ∀ d ∈ s.timers.deadlines, d ≤ L + c.kMaxTimeout.toNat

theorem toNat_kMaxTimeout (c : Shape) : (c.kMaxTimeout.toNat : ℤ) = 2 ^ (c.digits - 2) - 1 := by
  have hd : 2 ≤ c.digits := by
    have := Nat.mul_le_mul c.one_le_levelBits c.one_le_levels
    have := c.span_lt
    omega
  have hpow : 2 ^ c.digits = 2 ^ (c.digits - 2) * 4 := by
    rw [show (4 : ℕ) = 2 ^ 2 from rfl, ← pow_add]
    congr 1
    omega
  rw [Shape.kMaxTimeout, BitVec.toNat_ushiftRight, BitVec.toNat_allOnes, Nat.shiftRight_eq_div_pow,
    hpow]
  have hpos := Nat.two_pow_pos (c.digits - 2)
  have hdiv : (2 ^ (c.digits - 2) * 4 - 1) / 2 ^ 2 = 2 ^ (c.digits - 2) - 1 := by omega
  rw [hdiv, Nat.cast_sub hpos]
  rfl

/-- While the polls are complete, calls and polls within the longest timeout of the last polled
time are admitted, if the wheel's own tick is at most an eighth of the tick range. -/
theorem Timely.admits {L : ℤ} (h : Timely s L) (hs : s.wheel.shift + 3 ≤ c.digits) :
  (∀ call : Call ℤ P, (∀ d, call.deadline = some d → |d - L| ≤ c.kMaxTimeout.toNat) →
      s.Admits (.call call))
    ∧ ∀ now budget, L ≤ now → now - L ≤ c.kMaxTimeout.toNat →
        s.Admits (.poll now budget inert)
  := by
  rw [toNat_kMaxTimeout]
  have htime := h.time_eq
  set g := s.wheel.shift with hg
  have hunit : (2 : ℤ) ^ g * 2 ≤ 2 ^ (c.digits - 2) := by
    rw [← pow_succ]
    apply pow_le_pow_right₀ <;> omega
  have hhalf : (2 : ℤ) ^ (c.digits - 1) = 2 ^ (c.digits - 2) * 2 := by
    rw [← pow_succ]
    congr 1
    omega
  have hlow := roundDown_le g L
  have hhigh := lt_roundDown_add g L
  have hnear : ∀ d, |d - L| ≤ 2 ^ (c.digits - 2) - 1 → Near c g s.time d := by
    intro d hd
    have hd' := abs_le.mp hd
    have hup := le_roundUp g d
    have hup' : roundUp g d ≤ roundDown g d + 2 ^ g :=
      roundUp_le (Int.dvd_add (dvd_roundDown g d) (dvd_refl _)) (lt_roundDown_add g d).le
    have hdown := roundDown_le g d
    constructor <;> omega
  have hmove : ∀ k d, |d - L| ≤ 2 ^ (c.digits - 2) - 1 → Movable c g s.time s.timers k d := by
    intro k d hd t ht
    refine ⟨hnear d hd, ?_⟩
    have hold := h.le_timeout t.1 ⟨k, t.2, ht⟩
    have hd' := abs_le.mp hd
    rw [toNat_kMaxTimeout] at hold
    omega
  constructor
  · intro call hcall
    cases call with
    | schedule d p => apply hnear d (hcall d rfl)
    | refresh k d | reschedule k d p => apply hmove k d (hcall d rfl)
    | cancel k => trivial
  intro now budget hle hgap
  apply pollAdmitted_inert
  · rw [htime]
    apply roundDown_mono hle
  have := roundDown_le g now
  rw [← hg]
  omega

/-- Three levels of two slots over a byte of ticks. -/
def byteTicks : Shape := ⟨8, 1, 3, by decide, by decide, by decide, by decide⟩

/-- The ticks wrap between the creation of the wheel and the poll. -/
theorem wheel_refines_timers_wrapping :
  ∃ w : Wheel byteTicks ℕ, create byteTicks 2 (tick byteTicks 250) 1 = .ok w
    ∧ ∃ s, (⟨w, 250, fun _ => none⟩ : World byteTicks ℕ).step (.call (.schedule 257 7)) = some s
    ∧ ∃ r, s.wheel.poll (tick byteTicks 261) 8 inert = some r
    ∧ r.result = ⟨1, 1, false⟩ ∧ FiresExactly 1 s.timers 261 r
  := by
  have hcreate := show create byteTicks 2 (tick byteTicks 250) 1 = .ok (_ : Wheel _ ℕ) from rfl
  have hnear : Near byteTicks 1 (roundDown 1 250) 257 := ⟨by decide, by decide⟩
  have hs := Reached.step (.call (.schedule 257 7)) (Reached.create hcreate) hnear rfl
  obtain ⟨r, hr, -, hfires⟩ := (wheel_refines_timers hs).2 261 8 inert
    (pollAdmitted_inert (by decide) (by decide))
  have hres : r.result = ⟨1, 1, false⟩ := by
    rw [← Option.some_inj, ← Option.map_some, ← hr]
    decide +kernel
  exact ⟨_, hcreate, _, rfl, r, hr, hres, hfires rfl (by rw [hres])⟩

/-- A wheel of one level of two slots. -/
def twoSlots : Shape := ⟨64, 1, 1, by decide, by decide, by decide, by decide⟩

/-- A timer armed a quarter of the tick range ahead of the last poll fires at once: on a wheel
whose own tick is a quarter of the range, its deadline rounds up to half the range. -/
theorem poll_fires_early :
  ∃ w : Wheel twoSlots ℕ, create twoSlots 1 (tick twoSlots 0) 62 = .ok w
    ∧ ∃ s r, run ⟨w, 0, fun _ => none⟩ [.poll (2 ^ 62 - 1) 1 inert,
          .call (.schedule (2 ^ 63 - 2) 7)] = some s
      ∧ (2 ^ 63 - 2) - (2 ^ 62 - 1) = twoSlots.kMaxTimeout.toNat
      ∧ s.timers ⟨4, 1⟩ = some (2 ^ 63 - 2, 7)
      ∧ s.wheel.poll (tick twoSlots (2 ^ 62 - 1)) 1 inert = some r
      ∧ r.result = ⟨1, 0, false⟩ ∧ r.deliveries.map Delivery.handle = [⟨4, 1⟩]
      ∧ ¬ roundUp 62 (2 ^ 63 - 2) ≤ roundDown 62 (2 ^ 62 - 1)
  := ⟨_, rfl, _, _, rfl, by decide, rfl, rfl, by decide, by decide, by decide⟩

end World

end Expiry
