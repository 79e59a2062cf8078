import Bess.Flow.Generations

/-!
# Publication in a shared flow table

A reader's lookup reads the directory at one moment and the slot's generation at a later one, with
any writes in between. What it finds is a live flow with its state built and with the key among its
keys, and while a flow is live every one of its keys leads to it. A directory value whose flow is
gone, or was never published, is never good again.
-/

namespace Flow

open List

variable {Key State : Type} {s : ℕ} {h : FlowHandle} {k : Key} {directory : Key → Option FlowHandle}

namespace SharedFlowTable

variable {T : FlowTableTraits Key} {t t' : SharedFlowTable Key State} {erasedAt : ℕ → ℕ}
  {slots : List ℕ}

/-! ### Handles in the directory -/

/-- `k` is a key of the live flow `h`, whose state is built. -/
def KeyOf (t : SharedFlowTable Key State) (h : FlowHandle) (k : Key) : Prop :=
  ∃ s < t.capacity, (t.slots s).live = true ∧ h = t.handleOf s ∧ (t.slots s).state.isSome = true
    ∧ t.Names s k

theorem Spent.later (spent : t.Spent h) (later : Later t t') :
  t'.Spent h
  := by
  obtain ⟨s, hs, hid, hpast⟩ := spent
  refine ⟨s, ?_, hid, later.past hs hpast⟩
  rw [later.capacity]
  exact hs

/-- A flow keeps its keys and its state as long as it is live. -/
theorem KeyOf.later (keyOf : t.KeyOf h k) (later : Later t t') :
  t'.KeyOf h k ∨ t'.Spent h
  := by
  obtain ⟨s, hs, hlive, rfl, hstate, hnames⟩ := keyOf
  have hs' : s < t'.capacity := by
    rw [later.capacity]
    exact hs
  rcases later.kept hs hlive with hpast | ⟨hgen, hsame, hkept⟩
  · exact .inr ⟨s, hs', rfl, hpast⟩
  left
  refine ⟨s, hs', ?_, ?_, ?_, hkept k hnames⟩
  · rw [SlotRecord.live, hgen]
    exact hlive
  · rw [handleOf, handleOf, hgen]
  rw [hsame]
  exact hstate

theorem KeyOf.alive (hcap : t.capacity < 2 ^ 30) (keyOf : t.KeyOf h k) :
  t.alive h = true
  := by
  obtain ⟨s, hs, hlive, hh, _⟩ := keyOf
  exact (alive_iff hcap).mpr ⟨s, hs, hlive, hh⟩

/-- Between calls, the directory leads every key to its flow. -/
theorem AtRest.keyOf_iff (rest : AtRest T erasedAt t slots) :
  t.KeyOf h k ↔ t.directory k = some h
  := by
  rw [rest.directory]
  constructor
  · rintro ⟨s, hs, _, hh, _, hnames⟩
    exact ⟨s, hs, hh, hnames⟩
  rintro ⟨s, hs, hh, hnames⟩
  have hlive := rest.live_of_names hs hnames
  exact ⟨s, hs, hlive, hh, ((rest.slot s hs).primary hlive).2, hnames⟩

/-- A change of a slot without a flow adds no key to any flow. -/
theorem KeyOf.of_put {slot : SlotRecord Key State}
    {free : FreeList} {size quarantined : ℕ} (hcap : t.capacity < 2 ^ 30) (hs : s < t.capacity)
    (hdead : slot.live = false) (keyOf : (t.put s slot directory free size quarantined).KeyOf h k) :
  t.KeyOf h k ∧ h ≠ t.handleOf s
  := by
  obtain ⟨s', hs', hlive, rfl, hstate, j, hj⟩ := keyOf
  have hne : s' ≠ s := by
    rintro rfl
    rw [put_slots_self, hdead] at hlive
    cases hlive
  rw [handleOf]
  rw [put_slots_of_ne hne] at hlive hstate hj ⊢
  refine ⟨⟨s', hs', hlive, rfl, hstate, j, hj⟩, ?_⟩
  intro heq
  exact hne (handleOf_inj hcap hs' hs heq)

end SharedFlowTable

namespace Sharing

open SharedFlowTable

variable [DecidableEq Key] {T : FlowTableTraits Key} {σ σ' : Sharing Key State}

/-- A create in progress has offered the handle: it will be abandoned, or it will be published and
the key stays in the directory. -/
def Offered (σ : Sharing Key State) (k : Key) (h : FlowHandle) : Prop :=
  ∃ s < σ.table.capacity,
    h = ⟨BitVec.ofNat 32 (s + 1), (σ.table.slots s).generation + 1⟩
    ∧ (σ.writes.getLast? = some (.abandon s)
      ∨ (∃ key aliasKey, σ.writes.getLast? = some (.publish s key aliasKey))
        ∧ σ.table.directory k = some h)

/-- What a directory value can be, once it has been read. -/
def Leads (σ : Sharing Key State) (k : Key) (h : FlowHandle) : Prop :=
  σ.table.KeyOf h k ∨ σ.table.Spent h ∨ σ.Offered k h

variable {ws : List (Write Key State)} {aliasKey : Option Key} {w : Write Key State} {key : Key}

theorem Creating.last {slot : ℕ} {offer : FlowHandle}
    {before built : Option State} {state : State} {inserted : Finset Key}
    (left : Creating slot offer directory before key aliasKey state inserted built ws) :
  ws.getLast? = some (.abandon slot) ∨ ws.getLast? = some (.publish slot key aliasKey)
  := by
  induction left with
  | publish => exact .inr rfl
  | abandon => exact .inl rfl
  | build => exact .inr rfl
  | insert _ _ _ ih =>
    rw [getLast?_cons]
    rcases ih with ih | ih
    · rw [ih]
      exact .inl rfl
    rw [ih]
    exact .inr rfl
  | erase _ hundo =>
  left
  rw [getLast?_cons, hundo]
  rfl

section

variable (moment : Moment T σ)

include moment

/-- The table of a moment comes after one at rest. -/
theorem Moment.capacity_lt :
  σ.table.capacity < 2 ^ 30
  := by
  cases moment with
  | rest rest | creating rest | aliasing rest | doomed rest | erasing rest => exact rest.capacity_lt

theorem Moment.leads (hdir : σ.table.directory k = some h) :
  σ.Leads k h
  := by
  cases moment with
  | rest rest | aliasing rest | doomed rest => exact .inl (rest.keyOf_iff.mpr hdir)
  | @erasing t _ _ rest s hs hlive gone left hkeys =>
    have hbefore : t.directory k = some h := by
      change (if k ∈ gone then none else t.directory k) = some h at hdir
      rw [Option.ite_none_left_eq_some] at hdir
      exact hdir.2
    have hlater := (rest.keyOf_iff.mpr hbefore).later (rest.later_whileErasing hlive gone)
    exact hlater.imp id .inl
  | @creating t _ _ rest hsome key aliasKey _ _ _ _ inserted _ built ws left =>
  by_cases hmem : k ∈ inserted
  · -- The handle of the create in progress.
    have hoffer : some t.offer = some h := (if_pos hmem).symm.trans hdir
    obtain rfl := Option.some.inj hoffer
    refine .inr (.inr ⟨t.free.peek, (rest.peek hsome).1, ?_, ?_⟩)
    · change t.offer = ⟨_, ((t.during inserted built).slots t.free.peek).generation + 1⟩
      rw [during, put_slots_self]
      rfl
    · exact (Creating.last left).imp id fun hlast => ⟨⟨key, aliasKey, hlast⟩, hdir⟩
  have hbefore : t.directory k = some h := (if_neg hmem).symm.trans hdir
  have hlater := rest.later_during hsome ∅ inserted (t.slots t.free.peek).state built
  rw [during_empty] at hlater
  exact ((rest.keyOf_iff.mpr hbefore).later hlater).imp id .inl

/-- A key of a live flow is in the directory, at every moment. -/
theorem Moment.directory_of_keyOf (keyOf : σ.table.KeyOf h k) :
  σ.table.directory k = some h
  := by
  cases moment with
  | rest rest | aliasing rest | doomed rest => exact rest.keyOf_iff.mp keyOf
  | @creating t _ _ rest hsome _ _ _ _ _ _ inserted hins built =>
    obtain ⟨hpeek, hdead, _⟩ := rest.peek hsome
    have hdead' : { t.slots t.free.peek with state := built }.live = false := hdead
    have hbefore := rest.keyOf_iff.mp (keyOf.of_put rest.capacity_lt hpeek hdead').1
    have hout : k ∉ inserted := by
      intro hmem
      rw [hins k hmem] at hbefore
      cases hbefore
    exact (if_neg hout).trans hbefore
  | @erasing t _ _ rest s hs hlive gone left hkeys =>
  have hdead : (t.slots s).advance.live = false := by
    rw [SlotRecord.live_advance, hlive]
    rfl
  obtain ⟨keyOf, hne⟩ := keyOf.of_put rest.capacity_lt hs hdead
  have hbefore := rest.keyOf_iff.mp keyOf
  have hout : k ∉ gone := by
    intro hgone
    have hnames : t.Names s k := by
      rw [← rest.mem_keysOf hs, hkeys]
      exact mem_append_left _ hgone
    rw [rest.directory.mpr ⟨s, hs, rfl, hnames⟩] at hbefore
    exact hne (Option.some.inj hbefore).symm
  exact (if_neg hout).trans hbefore

/-! ### Steps -/

theorem Moment.later_write (hwrites : σ.writes = w :: ws) :
  Later σ.table (σ.table.write w)
  := by
  cases moment with
  | rest => cases hwrites
  | @creating t _ _ rest hsome key aliasKey state _ _ hfresh inserted hins built ws' left =>
    cases left with
    | publish =>
      cases hwrites
      exact rest.later_publish hsome ..
    | abandon =>
      cases hwrites
      rw [during_empty]
      exact rest.later_abandonSlot hsome
    | build =>
      cases hwrites
      rw [during_build]
      exact rest.later_during hsome ..
    | insert hk hout =>
      cases hwrites
      rw [during_insert hk hout]
      exact rest.later_during hsome ..
    | erase hmem =>
    cases hwrites
    rw [during_erase hmem (hins _ hmem)]
    exact rest.later_during hsome ..
  | @aliasing t _ _ rest s j hs hlive hj hmask aliasKey hfresh =>
    cases hwrites
    rw [write_addAlias hfresh]
    exact later_addAlias hmask aliasKey _
  | @doomed t _ _ rest s hs hlive =>
    cases hwrites
    exact rest.later_whileErasing hlive []
  | @erasing t _ _ rest s hs hlive gone left hkeys =>
  cases left with
  | nil =>
    cases hwrites
    apply later_retire
    rw [whileErasing, put_slots_self, SlotRecord.live_advance, hlive]
    rfl
  | cons k left =>
  cases hwrites
  obtain ⟨hout, hsome⟩ := rest.next_key hs hkeys
  rw [whileErasing_erase hout hsome]
  exact later_of_slots rfl rfl fun _ => .inl rfl

theorem Moment.later (step : Step T σ σ') :
  Later σ.table σ'.table
  := by
  cases step with
  | write hwrites => exact moment.later_write hwrites
  | rcu => exact later_of_slots rfl rfl fun _ => .inl rfl
  | @call hidle call hallow c =>
  obtain ⟨slots, rest⟩ := moment.atRest hidle
  rcases (begun_plan rest hallow c).2 with hstart | hstart
  · rw [hstart]
    exact later_of_slots rfl rfl fun _ => .inl rfl
  rw [hstart]
  exact rest.later_reclaimLocked c.completed

/-- A create that will be published keeps its keys in the directory. -/
theorem Moment.directory_write (hwrites : σ.writes = w :: ws)
    (hlast : σ.writes.getLast? = some (.publish s key aliasKey))
    (hdir : σ.table.directory k = some h) :
  (σ.table.write w).directory k = some h
  := by
  cases moment with
  | rest => cases hwrites
  | aliasing => cases hlast
  | doomed =>
    rw [eraseLocked, getLast?_concat] at hlast
    cases hlast
  | erasing =>
    rw [getLast?_concat] at hlast
    cases hlast
  | @creating t _ _ rest hsome _ _ _ _ _ _ inserted hins built ws' left =>
  cases left with
  | publish | build =>
    cases hwrites
    exact hdir
  | abandon => cases hlast
  | erase _ hundo =>
    rw [getLast?_cons, hundo] at hlast
    cases hlast
  | @insert _ _ k' hk hout left =>
  cases hwrites
  change (if k ∈ inserted then some t.offer else t.directory k) = some h at hdir
  rw [during_insert hk hout]
  change (if k ∈ insert k' inserted then some t.offer else t.directory k) = some h
  rcases eq_or_ne k k' with rfl | hne
  · rw [if_neg hout, hk] at hdir
    cases hdir
  simp only [Finset.mem_insert, hne, false_or]
  exact hdir

/-- A create that will be abandoned uses up the handle it has offered. -/
theorem Moment.abandon_write (hwrites : σ.writes = w :: ws)
    (hlast : σ.writes.getLast? = some (.abandon s)) :
  (w = .abandon s ∧ ws = []
    ∧ (σ.table.write w).Past s ((σ.table.slots s).generation + 1))
    ∨ ws.getLast? = some (.abandon s)
      ∧ ((σ.table.write w).slots s).generation = (σ.table.slots s).generation
  := by
  cases moment with
  | rest => cases hwrites
  | aliasing => cases hlast
  | doomed =>
    rw [eraseLocked, getLast?_concat] at hlast
    cases hlast
  | erasing =>
    rw [getLast?_concat] at hlast
    cases hlast
  | @creating t _ _ rest hsome _ _ _ _ _ _ inserted hins built ws' left =>
  have hfinal := Creating.last left
  rw [hlast] at hfinal
  obtain rfl : s = t.free.peek := by
    rcases hfinal with hfinal | hfinal
    · cases hfinal
      rfl
    · cases hfinal
  have hsame (inserted' : Finset Key) (built' : Option State) :
      ((t.during inserted' built').slots t.free.peek).generation
        = (t.slots t.free.peek).generation := by
    rw [during, put_slots_self]
  cases left with
  | publish | build => cases hlast
  | abandon =>
    cases hwrites
    left
    refine ⟨rfl, rfl, ?_⟩
    rw [during_empty]
    exact rest.past_abandonSlot hsome
  | insert hk hout left =>
    cases hwrites
    right
    constructor
    · rw [getLast?_cons] at hlast
      rcases Creating.last left with hnext | hnext
      · exact hnext
      rw [hnext] at hlast
      cases hlast
    change (((t.during inserted _).write _).slots t.free.peek).generation = _
    rw [during_insert hk hout, hsame]
    exact (hsame ..).symm
  | erase hmem hundo =>
  cases hwrites
  right
  constructor
  · exact hundo
  change (((t.during inserted _).write _).slots t.free.peek).generation = _
  rw [during_erase hmem (hins _ hmem), hsame]
  exact (hsame ..).symm

theorem Moment.leads_step (step : Step T σ σ') (leads : σ.Leads k h) :
  σ'.Leads k h
  := by
  have later := moment.later step
  rcases leads with keyOf | spent | ⟨s, hs, rfl, hlast⟩
  · exact (keyOf.later later).imp id .inl
  · exact .inr (.inl (spent.later later))
  have hs' : s < σ'.table.capacity := by
    rw [later.capacity]
    exact hs
  cases step with
  | call hidle =>
    rw [hidle] at hlast
    rcases hlast with hlast | ⟨⟨_, _, hlast⟩, _⟩ <;> cases hlast
  | rcu => exact .inr (.inr ⟨s, hs, rfl, hlast⟩)
  | @write w ws hwrites =>
  rcases hlast with hlast | ⟨⟨key, aliasKey, hlast⟩, hdir⟩
  · rcases moment.abandon_write hwrites hlast with ⟨_, _, hpast⟩ | ⟨hnext, hgen⟩
    · exact .inr (.inl ⟨s, hs', rfl, hpast⟩)
    refine .inr (.inr ⟨s, hs', ?_, .inl hnext⟩)
    rw [hgen]
  · exact (moment.write hwrites).leads (moment.directory_write hwrites hlast hdir)

end

omit [DecidableEq Key] in
theorem Offered.not_alive (hcap : σ.table.capacity < 2 ^ 30) (offered : σ.Offered k h) :
  σ.table.alive h = false
  := by
  obtain ⟨s, hs, rfl, _⟩ := offered
  rw [← Bool.not_eq_true, alive_iff hcap]
  rintro ⟨s', hs', _, hh⟩
  obtain rfl := handleOf_inj hcap hs hs' hh
  have hsucc := congrArg FlowHandle.generation hh
  change (σ.table.slots s).generation + 1 = (σ.table.slots s).generation at hsucc
  bv_omega

omit [DecidableEq Key] in
/-- A directory value that is good leads to a flow with that key. -/
theorem Leads.keyOf (hcap : σ.table.capacity < 2 ^ 30) (leads : σ.Leads k h)
    (halive : σ.table.alive h = true) :
  σ.table.KeyOf h k
  := by
  rcases leads with keyOf | spent | offered
  · exact keyOf
  · rw [spent.not_alive hcap] at halive
    cases halive
  rw [offered.not_alive hcap] at halive
  cases halive

/-- A publication: the state is built, the keys are in place, and the slot was free. -/
theorem Moment.publish (moment : Moment T σ) (hwrites : σ.writes = .publish s key aliasKey :: ws) :
  s < σ.table.capacity ∧ (σ.table.slots s).live = false ∧ s ∈ σ.table.free.contents
    ∧ (σ.table.slots s).state.isSome = true ∧ ws = []
    ∧ ∀ k ∈ aliasKey.toList ++ [key], σ.table.directory k
      = some ⟨BitVec.ofNat 32 (s + 1), (σ.table.slots s).generation + 1⟩
  := by
  cases moment with
  | rest | aliasing | doomed => cases hwrites
  | @erasing _ _ _ _ _ _ _ _ left => cases left <;> cases hwrites
  | @creating t _ _ rest hsome _ _ state _ _ _ inserted _ _ _ left =>
  cases left with
  | publish =>
    cases hwrites
    obtain ⟨hs, hdead, _, hlisted⟩ := rest.peek hsome
    refine ⟨hs, ?_, hlisted, ?_, rfl, ?_⟩
    · rw [during, put_slots_self]
      exact hdead
    · rw [during, put_slots_self]
      rfl
    intro k hk
    rw [during, put_slots_self]
    exact if_pos (mem_toFinset.mpr hk)
  | _ => cases hwrites

theorem Moment.withdraw (moment : Moment T σ) (hwrites : σ.writes = w :: ws)
    (hw : w = .unpublish s ∨ w = .abandon s) :
  s < σ.table.capacity ∧ ((σ.table.write w).slots s).live = false
    ∧ (ws.getLast? = none ∨ ws.getLast? = some (.retire s))
    ∧ (w = .unpublish s → (σ.table.slots s).live = true)
  := by
  cases moment with
  | rest => cases hwrites
  | aliasing =>
    cases hwrites
    rcases hw with hw | hw <;> cases hw
  | @doomed t _ _ rest s' hs hlive =>
    cases hwrites
    rcases hw with hw | hw
    · cases hw
      refine ⟨hs, ?_, .inr (getLast?_concat ..), fun _ => hlive⟩
      change ((t.whileErasing _ []).slots _).live = false
      rw [whileErasing, put_slots_self, SlotRecord.live_advance, hlive]
      rfl
    · cases hw
  | @erasing _ _ _ _ _ _ _ _ left =>
    rcases hw with rfl | rfl <;> cases left <;> cases hwrites
  | @creating t _ _ rest hsome _ _ _ _ _ _ inserted hins built _ left =>
  rcases hw with rfl | rfl
  · cases left <;> cases hwrites
  cases left with
  | abandon =>
    cases hwrites
    obtain ⟨hs, hdead, _⟩ := rest.peek hsome
    refine ⟨hs, ?_, .inl rfl, by rintro ⟨⟩⟩
    rw [during_empty]
    change ((t.abandonSlot _).slots _).live = false
    rw [abandonSlot_eq]
    split <;> rw [put_slots_self, live_moveOn, hdead]
  | _ => cases hwrites

/-! ### Runs and readers -/

/-- A run, with the moments at which nothing happens. -/
structure Run (T : FlowTableTraits Key) (σ : ℕ → Sharing Key State) : Prop where
  start : Reached T (σ 0)
  next : ∀ n, Step T (σ n) (σ (n + 1)) ∨ σ (n + 1) = σ n

/-- A reader's `Resolve`, which reads the directory at `i` and the generation at `j`. -/
def resolveAt (σ : ℕ → Sharing Key State) (key : Key) (i j : ℕ) : Option FlowHandle :=
  ((σ i).table.directory key).filter (σ j).table.alive

/-- The step from `n` on is the write `w`. -/
def Makes (σ : ℕ → Sharing Key State) (n : ℕ) (w : Write Key State) : Prop :=
  (σ n).writes = w :: (σ (n + 1)).writes

namespace Run

variable {σ : ℕ → Sharing Key State} {i j n : ℕ} (run : Run T σ)

include run

theorem moment (n : ℕ) :
  Moment T (σ n)
  := by
  induction n with
  | zero => exact run.start.moment
  | succ n ih =>
  rcases run.next n with step | hsame
  · exact ih.step step
  rw [hsame]
  exact ih

theorem later (hle : i ≤ j) :
  Later (σ i).table (σ j).table
  := by
  induction j, hle using Nat.le_induction with
  | base => exact later_of_slots rfl rfl fun _ => .inl rfl
  | succ j _ ih =>
  rcases run.next j with step | hsame
  · exact ih.trans ((run.moment j).later step)
  rw [hsame]
  exact ih

theorem leads (hle : i ≤ j) (hdir : (σ i).table.directory k = some h) :
  (σ j).Leads k h
  := by
  induction j, hle using Nat.le_induction with
  | base => exact (run.moment i).leads hdir
  | succ j _ ih =>
  rcases run.next j with step | hsame
  · exact (run.moment j).leads_step step ih
  rw [hsame]
  exact ih

theorem table_of_makes (makes : Makes σ n w) :
  (σ (n + 1)).table = (σ n).table.write w
  := by
  rw [Makes] at makes
  rcases run.next n with step | hsame
  · generalize σ (n + 1) = σ' at step makes
    cases step with
    | call hidle =>
      rw [hidle] at makes
      cases makes
    | write hwrites =>
      rw [hwrites] at makes
      cases makes
      rfl
    | rcu => exact absurd makes (cons_ne_self _ _).symm
  rw [hsame] at makes
  exact absurd makes (cons_ne_self _ _).symm

/-- Once `k` is a key of the flow `h`, it leads there until the flow is gone for good. -/
theorem directory_of_keyOf (hle : i ≤ j) (keyOf : (σ i).table.KeyOf h k) :
  (σ j).table.KeyOf h k ∧ (σ j).table.directory k = some h ∨ (σ j).table.Spent h
  := by
  apply (keyOf.later (run.later hle)).imp _ id
  intro keyOf'
  exact ⟨keyOf', (run.moment j).directory_of_keyOf keyOf'⟩

theorem not_alive_of_spent (hle : i ≤ j) (spent : (σ i).table.Spent h) :
  (σ j).table.alive h = false
  := (spent.later (run.later hle)).not_alive (run.moment j).capacity_lt

/-- A handle is not good before it is published. -/
theorem not_alive_before (makes : Makes σ n (.publish s key aliasKey)) (hle : j ≤ n) :
  (σ j).table.alive ⟨BitVec.ofNat 32 (s + 1), ((σ n).table.slots s).generation + 1⟩ = false
  := by
  obtain ⟨hs, hdead, hlisted, _⟩ := (run.moment n).publish makes
  have heven := toNat_even hdead
  have later := run.later hle
  rw [later.capacity] at hs
  rw [← Bool.not_eq_true, alive_iff (run.moment j).capacity_lt]
  rintro ⟨s', hs', hlive, hh⟩
  obtain rfl := handleOf_inj (run.moment j).capacity_lt hs hs' hh
  have hgen : ((σ n).table.slots s).generation + 1 = ((σ j).table.slots s).generation :=
    congrArg FlowHandle.generation hh
  rcases later.kept hs hlive with (hlt | ⟨_, hout⟩) | ⟨hsame, _⟩
  · bv_omega
  · exact hout hlisted
  · bv_omega

/-- What an erase or an abandoned create withdraws is gone for good. -/
theorem spent_of_withdraw (makes : Makes σ n w) (hw : w = .unpublish s ∨ w = .abandon s)
    (leads : (σ (n + 1)).Leads k h) (hid : h.id = BitVec.ofNat 32 (s + 1)) :
  (σ (n + 1)).table.Spent h
  := by
  obtain ⟨hs, hdead, hlast, _⟩ := (run.moment n).withdraw makes hw
  rw [← run.table_of_makes makes] at hdead
  rcases leads with ⟨s', hs', hlive, rfl, _⟩ | spent | ⟨s', hs', _, hoffer⟩
  · rw [← (run.later (Nat.le_succ n)).capacity] at hs
    obtain rfl : s' = s := id_inj (run.moment (n + 1)).capacity_lt hs' hs hid
    rw [hdead] at hlive
    cases hlive
  · exact spent
  rcases hoffer with hoffer | ⟨⟨_, _, hoffer⟩, _⟩ <;> rw [hoffer] at hlast <;>
    rcases hlast with hlast | hlast <;> cases hlast

end Run

/-- Publication is atomic in every run and for every reader. A key resolves to a flow with that key
and with its state built. After a key of a flow has resolved, every other key of it resolves to the
same flow, or the flow is gone for good. At its publication a flow gets all its keys at once and no
key led to it before; once its erase has begun none does. A directory value read before an erase or
before the end of an abandoned create is good for no later flow of the slot. -/
theorem publication {σ : ℕ → Sharing Key State} (run : Run T σ) :
  (∀ {k h i j}, i ≤ j → resolveAt σ k i j = some h → (σ j).table.KeyOf h k)
    ∧ (∀ {k₁ k₂ h i j m i' j'}, i ≤ j → resolveAt σ k₁ i j = some h → j ≤ i' → m ≤ i' → i' ≤ j' →
      (σ m).table.KeyOf h k₂ →
      resolveAt σ k₂ i' j' = some h ∨ ∀ n ≥ j', (σ n).table.alive h = false)
    ∧ (∀ {n s key aliasKey}, Makes σ n (.publish s key aliasKey) →
      (∀ k ∈ aliasKey.toList ++ [key],
        (σ (n + 1)).table.KeyOf ((σ (n + 1)).table.handleOf s) k)
      ∧ ∀ k i, ∀ j ≤ n, resolveAt σ k i j ≠ some ((σ (n + 1)).table.handleOf s))
    ∧ (∀ {n s}, Makes σ n (.unpublish s) →
      ∀ k i, ∀ j > n, resolveAt σ k i j ≠ some ((σ n).table.handleOf s))
    ∧ ∀ {n s w}, Makes σ n w → w = .unpublish s ∨ w = .abandon s →
      ∀ {k h}, ∀ i ≤ n, (σ i).table.directory k = some h → h.id = BitVec.ofNat 32 (s + 1) →
      ∀ j > n, (σ j).table.alive h = false
  := by
  have halive {k h i j} (hread : resolveAt σ k i j = some h) :
      (σ i).table.directory k = some h ∧ (σ j).table.alive h = true :=
    Option.filter_eq_some_iff.mp hread
  refine ⟨?built, ?agree, ?published, ?erased, ?withdrawn⟩
  case built =>
    intro k h i j hij hread
    obtain ⟨hdir, hgood⟩ := halive hread
    exact (run.leads hij hdir).keyOf (run.moment j).capacity_lt hgood
  case agree =>
    intro k₁ k₂ h i j m i' j' _ _ _ hm hij' keyOf
    rcases run.directory_of_keyOf hm keyOf with ⟨keyOf', hdir⟩ | spent
    · rcases run.directory_of_keyOf hij' keyOf' with ⟨keyOf'', _⟩ | spent
      · left
        exact Option.filter_eq_some_iff.mpr ⟨hdir, keyOf''.alive (run.moment j').capacity_lt⟩
      · exact .inr fun n hn => run.not_alive_of_spent hn spent
    · exact .inr fun n hn => run.not_alive_of_spent (hij'.trans hn) spent
  case published =>
    intro n s key aliasKey makes
    have htable := run.table_of_makes makes
    obtain ⟨hs, _, _, _, hdone, hkeys⟩ := (run.moment n).publish makes
    obtain ⟨slots, rest⟩ := (run.moment (n + 1)).atRest hdone
    have hhandle : (σ (n + 1)).table.handleOf s
        = ⟨BitVec.ofNat 32 (s + 1), ((σ n).table.slots s).generation + 1⟩ := by
      rw [htable]
      change FlowHandle.mk _ (Function.update (σ n).table.slots s _ s).generation = _
      rw [Function.update_self]
      cases aliasKey <;> rfl
    constructor
    · intro k hk
      rw [rest.keyOf_iff, hhandle, htable]
      exact hkeys k hk
    intro k i j hj hread
    have hgood := (halive hread).2
    rw [hhandle, run.not_alive_before makes hj] at hgood
    cases hgood
  case erased =>
    intro n s makes k i j hj hread
    obtain ⟨hs, hdead, _, hlive⟩ := (run.moment n).withdraw makes (.inl rfl)
    rw [← run.table_of_makes makes] at hdead
    have later := run.later (Nat.le_succ n)
    have spent : (σ (n + 1)).table.Spent ((σ n).table.handleOf s) := by
      refine ⟨s, later.capacity.symm ▸ hs, rfl, ?_⟩
      rcases later.kept hs (hlive rfl) with hpast | ⟨hsame, _⟩
      · exact hpast
      rw [SlotRecord.live, hsame, ← SlotRecord.live, hlive rfl] at hdead
      cases hdead
    have hgood := (halive hread).2
    rw [run.not_alive_of_spent hj spent] at hgood
    cases hgood
  case withdrawn =>
  intro n s w makes hw k h i hi hdir hid j hj
  have leads := run.leads (hi.trans (Nat.le_succ n)) hdir
  exact run.not_alive_of_spent hj (run.spent_of_withdraw makes hw leads hid)

/-- A flow is there, its erase begins, and nothing else happens. -/
def eraseBegins (t : SharedFlowTable ℕ Unit) (erasedAt : ℕ → ℕ) : ℕ → Sharing ℕ Unit
  | 0 => ⟨t, [], erasedAt⟩
  | 1 => ⟨t, t.eraseLocked soloTraits 0, erasedAt⟩
  | _ + 2 => ⟨t.write (.unpublish 0), (t.eraseLocked soloTraits 0).tail, erasedAt⟩

theorem publication_solo :
  ∃ σ : ℕ → Sharing ℕ Unit, Run soloTraits σ ∧ resolveAt σ 5 0 1 = some ⟨1, 1⟩
    ∧ (σ 1).table.KeyOf ⟨1, 1⟩ 6 ∧ Makes σ 1 (.unpublish 0)
    ∧ (∀ i j, 1 ≤ i → i ≤ j →
      resolveAt σ 6 i j = some ⟨1, 1⟩ ∨ ∀ n ≥ j, (σ n).table.alive ⟨1, 1⟩ = false)
    ∧ ∀ j > 1, resolveAt σ 5 0 j ≠ some ⟨1, 1⟩
  := by
  have hrun : ((create soloTraits 1 ⟨0, 0⟩).map fun t : SharedFlowTable ℕ Unit =>
      let t' := after soloTraits t (soloCircumstances 0) (.emplace 5 (some 6) ())
      (t.domain.completed, t'.domain.completed, [5, 6].map t'.resolve, t'.slotOf ⟨1, 1⟩,
        t'.handleOf 0))
      = some (0, 0, [some ⟨1, 1⟩, some ⟨1, 1⟩], some 0, ⟨1, 1⟩) := by
    decide +kernel
  obtain ⟨t, hcreate, hrun⟩ := Option.map_eq_some_iff.mp hrun
  simp only [Prod.mk.injEq, List.map_cons, List.cons.injEq] at hrun
  obtain ⟨hcompleted, hcompleted', ⟨hread, hread', -⟩, hslot, hhandle⟩ := hrun
  have start : Reached soloTraits ⟨t, [], fun _ => 0⟩ := .create hcreate (Nat.le_refl 0)
  have halone : (SharedCall.emplace 5 (some 6) () : SharedCall ℕ Unit).Allowed soloTraits :=
    fun _ => Nat.zero_lt_one
  obtain ⟨erasedAt, created⟩ := start.after halone (c := soloCircumstances 0) hcompleted.le
    (Nat.zero_le _)
  generalize after soloTraits t (soloCircumstances 0) (.emplace 5 (some 6) ()) = t' at *
  have hplan : (SharedCall.eraseHandle ⟨1, 1⟩ : SharedCall ℕ Unit).plan soloTraits t'
      (soloCircumstances 0) = (t', t'.eraseLocked soloTraits 0) := by
    rw [SharedCall.plan, eraseHandle, hslot]
  have run : Run soloTraits (eraseBegins t' erasedAt) := by
    refine ⟨created, ?_⟩
    rintro (_ | _ | _)
    case succ.zero => exact .inl (.write rfl)
    case succ.succ => exact .inr rfl
    case zero =>
    have hallow : (SharedCall.eraseHandle ⟨1, 1⟩ : SharedCall ℕ Unit).Allowed soloTraits :=
      trivial
    have hstep := Step.call (σ := ⟨t', [], erasedAt⟩) rfl hallow (c := soloCircumstances 0)
      hcompleted'.le (Nat.zero_le _)
    rw [hplan] at hstep
    exact .inl hstep
  obtain ⟨hbuilt, hagree, _, herased, _⟩ := publication run
  have hread : resolveAt (eraseBegins t' erasedAt) 5 0 1 = some ⟨1, 1⟩ := hread
  have hread' : resolveAt (eraseBegins t' erasedAt) 6 0 1 = some ⟨1, 1⟩ := hread'
  have hmakes : Makes (eraseBegins t' erasedAt) 1 (.unpublish 0) := rfl
  have hkey := hbuilt Nat.zero_lt_one.le hread'
  refine ⟨_, run, hread, hkey, hmakes, ?_, ?_⟩
  · intro i j hi hij
    exact hagree Nat.zero_lt_one.le hread hi hi hij hkey
  intro j hj
  rw [← hhandle]
  exact herased hmakes 5 0 j hj

end Sharing

end Flow
