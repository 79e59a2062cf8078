import Bess.Route.Table6

/-!
# The two instances of the IPv6 route table

`Buffered t` says what holds in every state. The live instance holds exactly the rules. The spare
holds them too, but for the prefixes it lags behind; while a stage is open it holds the staged
rules, unless an edit was refused. And an instance that readers may still be in is not edited: the
spare was never published, or it waits for a grace period that started after it was replaced.
-/

open Function List LongestMatch Option AList

namespace Route

namespace Instance6

/-- The rules an instance holds, the default route with them. -/
def holds (instance_ : Instance6) (p : Ipv6Prefix) : Option ℕ :=
  if p.length = 0 then
    if instance_.defaultValue = kNoDefault then none else some instance_.defaultValue
  else (instance_.trie.getD fun _ => none) p

/-- ::/0 is beside the trie, not in it. -/
def Bare (instance_ : Instance6) : Prop :=
  ∀ trie, instance_.trie = some trie → ∀ p : Ipv6Prefix, p.length = 0 → trie p = none

theorem id_apply (instance_ : Instance6) (broken : Option Broken) (p : Ipv6Prefix)
    (value : Option ℕ) :
  (instance_.apply broken p value).2.id = instance_.id
    ∧ (instance_.apply broken p value).2.miss = instance_.miss
  := by
  rw [apply]
  split
  case isTrue => exact ⟨rfl, rfl⟩
  case isFalse =>
  split
  case h_1 => exact ⟨rfl, rfl⟩
  case h_2 =>
  cases broken with
  | none | some => exact ⟨rfl, rfl⟩

variable {instance_ : Instance6}

/-- An edit that is not refused changes what the instance holds at its prefix. -/
theorem apply_ok {instance' : Instance6} {broken : Option Broken} {p : Ipv6Prefix}
    {value : Option ℕ} (h : instance_.apply broken p value = (none, instance'))
    (hbare : instance_.Bare) (hvalue : ∀ v, value = some v → v ≠ kNoDefault) :
  instance'.holds = update instance_.holds p value ∧ instance'.Bare
  := by
  rw [apply] at h
  split at h
  case isTrue hp =>
    cases h
    refine ⟨?_, hbare⟩
    funext q
    by_cases hq : q = p
    · subst hq
      rw [update_self, holds, if_pos hp]
      cases value with
      | none => rfl
      | some v => exact if_neg (hvalue v rfl)
    have hlong : q.length ≠ 0 := by
      intro hzero
      apply hq
      apply Prefix.ext (hzero.trans hp.symm)
      omega
    rw [update_of_ne hq, holds, holds, if_neg hlong, if_neg hlong]
  case isFalse hp =>
  split at h
  case h_1 htrie =>
    cases value with
    | none =>
      cases h
      have hnone : instance_.holds p = none := by
        rw [holds, if_neg hp, htrie, getD_none]
      rw [← hnone, update_eq_self]
      exact ⟨rfl, hbare⟩
    | some v => cases h
  case h_2 trie htrie =>
  cases broken with
  | some broken => cases h
  | none =>
  cases h
  constructor
  · funext q
    by_cases hq : q = p
    · subst hq
      rw [update_self, holds, if_neg hp, getD_some, update_self]
    rw [update_of_ne hq, holds, holds]
    split
    case isTrue => rfl
    case isFalse => rw [htrie, getD_some, getD_some, update_of_ne hq]
  rintro trie' ⟨⟩ q hq
  have hne : q ≠ p := by
    rintro rfl
    exact hp hq
  rw [update_of_ne hne]
  exact hbare trie htrie q hq

/-- Readers of an instance find the longest match of what it holds. -/
theorem lookup_holds (hbare : instance_.Bare)
    (hsmall : ∀ p value, instance_.holds p = some value → value < instance_.miss)
    (hmiss : instance_.miss ≤ kMaxValue + 1) (addr : BitVec 128) :
  instance_.lookup? addr = lookup instance_.holds addr
  := by
  have hzero : (Prefix.trunc addr 0).length = 0 := Prefix.length_trunc (Nat.zero_le 128)
  have hdef : lookup instance_.holds addr
      = (lookup (instance_.trie.getD fun _ => none) addr).or
          (instance_.holds (Prefix.trunc addr 0)) := by
    apply lookup_or_default
    · intro p hp
      rw [holds, if_neg hp]
    intro p hp
    cases htrie : instance_.trie with
    | none => rfl
    | some trie => exact hbare trie htrie p hp
  have hnoDefault : kMaxValue + 1 < kNoDefault := by decide
  have hfallback : instance_.holds (Prefix.trunc addr 0)
      = if instance_.defaultValue = kNoDefault then none else some instance_.defaultValue :=
    if_pos hzero
  rw [lookup?, lookupOrMiss, hdef, hfallback]
  cases htrie : instance_.trie with
  | none =>
    have hnone : lookup (fun _ : Ipv6Prefix => (none : Option ℕ)) addr = none :=
      lookup_eq_none_iff.mpr fun _ _ => rfl
    rw [getD_none, hnone, none_or]
  | some trie =>
  rw [getD_some]
  cases hfound : lookup trie addr with
  | none =>
    simp only [hfound, getD_none, ne_eq, not_true_eq_false, if_false, none_or]
  | some value =>
  have hlt : value < instance_.miss := by
    obtain ⟨p, -, hvalue, -⟩ := lookup_eq_some_iff.mp hfound
    apply hsmall p value
    rw [holds, if_neg, htrie, getD_some, hvalue]
    intro hp
    rw [hbare trie htrie p hp] at hvalue
    cases hvalue
  have hne : value ≠ instance_.miss := by omega
  have hne' : value ≠ kNoDefault := by omega
  simp only [hfound, getD_some, ne_eq, hne, not_false_eq_true, if_true, hne', if_false, some_or]

end Instance6

namespace Ipv6RouteTable

open Instance6

/-! ### Building and replaying -/

variable {instance' instance_ spare : Instance6} {p : Ipv6Prefix} {t t' : Ipv6RouteTable}
  {env : Rte6} {stage : Stage6} {value : ℕ}

theorem fill_ok {entries : List (Ipv6Prefix × ℕ)} (h : fill env entries instance_ = .ok instance')
    (hbare : instance_.Bare) (hnodup : (entries.map (·.1)).Nodup)
    (hvalue : ∀ entry ∈ entries, entry.2 ≠ kNoDefault) :
  (∀ entry ∈ entries, instance'.holds entry.1 = some entry.2)
    ∧ (∀ p ∉ entries.map (·.1), instance'.holds p = instance_.holds p)
    ∧ instance'.Bare ∧ instance'.id = instance_.id ∧ instance'.miss = instance_.miss
  := by
  induction entries generalizing instance_ with
  | nil =>
    cases h
    exact ⟨nofun, fun _ _ => rfl, hbare, rfl, rfl⟩
  | cons entry entries ih =>
  obtain ⟨p, value⟩ := entry
  rw [map_cons, nodup_cons] at hnodup
  rw [forall_mem_cons] at hvalue
  rw [fill] at h
  split at h
  case h_1 => cases h
  case h_2 instance₁ happly =>
  have hid := id_apply instance_ (env.builds p) p (some value)
  rw [happly] at hid
  obtain ⟨hholds, hbare₁⟩ := apply_ok happly hbare (by rintro v ⟨⟩; exact hvalue.1)
  obtain ⟨hentries, hrest, hbare', hid', hmiss'⟩ := ih h hbare₁ hnodup.2 hvalue.2
  refine ⟨?_, ?_, hbare', hid'.trans hid.1, hmiss'.trans hid.2⟩
  · rw [forall_mem_cons]
    refine ⟨?_, hentries⟩
    rw [hrest p hnodup.1, hholds, update_self]
  intro q hq
  rw [map_cons, mem_cons, not_or] at hq
  rw [hrest q hq.2, hholds, update_of_ne hq.1]

theorem replayLoop_some {change : Ipv6Prefix → Option (Option ℕ)} {lag : List Ipv6Prefix}
    (h : replayLoop env change lag instance_ = some instance') (hbare : instance_.Bare)
    (hvalue : ∀ p v, change p = some (some v) → v ≠ kNoDefault) :
  (∀ p ∈ lag, ∀ value, change p = some value → instance'.holds p = value)
    ∧ (∀ p, p ∉ lag ∨ change p = none → instance'.holds p = instance_.holds p)
    ∧ instance'.Bare ∧ instance'.id = instance_.id ∧ instance'.miss = instance_.miss
  := by
  induction lag generalizing instance_ with
  | nil =>
    cases h
    exact ⟨nofun, fun _ _ => rfl, hbare, rfl, rfl⟩
  | cons p lag ih =>
  rw [replayLoop] at h
  cases hchange : change p with
  | none =>
    rw [hchange] at h
    obtain ⟨hlag, hrest, hbare', hid, hmiss⟩ := ih h hbare
    refine ⟨?_, ?_, hbare', hid, hmiss⟩
    · rw [forall_mem_cons]
      refine ⟨?_, hlag⟩
      intro value hvalue'
      rw [hchange] at hvalue'
      cases hvalue'
    intro q hq
    apply hrest
    exact hq.imp_left fun hnot hmem => hnot (mem_cons_of_mem p hmem)
  | some value =>
  rw [hchange] at h
  simp only at h
  split at h
  case h_1 => cases h
  case h_2 instance₁ happly =>
  have hid := id_apply instance_ (env.replays p) p value
  rw [happly] at hid
  obtain ⟨hholds, hbare₁⟩ := apply_ok happly hbare (by rintro v rfl; exact hvalue p v hchange)
  obtain ⟨hlag, hrest, hbare', hid', hmiss'⟩ := ih h hbare₁
  refine ⟨?_, ?_, hbare', hid'.trans hid.1, hmiss'.trans hid.2⟩
  · rw [forall_mem_cons]
    refine ⟨?_, hlag⟩
    intro value' hvalue'
    rw [hchange] at hvalue'
    cases hvalue'
    by_cases hmem : p ∈ lag
    · exact hlag p hmem value hchange
    · rw [hrest p (Or.inl hmem), hholds, update_self]
  intro q hq
  have hne : q ≠ p := by
    rintro rfl
    rcases hq with hnot | hnone
    · exact hnot mem_cons_self
    rw [hchange] at hnone
    cases hnone
  rw [hrest q (hq.imp_left fun hnot hmem => hnot (mem_cons_of_mem p hmem)), hholds,
    update_of_ne hne]

variable {rules : AList (fun _ : Ipv6Prefix => ℕ)}
  {outcome : Outcome} {spare' : Instance6} {id : ℕ} {stage' : Stage6} {change : Change} {q : Ipv6Prefix}

theorem mem_inOrder :
  (p, value) ∈ inOrder rules ↔ rules.lookup p = some value
  := mem_mergeSort_entries

theorem nodup_inOrder (rules : AList (fun _ : Ipv6Prefix => ℕ)) :
  ((inOrder rules).map (·.1)).Nodup
  := (keys_mergeSort_entries rules _).nodup_iff.mpr (keys_nodup rules)

/-- An instance that has just been filled with the rules. -/
theorem holds_fill (h : fill env (inOrder rules) instance_ = .ok instance') (hbare : instance_.Bare)
    (hempty : instance_.holds = fun _ => none)
    (hvalue : ∀ p value, rules.lookup p = some value → value ≠ kNoDefault) :
  instance'.holds = (fun p => rules.lookup p) ∧ instance'.Bare ∧ instance'.id = instance_.id
    ∧ instance'.miss = instance_.miss
  := by
  obtain ⟨hentries, hrest, hbare', hid, hmiss⟩ := fill_ok h hbare (nodup_inOrder rules)
    (fun entry hentry => hvalue entry.1 entry.2 (mem_inOrder.mp hentry))
  refine ⟨?_, hbare', hid, hmiss⟩
  funext p
  cases hlook : rules.lookup p with
  | some value => exact hentries (p, value) (mem_inOrder.mpr hlook)
  | none =>
  rw [hrest p, hempty]
  intro hmem
  obtain ⟨⟨q, value⟩, hentry, rfl⟩ := mem_map.mp hmem
  rw [mem_inOrder.mp hentry] at hlook
  cases hlook

/-! ### What holds in every state -/

/-- An instance that readers are not in: it is not live, and if it was, a grace period that
started since it was replaced has completed. -/
def Ready (t : Ipv6RouteTable) (id : ℕ) : Prop :=
  id ≠ t.live.id ∧ ∀ replaced, t.replaced id = some replaced →
    ∃ token, replaced ≤ token ∧ token < t.started ∧ t.completed token = true

/-- The instances are told apart, and a spare that was published has a grace period to wait
for, or gets one. -/
structure Guarded (t : Ipv6RouteTable) : Prop where
  live_lt : t.live.id < t.nextId
  spare_lt : ∀ spare, t.spare = some spare → spare.id < t.nextId ∧ spare.id ≠ t.live.id
  replaced_lt : ∀ id replaced, t.replaced id = some replaced → id < t.nextId
  last_le : t.lastCommit ≤ t.started
  unpublished : t.spareUnpublished = true → ∀ spare, t.spare = some spare →
    t.replaced spare.id = none
  waiting : t.spareUnpublished = false → ∀ spare, t.spare = some spare →
    ∃ replaced, t.replaced spare.id = some replaced ∧ replaced ≤ t.lastCommit
      ∧ ∀ token, t.spareToken = some token → replaced ≤ token ∧ token < t.started
  ready : ∀ stage, t.stage = some stage → ∀ spare, t.spare = some spare → t.Ready spare.id

/-- What a stage has noted of its edits. -/
structure Noted (t : Ipv6RouteTable) (stage : Stage6) : Prop where
  touched : ∀ p, p ∈ stage.touched ↔ p ∈ stage.changes
  small : ∀ p change, stage.changes.lookup p = some change → ∀ value, change.value = some value →
    value ≤ t.config.maxValue
  node : ∀ p change, stage.changes.lookup p = some change → ∀ value, change.value = some value →
    p ∉ t.rules → change.node = some value

/-- The instances hold what they should. -/
structure Filled (t : Ipv6RouteTable) : Prop where
  bound : t.config.maxValue ≤ kMaxValue
  small : ∀ p value, t.rules.lookup p = some value → value ≤ t.config.maxValue
  live : t.live.holds = fun p => t.rules.lookup p
  liveBare : t.live.Bare ∧ t.live.miss = t.config.maxValue + 1
  spareMiss : ∀ spare, t.spare = some spare → spare.miss = t.config.maxValue + 1
  spareBare : (∀ stage, t.stage = some stage → stage.broken = false) →
    ∀ spare, t.spare = some spare → spare.Bare
  closed : t.stage = none → ∀ spare, t.spare = some spare →
    ∀ p ∉ t.spareLag, spare.holds p = t.rules.lookup p
  opened : ∀ stage, t.stage = some stage → t.spareLag = [] ∧ Noted t stage ∧
    ∃ spare, t.spare = some spare ∧ (stage.broken = false → spare.holds = t.findStaged stage)

structure Buffered (t : Ipv6RouteTable) : Prop where
  filled : Filled t
  guarded : Guarded t

/-- The spare under a stage that is not broken. -/
theorem Filled.staging (h : Filled t) (hstage : t.stage = some stage)
    (hspare : t.spare = some spare) (hbroken : stage.broken = false) :
  Noted t stage ∧ spare.Bare ∧ spare.holds = t.findStaged stage
  := by
  obtain ⟨-, hnoted, spare', hspare', hholds⟩ := h.opened stage hstage
  rw [hspare] at hspare'
  cases hspare'
  refine ⟨hnoted, h.spareBare ?_ spare hspare, hholds hbroken⟩
  simpa [hstage] using hbroken

theorem Filled.ne_noDefault (h : Filled t) (hvalue : value ≤ t.config.maxValue) :
  value ≠ kNoDefault
  := by
  have hbound := h.bound
  have hlt : kMaxValue < kNoDefault := by decide
  omega

theorem Filled.rules_ne (h : Filled t) (p : Ipv6Prefix) (value : ℕ)
    (hlook : t.rules.lookup p = some value) :
  value ≠ kNoDefault
  := h.ne_noDefault (h.small p value hlook)

theorem Filled.replay (h : Filled t) (hstage : t.stage = none)
    (hspare : t.spare = some spare) (hreplay : t.replay env spare = some spare') :
  spare'.holds = (fun p => t.rules.lookup p) ∧ spare'.Bare ∧ spare'.id = spare.id
    ∧ spare'.miss = spare.miss
  := by
  rw [Ipv6RouteTable.replay, bind_eq_some_iff] at hreplay
  obtain ⟨middle, hdeletes, hadds⟩ := hreplay
  obtain ⟨hgone, hkept, hbare, hid, hmiss⟩ := replayLoop_some hdeletes 
    (h.spareBare (by simp [hstage]) spare hspare)
    (by
      intro p v hchange
      obtain ⟨-, ⟨⟩⟩ | ⟨_, hchange⟩ := ite_eq_iff.mp hchange
      cases hchange)
  obtain ⟨hadded, hkept', hbare', hid', hmiss'⟩ := replayLoop_some hadds hbare
    (by
      intro p v hchange
      rw [map_eq_some_iff] at hchange
      obtain ⟨value, hlook, hsome⟩ := hchange
      cases hsome
      exact h.rules_ne p v hlook)
  refine ⟨?_, hbare', hid'.trans hid, hmiss'.trans hmiss⟩
  funext p
  by_cases hlag : p ∈ t.spareLag
  · cases hlook : t.rules.lookup p with
    | some value => exact hadded p hlag (some value) (by rw [hlook]; rfl)
    | none =>
    rw [hkept' p (Or.inr (by rw [hlook]; rfl))]
    exact hgone p hlag none (if_pos (lookup_eq_none.mp hlook))
  rw [hkept' p (Or.inl hlag), hkept p (Or.inl hlag)]
  exact h.closed hstage spare hspare p hlag

/-! ### Steps that readers do not see -/

/-- What readers see and the rules are as before, and only instances without readers have been
edited. -/
structure Hidden (t t' : Ipv6RouteTable) : Prop where
  config : t'.config = t.config
  live : t'.live = t.live
  rules : t'.rules = t.rules
  completed : t'.completed = t.completed
  replaced : t'.replaced = t.replaced
  started : t.started ≤ t'.started
  edited : ∃ ids, t'.edited = ids ++ t.edited ∧ ∀ id ∈ ids, t'.Ready id

theorem Ready.mono (h : t.Ready id) (live : t'.live = t.live) (replaced : t'.replaced = t.replaced)
    (completed : t'.completed = t.completed) (started : t.started ≤ t'.started) :
  t'.Ready id
  := by
  constructor
  · rw [live]
    exact h.1
  intro c hc
  rw [replaced] at hc
  obtain ⟨token, hle, hlt, hdone⟩ := h.2 c hc
  refine ⟨token, hle, by omega, ?_⟩
  rw [completed]
  exact hdone

theorem Hidden.ready (h : Hidden t t') (hid : t.Ready id) :
  t'.Ready id
  := hid.mono h.live h.replaced h.completed h.started

theorem Hidden.refl (t : Ipv6RouteTable) :
  Hidden t t
  := ⟨rfl, rfl, rfl, rfl, rfl, le_rfl, [], rfl, nofun⟩

theorem Hidden.edit (hready : t.Ready id) :
  Hidden t { t with edited := id :: t.edited }
  := by
  refine ⟨rfl, rfl, rfl, rfl, rfl, le_rfl, [id], rfl, ?_⟩
  intro id' hid
  rw [mem_singleton.mp hid]
  exact hready

theorem Hidden.trans {t'' : Ipv6RouteTable} (h : Hidden t t') (h' : Hidden t' t'') :
  Hidden t t''
  := by
  refine ⟨h'.config.trans h.config, h'.live.trans h.live, h'.rules.trans h.rules,
    h'.completed.trans h.completed, h'.replaced.trans h.replaced, h.started.trans h'.started, ?_⟩
  obtain ⟨ids, hids, hready⟩ := h.edited
  obtain ⟨ids', hids', hready'⟩ := h'.edited
  refine ⟨ids' ++ ids, by rw [hids', hids, append_assoc], ?_⟩
  intro id hid
  rcases mem_append.mp hid with hid | hid
  · exact hready' id hid
  · exact h'.ready (hready id hid)

theorem Buffered.takeToken (h : Buffered t) (hstage : t.stage = none)
    (hpub : t.spareUnpublished = false) :
  Buffered t.takeToken ∧ Hidden t t.takeToken ∧ t.takeToken.stage = none
    ∧ t.takeToken.spareUnpublished = false ∧ t.takeToken.spareToken ≠ none
  := by
  obtain ⟨hfilled, hguard⟩ := h
  rw [Ipv6RouteTable.takeToken]
  cases htoken : t.spareToken with
  | some token =>
    refine ⟨⟨hfilled, hguard⟩, Hidden.refl t, hstage, hpub, ?_⟩
    rw [htoken]
    nofun
  | none =>
  refine ⟨⟨{ hfilled with opened := by simp [hstage] }, ?_⟩,
    ⟨rfl, rfl, rfl, rfl, rfl, Nat.le_succ _, [], rfl, nofun⟩, hstage, hpub, nofun⟩
  refine { hguard with
    last_le := Nat.le_succ_of_le hguard.last_le, waiting := ?_, ready := by simp [hstage] }
  intro _ spare hspare
  obtain ⟨replaced, hrepl, hle, -⟩ := hguard.waiting hpub spare hspare
  refine ⟨replaced, hrepl, hle, ?_⟩
  rintro token ⟨⟩
  exact ⟨hle.trans hguard.last_le, Nat.lt_succ_self _⟩

theorem Buffered.dropSpare (h : Buffered t) (token : Option ℕ) (unpublished : Bool) :
  Buffered { t with
    stage := none, spare := none, spareLag := [], spareToken := token
    spareUnpublished := unpublished }
  := by
  obtain ⟨hfilled, hguard⟩ := h
  constructor
  · exact { hfilled with
      spareMiss := nofun, spareBare := fun _ => nofun, closed := fun _ => nofun, opened := nofun }
  exact ⟨hguard.live_lt, nofun, hguard.replaced_lt, hguard.last_le, fun _ => nofun,
    fun _ => nofun, nofun⟩

/-- A spare that was edited is guarded as before. -/
theorem Guarded.edit (h : Guarded t) (hspare : t.spare = some spare) {spare' : Option Instance6}
    {stage' : Option Stage6} (hid : ∀ new, spare' = some new → new.id = spare.id)
    (hstage : stage' ≠ none → t.stage ≠ none) (lag : List Ipv6Prefix) (edited : List ℕ) :
  Guarded { t with spare := spare', spareLag := lag, stage := stage', edited := edited }
  := by
  refine ⟨h.live_lt, ?_, h.replaced_lt, h.last_le, ?_, ?_, ?_⟩
  · intro new hnew
    rw [hid new hnew]
    exact h.spare_lt spare hspare
  · intro hunpublished new hnew
    rw [hid new hnew]
    exact h.unpublished hunpublished spare hspare
  · intro hpub new hnew
    rw [hid new hnew]
    exact h.waiting hpub spare hspare
  rintro _ ⟨⟩ new hnew
  obtain ⟨stage, hopen⟩ := ne_none_iff_exists'.mp (hstage nofun)
  rw [hid new hnew]
  exact h.ready stage hopen spare hspare

theorem Buffered.waitSpare (h : Buffered t) (hstage : t.stage = none) :
  Buffered t.waitSpare ∧ Hidden t t.waitSpare ∧ t.waitSpare.stage = none
    ∧ ∀ spare, t.waitSpare.spare = some spare → t.waitSpare.Ready spare.id
  := by
  rw [Ipv6RouteTable.waitSpare]
  split
  case isFalse hnot =>
    refine ⟨h, Hidden.refl t, hstage, ?_⟩
    intro spare hspare
    refine ⟨(h.guarded.spare_lt spare hspare).2, ?_⟩
    have hunpublished : t.spareUnpublished = true := by simpa [hspare] using hnot
    rw [h.guarded.unpublished hunpublished spare hspare]
    nofun
  case isTrue hwaits =>
  rw [Bool.and_eq_true, Bool.not_eq_true'] at hwaits
  obtain ⟨hbuf, hhidden, hstage', hpub, hsome⟩ := h.takeToken hstage hwaits.2
  obtain ⟨token, htoken⟩ := ne_none_iff_exists'.mp hsome
  simp only [htoken]
  split
  case isFalse =>
    have hdropped := hbuf.dropSpare (some token) t.takeToken.spareUnpublished
    rw [← hstage'] at hdropped
    exact ⟨hdropped, { hhidden with }, hstage', nofun⟩
  case isTrue hdone =>
  refine ⟨hbuf, hhidden, hstage', ?_⟩
  intro spare hspare
  obtain ⟨replaced, hrepl, -, htokens⟩ := hbuf.guarded.waiting hpub spare hspare
  refine ⟨(hbuf.guarded.spare_lt spare hspare).2, ?_⟩
  intro c hc
  rw [hrepl] at hc
  cases hc
  exact ⟨token, (htokens token htoken).1, (htokens token htoken).2, hdone⟩

theorem Buffered.catchUp (h : Buffered t) (hstage : t.stage = none)
    (hready : ∀ spare, t.spare = some spare → t.Ready spare.id) (env : Rte6) :
  Buffered (t.catchUp env) ∧ Hidden t (t.catchUp env) ∧ (t.catchUp env).stage = none
    ∧ (t.catchUp env).spareLag = []
    ∧ ∀ spare, (t.catchUp env).spare = some spare → (t.catchUp env).Ready spare.id
  := by
  rw [Ipv6RouteTable.catchUp]
  cases hspare : t.spare with
  | none =>
    have hdropped := h.dropSpare t.spareToken t.spareUnpublished
    rw [← hstage] at hdropped
    exact ⟨hdropped, { Hidden.refl t with }, hstage, rfl, nofun⟩
  | some spare =>
  obtain ⟨hfilled, hguard⟩ := h
  have hreplay : ∀ {spare'}, t.replay env spare = some spare' →
      spare'.holds = (fun p => t.rules.lookup p) ∧ spare'.Bare ∧ spare'.id = spare.id
        ∧ spare'.miss = spare.miss := hfilled.replay hstage hspare
  refine ⟨⟨?_, ?_⟩, { Hidden.edit (hready spare hspare) with }, hstage, rfl, ?_⟩
  · refine { hfilled with
      spareMiss := ?_, spareBare := ?_, closed := ?_, opened := by simp [hstage] }
    · intro spare' hsome
      rw [(hreplay hsome).2.2.2]
      exact hfilled.spareMiss spare hspare
    · intro _ spare' hsome
      exact (hreplay hsome).2.1
    intro _ spare' hsome p _
    rw [(hreplay hsome).1]
  · apply hguard.edit hspare
    · exact fun _ hsome => (hreplay hsome).2.2.1
    · exact id
  intro spare' hsome
  rw [(hreplay hsome).2.2.1]
  exact hready spare hspare

theorem bare_newInstance (config : Config6) (id : ℕ) :
  (newInstance config id).Bare ∧ (newInstance config id).holds = fun _ => none
  := by
  constructor
  · nofun
  funext p
  rw [holds]
  split
  case isTrue | isFalse => rfl

theorem Filled.build (h : Filled t) (hbuild : t.build env = .ok instance_) :
  instance_.holds = (fun p => t.rules.lookup p) ∧ instance_.Bare ∧ instance_.id = t.nextId
    ∧ instance_.miss = t.config.maxValue + 1
  := by
  obtain ⟨hbare, hempty⟩ := bare_newInstance t.config t.nextId
  rw [Ipv6RouteTable.build] at hbuild
  simp only at hbuild
  split at hbuild
  case isFalse =>
    split at hbuild
    case h_2 => cases hbuild
    case h_1 filled hfill =>
    cases hbuild
    exact holds_fill hfill hbare hempty h.rules_ne
  case isTrue =>
  split at hbuild
  case h_2 | h_3 => cases hbuild
  case h_1 instance₁ htrie =>
  obtain ⟨-, ⟨⟩⟩ | ⟨_, htrie⟩ := ite_eq_iff.mp htrie
  split at htrie
  case h_1 => cases htrie
  case h_2 =>
  cases htrie
  split at hbuild
  case h_2 => cases hbuild
  case h_1 filled hfill =>
  cases hbuild
  apply holds_fill hfill _ _ h.rules_ne
  · rintro trie ⟨⟩ p _
    rfl
  funext p
  rw [holds]
  split
  case isTrue | isFalse => rfl

/-- The table with a spare for a stage, or without one. -/
def Prepared (t : Ipv6RouteTable) (answer : Outcome × Ipv6RouteTable) : Prop :=
  Buffered answer.2 ∧ Hidden t answer.2 ∧ answer.2.stage = none ∧ answer.2.spareLag = []
    ∧ (answer.1 = .ok → ∃ spare, answer.2.spare = some spare ∧ answer.2.Ready spare.id)

section

variable (h : Buffered t) (hstage : t.stage = none)

include h hstage

theorem Buffered.buildSpare (hlag : t.spareLag = [])
    (hready : ∀ spare, t.spare = some spare → t.Ready spare.id) (env : Rte6) :
  Prepared t (t.buildSpare env)
  := by
  rw [Ipv6RouteTable.buildSpare]
  cases hspare : t.spare with
  | some spare => exact ⟨h, Hidden.refl t, hstage, hlag, fun _ => ⟨spare, hspare, hready spare hspare⟩⟩
  | none =>
  obtain ⟨hfilled, hguard⟩ := h
  have hfresh : t.replaced t.nextId = none := by
    by_contra hsome
    obtain ⟨c, hc⟩ := ne_none_iff_exists'.mp hsome
    have hlt := hguard.replaced_lt _ _ hc
    omega
  have hreadyFresh : t.Ready t.nextId := by
    refine ⟨?_, ?_⟩
    · have hlt := hguard.live_lt
      omega
    rw [hfresh]
    nofun
  have hhidden : ∀ spare token unpublished, Hidden t
      { t with
        spare := spare
        spareToken := token
        spareUnpublished := unpublished
        nextId := t.nextId + 1
        edited := t.nextId :: t.edited } := by
    exact fun _ _ _ => { Hidden.edit hreadyFresh with }
  -- a build that fails leaves the table without a spare
  have hfailed : Buffered
      { t with spare := none, nextId := t.nextId + 1, edited := t.nextId :: t.edited } := by
    refine ⟨{ hfilled with
      spareMiss := nofun, spareBare := fun _ => nofun, closed := fun _ => nofun,
      opened := by simp [hstage] }, ?_⟩
    refine ⟨Nat.lt_succ_of_lt hguard.live_lt, nofun, ?_, hguard.last_le, fun _ => nofun,
      fun _ => nofun, by simp [hstage]⟩
    exact fun id c hc => Nat.lt_succ_of_lt (hguard.replaced_lt id c hc)
  cases hbuild : t.build env with
  | memoryRefused | error =>
    exact ⟨hfailed, hhidden none _ _, hstage, hlag, nofun⟩
  | ok instance_ =>
  obtain ⟨hholds, hbare, hid, hmiss⟩ := hfilled.build hbuild
  refine ⟨⟨?_, ?_⟩, hhidden (some instance_) none true, hstage, hlag, fun _ => ⟨instance_, rfl, ?_⟩⟩
  · refine { hfilled with
      spareMiss := ?_, spareBare := ?_, closed := ?_, opened := by simp [hstage] }
    · rintro spare ⟨⟩
      exact hmiss
    · rintro _ spare ⟨⟩
      exact hbare
    rintro _ spare ⟨⟩ p _
    rw [hholds]
  · refine ⟨Nat.lt_succ_of_lt hguard.live_lt, ?_, ?_, hguard.last_le, ?_, nofun,
      by simp [hstage]⟩
    · rintro spare ⟨⟩
      rw [hid]
      exact ⟨Nat.lt_succ_self _, hreadyFresh.1⟩
    · exact fun id c hc => Nat.lt_succ_of_lt (hguard.replaced_lt id c hc)
    rintro _ spare ⟨⟩
    rw [hid]
    exact hfresh
  rw [hid]
  exact hreadyFresh.mono rfl rfl rfl le_rfl

theorem Buffered.prepareSpare (env : Rte6) :
  Prepared t (t.prepareSpare env)
  := by
  obtain ⟨hwaited, hhidden, hstage', hready⟩ := h.waitSpare hstage
  obtain ⟨hcaught, hhidden', hstage'', hlag, hready'⟩ := hwaited.catchUp hstage' hready env
  obtain ⟨hbuilt, hhidden'', hend⟩ := hcaught.buildSpare hstage'' hlag hready' env
  exact ⟨hbuilt, hhidden.trans (hhidden'.trans hhidden''), hend⟩

/-- A stage that was just opened stages the rules as they are. -/
theorem Buffered.openStage (hlag : t.spareLag = [])
    (hspare : t.spare = some spare) (hready : t.Ready spare.id) (routes : ℕ) :
  Buffered { t with stage := some ⟨∅, [], routes, false⟩ }
  := by
  obtain ⟨hfilled, hguard⟩ := h
  constructor
  · refine { hfilled with spareBare := ?_, closed := nofun, opened := ?_ }
    · exact fun _ => hfilled.spareBare (by simp [hstage])
    rintro stage ⟨⟩
    refine ⟨hlag, ⟨fun p => ?_, nofun, nofun⟩, spare, hspare, fun _ => ?_⟩
    · exact iff_of_false not_mem_nil (notMem_empty p)
    funext p
    exact hfilled.closed hstage spare hspare p (by rw [hlag]; exact not_mem_nil)
  refine { hguard with ready := ?_ }
  intro _ _ spare' hspare'
  rw [hspare] at hspare'
  cases hspare'
  exact hready

end

/-- The rules as the open stage has them, or the committed ones. -/
def staged (t : Ipv6RouteTable) : Ipv6Prefix → Option ℕ :=
  match t.stage with
  | some stage => t.findStaged stage
  | none => fun p => t.rules.lookup p

theorem Buffered.beginStageLocked (h : Buffered t)
    (hbegin : t.beginStageLocked env = some (outcome, t')) :
  t.stage = none ∧ Buffered t' ∧ Hidden t t'
    ∧ (outcome = .ok → t'.stage ≠ none ∧ t'.staged = fun p => t.rules.lookup p)
    ∧ (outcome ≠ .ok → t'.stage = none)
  := by
  obtain ⟨-, ⟨⟩⟩ | ⟨hopen, hbegin⟩ := ite_eq_iff.mp hbegin
  have hstage : t.stage = none := by simpa using hopen
  obtain ⟨hbuf, hhidden, hstage', hlag, hready⟩ := h.prepareSpare hstage env
  split at hbegin
  case h_2 outcome' t₁ hnot hprepare =>
    rw [hprepare] at hbuf hhidden hstage'
    cases hbegin
    exact ⟨hstage, hbuf, hhidden, fun hok => (hnot hok).elim, fun _ => hstage'⟩
  case h_1 t₁ hprepare =>
  rw [hprepare] at hbuf hhidden hstage' hlag hready
  cases hbegin
  obtain ⟨spare, hspare, hready⟩ := hready rfl
  refine ⟨hstage, hbuf.openStage hstage' hlag hspare hready _,
    { hhidden with }, fun _ => ⟨nofun, ?_⟩, absurd rfl⟩
  rw [← hhidden.rules]
  rfl

/-! ### The edits of a stage -/

theorem Buffered.setStage (h : Buffered t)
    (hstage : t.stage = some stage) (hspare : t.spare = some spare) (hid : spare'.id = spare.id)
    (hmiss : spare'.miss = spare.miss) (hnoted : Noted t stage')
    (hholds : stage'.broken = false → spare'.Bare ∧ spare'.holds = t.findStaged stage')
    (edited : List ℕ) :
  Buffered { t with spare := some spare', stage := some stage', edited := edited }
  := by
  obtain ⟨hfilled, hguard⟩ := h
  constructor
  · refine { hfilled with spareMiss := ?_, spareBare := ?_, closed := nofun, opened := ?_ }
    · rintro instance_ ⟨⟩
      rw [hmiss]
      exact hfilled.spareMiss spare hspare
    · rintro hopen instance_ ⟨⟩
      exact (hholds (hopen stage' rfl)).1
    rintro instance_ ⟨⟩
    exact ⟨(hfilled.opened stage hstage).1, { hnoted with }, spare',
      rfl, fun hopen => (hholds hopen).2⟩
  apply hguard.edit hspare
  · rintro _ ⟨⟩
    exact hid
  rw [hstage]
  exact fun _ => nofun

theorem ensureTrie_ok (h : ensureTrie env instance_ p = .ok instance') (hbare : instance_.Bare) :
  instance'.holds = instance_.holds ∧ instance'.Bare ∧ instance'.id = instance_.id
    ∧ instance'.miss = instance_.miss
  := by
  rw [ensureTrie] at h
  split at h
  case isFalse =>
    cases h
    exact ⟨rfl, hbare, rfl, rfl⟩
  case isTrue hnone =>
  obtain ⟨-, ⟨⟩⟩ | ⟨_, h⟩ := ite_eq_iff.mp h
  split at h
  case h_1 => cases h
  case h_2 =>
  cases h
  refine ⟨?_, ?_, rfl, rfl⟩
  · funext q
    rw [holds, holds, hnone.2]
    rfl
  rintro trie ⟨⟩ q _
  rfl

theorem findStaged_insert (p : Ipv6Prefix) (change : Change) (touched : List Ipv6Prefix)
    (routes : ℕ) (broken : Bool) :
  t.findStaged ⟨stage.changes.insert p change, touched, routes, broken⟩
    = update (t.findStaged stage) p change.value
  := by
  funext q
  by_cases hq : q = p
  · subst hq
    rw [update_self, findStaged, lookup_insert]
  · rw [update_of_ne hq, findStaged, findStaged, lookup_insert_ne hq]

theorem lookup_changes_insert {changes : AList (fun _ : Ipv6Prefix => Change)}
    {change' : Change} (h : (changes.insert p change).lookup q = some change') :
  q = p ∧ change' = change ∨ q ≠ p ∧ changes.lookup q = some change'
  := by
  by_cases hq : q = p
  · subst hq
    rw [lookup_insert] at h
    cases h
    exact Or.inl ⟨rfl, rfl⟩
  rw [lookup_insert_ne hq] at h
  exact Or.inr ⟨hq, h⟩

theorem Noted.touched_insert (h : Noted t stage) (p : Ipv6Prefix) (change : Change) (q : Ipv6Prefix)
    :
  q ∈ (if decide (p ∉ stage.changes) = true then stage.touched ++ [p] else stage.touched)
    ↔ q ∈ stage.changes.insert p change
  := by
  rw [mem_insert]
  by_cases hp : p ∈ stage.changes
  · rw [decide_eq_false (not_not.mpr hp), if_neg Bool.false_ne_true, h.touched]
    refine ⟨Or.inr, ?_⟩
    rintro (rfl | hq)
    · exact hp
    · exact hq
  · rw [decide_eq_true hp, if_pos rfl, mem_append, mem_singleton, h.touched, or_comm]

/-- What a stage has noted after an edit that was not refused. -/
theorem Noted.insert (h : Noted t stage) (p : Ipv6Prefix) (change : Change)
    (hsmall : ∀ value, change.value = some value → value ≤ t.config.maxValue)
    (hnode : ∀ value, change.value = some value → p ∉ t.rules → change.node = some value)
    (routes : ℕ) (broken : Bool) :
  Noted t ⟨stage.changes.insert p change,
    if decide (p ∉ stage.changes) = true then stage.touched ++ [p] else stage.touched, routes,
    broken⟩
  := by
  refine ⟨h.touched_insert p change, ?_, ?_⟩
  · intro q change' hlook value hvalue
    rcases lookup_changes_insert hlook with ⟨rfl, rfl⟩ | ⟨-, hlook⟩
    · exact hsmall value hvalue
    · exact h.small q change' hlook value hvalue
  intro q change' hlook value hvalue hnot
  rcases lookup_changes_insert hlook with ⟨rfl, rfl⟩ | ⟨-, hlook⟩
  · exact hnode value hvalue hnot
  · exact h.node q change' hlook value hvalue hnot

/-- What an edit of a stage does: readers do not see it, and the staged rules have it or are as
before. -/
structure Edits (t t' : Ipv6RouteTable) (outcome : Outcome) (p : Ipv6Prefix)
    (value : Option ℕ) : Prop where
  buffered : Buffered t'
  hidden : Hidden t t'
  opened : t.stage ≠ none ∧ t'.stage ≠ none
  ok : outcome = .ok → t'.staged = update t.staged p value
  failed : outcome ≠ .ok → t'.staged = t.staged
    ∧ ∀ stage stage', t.stage = some stage → t'.stage = some stage' → stage'.routes = stage.routes
  sound : outcome = .ok → ∀ stage, t'.stage = some stage → stage.broken = false

theorem staged_of_some (h : t.stage = some stage) :
  t.staged = t.findStaged stage
  := by
  rw [staged, h]

/-- A refused edit that leaves the stage as it was. -/
theorem Buffered.unedited (h : Buffered t) {value : Option ℕ}
    (hstage : t.stage ≠ none) (hout : outcome ≠ .ok) :
  Edits t t outcome p value
  where
  buffered := h
  hidden := Hidden.refl t
  opened := ⟨hstage, hstage⟩
  ok hok := absurd hok hout
  failed _ := by
    refine ⟨rfl, ?_⟩
    intro stage stage' hsome hsome'
    rw [hsome] at hsome'
    cases hsome'
    rfl
  sound hok := absurd hok hout

/-- An edit reached the backend: it is staged, or it has broken the stage. -/
theorem Buffered.restaged (h : Buffered t) {value : Option ℕ} (hstage : t.stage = some stage)
    (hspare : t.spare = some spare) (hid : spare'.id = spare.id) (hmiss : spare'.miss = spare.miss)
    (hnoted : Noted t stage') (hout : outcome = .ok ↔ stage'.broken = false)
    (hok : stage'.broken = false → spare'.Bare ∧ spare'.holds = t.findStaged stage'
      ∧ t.findStaged stage' = update (t.findStaged stage) p value)
    (hfailed : stage'.broken = true →
      t.findStaged stage' = t.findStaged stage ∧ stage'.routes = stage.routes) :
  Edits t { t with spare := some spare', stage := some stage', edited := spare.id :: t.edited }
    outcome p value
  where
  buffered := by
    refine h.setStage hstage hspare hid hmiss hnoted ?_ _
    intro hbroken
    exact ⟨(hok hbroken).1, (hok hbroken).2.1⟩
  hidden := { Hidden.edit (h.guarded.ready stage hstage spare hspare) with }
  opened := ⟨by rw [hstage]; nofun, nofun⟩
  ok hdone := by
    rw [staged_of_some hstage]
    exact (hok (hout.mp hdone)).2.2
  failed hnot := by
    rw [ne_eq, hout, Bool.not_eq_false] at hnot
    rw [staged_of_some hstage]
    refine ⟨(hfailed hnot).1, ?_⟩
    rintro _ _ hsome ⟨⟩
    rw [hstage] at hsome
    cases hsome
    exact (hfailed hnot).2
  sound hdone := by
    rintro _ ⟨⟩
    exact hout.mp hdone

theorem Buffered.upsertLocked (h : Buffered t)
    (hupsert : t.upsertLocked env p value = some (outcome, t')) :
  Edits t t' outcome p (some value)
  := by
  rw [Ipv6RouteTable.upsertLocked] at hupsert
  split at hupsert
  case h_2 => cases hupsert
  case h_1 stage spare hstage hspare =>
  have hopen : t.stage ≠ none := by
    rw [hstage]
    nofun
  split at hupsert
  case isTrue =>
    cases hupsert
    exact h.unedited hopen nofun
  case isFalse hbroken =>
  split at hupsert
  case isTrue =>
    cases hupsert
    exact h.unedited hopen nofun
  case isFalse hvalue =>
  simp only at hupsert
  split at hupsert
  case isTrue hcur =>
    cases hupsert
    refine ⟨h, Hidden.refl t, ⟨hopen, hopen⟩, fun _ => ?_, absurd rfl, fun _ => ?_⟩
    · rw [staged_of_some hstage, ← hcur, update_eq_self]
    intro stage' hstage'
    rw [hstage] at hstage'
    cases hstage'
    simpa using hbroken
  case isFalse =>
  split at hupsert
  case isTrue =>
    cases hupsert
    exact h.unedited hopen nofun
  case isFalse =>
  split at hupsert
  case h_1 | h_2 =>
    cases hupsert
    exact h.unedited hopen nofun
  case h_3 spare₁ hensure =>
  have hbroken' : stage.broken = false := by simpa using hbroken
  obtain ⟨hnoted, hbare, hholds⟩ := h.filled.staging hstage hspare hbroken'
  obtain ⟨hholds₁, hbare₁, hid₁, hmiss₁⟩ := ensureTrie_ok hensure hbare
  obtain ⟨hid₂, hmiss₂⟩ := id_apply spare₁ env.edits p (some value)
  have hsmall : value ≤ t.config.maxValue := by omega
  split at hupsert
  case h_1 e spare₂ happly =>
    cases hupsert
    rw [happly] at hid₂ hmiss₂
    rw [hid₁]
    by_cases hp : p ∈ stage.changes
    case neg =>
      rw [decide_eq_true hp]
      exact h.restaged hstage hspare (hid₂.trans hid₁) (hmiss₂.trans hmiss₁)
        { hnoted with } (by simp) nofun fun _ => ⟨rfl, rfl⟩
    case pos =>
    obtain ⟨change, hchange⟩ := isSome_iff_exists.mp (lookup_isSome.mpr hp)
    have hinsert := hnoted.insert p
      { change with
        node := if change.node.isNone && decide (p ∉ t.rules) then some value else change.node }
      (hnoted.small p change hchange) (by
        intro v hv hnot
        have hnode := hnoted.node p change hchange v hv hnot
        simp [hnode]) stage.routes true
    rw [decide_eq_false (not_not.mpr hp)] at hinsert ⊢
    rw [hchange]
    refine h.restaged hstage hspare (hid₂.trans hid₁) (hmiss₂.trans hmiss₁) hinsert (by simp)
      nofun fun _ => ⟨?_, rfl⟩
    have hfind : t.findStaged stage p = change.value := by rw [findStaged, hchange]
    refine (findStaged_insert p _ _ _ _).trans ?_
    rw [getD_some, ← hfind, update_eq_self]
  case h_2 spare₂ happly =>
  cases hupsert
  rw [happly] at hid₂ hmiss₂
  rw [hid₁]
  have hnode : ∀ v, some value = some v → p ∉ t.rules →
      (if ((stage.changes.lookup p).getD ⟨none, none⟩).node.isNone && decide (p ∉ t.rules)
        then some value
        else ((stage.changes.lookup p).getD ⟨none, none⟩).node).map (fun _ => value)
        = some v := by
    cases hchange : ((stage.changes.lookup p).getD ⟨none, none⟩).node with
    | none => simp
    | some mapped => simp
  obtain ⟨hholds₂, hbare₂⟩ := apply_ok happly hbare₁
    (by rintro v ⟨⟩; exact h.filled.ne_noDefault hsmall)
  refine h.restaged hstage hspare (hid₂.trans hid₁) (hmiss₂.trans hmiss₁)
    (hnoted.insert p _ (by rintro v ⟨⟩; exact hsmall) hnode _ _) (by simp [hbroken'])
    (fun _ => ⟨hbare₂, ?_, findStaged_insert p _ _ _ _⟩) (by simp [hbroken'])
  rw [hholds₂, hholds₁, hholds, findStaged_insert]

theorem Buffered.eraseLocked (h : Buffered t) (herase : t.eraseLocked env p = some (outcome, t')) :
  Edits t t' outcome p none
  := by
  rw [Ipv6RouteTable.eraseLocked] at herase
  split at herase
  case h_2 => cases herase
  case h_1 stage spare hstage hspare =>
  have hopen : t.stage ≠ none := by
    rw [hstage]
    nofun
  split at herase
  case isTrue =>
    cases herase
    exact h.unedited hopen nofun
  case isFalse hbroken =>
  split at herase
  case isTrue =>
    cases herase
    exact h.unedited hopen nofun
  case isFalse =>
  have hbroken' : stage.broken = false := by simpa using hbroken
  obtain ⟨hnoted, hbare, hholds⟩ := h.filled.staging hstage hspare hbroken'
  obtain ⟨hid, hmiss⟩ := id_apply spare env.edits p none
  split at herase
  case h_1 e spare₁ happly =>
    cases herase
    rw [happly] at hid hmiss
    exact h.restaged hstage hspare hid hmiss { hnoted with } (by simp)
      nofun fun _ => ⟨rfl, rfl⟩
  case h_2 spare₁ happly =>
  cases herase
  rw [happly] at hid hmiss
  obtain ⟨hholds₁, hbare₁⟩ := apply_ok happly hbare nofun
  refine h.restaged hstage hspare hid hmiss
    (hnoted.insert p _ (fun _ hvalue => by cases hvalue) (fun _ hvalue => by cases hvalue) _ _)
    (by simp [hbroken'])
    (fun _ => ⟨hbare₁, ?_, findStaged_insert p _ _ _ _⟩) (by simp [hbroken'])
  rw [hholds₁, hholds, findStaged_insert]

/-! ### Commit and abort -/

theorem mem_commitChange (change : Change) (hq : q ≠ p) :
  (commitChange rules p change).lookup q = rules.lookup q
  := by
  rw [commitChange]
  split
  case h_2 => exact lookup_erase_ne hq
  case h_1 value _ =>
  split
  case isTrue => exact lookup_insert_ne hq
  case isFalse =>
  cases change.node with
  | none => rfl
  | some mapped => exact lookup_insert_ne hq

theorem lookup_commitChange
    (hnode : ∀ value, change.value = some value → p ∉ rules → change.node = some value) :
  (commitChange rules p change).lookup p = change.value
  := by
  rw [commitChange]
  cases hvalue : change.value with
  | none => exact lookup_erase p rules
  | some value =>
  simp only
  split
  case isTrue => exact lookup_insert rules
  case isFalse hnot =>
  rw [hnode value hvalue hnot]
  exact lookup_insert rules

theorem lookup_foldl_commitChange (changes : List (Sigma fun _ : Ipv6Prefix => Change))
    (rules : AList (fun _ : Ipv6Prefix => ℕ)) (hnodup : changes.NodupKeys)
    (hnode : ∀ entry ∈ changes, ∀ value, entry.2.value = some value → entry.1 ∉ rules →
      entry.2.node = some value) (p : Ipv6Prefix) :
  (changes.foldl (fun rules entry => commitChange rules entry.1 entry.2) rules).lookup p
    = match changes.dlookup p with
      | some change => change.value
      | none => rules.lookup p
  := by
  induction changes generalizing rules with
  | nil => rfl
  | cons entry changes ih =>
  obtain ⟨q, change⟩ := entry
  rw [nodupKeys_cons] at hnodup
  rw [forall_mem_cons] at hnode
  rw [foldl_cons, ih _ hnodup.2]
  · by_cases hp : p = q
    · subst hp
      rw [dlookup_cons_eq, dlookup_eq_none.mpr hnodup.1]
      exact lookup_commitChange hnode.1
    · rw [dlookup_cons_ne changes ⟨q, change⟩ hp, mem_commitChange change hp]
  intro entry hentry value hvalue hnot
  apply hnode.2 entry hentry value hvalue
  have hne : entry.1 ≠ q := by
    intro heq
    apply hnodup.1
    rw [← heq]
    exact mem_keys.mpr ⟨entry.2, hentry⟩
  rw [← lookup_eq_none] at hnot ⊢
  rwa [mem_commitChange change hne] at hnot

theorem Noted.lookup_commit (h : Noted t stage) :
  (fun p => (stage.changes.entries.foldl (fun rules entry =>
      commitChange rules entry.1 entry.2) t.rules).lookup p)
    = t.findStaged stage
  := by
  funext p
  rw [lookup_foldl_commitChange _ _ stage.changes.nodupKeys]
  · rfl
  rintro ⟨q, change⟩ hentry value hvalue hnot
  exact h.node q change (mem_lookup_iff.mpr hentry) value hvalue hnot

/-- A commit: the staged rules are the rules, and the spare that has them is live. -/
theorem Buffered.commitLocked (h : Buffered t) (hcommit : t.commitLocked = some t') :
  Buffered t' ∧ (fun p => t'.rules.lookup p) = t.staged ∧ t'.stage = none
    ∧ t'.config = t.config ∧ t'.completed = t.completed ∧ t'.started = t.started
    ∧ t'.edited = t.edited ∧ t'.lastCommit = t.started ∧ t'.spareUnpublished = false
    ∧ t'.spare = some t.live ∧ t'.replaced = update t.replaced t.live.id (some t.started)
  := by
  rw [Ipv6RouteTable.commitLocked] at hcommit
  split at hcommit
  case h_2 => cases hcommit
  case h_1 stage spare hstage hspare =>
  split at hcommit
  case isTrue => cases hcommit
  case isFalse hbroken =>
  cases hcommit
  obtain ⟨hfilled, hguard⟩ := h
  obtain ⟨hnoted, hbare, hholds⟩ := hfilled.staging hstage hspare (by simpa using hbroken)
  have hcommitted := hnoted.lookup_commit
  have hlook : ∀ p, (stage.changes.entries.foldl (fun rules entry =>
      commitChange rules entry.1 entry.2) t.rules).lookup p = t.findStaged stage p :=
    congrFun hcommitted
  have hlt := hguard.spare_lt spare hspare
  refine ⟨⟨?_, ?_⟩, hcommitted.trans (staged_of_some hstage).symm, rfl, rfl, rfl, rfl, rfl, rfl, rfl,
    rfl, rfl⟩
  · refine ⟨hfilled.bound, ?_, hholds.trans hcommitted.symm,
      ⟨hbare, hfilled.spareMiss spare hspare⟩, ?_, ?_, ?_, nofun⟩
    · intro p value hvalue
      rw [hlook p, findStaged] at hvalue
      split at hvalue
      case h_1 change hchange => exact hnoted.small p change hchange value hvalue
      case h_2 => exact hfilled.small p value hvalue
    · rintro instance_ ⟨⟩
      exact hfilled.liveBare.2
    · rintro _ instance_ ⟨⟩
      exact hfilled.liveBare.1
    rintro _ instance_ ⟨⟩ p hp
    have hnot : p ∉ stage.changes := fun hmem => hp ((hnoted.touched p).mpr hmem)
    rw [hlook p, findStaged, lookup_eq_none.mpr hnot, hfilled.live]
  refine ⟨hlt.1, ?_, ?_, le_rfl, nofun, ?_, nofun⟩
  · rintro instance_ ⟨⟩
    exact ⟨hguard.live_lt, Ne.symm hlt.2⟩
  · intro id replaced hrepl
    by_cases hid : id = t.live.id
    · rw [hid]
      exact hguard.live_lt
    change update t.replaced t.live.id (some t.started) id = some replaced at hrepl
    rw [update_of_ne hid] at hrepl
    exact hguard.replaced_lt id replaced hrepl
  rintro _ instance_ ⟨⟩
  exact ⟨t.started, update_self .., le_rfl, nofun⟩

theorem Buffered.abortLocked (h : Buffered t) :
  Buffered t.abortLocked ∧ Hidden t t.abortLocked ∧ t.abortLocked.stage = none
  := by
  rw [Ipv6RouteTable.abortLocked]
  cases hstage : t.stage with
  | none => exact ⟨h, Hidden.refl t, hstage⟩
  | some stage =>
  simp only
  split
  case isTrue => exact ⟨h.dropSpare none false, { Hidden.refl t with }, rfl⟩
  case isFalse hbroken =>
  obtain ⟨hfilled, hguard⟩ := h
  have hstaging := fun (spare : Instance6) (hspare : t.spare = some spare) =>
    hfilled.staging hstage hspare (by simpa using hbroken)
  refine ⟨⟨?_, ?_⟩, { Hidden.refl t with }, rfl⟩
  · refine { hfilled with spareBare := ?_, closed := ?_, opened := nofun }
    · intro _ spare hspare
      exact (hstaging spare hspare).2.1
    intro _ spare hspare p hp
    obtain ⟨hnoted, -, hholds⟩ := hstaging spare hspare
    have hnot : p ∉ stage.changes := fun hmem => hp ((hnoted.touched p).mpr hmem)
    rw [hholds, findStaged, lookup_eq_none.mpr hnot]
  · exact { hguard with ready := nofun }

/-- What the instances hold does not depend on grace periods. -/
theorem Filled.of_eq (h : Filled t) (hconfig : t'.config = t.config) (hlive : t'.live = t.live)
    (hrules : t'.rules = t.rules) (hspare : t'.spare = t.spare) (hlag : t'.spareLag = t.spareLag)
    (hstage : t'.stage = t.stage) :
  Filled t'
  := by
  obtain ⟨config, live, rules, spare, _, _, spareLag, stage, _, _, _, _, _, _⟩ := t'
  subst hconfig hlive hrules hspare hlag hstage
  refine { h with opened := ?_ }
  intro stage hstage
  obtain ⟨hlag, hnoted, hspare⟩ := h.opened stage hstage
  exact ⟨hlag, { hnoted with }, hspare⟩

theorem Buffered.setToken (h : Buffered t) {token started : ℕ} (hlast : t.lastCommit ≤ token)
    (htoken : token < started) (hstarted : t.started ≤ started) :
  Buffered { t with spareToken := some token, started := started }
  := by
  obtain ⟨hfilled, hguard⟩ := h
  constructor
  · exact hfilled.of_eq rfl rfl rfl rfl rfl rfl
  refine { hguard with last_le := hguard.last_le.trans hstarted, waiting := ?_, ready := ?_ }
  · intro hpub spare hspare
    obtain ⟨replaced, hrepl, hle, -⟩ := hguard.waiting hpub spare hspare
    refine ⟨replaced, hrepl, hle, ?_⟩
    rintro token' ⟨⟩
    exact ⟨hle.trans hlast, htoken⟩
  intro stage hstage spare hspare
  exact (hguard.ready stage hstage spare hspare).mono rfl rfl rfl hstarted

end Ipv6RouteTable

end Route
