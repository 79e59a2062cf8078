import Bess.Route.DoubleBuffer

/-!
# Runs of the IPv6 route table

A run is a sequence of direct changes, staged edits, commits and aborts, with whatever the
backend decides in each of them; grace periods start, are given to commits and complete in between.
In every state of a run readers see exactly the committed rules and look up the longest prefix
among them. A step of the run changes what they see at once, to the staged rules, or not at all,
and edits only an instance that no reader can be in.
-/

open Function LongestMatch Option

namespace Route.Ipv6RouteTable

inductive Event
  | upsert (p : Ipv6Prefix) (value : ℕ)
  | erase (p : Ipv6Prefix)
  | beginStage
  | stageUpsert (p : Ipv6Prefix) (value : ℕ)
  | stageErase (p : Ipv6Prefix)
  | commit
  | abort
  | start
  | committed (token : ℕ)
  | complete (token : ℕ)

/-- One step. A commit is given a grace period that started after it, and only a grace period that
has started completes; there is no table after a failed check. -/
def exec (t : Ipv6RouteTable) (env : Rte6) : Event → Option (Outcome × Ipv6RouteTable)
  | .upsert p value => t.upsert env p value
  | .erase p => t.erase env p
  | .beginStage => t.beginStageLocked env
  | .stageUpsert p value => t.upsertLocked env p value
  | .stageErase p => t.eraseLocked env p
  | .commit => t.commitLocked.map (Outcome.ok, ·)
  | .abort => some (.ok, t.abortLocked)
  | .start => some (.ok, { t with started := t.started + 1 })
  | .committed token =>
      if t.lastCommit ≤ token ∧ token < t.started then some (.ok, t.committed token) else none
  | .complete token =>
      if token < t.started then
        some (.ok, { t with completed := update t.completed token true })
      else none

/-- The tables some run comes to. -/
inductive Reached (config : Config6) : Ipv6RouteTable → Prop
  | create {t : Ipv6RouteTable} : create config = .ok t → Reached config t
  | step {t t' : Ipv6RouteTable} {env : Rte6} {event : Event} {outcome : Outcome} :
      Reached config t → t.exec env event = some (outcome, t') → Reached config t'

/-- The events that may change what readers see. -/
def Event.publishes : Event → Bool
  | .upsert _ _ | .erase _ | .commit => true
  | _ => false

/-- The rules after an event that succeeds. -/
def Event.rules (t : Ipv6RouteTable) : Event → Ipv6Prefix → Option ℕ
  | .upsert p value => update (fun q => t.rules.lookup q) p (some value)
  | .erase p => update (fun q => t.rules.lookup q) p none
  | .commit => t.staged
  | _ => fun q => t.rules.lookup q

/-- The rules of the open stage after an event that succeeds, the committed ones when there is
none. A direct change that succeeds while a stage is open has found its rule there already. -/
def Event.staged (t : Ipv6RouteTable) : Event → Ipv6Prefix → Option ℕ
  | .stageUpsert p value => update t.staged p (some value)
  | .stageErase p => update t.staged p none
  | .upsert p value =>
      if t.stage.isSome then t.staged
      else update (fun q => t.rules.lookup q) p (some value)
  | .erase p =>
      if t.stage.isSome then t.staged else update (fun q => t.rules.lookup q) p none
  | .beginStage | .abort => fun q => t.rules.lookup q
  | .commit | .start | .committed _ | .complete _ => t.staged

/-- No reader is in the instance: it is not the live one, and if it ever was, a grace period that
started after it was replaced has completed. -/
def Quiet (t : Ipv6RouteTable) (started id : ℕ) : Prop :=
  id ≠ t.live.id ∧ ∀ replaced, t.replaced id = some replaced →
    ∃ token, replaced ≤ token ∧ token < started ∧ t.completed token = true

/-- What one step does. -/
structure Steps (t : Ipv6RouteTable) (event : Event) (outcome : Outcome)
    (t' : Ipv6RouteTable) : Prop where
  buffered : Buffered t'
  config : t'.config = t.config
  started : t.started ≤ t'.started
  live : event.publishes = false → t'.live = t.live ∧ t'.rules = t.rules
  ok : outcome = .ok → (fun q => t'.rules.lookup q) = event.rules t ∧ t'.staged = event.staged t
  refused : outcome ≠ .ok → t'.live = t.live ∧ t'.rules = t.rules ∧ t'.staged = t.staged
    ∧ ∀ stage stage', t.stage = some stage → t'.stage = some stage' → stage'.routes = stage.routes
  edited : ∃ ids, t'.edited = ids ++ t.edited ∧ ∀ id ∈ ids, t.Quiet t'.started id
  replaced : t'.live = t.live ∧ t'.replaced = t.replaced
    ∨ ∃ c, t.started ≤ c ∧ c ≤ t'.started ∧ t'.live.id ≠ t.live.id
        ∧ t'.replaced = update t.replaced t.live.id (some c)

variable {config : Config6} {event : Event} {p : Ipv6Prefix} {t t' : Ipv6RouteTable}
  {value : Option ℕ} {env : Rte6}

theorem staged_of_none (h : t.stage = none) :
  t.staged = fun q => t.rules.lookup q
  := by
  rw [staged, h]

theorem Hidden.edited_quiet (h : Hidden t t') :
  ∃ ids, t'.edited = ids ++ t.edited ∧ ∀ id ∈ ids, t.Quiet t'.started id
  := by
  obtain ⟨ids, hids, hready⟩ := h.edited
  refine ⟨ids, hids, fun id hid => ?_⟩
  obtain ⟨hne, hrepl⟩ := hready id hid
  rw [h.live] at hne
  rw [h.replaced, h.completed] at hrepl
  exact ⟨hne, hrepl⟩

variable {outcome edit : Outcome} {stage : Stage6}

theorem Hidden.steps (h : Hidden t t') (hbuf : Buffered t')
    (hok : outcome = .ok → event.rules t = (fun q => t.rules.lookup q)
      ∧ t'.staged = event.staged t)
    (hrefused : outcome ≠ .ok → t'.staged = t.staged ∧ ∀ stage stage', t.stage = some stage →
      t'.stage = some stage' → stage'.routes = stage.routes) :
  Steps t event outcome t'
  where
  buffered := hbuf
  config := h.config
  started := h.started
  live _ := ⟨h.live, h.rules⟩
  ok hout := by
    obtain ⟨hrules, hstaged⟩ := hok hout
    exact ⟨by rw [hrules, h.rules], hstaged⟩
  refused hout := ⟨h.live, h.rules, hrefused hout⟩
  edited := h.edited_quiet
  replaced := .inl ⟨h.live, h.replaced⟩

theorem Hidden.refused (h : Hidden t t') (hbuf : Buffered t')
    (hclosed : t.stage = none) (hclosed' : t'.stage = none) (hnot : outcome ≠ .ok) :
  Steps t event outcome t'
  := by
  apply h.steps hbuf
  · intro hok
    exact absurd hok hnot
  intro _
  refine ⟨?_, fun stage _ hsome => ?_⟩
  · rw [staged_of_none hclosed', staged_of_none hclosed, h.rules]
  rw [hclosed] at hsome
  cases hsome

theorem Edits.steps (h : Edits t t' outcome p value)
    (hrules : event.rules t = fun q => t.rules.lookup q)
    (hstaged : event.staged t = update t.staged p value) :
  Steps t event outcome t'
  := by
  apply h.hidden.steps h.buffered
  · intro hok
    exact ⟨hrules, (h.ok hok).trans hstaged.symm⟩
  intro hnot
  exact h.failed hnot

/-! ### Direct changes -/

/-- `finish` after an edit of a stage that was opened for it. -/
theorem Edits.finish {t₁ t₂ : Ipv6RouteTable} (h : Edits t₁ t₂ edit p value) (hopened : Hidden t t₁)
    (hclosed : t.stage = none) (hstaged : t₁.staged = fun q => t.rules.lookup q)
    (hfinish : finish (edit, t₂) = some (outcome, t')) (hpublishes : event.publishes = true)
    (hrules : event.rules t = update (fun q => t.rules.lookup q) p value)
    (hafter : event.staged t = update (fun q => t.rules.lookup q) p value) :
  Steps t event outcome t'
  := by
  have hhidden := hopened.trans h.hidden
  by_cases hedit : edit = .ok
  case pos =>
    rw [hedit] at hfinish
    obtain ⟨t₃, hcommit, hpair'⟩ := map_eq_some_iff.mp hfinish
    cases hpair'
    obtain ⟨hbuf, hnow, hnone, hconfig, -, hstarted, hedited, hlast, -, hspare, hrepl⟩ :=
      h.buffered.commitLocked hcommit
    have hlook : (fun q => t₃.rules.lookup q)
        = update (fun q => t.rules.lookup q) p value := by
      rw [hnow, h.ok hedit, hstaged]
    have hne := (hbuf.guarded.spare_lt t₂.live hspare).2
    constructor
    case buffered =>
      exact hbuf.setToken (by rw [hlast, hstarted]) (Nat.lt_succ_self _) (Nat.le_succ _)
    case config => exact hconfig.trans hhidden.config
    case started =>
      change t.started ≤ t₃.started + 1
      have hle := hhidden.started
      omega
    case live =>
      intro hnot
      rw [hpublishes] at hnot
      cases hnot
    case ok =>
      intro _
      refine ⟨hlook.trans hrules.symm, ?_⟩
      refine (staged_of_none ?_).trans (hlook.trans hafter.symm)
      exact hnone
    case refused =>
      intro hnot
      exact absurd rfl hnot
    case edited =>
      obtain ⟨ids, hids, hquiet⟩ := hhidden.edited_quiet
      refine ⟨ids, hedited.trans hids, fun id hid => ?_⟩
      refine ⟨(hquiet id hid).1, fun replaced hrepl => ?_⟩
      obtain ⟨token, hle, hlt, hcompleted⟩ := (hquiet id hid).2 replaced hrepl
      refine ⟨token, hle, ?_, hcompleted⟩
      change token < t₃.started + 1
      omega
    case replaced =>
    right
    refine ⟨t₂.started, hhidden.started, ?_, ?_, ?_⟩
    · change t₂.started ≤ t₃.started + 1
      omega
    · rw [← hhidden.live]
      exact Ne.symm hne
    rw [← hhidden.live, ← hhidden.replaced]
    exact hrepl
  case neg =>
  obtain ⟨hbuf, haborted, hnone⟩ := h.buffered.abortLocked
  have hfinish' : Ipv6RouteTable.finish (edit, t₂) = some (edit, t₂.abortLocked) := by
    cases edit with
    | ok => exact absurd rfl hedit
    | _ => rfl
  rw [hfinish'] at hfinish
  cases hfinish
  exact (hhidden.trans haborted).refused hbuf hclosed hnone hedit

section

variable (h : Buffered t)

include h

theorem Buffered.unchanged (hok : outcome = .ok → event.rules t = (fun q => t.rules.lookup q)
      ∧ t.staged = event.staged t) :
  Steps t event outcome t
  := by
  apply (Hidden.refl t).steps h hok
  intro _
  refine ⟨rfl, fun stage stage' hsome hsome' => ?_⟩
  rw [hsome] at hsome'
  cases hsome'
  rfl

theorem Buffered.upsert {value : ℕ} (hupsert : t.upsert env p value = some (outcome, t')) :
  Steps t (.upsert p value) outcome t'
  := by
  rw [Ipv6RouteTable.upsert] at hupsert
  split at hupsert
  case isTrue =>
    cases hupsert
    exact h.unchanged (fun hok => by cases hok)
  case isFalse =>
  split at hupsert
  case isTrue hcur =>
    cases hupsert
    have hsame : update (fun q => t.rules.lookup q) p (some value)
        = fun q => t.rules.lookup q := by
      rw [← hcur]
      exact update_eq_self p _
    apply h.unchanged
    intro _
    refine ⟨hsame, ?_⟩
    rw [Event.staged]
    split
    case isTrue => rfl
    case isFalse hopen =>
    rw [hsame]
    exact staged_of_none (by simpa using hopen)
  case isFalse =>
  split at hupsert
  case h_1 => cases hupsert
  case h_2 t₁ hbegin =>
    obtain ⟨hclosed, hbuf, hhidden, hopened, -⟩ := h.beginStageLocked hbegin
    obtain ⟨⟨edit, t₂⟩, hedit, hfinish⟩ := bind_eq_some_iff.mp hupsert
    apply (hbuf.upsertLocked hedit).finish hhidden hclosed (hopened rfl).2 hfinish rfl rfl
    rw [Event.staged, hclosed]
    rfl
  case h_3 t₁ hnot hbegin =>
  cases hupsert
  obtain ⟨hclosed, hbuf, hhidden, -, hrefused⟩ := h.beginStageLocked hbegin
  exact hhidden.refused hbuf hclosed (hrefused hnot) hnot

theorem Buffered.erase (herase : t.erase env p = some (outcome, t')) :
  Steps t (.erase p) outcome t'
  := by
  rw [Ipv6RouteTable.erase] at herase
  split at herase
  case isTrue =>
    cases herase
    exact h.unchanged (fun hok => by cases hok)
  case isFalse =>
  split at herase
  case h_1 => cases herase
  case h_2 t₁ hbegin =>
    obtain ⟨hclosed, hbuf, hhidden, hopened, -⟩ := h.beginStageLocked hbegin
    obtain ⟨⟨edit, t₂⟩, hedit, hfinish⟩ := bind_eq_some_iff.mp herase
    apply (hbuf.eraseLocked hedit).finish hhidden hclosed (hopened rfl).2 hfinish rfl rfl
    rw [Event.staged, hclosed]
    rfl
  case h_3 t₁ hnot hbegin =>
  cases herase
  obtain ⟨hclosed, hbuf, hhidden, -, hrefused⟩ := h.beginStageLocked hbegin
  exact hhidden.refused hbuf hclosed (hrefused hnot) hnot

/-! ### Grace periods -/

theorem Buffered.start :
  Buffered { t with started := t.started + 1 }
  := by
  obtain ⟨hfilled, hguard⟩ := h
  constructor
  · exact hfilled.of_eq rfl rfl rfl rfl rfl rfl
  refine { hguard with
    last_le := hguard.last_le.trans (Nat.le_succ _), waiting := ?_, ready := ?_ }
  · intro hpub spare hspare
    obtain ⟨replaced, hrepl, hle, htoken⟩ := hguard.waiting hpub spare hspare
    exact ⟨replaced, hrepl, hle, fun token hsome =>
      ⟨(htoken token hsome).1, Nat.lt_succ_of_lt (htoken token hsome).2⟩⟩
  intro stage hstage spare hspare
  exact (hguard.ready stage hstage spare hspare).mono rfl rfl rfl (Nat.le_succ _)

theorem Buffered.complete (token : ℕ) :
  Buffered { t with completed := update t.completed token true }
  := by
  obtain ⟨hfilled, hguard⟩ := h
  constructor
  · exact hfilled.of_eq rfl rfl rfl rfl rfl rfl
  refine { hguard with ready := ?_ }
  intro stage hstage spare hspare
  obtain ⟨hne, hquiet⟩ := hguard.ready stage hstage spare hspare
  refine ⟨hne, fun replaced hrepl => ?_⟩
  obtain ⟨token', hle, hlt, hcompleted⟩ := hquiet replaced hrepl
  refine ⟨token', hle, hlt, ?_⟩
  change update t.completed token true token' = true
  rw [update_apply, hcompleted, ite_self]

theorem Buffered.committed {token : ℕ} (hlast : t.lastCommit ≤ token) (htoken : token < t.started) :
  Buffered (t.committed token) ∧ Hidden t (t.committed token)
    ∧ (t.committed token).stage = t.stage
  := by
  rw [Ipv6RouteTable.committed]
  split
  case isTrue =>
    exact ⟨h.setToken hlast htoken le_rfl, ⟨rfl, rfl, rfl, rfl, rfl, le_rfl, [], rfl, nofun⟩, rfl⟩
  case isFalse => exact ⟨h, Hidden.refl t, rfl⟩

end

/-! ### Runs -/

theorem staged_eq (hrules : t'.rules = t.rules) (hstage : t'.stage = t.stage) :
  t'.staged = t.staged
  := by
  have hfind : t'.findStaged = t.findStaged := by
    funext stage p
    rw [findStaged, findStaged, hrules]
  rw [staged, staged, hstage, hrules, hfind]

theorem Buffered.exec (h : Buffered t) (hexec : t.exec env event = some (outcome, t')) :
  Steps t event outcome t'
  := by
  cases event with
  | upsert p value => exact h.upsert hexec
  | erase p => exact h.erase hexec
  | beginStage =>
    obtain ⟨hclosed, hbuf, hhidden, hopened, hrefused⟩ := h.beginStageLocked hexec
    by_cases hok : outcome = .ok
    · apply hhidden.steps hbuf
      · intro _
        exact ⟨rfl, (hopened hok).2⟩
      intro hnot
      exact absurd hok hnot
    · exact hhidden.refused hbuf hclosed (hrefused hok) hok
  | stageUpsert p value => exact (h.upsertLocked hexec).steps rfl rfl
  | stageErase p => exact (h.eraseLocked hexec).steps rfl rfl
  | commit =>
    obtain ⟨t₁, hcommit, hpair⟩ := map_eq_some_iff.mp hexec
    cases hpair
    obtain ⟨hbuf, hnow, hnone, hconfig, -, hstarted, hedited, -, -, hspare, hrepl⟩ :=
      h.commitLocked hcommit
    refine ⟨hbuf, hconfig, hstarted.ge, nofun, fun _ => ?_, absurd rfl, ?_, ?_⟩
    · exact ⟨hnow, (staged_of_none hnone).trans hnow⟩
    · exact ⟨[], hedited, nofun⟩
    right
    have hne := (hbuf.guarded.spare_lt t.live hspare).2
    exact ⟨t.started, le_rfl, hstarted.ge, Ne.symm hne, hrepl⟩
  | abort =>
    cases hexec
    obtain ⟨hbuf, hhidden, hnone⟩ := h.abortLocked
    apply hhidden.steps hbuf
    · intro _
      rw [staged_of_none hnone, hhidden.rules]
      exact ⟨rfl, rfl⟩
    intro hnot
    exact absurd rfl hnot
  | start =>
    cases hexec
    have hhidden : Hidden t { t with started := t.started + 1 } :=
      ⟨rfl, rfl, rfl, rfl, rfl, Nat.le_succ _, [], rfl, nofun⟩
    apply hhidden.steps h.start
    · intro _
      exact ⟨rfl, staged_eq rfl rfl⟩
    intro hnot
    exact absurd rfl hnot
  | committed token =>
    obtain ⟨htoken, hexec⟩ | ⟨-, ⟨⟩⟩ := ite_eq_iff.mp hexec
    cases hexec
    obtain ⟨hbuf, hhidden, hstage⟩ := h.committed htoken.1 htoken.2
    apply hhidden.steps hbuf
    · intro _
      exact ⟨rfl, staged_eq hhidden.rules hstage⟩
    intro hnot
    exact absurd rfl hnot
  | complete token =>
  obtain ⟨_, hexec⟩ | ⟨-, ⟨⟩⟩ := ite_eq_iff.mp hexec
  cases hexec
  refine ⟨h.complete token, rfl, le_rfl, fun _ => ⟨rfl, rfl⟩, fun _ => ⟨rfl, staged_eq rfl rfl⟩,
    absurd rfl, ⟨[], rfl, nofun⟩, .inl ⟨rfl, rfl⟩⟩

theorem Buffered.create (h : create config = .ok t) :
  Buffered t
  := by
  rw [Ipv6RouteTable.create] at h
  split at h
  case isTrue => cases h
  case isFalse hbound =>
  obtain ⟨-, ⟨⟩⟩ | ⟨_, h⟩ := ite_eq_iff.mp h
  cases h
  constructor
  · refine ⟨not_lt.mp hbound, ?_, ?_, ⟨nofun, rfl⟩, nofun, nofun, nofun, nofun⟩
    · intro p value hlook
      cases hlook
    funext p
    exact ite_self none
  · exact ⟨Nat.one_pos, nofun, nofun, le_rfl, nofun, nofun, nofun⟩

theorem Reached.buffered (h : Reached config t) :
  Buffered t
  := by
  induction h with
  | create hcreate => exact Buffered.create hcreate
  | step _ hexec ih => exact (ih.exec hexec).buffered

/-- The calls whose checks hold: one stage at a time, edits of an open stage, and a commit of one
whose edits all succeeded. -/
def Event.Allowed (t : Ipv6RouteTable) : Event → Prop
  | .upsert _ _ | .erase _ | .beginStage => t.stage = none
  | .stageUpsert _ _ | .stageErase _ => t.stage ≠ none
  | .commit => ∃ stage, t.stage = some stage ∧ stage.broken = false
  | .abort | .start => True
  | .committed token => t.lastCommit ≤ token ∧ token < t.started
  | .complete token => token < t.started

theorem beginStageLocked_isSome (h : t.stage = none) (env : Rte6) :
  (t.beginStageLocked env).isSome = true
  := by
  rw [beginStageLocked, h]
  split
  case isTrue hsome => cases hsome
  case isFalse => split <;> rfl

section

variable (h : Buffered t) (hopen : t.stage ≠ none)

include h hopen

theorem Buffered.spare_some :
  ∃ stage spare, t.stage = some stage ∧ t.spare = some spare
  := by
  obtain ⟨stage, hstage⟩ := ne_none_iff_exists'.mp hopen
  obtain ⟨-, -, spare, hspare, -⟩ := h.filled.opened stage hstage
  exact ⟨stage, spare, hstage, hspare⟩

theorem Buffered.upsertLocked_isSome (env : Rte6) (p : Ipv6Prefix) (value : ℕ) :
  (t.upsertLocked env p value).isSome = true
  := by
  obtain ⟨stage, spare, hstage, hspare⟩ := h.spare_some hopen
  rw [Ipv6RouteTable.upsertLocked, hstage, hspare]
  simp only
  repeat' split
  all_goals rfl

theorem Buffered.eraseLocked_isSome (env : Rte6) (p : Ipv6Prefix) :
  (t.eraseLocked env p).isSome = true
  := by
  obtain ⟨stage, spare, hstage, hspare⟩ := h.spare_some hopen
  rw [Ipv6RouteTable.eraseLocked, hstage, hspare]
  simp only
  repeat' split
  all_goals rfl

end

theorem Buffered.commitLocked_isSome (h : Buffered t)
    (hstage : t.stage = some stage) (hbroken : stage.broken = false) :
  t.commitLocked.isSome = true
  := by
  obtain ⟨-, -, spare, hspare, -⟩ := h.filled.opened stage hstage
  rw [Ipv6RouteTable.commitLocked, hstage, hspare]
  simp only
  rw [hbroken]
  rfl

theorem Edits.finish_isSome (h : Edits t t' edit p value) :
  (Ipv6RouteTable.finish (edit, t')).isSome = true
  := by
  cases edit with
  | ok =>
    obtain ⟨stage, hstage⟩ := ne_none_iff_exists'.mp h.opened.2
    rw [Ipv6RouteTable.finish, isSome_map]
    exact h.buffered.commitLocked_isSome hstage (h.sound rfl stage hstage)
  | _ => rfl

theorem Buffered.exec_isSome (h : Buffered t) (env : Rte6) (hallow : event.Allowed t) :
  (t.exec env event).isSome = true
  := by
  cases event with
  | upsert p value =>
    have hbegin := beginStageLocked_isSome hallow env
    rw [Ipv6RouteTable.exec, Ipv6RouteTable.upsert]
    split
    case isTrue => rfl
    case isFalse =>
    split
    case isTrue => rfl
    case isFalse =>
    split
    case h_1 hnone =>
      rw [hnone] at hbegin
      exact hbegin
    case h_2 t₁ hbegin =>
      obtain ⟨-, hbuf, -, hopened, -⟩ := h.beginStageLocked hbegin
      obtain ⟨⟨outcome, t₂⟩, hedit⟩ := isSome_iff_exists.mp
        (hbuf.upsertLocked_isSome (hopened rfl).1 env p value)
      rw [hedit]
      exact (hbuf.upsertLocked hedit).finish_isSome
    case h_3 => rfl
  | erase p =>
    have hbegin := beginStageLocked_isSome hallow env
    rw [Ipv6RouteTable.exec, Ipv6RouteTable.erase]
    split
    case isTrue => rfl
    case isFalse =>
    split
    case h_1 hnone =>
      rw [hnone] at hbegin
      exact hbegin
    case h_2 t₁ hbegin =>
      obtain ⟨-, hbuf, -, hopened, -⟩ := h.beginStageLocked hbegin
      obtain ⟨⟨outcome, t₂⟩, hedit⟩ := isSome_iff_exists.mp
        (hbuf.eraseLocked_isSome (hopened rfl).1 env p)
      rw [hedit]
      exact (hbuf.eraseLocked hedit).finish_isSome
    case h_3 => rfl
  | beginStage => exact beginStageLocked_isSome hallow env
  | stageUpsert p value => exact h.upsertLocked_isSome hallow env p value
  | stageErase p => exact h.eraseLocked_isSome hallow env p
  | commit =>
    obtain ⟨stage, hstage, hbroken⟩ := hallow
    rw [Ipv6RouteTable.exec, isSome_map]
    exact h.commitLocked_isSome hstage hbroken
  | abort | start => rfl
  | committed | complete =>
  rw [Ipv6RouteTable.exec]
  split
  case isTrue => rfl
  case isFalse hnot => exact absurd hallow hnot

theorem Buffered.lookup_live (h : Buffered t) (addr : BitVec 128) :
  t.live.lookup? addr = lookup (fun p => t.rules.lookup p) addr
  := by
  obtain ⟨hbare, hmiss⟩ := h.filled.liveBare
  rw [← h.filled.live]
  apply Instance6.lookup_holds hbare
  · intro p value hvalue
    rw [h.filled.live] at hvalue
    have hsmall := h.filled.small p value hvalue
    omega
  have hbound := h.filled.bound
  omega

/-- While a stage is open the spare has its rules, which differ from the committed ones at the
prefixes it touched. -/
theorem Buffered.open_spare (h : Buffered t) (hstage : t.stage = some stage) :
  ∃ spare, t.spare = some spare ∧ (stage.broken = false →
    spare.holds = t.staged ∧ ∀ p ∉ stage.touched, spare.holds p = t.rules.lookup p)
  := by
  obtain ⟨-, hnoted, spare, hspare, hholds⟩ := h.filled.opened stage hstage
  refine ⟨spare, hspare, fun hbroken => ?_⟩
  rw [staged_of_some hstage, hholds hbroken]
  refine ⟨rfl, fun p hp => ?_⟩
  have hnot : p ∉ stage.changes := fun hmem => hp ((hnoted.touched p).mpr hmem)
  rw [findStaged, AList.lookup_eq_none.mpr hnot]

/-- The two instances over every run. Readers see the committed rules and get the longest prefix
among them; the spare lags behind at the noted prefixes only; no check fails in a call made in
order; and a step does what `Steps` says: a stage is invisible until its commit shows all of it,
what was refused or aborted changes nothing, and only an instance without readers is edited. -/
theorem double_buffered {config : Config6} {t : Ipv6RouteTable} (h : Reached config t) :
  (t.live.holds = fun p => t.rules.lookup p)
    ∧ (∀ addr, t.live.lookup? addr = lookup (fun p => t.rules.lookup p) addr)
    ∧ (t.stage = none → ∀ spare, t.spare = some spare →
        ∀ p ∉ t.spareLag, spare.holds p = t.rules.lookup p)
    ∧ (∀ stage, t.stage = some stage → ∃ spare, t.spare = some spare ∧ (stage.broken = false →
        spare.holds = t.staged ∧ ∀ p ∉ stage.touched, spare.holds p = t.rules.lookup p))
    ∧ (∀ env event, event.Allowed t → (t.exec env event).isSome = true)
    ∧ ∀ env event outcome t', t.exec env event = some (outcome, t') → Steps t event outcome t'
  := by
  have hbuf := h.buffered
  refine ⟨hbuf.filled.live, hbuf.lookup_live, hbuf.filled.closed, ?_, ?_, ?_⟩
  · intro stage hstage
    exact hbuf.open_spare hstage
  · intro env event hallow
    exact hbuf.exec_isSome env hallow
  intro env event outcome t' hexec
  exact hbuf.exec hexec

/-- A backend that refuses nothing. -/
def willing6 : Rte6 where
  admits := true
  creates := none
  replays _ := none
  builds _ := none
  edits := none

def execAll (env : Rte6) : Ipv6RouteTable → List Event → Option Ipv6RouteTable
  | t, [] => some t
  | t, event :: events => (t.exec env event).bind fun r => execAll env r.2 events

theorem Reached.execAll {events : List Event} (h : Reached config t)
    (hexec : execAll env t events = some t') :
  Reached config t'
  := by
  induction events generalizing t with
  | nil =>
    cases hexec
    exact h
  | cons event events ih =>
  obtain ⟨⟨outcome, t₁⟩, hevent, hexec⟩ := bind_eq_some_iff.mp hexec
  exact ih (h.step hevent) hexec

/-- While a stage changes the value of a route, readers get the value it had. -/
theorem double_buffered_midway :
  ∃ t, Reached {} t ∧ t.staged (Prefix.trunc 0 1) = some 9 ∧ t.live.lookup? 5 = some 7
    ∧ t.live.lookup? 5 = lookup (fun p => t.rules.lookup p) 5
  := by
  have hrun : ((create {}).toOption.bind fun t => (execAll willing6 t
        [.upsert (Prefix.trunc 0 1) 7, .beginStage, .stageUpsert (Prefix.trunc 0 1) 9]).map
        fun t => (t.staged (Prefix.trunc 0 1), t.live.lookup? 5)) = some (some 9, some 7) := by
    decide +kernel
  obtain ⟨created, hcreated, hrun⟩ := bind_eq_some_iff.mp hrun
  obtain ⟨t, hexec, hanswers⟩ := map_eq_some_iff.mp hrun
  obtain ⟨hstaged, hlive⟩ := Prod.mk.inj hanswers
  have hreached : Reached {} t := by
    apply Reached.execAll (.create ?_) hexec
    cases hcreated
    rfl
  exact ⟨t, hreached, hstaged, hlive, (double_buffered hreached).2.1 5⟩

end Route.Ipv6RouteTable
