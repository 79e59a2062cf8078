import Bess.Flow.SharedCalls

/-!
# Runs of a shared flow table

A run takes one write at a time, and grace periods start and complete between any two of them. At
every moment of a run the table is at rest, or is a table at rest that the writes of one call have
changed in a known way.
-/

namespace Flow

open Function List Option

variable {Key State : Type} [DecidableEq Key]

/-- A table, the writes left of the call in progress, and how many grace periods had started when
each slot was erased last. -/
structure Sharing (Key State : Type) : Type where
  table : SharedFlowTable Key State
  writes : List (Write Key State)
  erasedAt : ℕ → ℕ

inductive SharedCall (Key State : Type) : Type where
  | emplace (key : Key) (aliasKey : Option Key) (state : State)
  | addAlias (handle : FlowHandle) (aliasKey : Key)
  | erase (key : Key)
  | eraseHandle (handle : FlowHandle)
  | reclaim

namespace SharedCall

open SharedFlowTable

/-- The table that the first write of a call finds, and its writes. -/
def plan (T : FlowTableTraits Key) (t : SharedFlowTable Key State) (c : Circumstances Key) :
    SharedCall Key State → SharedFlowTable Key State × List (Write Key State)
  | .emplace key aliasKey state =>
      ((t.createLocked key aliasKey state c).start, (t.createLocked key aliasKey state c).writes)
  | .addAlias handle aliasKey =>
      ((t.addAlias T handle aliasKey c).start, (t.addAlias T handle aliasKey c).writes)
  | .erase key => ((t.erase T key).start, (t.erase T key).writes)
  | .eraseHandle handle => ((t.eraseHandle T handle).start, (t.eraseHandle T handle).writes)
  | .reclaim => ((t.reclaim c).start, (t.reclaim c).writes)

/-- Only a table with aliases has `EmplaceAliased`. -/
def Allowed (T : FlowTableTraits Key) : SharedCall Key State → Prop
  | .emplace _ aliasKey _ => aliasKey.isSome = true → 0 < T.kAliases
  | _ => True

end SharedCall

namespace Sharing

open SharedFlowTable

/-- The record of erasures after a write. -/
def noteErased (σ : Sharing Key State) : Write Key State → ℕ → ℕ
  | .retire s => update σ.erasedAt s σ.table.domain.started
  | _ => σ.erasedAt

/-- One step of a run: a call takes the lock, it makes one write, or the reader domain moves on. -/
inductive Step (T : FlowTableTraits Key) (σ : Sharing Key State) : Sharing Key State → Prop where
  | call (hidle : σ.writes = []) {call : SharedCall Key State} (hallowed : call.Allowed T)
      {c : Circumstances Key} (hmore : σ.table.domain.completed ≤ c.completed)
      (hcompleted : c.completed ≤ σ.table.stamp.domain.started) :
      Step T σ ⟨(call.plan T σ.table c).1, (call.plan T σ.table c).2, σ.erasedAt⟩
  | write {w : Write Key State} {ws : List (Write Key State)} (hwrites : σ.writes = w :: ws) :
      Step T σ ⟨σ.table.write w, ws, σ.noteErased w⟩
  | rcu {domain : RcuDomain} (hstarted : σ.table.domain.started ≤ domain.started)
      (hmore : σ.table.domain.completed ≤ domain.completed)
      (hcompleted : domain.completed ≤ domain.started) :
      Step T σ ⟨{ σ.table with domain := domain }, σ.writes, σ.erasedAt⟩

end Sharing

variable {T : FlowTableTraits Key} {t : SharedFlowTable Key State} {erasedAt : ℕ → ℕ}
  {slots : List ℕ} {ws : List (Write Key State)} {aliasKey : Option Key} {key : Key}

namespace SharedFlowTable

variable {s : ℕ}

/-! ### The table during a call -/

/-- The table during a create that has put the keys `inserted` into the directory. -/
def during (t : SharedFlowTable Key State) (inserted : Finset Key) (state : Option State) :
    SharedFlowTable Key State :=
  t.put t.free.peek { t.slots t.free.peek with state := state }
    (fun k => if k ∈ inserted then some t.offer else t.directory k) t.free t.size t.quarantined

/-- The table during an erase that has taken the keys `gone` out of the directory. -/
def whileErasing (t : SharedFlowTable Key State) (s : ℕ) (gone : List Key) :
    SharedFlowTable Key State :=
  t.put s (t.slots s).advance (fun k => if k ∈ gone then none else t.directory k) t.free t.size
    t.quarantined

/-- What may be left of a create that has put the keys `inserted` into the directory: it inserts more
keys and publishes the slot, or erases them and abandons it. -/
inductive Creating (slot : ℕ) (offer : FlowHandle) (directory : Key → Option FlowHandle)
    (before : Option State) (key : Key) (aliasKey : Option Key) (state : State) :
    Finset Key → Option State → List (Write Key State) → Prop where
  | publish :
      Creating slot offer directory before key aliasKey state (aliasKey.toList ++ [key]).toFinset
        (some state) [.publish slot key aliasKey]
  | abandon : Creating slot offer directory before key aliasKey state ∅ before [.abandon slot]
  | build :
      Creating slot offer directory before key aliasKey state (aliasKey.toList ++ [key]).toFinset
        before [.build slot state, .publish slot key aliasKey]
  | insert {inserted : Finset Key} {ws : List (Write Key State)} {k : Key}
      (hfresh : directory k = none) (hout : k ∉ inserted)
      (left : Creating slot offer directory before key aliasKey state (insert k inserted) before ws) :
      Creating slot offer directory before key aliasKey state inserted before (.insert k offer :: ws)
  | erase {inserted : Finset Key} {ws : List (Write Key State)} {k : Key} (hmem : k ∈ inserted)
      (hundo : ws.getLast? = some (.abandon slot))
      (left : Creating slot offer directory before key aliasKey state (inserted.erase k) before ws) :
      Creating slot offer directory before key aliasKey state inserted before (.erase k :: ws)

variable {k : Key} {gone : List Key}

/-! ### Writes of a create -/

section During

variable {inserted : Finset Key} {built : Option State}

theorem during_insert (hfresh : t.directory k = none) (hout : k ∉ inserted) :
  (t.during inserted built).write (.insert k t.offer) = t.during (insert k inserted) built
  := by
  have hnone : (t.during inserted built).directory k = none := (if_neg hout).trans hfresh
  rw [write, insertKey, hnone, if_neg (by simp)]
  rw [during, put]
  congr 1
  funext k'
  rw [update_apply]
  simp only [Finset.mem_insert]
  split
  case isTrue h => rw [if_pos (.inl h)]
  case isFalse h => simp only [h, false_or]

theorem during_erase (hmem : k ∈ inserted) (hfresh : t.directory k = none) :
  (t.during inserted built).write (.erase k) = t.during (inserted.erase k) built
  := by
  have hsome : (t.during inserted built).directory k = some t.offer := if_pos hmem
  rw [write, eraseKey, hsome, if_neg (by simp)]
  rw [during, put]
  congr 1
  funext k'
  rw [update_apply]
  simp only [Finset.mem_erase]
  split
  case isTrue h =>
    rw [h, if_neg fun h => h.1 rfl]
    exact hfresh.symm
  case isFalse h => simp only [h, ne_eq, not_false_eq_true, true_and]

theorem during_build (state : State) :
  (t.during inserted built).write (.build t.free.peek state) = t.during inserted (some state)
  := by
  rw [write, during, during, setSlot, put_slots_self, put, put]
  rw [update_idem]

theorem during_empty :
  t.during ∅ (t.slots t.free.peek).state = t
  := by
  rw [during, put]
  simp only [Finset.notMem_empty, if_false]
  rw [update_eq_self_iff.mpr rfl]

theorem during_publish (key : Key) (aliasKey : Option Key) (state : State) :
  (t.during inserted (some state)).write (.publish t.free.peek key aliasKey)
    = t.put t.free.peek (WorkerFlowTable.madeSlot (t.slots t.free.peek) key aliasKey state)
      (fun k => if k ∈ inserted then some t.offer else t.directory k) t.free.pop (t.size + 1)
      t.quarantined
  := by
  rw [write, during, setSlot, put_slots_self, published_eq, put, put]
  rw [update_idem]

end During

/-! ### Writes of an erase -/

omit [DecidableEq Key] in
section

variable (keyed : Keyed T t) (hs : s < t.capacity)

include keyed hs

theorem Keyed.mem_keysOf :
  k ∈ t.keysOf T s ↔ t.Names s k
  := by
  rw [keysOf, mem_filterMap]
  constructor
  · rintro ⟨j, _, hj⟩
    exact ⟨j, hj⟩
  rintro ⟨j, hj⟩
  refine ⟨j, ?_, hj⟩
  rw [SlotRecord.keyIn, ite_none_right_eq_some] at hj
  rw [mem_range]
  exact ((keyed.slot s hs).marked hj.1).2.1

omit [DecidableEq Key] in
theorem Keyed.nodup_keysOf :
  (t.keysOf T s).Nodup
  := by
  apply List.Nodup.filterMap _ nodup_range
  intro j j' k hj hj'
  exact keyed.once hs hj hj'

omit [DecidableEq Key] in
/-- The next key of an erase is still in the directory. -/
theorem Keyed.next_key {left : List Key} (hkeys : t.keysOf T s = gone ++ k :: left) :
  k ∉ gone ∧ (t.directory k).isSome = true
  := by
  have hnodup := keyed.nodup_keysOf hs
  rw [hkeys] at hnodup
  have hnames : t.Names s k := by
    rw [← keyed.mem_keysOf hs, hkeys]
    exact mem_append_right _ mem_cons_self
  constructor
  · intro hgone
    exact disjoint_of_nodup_append hnodup hgone mem_cons_self
  rw [keyed.directory.mpr ⟨s, hs, rfl, hnames⟩]
  rfl

end

theorem whileErasing_erase (hout : k ∉ gone) (hsome : (t.directory k).isSome = true) :
  (t.whileErasing s gone).write (.erase k) = t.whileErasing s (gone ++ [k])
  := by
  have hdir : (t.whileErasing s gone).directory k = t.directory k := if_neg hout
  rw [write, eraseKey, hdir, if_neg (by simpa [isSome_iff_ne_none] using hsome)]
  rw [whileErasing, put]
  congr 1
  funext k'
  rw [update_apply]
  simp only [mem_append, mem_singleton]
  split
  case isTrue h => rw [if_pos (.inr h)]
  case isFalse h => simp only [h, or_false]

theorem whileErasing_retire :
  (t.whileErasing s gone).write (.retire s)
    = { t.put s (erased (t.slots s)) (fun k => if k ∈ gone then none else t.directory k) t.free
        (t.size - 1) t.quarantined with
      pending := update t.pending ((t.pendingHead + t.pendingCount) % t.capacity)
        (pendingEntry s ((t.slots s).generation + 1))
      pendingCount := t.pendingCount + 1
      untokened := t.untokened + 1
      pendingPublished := t.pendingCount + 1 }
  := by
  rw [write, retire, whileErasing, setSlot, put_slots_self, put]
  dsimp only
  rw [update_idem, update_self]
  rfl

/-! ### Whole calls -/

theorem Creating.foldl {state : State} {inserted : Finset Key}
    {built : Option State}
    (left : Creating t.free.peek t.offer t.directory (t.slots t.free.peek).state key aliasKey state
      inserted built ws)
    (hins : ∀ k ∈ inserted, t.directory k = none) :
  ws.foldl write (t.during inserted built) = t.abandonSlot t.free.peek
    ∨ ws.foldl write (t.during inserted built)
      = t.put t.free.peek (WorkerFlowTable.madeSlot (t.slots t.free.peek) key aliasKey state)
        (fun k => if k ∈ (aliasKey.toList ++ [key]).toFinset then some t.offer else t.directory k)
        t.free.pop (t.size + 1) t.quarantined
  := by
  induction left with
  | publish => exact .inr (during_publish ..)
  | abandon =>
    left
    rw [during_empty]
    rfl
  | build =>
    right
    rw [foldl_cons, during_build]
    exact during_publish ..
  | insert hfresh hout _ ih =>
    rw [foldl_cons, during_insert hfresh hout]
    apply ih
    intro k' hk'
    rcases Finset.mem_insert.mp hk' with rfl | hk'
    · exact hfresh
    · exact hins k' hk'
  | erase hmem _ _ ih =>
  rw [foldl_cons, during_erase hmem (hins _ hmem)]
  apply ih
  intro k' hk'
  exact hins k' (Finset.mem_of_mem_erase hk')

theorem Keyed.foldl_erase (keyed : Keyed T t) (hs : s < t.capacity) :
    ∀ {left gone : List Key}, t.keysOf T s = gone ++ left →
      (left.map Write.erase ++ [Write.retire s]).foldl write (t.whileErasing s gone)
        = (t.whileErasing s (t.keysOf T s)).write (.retire s)
  | [], gone, hkeys => by
    rw [append_nil] at hkeys
    rw [hkeys]
    rfl
  | k :: left, gone, hkeys => by
    obtain ⟨hout, hsome⟩ := keyed.next_key hs hkeys
    rw [map_cons, cons_append, foldl_cons, whileErasing_erase hout hsome]
    apply keyed.foldl_erase hs
    rw [hkeys, append_assoc, singleton_append]

theorem Keyed.foldl_eraseLocked (keyed : Keyed T t) (hs : s < t.capacity) :
  (t.eraseLocked T s).foldl write t = (t.whileErasing s (t.keysOf T s)).write (.retire s)
  := by
  have hkeys : t.keysOf T s = [] ++ t.keysOf T s := rfl
  exact keyed.foldl_erase hs hkeys

theorem write_addAlias {j : ℕ} {aliasKey : Key} (hfresh : t.directory aliasKey = none)
    (h : FlowHandle) :
  t.write (.addAlias s j aliasKey h)
    = t.put s (((t.slots s).storeKey j aliasKey).mark j true)
      (update t.directory aliasKey (some h)) t.free t.size t.quarantined
  := by
  rw [write, insertKey, hfresh]
  rfl

end SharedFlowTable

namespace Sharing

open SharedFlowTable

/-- What a run can look like at any moment. -/
inductive Moment (T : FlowTableTraits Key) : Sharing Key State → Prop where
  | rest {t : SharedFlowTable Key State} {erasedAt : ℕ → ℕ} {slots : List ℕ}
      (rest : AtRest T erasedAt t slots) :
      Moment T ⟨t, [], erasedAt⟩
  | creating {t : SharedFlowTable Key State} {erasedAt : ℕ → ℕ} {slots : List ℕ}
      (rest : AtRest T erasedAt t slots) (hsome : t.free.empty = false) {key : Key}
      {aliasKey : Option Key} {state : State} (hroom : aliasKey.isSome = true → 0 < T.kAliases)
      (halone : aliasKey ≠ some key)
      (hfresh : ∀ k ∈ aliasKey.toList ++ [key], t.directory k = none) {inserted : Finset Key}
      (hinserted : ∀ k ∈ inserted, t.directory k = none) {built : Option State}
      {ws : List (Write Key State)}
      (left : Creating t.free.peek t.offer t.directory (t.slots t.free.peek).state key aliasKey state
        inserted built ws) :
      Moment T ⟨t.during inserted built, ws, erasedAt⟩
  | aliasing {t : SharedFlowTable Key State} {erasedAt : ℕ → ℕ} {slots : List ℕ}
      (rest : AtRest T erasedAt t slots) {s j : ℕ} (hs : s < t.capacity)
      (hlive : (t.slots s).live = true) (hj : j < T.kKeysPerSlot)
      (hmask : (t.slots s).keyMask j = false) {aliasKey : Key}
      (hfresh : t.directory aliasKey = none) :
      Moment T ⟨t, [.addAlias s j aliasKey (t.handleOf s)], erasedAt⟩
  | doomed {t : SharedFlowTable Key State} {erasedAt : ℕ → ℕ} {slots : List ℕ}
      (rest : AtRest T erasedAt t slots) {s : ℕ} (hs : s < t.capacity)
      (hlive : (t.slots s).live = true) :
      Moment T ⟨t, t.eraseLocked T s, erasedAt⟩
  | erasing {t : SharedFlowTable Key State} {erasedAt : ℕ → ℕ} {slots : List ℕ}
      (rest : AtRest T erasedAt t slots) {s : ℕ} (hs : s < t.capacity)
      (hlive : (t.slots s).live = true) {gone left : List Key}
      (hkeys : t.keysOf T s = gone ++ left) :
      Moment T ⟨t.whileErasing s gone, left.map .erase ++ [.retire s], erasedAt⟩

/-! ### Steps -/

variable {σ : Sharing Key State} {domain : RcuDomain}

theorem Moment.write (moment : Moment T σ) {w : Write Key State} (hwrites : σ.writes = w :: ws) :
  Moment T ⟨σ.table.write w, ws, σ.noteErased w⟩
  := by
  cases moment with
  | rest => cases hwrites
  | @creating t erasedAt slots rest hsome key aliasKey state hroom halone hfresh inserted hins
      built ws' left =>
      cases left with
      | publish =>
        cases hwrites
        rw [during_publish]
        apply Moment.rest
        apply rest.publish hsome hroom halone hfresh
        · intro k hk
          rw [if_pos (mem_toFinset.mpr hk)]
        intro k hk
        rw [if_neg fun h => hk (mem_toFinset.mp h)]
      | abandon =>
        cases hwrites
        rw [during_empty]
        exact .rest (rest.abandonSlot hsome)
      | build =>
        cases hwrites
        rw [during_build]
        exact .creating rest hsome hroom halone hfresh hins .publish
      | insert hk hout left =>
        cases hwrites
        rw [during_insert hk hout]
        apply Moment.creating rest hsome hroom halone hfresh _ left
        intro k' hk'
        rcases Finset.mem_insert.mp hk' with rfl | hk'
        · exact hk
        · exact hins k' hk'
      | erase hmem _ left =>
      cases hwrites
      rw [during_erase hmem (hins _ hmem)]
      apply Moment.creating rest hsome hroom halone hfresh _ left
      intro k' hk'
      exact hins k' (Finset.mem_of_mem_erase hk')
  | @aliasing t erasedAt slots rest s j hs hlive hj hmask aliasKey hfresh =>
    cases hwrites
    rw [write_addAlias hfresh]
    apply Moment.rest
    apply rest.addAlias hs hlive hj hmask hfresh
    · exact update_self ..
    intro k hne
    exact update_of_ne hne ..
  | @doomed t erasedAt slots rest s hs hlive =>
    cases hwrites
    have hkeys : t.keysOf T s = [] ++ t.keysOf T s := rfl
    exact .erasing rest hs hlive hkeys
  | @erasing t erasedAt slots rest s hs hlive gone left hkeys =>
  cases left with
  | cons k left =>
    cases hwrites
    obtain ⟨hout, hsome⟩ := rest.next_key hs hkeys
    rw [whileErasing_erase hout hsome]
    apply Moment.erasing rest hs hlive
    rw [hkeys, append_assoc, singleton_append]
  | nil =>
  cases hwrites
  rw [whileErasing_retire]
  rw [append_nil] at hkeys
  apply Moment.rest
  apply rest.retire hs hlive
  · intro k hnames
    rw [← rest.mem_keysOf hs, hkeys] at hnames
    exact if_pos hnames
  intro k hunnamed
  rw [← rest.mem_keysOf hs, hkeys] at hunnamed
  exact if_neg hunnamed

theorem Moment.rcu (moment : Moment T σ) (hstarted : σ.table.domain.started ≤ domain.started) :
  Moment T ⟨{ σ.table with domain := domain }, σ.writes, σ.erasedAt⟩
  := by
  cases moment with
  | rest rest => exact .rest (rest.rcu hstarted)
  | creating rest hsome hroom halone hfresh hins left =>
    exact .creating (rest.rcu hstarted) hsome hroom halone hfresh hins left
  | aliasing rest hs hlive hj hmask hfresh =>
    exact .aliasing (rest.rcu hstarted) hs hlive hj hmask hfresh
  | doomed rest hs hlive => exact .doomed (rest.rcu hstarted) hs hlive
  | erasing rest hs hlive hkeys => exact .erasing (rest.rcu hstarted) hs hlive hkeys

/-- The writes of a create, once it has a slot. -/
theorem creating_createIn (halone : aliasKey ≠ some key)
    (hfresh : ∀ k ∈ aliasKey.toList ++ [key], t.directory k = none) (state : State)
    (c : Circumstances Key) :
  (t.createIn key aliasKey state c).start = t
    ∧ Creating t.free.peek t.offer t.directory (t.slots t.free.peek).state key aliasKey state ∅
      (t.slots t.free.peek).state (t.createIn key aliasKey state c).writes
  := by
  have hkey := hfresh key (mem_append_right _ mem_cons_self)
  -- The erasures take the inserted keys out again.
  have hundo (k : Key) : Creating t.free.peek t.offer t.directory (t.slots t.free.peek).state key
      aliasKey state (insert k ∅) (t.slots t.free.peek).state
      (.erase k :: [.abandon t.free.peek]) := by
    apply Creating.erase (Finset.mem_insert_self ..) rfl
    rw [Finset.erase_insert (Finset.notMem_empty _)]
    exact .abandon
  rw [createIn]
  cases aliasKey with
  | none =>
    simp only [toList_none, any_nil, Bool.false_eq_true, if_false]
    split
    case isTrue => exact ⟨rfl, .abandon⟩
    case isFalse =>
    split
    case isTrue => exact ⟨rfl, .insert hkey (Finset.notMem_empty _) (hundo key)⟩
    case isFalse => exact ⟨rfl, .insert hkey (Finset.notMem_empty _) .build⟩
  | some a =>
  have ha := hfresh a mem_cons_self
  have hne : key ≠ a := by
    rintro rfl
    exact halone rfl
  have hout : key ∉ (insert a ∅ : Finset Key) := by
    rw [Finset.mem_insert, not_or]
    exact ⟨hne, Finset.notMem_empty _⟩
  split
  case isTrue => exact ⟨rfl, .abandon⟩
  case isFalse =>
  split
  case isTrue => exact ⟨rfl, .insert ha (Finset.notMem_empty _) (hundo a)⟩
  case isFalse =>
  split
  case isTrue =>
    refine ⟨rfl, .insert ha (Finset.notMem_empty _) (.insert hkey hout ?_)⟩
    apply Creating.erase (Finset.mem_insert_self ..) rfl
    rw [Finset.erase_insert hout]
    exact hundo a
  case isFalse =>
  refine ⟨rfl, .insert ha (Finset.notMem_empty _) (.insert hkey hout ?_)⟩
  have hall : insert key (insert a ∅) = ((some a).toList ++ [key]).toFinset := by
    ext k
    simp [or_comm]
  rw [hall]
  exact .build

/-- The writes of a call, when its first one finds the table `t` at rest. -/
inductive Begun (T : FlowTableTraits Key) (t : SharedFlowTable Key State) :
    List (Write Key State) → Prop where
  | done : Begun T t []
  | creating (hsome : t.free.empty = false) {key : Key} {aliasKey : Option Key} {state : State}
      (hroom : aliasKey.isSome = true → 0 < T.kAliases) (halone : aliasKey ≠ some key)
      (hfresh : ∀ k ∈ aliasKey.toList ++ [key], t.directory k = none)
      {ws : List (Write Key State)}
      (left : Creating t.free.peek t.offer t.directory (t.slots t.free.peek).state key aliasKey state
        ∅ (t.slots t.free.peek).state ws) :
      Begun T t ws
  | aliasing {s j : ℕ} (hs : s < t.capacity) (hlive : (t.slots s).live = true)
      (hj : j < T.kKeysPerSlot) (hmask : (t.slots s).keyMask j = false) {aliasKey : Key}
      (hfresh : t.directory aliasKey = none) :
      Begun T t [.addAlias s j aliasKey (t.handleOf s)]
  | doomed {s : ℕ} (hs : s < t.capacity) (hlive : (t.slots s).live = true) :
      Begun T t (t.eraseLocked T s)

section

variable (rest : AtRest T erasedAt t slots) {call : SharedCall Key State}

include rest

theorem Begun.moment (begun : Begun T t ws) :
  Moment T ⟨t, ws, erasedAt⟩
  := by
  cases begun with
  | done => exact .rest rest
  | creating hsome hroom halone hfresh left =>
    have hmoment := Moment.creating rest hsome hroom halone hfresh
      (fun k hk => absurd hk (Finset.notMem_empty k)) left
    rw [during_empty] at hmoment
    exact hmoment
  | aliasing hs hlive hj hmask hfresh => exact .aliasing rest hs hlive hj hmask hfresh
  | doomed hs hlive => exact .doomed rest hs hlive

/-- What the lock is taken for: the table may be reclaimed, and then the writes begin. -/
theorem begun_plan (hallow : call.Allowed T) (c : Circumstances Key) :
  Begun T (call.plan T t c).1 (call.plan T t c).2
    ∧ ((call.plan T t c).1 = t ∨ (call.plan T t c).1 = (t.reclaimLocked c.completed).1)
  := by
  cases call with
  | reclaim =>
    exact ⟨.done, .inr rfl⟩
  | eraseHandle handle =>
    rw [SharedCall.plan, eraseHandle]
    split
    case h_1 => exact ⟨.done, .inl rfl⟩
    case h_2 s hslot =>
    obtain ⟨hs, hlive, _⟩ := (slotOf_eq_some rest.capacity_lt).mp hslot
    exact ⟨.doomed hs hlive, .inl rfl⟩
  | erase key =>
    rw [SharedCall.plan, SharedFlowTable.erase]
    split
    case h_1 => exact ⟨.done, .inl rfl⟩
    case h_2 handle hresolve =>
    rw [rest.resolve_eq] at hresolve
    obtain ⟨s, hs, rfl, hnames⟩ := rest.directory.mp hresolve
    have hindex : ((t.handleOf s).id - 1).toNat = s :=
      ((WorkerFlowTable.eq_handleOf_iff
        (by have := rest.capacity_lt; omega)).mp (rfl : t.handleOf s = _)).1
    rw [hindex]
    exact ⟨.doomed hs (rest.live_of_names hs hnames), .inl rfl⟩
  | addAlias handle aliasKey =>
    rw [SharedCall.plan, SharedFlowTable.addAlias]
    split
    case h_1 => exact ⟨.done, .inl rfl⟩
    case h_2 s hslot =>
    obtain ⟨hs, hlive, rfl⟩ := (slotOf_eq_some rest.capacity_lt).mp hslot
    split
    case isTrue => exact ⟨.done, .inl rfl⟩
    case isFalse hfresh =>
    rw [rest.resolve_eq, Bool.not_eq_true, isSome_eq_false_iff, isNone_iff_eq_none] at hfresh
    split
    case h_1 => exact ⟨.done, .inl rfl⟩
    case h_2 j hfind =>
    split
    case isTrue => exact ⟨.done, .inl rfl⟩
    case isFalse =>
    have hmem := mem_of_find?_eq_some hfind
    have hmask := find?_some hfind
    rw [mem_range'_1] at hmem
    rw [Bool.not_eq_true'] at hmask
    have hj : j < T.kKeysPerSlot := by
      rw [FlowTableTraits.kKeysPerSlot]
      omega
    exact ⟨.aliasing hs hlive hj hmask hfresh, .inl rfl⟩
  | emplace key aliasKey state =>
  rw [SharedCall.plan, createLocked]
  split
  case h_1 => exact ⟨.done, .inl rfl⟩
  case h_2 hresolve =>
  rw [rest.resolve_eq] at hresolve
  split
  case isTrue => exact ⟨.done, .inl rfl⟩
  case isFalse hclash =>
  rw [not_or, Bool.not_eq_true, isSome_eq_false_iff, isNone_iff_eq_none] at hclash
  have hfresh : ∀ k ∈ aliasKey.toList ++ [key], t.directory k = none := by
    intro k hk
    rw [mem_append, mem_toList, mem_singleton] at hk
    rcases hk with hk | rfl
    · have hbind := hclash.2
      rw [mem_def.mp hk, bind_some, rest.resolve_eq] at hbind
      exact hbind
    · exact hresolve
  dsimp only
  generalize ht' : (if t.free.empty then (t.reclaimLocked c.completed).1 else t) = t'
  obtain ⟨hstart, hdir⟩ : (t' = t ∨ t' = (t.reclaimLocked c.completed).1)
      ∧ t'.directory = t.directory := by
    rw [← ht']
    split
    case isTrue =>
      obtain ⟨_, ys, _, _, reclaimed, _⟩ := rest.reclaimLocked c.completed
      exact ⟨.inr rfl, reclaimed.directory⟩
    case isFalse => exact ⟨.inl rfl, rfl⟩
  split
  case isTrue => exact ⟨.done, hstart⟩
  case isFalse hsome =>
  rw [Bool.not_eq_true] at hsome
  rw [← hdir] at hfresh
  obtain ⟨hsame, left⟩ := creating_createIn hclash.1 hfresh state c
  rw [hsame]
  exact ⟨.creating hsome hallow hclash.1 hfresh left, hstart⟩

theorem atRest_plan (hallow : call.Allowed T) (c : Circumstances Key) :
  ∃ slots', AtRest T erasedAt (call.plan T t c).1 slots'
  := by
  rcases (begun_plan rest hallow c).2 with hstart | hstart
  · rw [hstart]
    exact ⟨slots, rest⟩
  obtain ⟨_, ys, _, rest', _⟩ := rest.reclaimLocked c.completed
  rw [hstart]
  exact ⟨ys, rest'⟩

end

/-- Without a call in progress the table is at rest. -/
theorem Moment.atRest (moment : Moment T σ) (hidle : σ.writes = []) :
  ∃ slots, AtRest T σ.erasedAt σ.table slots
  := by
  cases moment with
  | rest rest => exact ⟨_, rest⟩
  | creating _ _ _ _ _ _ left =>
    subst hidle
    cases left
  | aliasing | doomed => cases hidle
  | erasing => exact absurd hidle (append_ne_nil_of_right_ne_nil _ (cons_ne_nil _ _))

theorem Moment.step {σ' : Sharing Key State} (moment : Moment T σ) (step : Step T σ σ') :
  Moment T σ'
  := by
  cases step with
  | @call hidle _ hallow c =>
    obtain ⟨slots, rest⟩ := moment.atRest hidle
    obtain ⟨slots', rest'⟩ := atRest_plan rest hallow c
    exact (begun_plan rest hallow c).1.moment rest'
  | write hwrites => exact moment.write hwrites
  | rcu hstarted => exact moment.rcu hstarted

/-! ### Runs -/

/-- What can be reached from a new table. -/
inductive Reached (T : FlowTableTraits Key) : Sharing Key State → Prop where
  | create {capacity : ℕ} {domain : RcuDomain} {t : SharedFlowTable Key State}
      (hcreate : create T capacity domain = some t) (hdomain : domain.completed ≤ domain.started) :
      Reached T ⟨t, [], fun _ => 0⟩
  | step {σ σ' : Sharing Key State} (h : Reached T σ) (step : Step T σ σ') : Reached T σ'

omit [DecidableEq Key] in
theorem atRest_create {capacity : ℕ} (hcreate : create T capacity domain = some t) (erasedAt : ℕ → ℕ) :
  AtRest T erasedAt t []
  := by
  rw [create, ite_none_left_eq_some, not_or, Nat.not_le] at hcreate
  obtain ⟨⟨hpos, hkeys⟩, hcreate⟩ := hcreate
  cases hcreate
  have hle : capacity * 1 ≤ capacity * T.kKeysPerSlot :=
    Nat.mul_le_mul_left _ (WorkerFlowTable.kKeysPerSlot_pos T)
  have room : Room capacity (fun _ => false) (.init capacity T.kReuse) 0 0 :=
    Room.init (Nat.pos_of_ne_zero hpos) (.inr (by omega))
  refine ⟨⟨?_, ?_, rfl, nodup_nil, nofun, room⟩, ⟨?_, ?_, rfl, nofun⟩,
    ⟨hkeys, ?_, ?_, ?_, rfl⟩, rfl, nofun, ?_⟩
  · change capacity < 2 ^ 30
    omega
  · exact Nat.pos_of_ne_zero hpos
  · exact Nat.zero_lt_succ _
  · exact Nat.zero_le _
  · exact fun _ _ => SlotRecord.wf_empty _
  · intro s j j' key hs hj
    cases hj
  · intro key h
    refine iff_of_false nofun ?_
    rintro ⟨s, _, _, j, hj⟩
    cases hj
  intro s _ _ _ _
  rfl

theorem Reached.moment (reached : Reached T σ) :
  Moment T σ
  := by
  induction reached with
  | create hcreate => exact .rest (atRest_create hcreate _)
  | step _ step ih => exact ih.step step

end Sharing

end Flow
