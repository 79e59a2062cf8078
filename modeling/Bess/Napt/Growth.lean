import Bess.Napt.Calls

/-!
# Growth

A growable NAT takes over a larger table and moves its bindings there, some slots at a time. Until
the walk ends a binding is in one of the two tables. A copy is made before the old binding is
erased, so the book of a migration is read with the handles already moved left out.

`MigrateSome` relies on the larger table having a free slot for every binding of the old one. A
table may have fewer, because slots in quarantine are never free again; the results here take what
it relies on as an assumption.
-/

namespace Napt

open Expiry Flow Function List

/-- The binding is in the book. -/
def Book.Lists (book : Book) (b : Binding) : Prop :=
  ∃ r, book r = some b

namespace BasicNat

variable {S : OwnedStore} {leaked : Set (ℕ × ℕ)} {n n' : BasicNat} {b : Binding}

/-! ### Adoption -/

/-- The book after the tables have changed roles. -/
theorem WF.adopted (wf : n.WF S leaked) (hold : n.old = none)
    {bigger : WorkerFlowTable Endpoint Binding} (filed : Filed S bigger)
    (hempty : ∀ h, bigger.lookup h = none) (place : ℕ) :
  let n' := { n with old := some n.table, table := bigger, cursor := 0, tableAt := place }
  n'.WF S leaked ∧ ∀ b, Book.Lists n'.deref b ↔ Book.Lists n.deref b
  := by
  intro n'
  have hnew (h : FlowHandle) : n'.deref ⟨false, h⟩ = none := hempty h
  have hnone (h : FlowHandle) : n.deref ⟨true, h⟩ = none := by
    rw [deref_old, hold, Option.bind_none]
  have hback {r : BindingRef} {b : Binding} (hb : n'.deref r = some b) :
      ∃ h, r = ⟨true, h⟩ ∧ n.deref ⟨false, h⟩ = some b := by
    obtain ⟨inOld, h⟩ := r
    cases inOld with
    | false =>
      rw [hnew] at hb
      cases hb
    | true => exact ⟨h, rfl, hb⟩
  have honto {r : BindingRef} {b : Binding} (hb : n.deref r = some b) :
      ∃ h, r = ⟨false, h⟩ ∧ n'.deref ⟨true, h⟩ = some b := by
    obtain ⟨inOld, h⟩ := r
    cases inOld with
    | false => exact ⟨h, rfl, hb⟩
    | true =>
    rw [hnone] at hb
    cases hb
  constructor
  · refine wf.of_parts ⟨rfl, rfl⟩ filed ?_ rfl ?_
    · rintro _ ⟨⟩
      exact wf.table
    refine wf.ordered.rename (k := fun r => ⟨false, r.handle⟩) ?_ ?_ ?_ (fun _ _ => rfl)
    · intro r b hb
      obtain ⟨h, rfl, hb⟩ := hback hb
      exact ⟨b, hb, rfl, rfl, rfl⟩
    · intro r r' b b' hb hb' heq
      obtain ⟨h, rfl, _⟩ := hback hb
      obtain ⟨h', rfl, _⟩ := hback hb'
      cases heq
      rfl
    intro r b hb
    obtain ⟨h, rfl, hb⟩ := honto hb
    exact ⟨⟨true, h⟩, b, hb, rfl⟩
  intro b
  constructor
  · rintro ⟨r, hb⟩
    obtain ⟨h, rfl, hb⟩ := hback hb
    exact ⟨⟨false, h⟩, hb⟩
  rintro ⟨r, hb⟩
  obtain ⟨h, rfl, hb⟩ := honto hb
  exact ⟨⟨true, h⟩, hb⟩

/-- The walk has left no binding behind. -/
def Unmoved (n : BasicNat) : Prop :=
  ∀ h b, n.deref ⟨true, h⟩ = some b → n.cursor ≤ (h.id - 1).toNat

theorem WF.adopt (wf : n.WF S leaked) (capacity place : ℕ) :
  (n.adopt S capacity place).WF S leaked ∧ Fixed n (n.adopt S capacity place)
    ∧ (∀ b, Book.Lists (n.adopt S capacity place).deref b ↔ Book.Lists n.deref b)
    ∧ (n.Unmoved → (n.adopt S capacity place).Unmoved)
  := by
  rw [BasicNat.adopt]
  split
  case h_1 => exact ⟨wf, .refl n, fun _ => Iff.rfl, id⟩
  case h_2 bigger hcreate =>
  split
  case isTrue => exact ⟨wf, .refl n, fun _ => Iff.rfl, id⟩
  case isFalse hfits =>
  obtain ⟨filed, _, hempty⟩ := Filed.create hcreate
  have hold : n.old = none := by
    rw [← Option.not_isSome_iff_eq_none]
    exact fun h => hfits (.inl h)
  obtain ⟨wf', hlists⟩ := wf.adopted hold filed hempty place
  exact ⟨wf', ⟨rfl, rfl⟩, hlists, fun _ _ _ _ => Nat.zero_le _⟩

/-! ### Migration -/

/-- The book while bindings of `old` are copied to `table`. -/
def halfway (old table : WorkerFlowTable Endpoint Binding) (moved : List FlowHandle) : Book :=
  fun r =>
    if r.inOld then if r.handle ∈ moved then none else old.lookup r.handle
    else table.lookup r.handle

/-- The state of the walk over the old table. -/
structure Walk (S : OwnedStore) (estate : Book.Estate) (ports : PortPool)
    (leaked : Set (ℕ × ℕ)) (book : Book) (old : WorkerFlowTable Endpoint Binding)
    (acc : WorkerFlowTable Endpoint Binding × List FlowHandle) : Prop where
  filed : Filed S acc.1
  ordered : (halfway old acc.1 acc.2).Ordered estate ports leaked
  lists : ∀ b, (halfway old acc.1 acc.2).Lists b ↔ book.Lists b

variable {estate : Book.Estate} {ports : PortPool} {book : Book}
  {old : WorkerFlowTable Endpoint Binding}
  {acc : WorkerFlowTable Endpoint Binding × List FlowHandle}

theorem halfway_copy {table table' : WorkerFlowTable Endpoint Binding} {moved : List FlowHandle}
    {h h' : FlowHandle} (hlook : table'.lookup = update table.lookup h' (some b)) :
  halfway old table' (moved ++ [h])
    = update (update (halfway old table moved) ⟨true, h⟩ none) ⟨false, h'⟩ (some b)
  := by
  funext ⟨inOld, h''⟩
  rw [update_apply, update_apply]
  cases inOld with
  | true =>
    simp only [halfway]
    by_cases heq : h'' = h
    · simp [heq]
    · simp [heq]
  | false =>
  simp only [halfway, Bool.false_eq_true, if_false, BindingRef.mk.injEq, true_and, hlook,
    update_apply, false_and]

theorem lists_move {r r' : BindingRef} (hne : r ≠ r') (hb : book r = some b)
    (hnew : book r' = none) (c : Binding) :
  Book.Lists (update (update book r none) r' (some b)) c ↔ book.Lists c
  := by
  constructor
  · rintro ⟨q, hq⟩
    rw [update_apply, update_apply] at hq
    split at hq
    · cases hq
      exact ⟨r, hb⟩
    rw [Option.ite_none_left_eq_some] at hq
    exact ⟨q, hq.2⟩
  rintro ⟨q, hq⟩
  by_cases heq : q = r
  · subst heq
    rw [hb] at hq
    cases hq
    exact ⟨r', update_self ..⟩
  refine ⟨q, ?_⟩
  rw [update_of_ne, update_of_ne heq, hq]
  rintro rfl
  rw [hnew] at hq
  cases hq

/-- One slot of the walk. With a free slot in the larger table its binding is moved. -/
theorem Walk.copyBinding (walk : Walk S estate ports leaked book old acc) (filed : Filed S old)
    {s : ℕ} (hs : s < old.capacity) (hunmoved : old.handleOf s ∉ acc.2) :
  Walk S estate ports leaked book old (copyBinding S old acc s)
    ∧ (copyBinding S old acc s).2 ⊆ acc.2 ++ [old.handleOf s]
    ∧ (((old.slots s).live = true → 0 < acc.1.free.count) →
      (copyBinding S old acc s).2 = acc.2 ++ (if (old.slots s).live then [old.handleOf s] else [])
        ∧ (copyBinding S old acc s).1.free.count + (if (old.slots s).live then 1 else 0)
          = acc.1.free.count)
  := by
  rw [BasicNat.copyBinding]
  by_cases hlive : (old.slots s).live = true
  case neg =>
    simp only [hlive, Bool.false_eq_true, if_false, append_nil, Nat.add_zero, and_true]
    exact ⟨walk, subset_append_left .., fun _ => trivial⟩
  case pos =>
  obtain ⟨b, hb, hinternal, hext, hstate⟩ := filed.slot hs hlive
  simp only [if_pos hlive, hinternal, hext, hstate]
  have hhalf : halfway old acc.1 acc.2 ⟨true, old.handleOf s⟩ = some b := by
    rw [halfway, if_pos rfl, if_neg hunmoved, hb]
  have hapart {e : Endpoint} (he : b.Has e) (h : FlowHandle) (b' : Binding)
      (hb' : halfway old acc.1 acc.2 ⟨false, h⟩ = some b') : ¬ b'.Has e := by
    intro he'
    cases walk.ordered.apart hhalf hb' he he'
  have hmakes := walk.filed.emplace_created (walk.ordered.proper hhalf)
    (hapart (.inl rfl)) (hapart (.inr rfl))
  rcases walk.filed.emplace b with ⟨hcreated, filed', _, hnew, hlook, _⟩ | ⟨hrefused, hkept⟩
  · have hnew : halfway old acc.1 acc.2 ⟨false, _⟩ = none := hnew
    rw [if_pos hcreated]
    have hbook : halfway old _ (acc.2 ++ [old.handleOf s]) = _ := halfway_copy hlook
    refine ⟨⟨filed', ?_, ?_⟩, fun _ h => h, fun hroom => ⟨rfl, (hmakes (hroom hlive)).2⟩⟩
    · simp only [hbook]
      exact walk.ordered.move (by simp) hhalf hnew
    intro c
    simp only [hbook]
    exact (lists_move (by simp) hhalf hnew c).trans (walk.lists c)
  rw [if_neg hrefused]
  refine ⟨?_, subset_append_left .., ?_⟩
  · simp only [hkept]
    exact walk
  intro hroom
  exact absurd (hmakes (hroom hlive)).1 hrefused

theorem Walk.copies (filed : Filed S old) {slots : List ℕ} (hnodup : slots.Nodup)
    (hslots : ∀ s ∈ slots, s < old.capacity) (walk : Walk S estate ports leaked book old acc)
    (hunmoved : ∀ s ∈ slots, old.handleOf s ∉ acc.2) :
  Walk S estate ports leaked book old (slots.foldl (BasicNat.copyBinding S old) acc)
    ∧ ((slots.filter fun s => (old.slots s).live).length ≤ acc.1.free.count →
      (slots.foldl (BasicNat.copyBinding S old) acc).2
        = acc.2 ++ (slots.filter fun s => (old.slots s).live).map old.handleOf)
  := by
  induction slots generalizing acc with
  | nil => exact ⟨walk, fun _ => (append_nil _).symm⟩
  | cons s slots ih =>
  rw [nodup_cons] at hnodup
  have hs : s < old.capacity := hslots s mem_cons_self
  obtain ⟨walk', hsub, hmoves⟩ := walk.copyBinding filed hs (hunmoved s mem_cons_self)
  have hrest : ∀ s' ∈ slots, old.handleOf s' ∉ (BasicNat.copyBinding S old acc s).2 := by
    intro s' hs' hmem
    rcases mem_append.mp (hsub hmem) with hmem | heq
    · exact hunmoved s' (mem_cons_of_mem _ hs') hmem
    have hid := filed.handleOf_id (hslots s' (mem_cons_of_mem _ hs'))
    rw [mem_singleton.mp heq, filed.handleOf_id hs] at hid
    exact hnodup.1 (hid ▸ hs')
  obtain ⟨walk'', hmoves'⟩ := ih hnodup.2 (fun s' h => hslots s' (mem_cons_of_mem _ h)) walk' hrest
  rw [foldl_cons]
  refine ⟨walk'', ?_⟩
  intro hroom
  rw [filter_cons] at hroom ⊢
  split at hroom
  case isTrue hlive =>
    rw [length_cons] at hroom
    obtain ⟨hmoved, hcount⟩ := hmoves (fun _ => by omega)
    rw [if_pos hlive] at hmoved hcount ⊢
    rw [hmoves' (by omega), hmoved, append_assoc]
    rfl
  case isFalse hdead =>
  obtain ⟨hmoved, hcount⟩ := hmoves (fun hlive => absurd hlive hdead)
  rw [if_neg hdead] at hmoved hcount ⊢
  rw [hmoves' (by omega), hmoved, append_nil]

/-- The copied bindings are erased from the old table. -/
theorem erase_moved (filed : Filed S old) (moved : List FlowHandle) :
  let old' := moved.foldl (fun old h => (old.eraseHandle S.traits h).1) old
  Filed S old' ∧ old'.capacity = old.capacity
    ∧ ∀ h, old'.lookup h = if h ∈ moved then none else old.lookup h
  := by
  induction moved generalizing old with
  | nil => exact ⟨filed, rfl, fun h => (if_neg not_mem_nil).symm⟩
  | cons m moved ih =>
  obtain ⟨filed', hcap, hlook, _⟩ := filed.eraseHandle m
  obtain ⟨filed'', hcap', hlook'⟩ := ih filed'
  refine ⟨filed'', hcap'.trans hcap, ?_⟩
  intro h
  rw [foldl_cons, hlook', hlook]
  by_cases heq : h = m <;> simp [heq]

/-- There is a free slot of the current table for each binding of the old one. -/
def Roomy (n : BasicNat) : Prop :=
  ∀ old, n.old = some old → old.size + n.table.size + n.table.quarantined ≤ n.table.capacity

/-- What a migration does. Bindings are lost, with their ports, only if the larger table has not
enough free slots. -/
theorem WF.migrateSome (wf : n.WF S leaked) (slots : ℕ) :
  ∃ leaked', (n.migrateSome S slots).WF S leaked' ∧ Fixed n (n.migrateSome S slots)
    ∧ (∀ b, Book.Lists (n.migrateSome S slots).deref b → Book.Lists n.deref b)
    ∧ (n.Unmoved → n.Roomy → leaked' = leaked ∧ (n.migrateSome S slots).Unmoved
      ∧ ∀ b, Book.Lists n.deref b → Book.Lists (n.migrateSome S slots).deref b)
  := by
  rw [BasicNat.migrateSome]
  rcases hold : n.old with _ | old
  · exact ⟨leaked, wf, .refl n, fun _ h => h, fun hunmoved _ => ⟨rfl, hunmoved, fun _ h => h⟩⟩
  have filed := wf.old hold
  have holds (h : FlowHandle) : n.deref ⟨true, h⟩ = old.lookup h := by
    rw [deref_old, hold, Option.bind_some]
  have hbook : halfway old n.table [] = n.deref := by
    funext ⟨inOld, h⟩
    cases inOld with
    | true => rw [holds, halfway, if_pos rfl, if_neg not_mem_nil]
    | false => rfl
  have walk : Walk S n.estate n.ports leaked n.deref old (n.table, []) := by
    refine ⟨wf.table, ?_, ?_⟩
    · rw [hbook]
      exact wf.ordered
    intro b
    rw [hbook]
  obtain ⟨stop, hstop⟩ : ∃ stop, stop = min old.capacity (n.cursor + min slots kMaxMigrateSlots) :=
    ⟨_, rfl⟩
  obtain ⟨visits, hvisits⟩ : ∃ visits, visits = List.range' n.cursor (stop - n.cursor) := ⟨_, rfl⟩
  have hmem (s : ℕ) : s ∈ visits ↔ n.cursor ≤ s ∧ s < stop := by
    rw [hvisits, mem_range'_1]
    omega
  have hnodup : visits.Nodup := hvisits ▸ nodup_range'
  obtain ⟨⟨filed', ordered, hlists⟩, hmoves⟩ := walk.copies filed hnodup (by
    intro s hs
    have := (hmem s).mp hs
    omega) (fun _ _ => not_mem_nil)
  simp only [← hstop, ← hvisits]
  obtain ⟨⟨table, moved⟩, hacc⟩ : ∃ acc, acc = visits.foldl (BasicNat.copyBinding S old) (n.table, []) :=
    ⟨_, rfl⟩
  rw [← hacc] at filed' ordered hlists hmoves ⊢
  simp only at filed' ordered hlists hmoves ⊢
  obtain ⟨filed'', hcap, hlook⟩ := erase_moved filed moved
  -- With enough room nothing before `stop` is left.
  have hleft (hunmoved : n.Unmoved) (roomy : n.Roomy) {h : FlowHandle} {b : Binding}
      (hb : (if h ∈ moved then none else old.lookup h) = some b) :
      stop ≤ (h.id - 1).toNat ∧ (h.id - 1).toNat < old.capacity := by
    have hroom : (visits.filter fun s => (old.slots s).live).length ≤ n.table.free.count := by
      have hcard : (visits.filter fun s => (old.slots s).live).length ≤ old.size := by
        rw [filed.wf.room.size_eq, ← toFinset_card_of_nodup (List.Nodup.filter _ hnodup)]
        apply Finset.card_le_card
        intro s hs
        simp only [mem_toFinset, mem_filter, hmem] at hs
        simp only [Finset.mem_filter, Finset.mem_range]
        exact ⟨by omega, hs.2⟩
      have hfree := wf.table.wf.room.card_add
      have := roomy old hold
      omega
    rw [Option.ite_none_left_eq_some] at hb
    obtain ⟨s, hs, hlive, rfl, _⟩ := (WorkerFlowTable.flows_eq_some filed.wf.capacity_lt).mp
      (filed.lookup_eq_some.mp hb.2)
    have hcursor := hunmoved (old.handleOf s) b ((holds _).trans hb.2)
    rw [filed.handleOf_id hs] at hcursor ⊢
    by_contra hlt
    apply hb.1
    rw [hmoves hroom]
    apply mem_map_of_mem
    rw [mem_filter, hmem]
    exact ⟨by omega, hlive⟩
  split
  case isTrue hmore =>
    have hbook' : BasicNat.deref { n with
        table := table
        old := some (moved.foldl (fun old h => (old.eraseHandle S.traits h).1) old)
        cursor := stop } = halfway old table moved := by
      funext ⟨inOld, h⟩
      cases inOld with
      | true => exact hlook h
      | false => rfl
    refine ⟨leaked, wf.of_parts ⟨rfl, rfl⟩ filed' ?_ hbook' ordered, ⟨rfl, rfl⟩, ?_, ?_⟩
    · rintro _ ⟨⟩
      exact filed''
    · rw [hbook']
      exact fun b => (hlists b).mp
    intro hunmoved roomy
    refine ⟨rfl, ?_, ?_⟩
    · intro h b hb
      rw [hbook'] at hb
      exact (hleft hunmoved roomy hb).1
    rw [hbook']
    exact fun b => (hlists b).mpr
  case isFalse hend =>
  have hsub {r : BindingRef} {b : Binding}
      (hb : BasicNat.deref { n with table := table, old := none, cursor := stop } r = some b) :
      halfway old table moved r = some b := by
    obtain ⟨inOld, h⟩ := r
    cases inOld with
    | true => cases hb
    | false => exact hb
  refine ⟨_, wf.of_parts ⟨rfl, rfl⟩ filed' (by rintro _ ⟨⟩) rfl (ordered.lose hsub), ⟨rfl, rfl⟩,
    ?_, ?_⟩
  · rintro b ⟨r, hb⟩
    exact (hlists b).mp ⟨r, hsub hb⟩
  intro hunmoved roomy
  have hsame {r : BindingRef} {b : Binding} (hb : halfway old table moved r = some b) :
      BasicNat.deref { n with table := table, old := none, cursor := stop } r = some b := by
    obtain ⟨inOld, h⟩ := r
    cases inOld with
    | true =>
      have := hleft hunmoved roomy hb
      omega
    | false => exact hb
  refine ⟨?_, ?_, ?_⟩
  · rw [Set.union_eq_left]
    rintro p ⟨r, b, hb, hnone, _⟩
    rw [hsame hb] at hnone
    cases hnone
  · rintro h b ⟨⟩
  intro b hb
  obtain ⟨r, hb⟩ := (hlists b).mpr hb
  exact ⟨r, hsame hb⟩

end BasicNat

end Napt
