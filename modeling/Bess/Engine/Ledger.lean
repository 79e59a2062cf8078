import Bess.Engine.Graph
import Bess.Foundations.Tally

/-!
# The reference ledger

A transaction changes the counts of references by one merged change per key. Here is what the
merged changes add up to, and what committing them makes of the counts. `Consistent` says that
the ledger counts exactly the references that live values hold, each on a live key, and `Change`
what a transaction that passed the checks changes. A change keeps consistency.
-/

open Tally

namespace Engine

open List Option

variable {N K V Staged Fn W : Type}

/-- The key whose references a delta counts. -/
def Delta.at (d : Delta N K) : N × K :=
  (d.target, d.key)

/-- Only live keys have values that hold references. -/
def Committed.Tidy (c : Committed N K V) : Prop :=
  ∀ name key, key ∉ c.keys name → c.references name key = []

namespace TransactionEngine

/-! ### Merged changes -/

section

variable [DecidableEq N] [DecidableEq K]

/-- What a list of deltas changes at a key. -/
def sumAt (x : N × K) (deltas : List (Delta N K)) : ℤ :=
  (deltas.map (fun d => if d.at = x then d.change else 0)).sum

@[simp]
theorem sumAt_cons (x : N × K) (d : Delta N K) (deltas : List (Delta N K)) :
  sumAt x (d :: deltas) = (if d.at = x then d.change else 0) + sumAt x deltas
  := by
  simp [sumAt]

@[simp]
theorem sumAt_append (x : N × K) (l l' : List (Delta N K)) :
  sumAt x (l ++ l') = sumAt x l + sumAt x l'
  := by
  simp [sumAt]

theorem sumAt_flatMap {α : Type} (x : N × K) (l : List α) (f : α → List (Delta N K)) :
  sumAt x (l.flatMap f) = (l.map (fun a => sumAt x (f a))).sum
  := by
  induction l with
  | nil => rfl
  | cons a l ih => rw [flatMap_cons, sumAt_append, ih, map_cons, sum_cons]

theorem sumAt_eq_zero {x : N × K} {deltas : List (Delta N K)} (h : ∀ d ∈ deltas, d.at ≠ x) :
  sumAt x deltas = 0
  := by
  apply sum_eq_zero
  intro change hchange
  obtain ⟨d, hd, rfl⟩ := mem_map.mp hchange
  rw [if_neg (h d hd)]

theorem sumAt_eq_change {deltas : List (Delta N K)} (nodup : (deltas.map Delta.at).Nodup)
    {d : Delta N K} (hd : d ∈ deltas) :
  sumAt d.at deltas = d.change
  := by
  induction deltas with
  | nil => exact absurd hd not_mem_nil
  | cons e deltas ih =>
  rw [map_cons, nodup_cons] at nodup
  rw [sumAt_cons]
  rw [mem_cons] at hd
  obtain rfl | hd := hd
  case inl =>
    have hrest : ∀ d' ∈ deltas, d'.at ≠ d.at := by
      intro d' hd' heq
      apply nodup.1
      rw [← heq]
      exact mem_map_of_mem hd'
    rw [if_pos rfl, sumAt_eq_zero hrest, add_zero]
  case inr =>
  have hne : e.at ≠ d.at := by
    intro heq
    apply nodup.1
    rw [heq]
    exact mem_map_of_mem hd
  rw [if_neg hne, zero_add, ih nodup.2 hd]

end

variable {deltas : List (Delta N K)} {g : Registration N K → Registration N K} {p : N × K}

section

variable [DecidableEq N] [LinearOrder K]

theorem sumAt_mergeFrom (x : N × K) (d : Delta N K) (deltas : List (Delta N K)) :
  sumAt x (mergeFrom d deltas) = sumAt x (d :: deltas)
  := by
  induction deltas generalizing d with
  | nil => rfl
  | cons e deltas ih =>
  rw [mergeFrom]
  split
  case isFalse => rw [sumAt_cons, ih, ← sumAt_cons]
  case isTrue h =>
  have hat : d.at = e.at := Prod.ext h.1 h.2
  rw [ih, sumAt_cons, sumAt_cons, sumAt_cons, ← hat]
  change (if d.at = x then d.change + e.change else 0) + _ = _
  split
  case isTrue => rw [add_assoc]
  case isFalse => simp only [zero_add]

variable {d e : Delta N K} (D : Dataplane N K V Staged Fn W)

/-- Merging keeps that a key is changed, and which operation is the first to add a reference. -/
theorem exists_mem_mergeFrom :
  ∀ e ∈ d :: deltas, ∃ e' ∈ mergeFrom d deltas, e'.at = e.at ∧ e'.addedBy ≤ e.addedBy
  := by
  induction deltas generalizing d with
  | nil =>
    intro e he
    rw [mem_singleton] at he
    subst he
    exact ⟨e, mem_cons_self, rfl, le_rfl⟩
  | cons f deltas ih =>
  rw [mergeFrom]
  split
  case isFalse =>
    rw [forall_mem_cons]
    refine ⟨⟨d, mem_cons_self, rfl, le_rfl⟩, ?_⟩
    intro e he
    obtain ⟨e', he', h⟩ := ih e he
    exact ⟨e', mem_cons_of_mem _ he', h⟩
  case isTrue h =>
  rw [forall_mem_cons, forall_mem_cons]
  obtain ⟨e', he', hat, hadded⟩ :=
    ih _ mem_cons_self
  refine ⟨⟨e', he', hat, hadded.trans (min_le_left _ _)⟩, ⟨e', he', ?_, ?_⟩, ?_⟩
  · exact hat.trans (Prod.ext h.1 h.2)
  · exact hadded.trans (min_le_right _ _)
  intro e he
  exact ih e (mem_cons_of_mem _ he)

theorem exists_of_mem_mergeFrom :
  ∀ e ∈ mergeFrom d deltas, ∃ e' ∈ d :: deltas, e'.at = e.at
  := by
  induction deltas generalizing d with
  | nil =>
    intro e he
    exact ⟨e, he, rfl⟩
  | cons f deltas ih =>
  intro e he
  rw [mergeFrom] at he
  split at he
  case isTrue =>
    obtain ⟨e', he', hat⟩ := ih e he
    rw [mem_cons] at he'
    obtain rfl | he' := he'
    case inl => exact ⟨d, mem_cons_self, hat⟩
    case inr => exact ⟨e', mem_cons_of_mem _ (mem_cons_of_mem _ he'), hat⟩
  case isFalse =>
  rw [mem_cons] at he
  obtain rfl | he := he
  case inl => exact ⟨e, mem_cons_self, rfl⟩
  case inr =>
  obtain ⟨e', he', hat⟩ := ih e he
  exact ⟨e', mem_cons_of_mem _ he', hat⟩

theorem deltaLe_iff (a b : Delta N K) :
  deltaLe D a b ↔ toLex (D.address a.target, a.key) ≤ toLex (D.address b.target, b.key)
  := by
  rw [Prod.Lex.toLex_le_toLex, deltaLe]
  by_cases htarget : a.target = b.target
  case pos | neg => simp [htarget]

instance : IsTrans (Delta N K) (deltaLe D) where
  trans a b c hab hbc := by
    rw [deltaLe_iff] at hab hbc ⊢
    exact hab.trans hbc

instance : Std.Total (deltaLe (K := K) D) where
  total a b := by
    rw [deltaLe_iff, deltaLe_iff]
    apply le_total

theorem mergeFrom_pairwise (sorted : (d :: deltas).Pairwise (deltaLe D)) :
  (mergeFrom d deltas).Pairwise
      (fun a b => toLex (D.address a.target, a.key) < toLex (D.address b.target, b.key))
    ∧ ∀ e ∈ mergeFrom d deltas,
        toLex (D.address d.target, d.key) ≤ toLex (D.address e.target, e.key)
  := by
  induction deltas generalizing d with
  | nil => simp [mergeFrom]
  | cons f deltas ih =>
  rw [pairwise_cons, pairwise_cons, forall_mem_cons] at sorted
  obtain ⟨⟨hdf, hd⟩, hf, hsorted⟩ := sorted
  rw [mergeFrom]
  split
  case isTrue =>
    apply ih
    rw [pairwise_cons]
    refine ⟨?_, hsorted⟩
    intro e he
    exact hd e he
  case isFalse hne =>
  obtain ⟨hpairwise, hle⟩ := ih (pairwise_cons.mpr ⟨hf, hsorted⟩)
  rw [deltaLe_iff] at hdf
  have hlt : toLex (D.address d.target, d.key) < toLex (D.address f.target, f.key) := by
    apply lt_of_le_of_ne hdf
    intro heq
    have hpair := toLex.injective heq
    rw [Prod.mk.injEq, D.address.injective.eq_iff] at hpair
    exact hne hpair
  rw [pairwise_cons, forall_mem_cons]
  refine ⟨⟨?_, hpairwise⟩, le_rfl, ?_⟩
  · intro e he
    exact hlt.trans_le (hle e he)
  intro e he
  exact (hlt.trans_le (hle e he)).le

theorem mergeDeltas_nodup (deltas : List (Delta N K)) :
  ((mergeDeltas D deltas).map Delta.at).Nodup
  := by
  have hsorted : (deltas.insertionSort (deltaLe D)).Pairwise (deltaLe D) :=
    pairwise_insertionSort _ _
  unfold mergeDeltas
  cases h : deltas.insertionSort (deltaLe D) with
  | nil => exact nodup_nil
  | cons d rest =>
  rw [h] at hsorted
  rw [List.Nodup, pairwise_map]
  apply (mergeFrom_pairwise D hsorted).1.imp
  intro a b hlt heq
  have hpair := Prod.mk.inj heq
  rw [hpair.1, hpair.2] at hlt
  exact lt_irrefl _ hlt

theorem sumAt_mergeDeltas (deltas : List (Delta N K)) (x : N × K) :
  sumAt x (mergeDeltas D deltas) = sumAt x deltas
  := by
  have hsort : sumAt x (deltas.insertionSort (deltaLe D)) = sumAt x deltas :=
    ((perm_insertionSort ..).map _).sum_eq
  rw [← hsort]
  unfold mergeDeltas
  cases deltas.insertionSort (deltaLe D) with
  | nil => rfl
  | cons d rest => apply sumAt_mergeFrom

theorem exists_mem_mergeDeltas (he : e ∈ deltas) :
  ∃ e' ∈ mergeDeltas D deltas, e'.at = e.at ∧ e'.addedBy ≤ e.addedBy
  := by
  rw [← mem_insertionSort (deltaLe D)] at he
  unfold mergeDeltas
  cases h : deltas.insertionSort (deltaLe D) with
  | nil =>
    rw [h] at he
    exact absurd he not_mem_nil
  | cons d rest =>
  rw [h] at he
  exact exists_mem_mergeFrom e he

theorem exists_of_mem_mergeDeltas (he : e ∈ mergeDeltas D deltas) :
  ∃ e' ∈ deltas, e'.at = e.at
  := by
  simp only [← mem_insertionSort (deltaLe D) (l := deltas)]
  unfold mergeDeltas at he
  cases h : deltas.insertionSort (deltaLe D) with
  | nil =>
    rw [h] at he
    exact absurd he not_mem_nil
  | cons d rest =>
  rw [h] at he
  exact exists_of_mem_mergeFrom e he

end

/-! ### Committed changes -/

section

variable [DecidableEq N] {f : Registration N K → Registration N K}

/-- What an update of one registration, which keeps its name, does to a lookup. -/
theorem find_modify (s : TransactionEngine N K Fn W) (name : N) (hf : ∀ r, (f r).name = r.name)
    (n : N) :
  (s.modify name f).find n = if n = name then (s.find n).map f else s.find n
  := by
  have hname : ∀ r : Registration N K, (if r.name = name then f r else r).name = r.name := by
    intro r
    split
    case isTrue => apply hf
    case isFalse => rfl
  rw [find, modify, setResources_resources, find?_map]
  simp only [Function.comp_def, hname]
  change (s.find n).map _ = _
  rcases h : s.find n with _ | r
  case none => simp
  case some =>
  have hr : r.name = n := by simpa using find?_some h
  simp only [map_some, hr]
  split <;> rfl

variable [DecidableEq K] (s : TransactionEngine N K Fn W)

/-- The entry for a key in the ledger of a resource. -/
def entry (s : TransactionEngine N K Fn W) (x : N × K) : Option ℕ :=
  (s.find x.1).bind (fun r => r.incoming.lookup x.2)

theorem count_eq_entry (name : N) (key : K) :
  s.count name key = (s.entry (name, key)).getD 0
  := rfl

/-- An update that changes the count of one key changes that entry. -/
theorem entry_modify (g : Option ℕ → Option ℕ)
    (hname : ∀ r, (f r).name = r.name)
    (hf : ∀ r k, (f r).incoming.lookup k
      = if k = p.2 then g (r.incoming.lookup p.2) else r.incoming.lookup k) (x : N × K) :
  (s.modify p.1 f).entry x = if p = x ∧ s.registered x.1 then g (s.entry x) else s.entry x
  := by
  obtain ⟨n, k⟩ := x
  rw [entry, find_modify _ _ hname]
  by_cases hn : n = p.1
  case neg =>
    have hp : p ≠ (n, k) := fun h => hn (congrArg Prod.fst h).symm
    simp [hn, hp, entry]
  case pos =>
  rw [if_pos hn]
  rcases hfind : s.find n with _ | r
  case none => simp [entry, hfind, registered]
  case some =>
  rw [map_some, bind_some, hf]
  by_cases hkey : k = p.2
  case pos =>
    subst hkey
    have hp : p = (n, p.2) := Prod.ext hn.symm rfl
    simp [← hp, registered, hfind, entry]
  case neg =>
  have hp : p ≠ (n, k) := fun h => hkey (congrArg Prod.snd h).symm
  simp [hp, hkey, entry, hfind]

theorem entry_makeEntry (d : Delta N K) (x : N × K) :
  (s.makeEntry d).entry x
    = if d.at = x ∧ 0 < d.change ∧ s.registered x.1 then some ((s.entry x).getD 0)
      else s.entry x
  := by
  unfold makeEntry
  by_cases hchange : d.change > 0
  case neg => simp [hchange]
  case pos =>
  have h := s.entry_modify (p := d.at) (fun count => some (count.getD 0))
    (fun r => name_of_withoutLedger_eq (withEntry_withoutLedger d.key r))
    (fun r k => lookup_withEntry d.key k r) x
  rw [if_pos hchange]
  apply h.trans
  simp [hchange]

theorem entry_applyDelta (d : Delta N K) (x : N × K) :
  (s.applyDelta d).entry x = if d.at = x then changed (s.entry x) d.change else s.entry x
  := by
  have h := s.entry_modify (p := d.at) (changed · d.change)
    (fun r => name_of_withoutLedger_eq (withChange_withoutLedger d.key d.change r))
    (fun r k => lookup_withChange d.key k d.change r) x
  apply h.trans
  cases hx : s.find x.1 <;> simp [registered, entry, changed, hx]

omit [DecidableEq N] [DecidableEq K] in
/-- A count with an entry for it, if references are added, and then changed. -/
theorem getD_changed (count : Option ℕ) (change : ℤ) :
  (changed (if 0 < change then some (count.getD 0) else count) change).getD 0
    = ((count.getD 0 : ℕ) + change).toNat
  := by
  have hsome : ∀ n : ℕ, (changed (some n) change).getD 0 = ((n : ℤ) + change).toNat := by
    intro n
    rw [changed, bind_some]
    split
    case isTrue h =>
      rw [getD_none]
      omega
    case isFalse => rw [getD_some]
  by_cases hchange : 0 < change
  case pos => rw [if_pos hchange, hsome]
  case neg =>
  rw [if_neg hchange]
  cases count with
  | some n => apply hsome
  | none =>
  rw [changed, bind_none, getD_none]
  omega

theorem registered_makeEntry (d : Delta N K) :
  (s.makeEntry d).registered = s.registered
  := keepsLinks_skeleton.registered (skeletons_of_topology_eq (topology_makeEntry s d))

theorem entry_foldl_of_ne {deltas : List (Delta N K)} {x : N × K} (h : ∀ d ∈ deltas, d.at ≠ x)
    (s : TransactionEngine N K Fn W) :
  (deltas.foldl makeEntry s).entry x = s.entry x
    ∧ (deltas.foldl applyDelta s).entry x = s.entry x
  := by
  induction deltas generalizing s with
  | nil => exact ⟨rfl, rfl⟩
  | cons d deltas ih =>
  rw [forall_mem_cons] at h
  rw [foldl_cons, foldl_cons, (ih h.2 _).1, (ih h.2 _).2, entry_makeEntry,
    entry_applyDelta, if_neg h.1, if_neg (fun hd => h.1 hd.1)]
  exact ⟨rfl, rfl⟩

/-- The counts that committing leaves: each key changed by what is changed there. -/
theorem count_foldl {deltas : List (Delta N K)} (nodup : (deltas.map Delta.at).Nodup)
    (s : TransactionEngine N K Fn W) (w : W) {x : N × K} (registered : s.registered x.1 = true) :
  (deltas.foldl applyDelta ((deltas.foldl makeEntry s).setWorld w)).count x.1 x.2
    = (s.count x.1 x.2 + sumAt x deltas).toNat
  := by
  rw [count_eq_entry, count_eq_entry]
  by_cases hmem : ∃ d ∈ deltas, d.at = x
  case neg =>
    have hne : ∀ d ∈ deltas, d.at ≠ x := fun d hd hat => hmem ⟨d, hd, hat⟩
    rw [(entry_foldl_of_ne hne _).2, sumAt_eq_zero hne]
    change ((deltas.foldl makeEntry s).entry x).getD 0 = _
    rw [(entry_foldl_of_ne hne _).1]
    simp
  case pos =>
  obtain ⟨d, hd, rfl⟩ := hmem
  rw [sumAt_eq_change nodup hd]
  obtain ⟨before, after, rfl⟩ := append_of_mem hd
  rw [map_append, map_cons, nodup_append, nodup_cons] at nodup
  have hbefore : ∀ e ∈ before, e.at ≠ d.at := by
    intro e he
    exact nodup.2.2 e.at (mem_map_of_mem he) d.at mem_cons_self
  have hafter : ∀ e ∈ after, e.at ≠ d.at := by
    intro e he heq
    apply nodup.2.1.1
    rw [← heq]
    exact mem_map_of_mem he
  -- the entry is made if references are added, and then changed
  have hmade : ((before ++ d :: after).foldl makeEntry s).entry d.at
      = if 0 < d.change then some ((s.entry d.at).getD 0) else s.entry d.at := by
    have hreg : (before.foldl makeEntry s).registered d.at.1 = true := by
      rw [foldl_unchanged (fun s : TransactionEngine N K Fn W => s.registered) registered_makeEntry]
      exact registered
    rw [foldl_append, foldl_cons, (entry_foldl_of_ne hafter _).1, entry_makeEntry,
      (entry_foldl_of_ne hbefore _).1]
    simp [hreg]
  rw [foldl_append, foldl_cons, (entry_foldl_of_ne hafter _).2, entry_applyDelta,
    if_pos rfl, (entry_foldl_of_ne hbefore _).2]
  change (changed (((before ++ d :: after).foldl makeEntry s).entry d.at) d.change).getD 0 = _
  rw [hmade]
  apply getD_changed

end

/-! ### Counting anew -/

theorem lookup_zeroed [DecidableEq K] (r : Registration N K) (key : K) :
  ((zeroed r).incoming.lookup key).getD 0 = 0
  := by
  have hfold : ∀ (keys : List K) (m : AList (fun _ : K => ℕ)),
      (keys.foldl (fun m key => m.insert key 0) m).lookup key
        = if key ∈ keys then some 0 else m.lookup key := by
    intro keys
    induction keys with
    | nil => simp
    | cons k keys ih =>
    intro m
    rw [foldl_cons, ih]
    by_cases hmem : key ∈ keys
    case pos => simp [hmem]
    case neg =>
    by_cases hk : key = k
    case pos =>
      subst hk
      simp
    case neg => simp [hk]
  rw [zeroed, hfold]
  split
  case isTrue => rfl
  case isFalse h => rw [AList.lookup_eq_none.mpr h, getD_none]

section

variable [DecidableEq N]

theorem find_setResources_map (s : TransactionEngine N K Fn W) (hg : ∀ r, (g r).name = r.name)
    (name : N) :
  (s.setResources (s.resources.map g)).find name = (s.find name).map g
  := by
  rw [find, setResources_resources, find?_map, find]
  simp only [Function.comp_def, hg]

variable [DecidableEq K]

theorem entry_counted (s : TransactionEngine N K Fn W) (p x : N × K) :
  (s.modify p.1 (counted p.2)).entry x
    = if p = x ∧ s.registered x.1 then some ((s.entry x).getD 0 + 1) else s.entry x
  := by
  apply s.entry_modify (f := counted p.2) (fun count => some (count.getD 0 + 1)) (fun _ => rfl)
  intro r k
  rw [counted]
  split
  case isTrue hkey => rw [hkey, AList.lookup_insert]
  case isFalse hkey => rw [AList.lookup_insert_ne hkey]

theorem count_foldl_counted (l : List (N × K)) (s : TransactionEngine N K Fn W) {x : N × K}
    (registered : s.registered x.1 = true) :
  (l.foldl (fun s p => s.modify p.1 (counted p.2)) s).count x.1 x.2
    = s.count x.1 x.2 + l.count x
  := by
  induction l generalizing s with
  | nil => rfl
  | cons p l ih =>
  have hreg : (s.modify p.1 (counted p.2)).registered = s.registered := by
    apply keepsLinks_skeleton.registered
    exact map_modify s p.1 (fun _ => rfl)
  have hcount : (s.modify p.1 (counted p.2)).count x.1 x.2
      = s.count x.1 x.2 + if p = x then 1 else 0 := by
    change ((s.modify p.1 (counted p.2)).entry x).getD 0 = (s.entry x).getD 0 + _
    rw [entry_counted]
    by_cases hp : p = x <;> simp [hp, registered]
  rw [foldl_cons, ih _ (by rw [hreg]; exact registered), hcount, count_cons]
  by_cases hp : p = x
  case pos =>
    simp only [hp, beq_self_eq_true]
    omega
  case neg => simp [hp]

/-- The counts when all references are counted anew. -/
theorem count_rebuildIncoming (D : Dataplane N K V Staged Fn W) (s : TransactionEngine N K Fn W)
    {x : N × K} (registered : s.registered x.1 = true) :
  (s.rebuildIncoming D).count x.1 x.2 = (s.resources.flatMap (countedOn D s)).count x
  := by
  set start := s.setResources (s.resources.map zeroed)
  set total := (s.resources.flatMap (countedOn D s)).foldl
    (fun s p => s.modify p.1 (counted p.2)) start
  have hstart : start.registered x.1 = true := by
    rw [TransactionEngine.registered, find_setResources_map (g := zeroed) s (fun _ => rfl),
      isSome_map]
    exact registered
  have hzero : start.count x.1 x.2 = 0 := by
    rw [count, find_setResources_map (g := zeroed) s (fun _ => rfl)]
    rcases s.find x.1 with _ | r
    case none => rfl
    case some => exact lookup_zeroed r x.2
  have hdrop : (s.rebuildIncoming D).count x.1 x.2 = total.count x.1 x.2 := by
    change (total.setResources (total.resources.map dropZeros)).count x.1 x.2 = _
    rw [count, find_setResources_map (g := dropZeros) total (fun _ => rfl), count]
    rcases total.find x.1 with _ | r
    case none => rfl
    case some =>
    rw [map_some, bind_some, bind_some, lookup_dropZeros]
    rcases r.incoming.lookup x.2 with _ | n
    case none => rfl
    case some => rcases n with _ | n <;> simp [Option.filter]
  rw [hdrop, count_foldl_counted _ _ hstart, hzero, Nat.zero_add]

end

/-! ### The references that are held -/

section

variable [DecidableEq N]

/-- The registration a reference to a key of `target` is counted on, given which keys are held by
key holders. -/
def holderOf (s : TransactionEngine N K Fn W) (held : N → K → Bool) (target : N) (key : K) :
    Option N :=
  (s.find target).bind fun t =>
    if t.resource.keyHolder = none ∨ held target key = false then some target else t.keyHolder

/-- The key a reference of a value of `name` is counted on. -/
def countsOn (s : TransactionEngine N K Fn W) (held : N → K → Bool) (name : N)
    (ref : Reference N K) : Option (N × K) :=
  (s.find name).bind fun reg =>
    (resolve reg ref.resource).bind fun target =>
      (s.holderOf held target ref.key).map fun h => (h, ref.key)

variable {s : TransactionEngine N K Fn W} {ref : Reference N K} {held : N → K → Bool} {name : N}

theorem countsOn_eq_some {x : N × K} (h : s.countsOn held name ref = some x) :
  s.holderOf held ref.resource ref.key = some x.1 ∧ x.2 = ref.key
  := by
  obtain ⟨reg, -, h⟩ := bind_eq_some_iff.mp h
  obtain ⟨target, htarget, h⟩ := bind_eq_some_iff.mp h
  obtain ⟨n, hn, rfl⟩ := map_eq_some_iff.mp h
  rw [resolve, ite_none_right_eq_some, Option.some.injEq] at htarget
  rw [htarget.2]
  exact ⟨hn, rfl⟩

theorem countsOn_congr {held' : N → K → Bool}
    (h : ∀ reg, s.find name = some reg → ref.resource ∈ reg.deps →
      held' ref.resource ref.key = held ref.resource ref.key) :
  s.countsOn held' name ref = s.countsOn held name ref
  := by
  unfold countsOn
  rcases hreg : s.find name with _ | reg
  case none => rfl
  case some =>
  rw [bind_some, bind_some, resolve]
  split
  case isTrue hdep => rw [bind_some, bind_some, holderOf, holderOf, h reg hreg hdep]
  case isFalse => rfl

/-- Engines with the same graph count references alike. -/
theorem KeepsLinks.countsOn (keeps : KeepsLinks g)
    {s' : TransactionEngine N K Fn W} (h : s'.resources.map g = s.resources.map g) :
  s'.countsOn = s.countsOn
  := by
  have hholder : s'.holderOf = s.holderOf := by
    funext held target key
    apply find_bind_of_map_eq h keeps.name
    intro r
    rw [keeps.resource, keeps.keyHolder]
  funext held name ref
  unfold TransactionEngine.countsOn
  rw [hholder]
  apply find_bind_of_map_eq h keeps.name
  intro r
  rw [resolve, resolve, keeps.deps]

variable [DecidableEq K] {c : Committed N K V}

/-- The keys that the references of the value at a key are counted on. -/
def named (s : TransactionEngine N K Fn W) (c : Committed N K V) (p : N × K) : List (N × K) :=
  (c.references p.1 p.2).filterMap (s.countsOn c.held p.1)

/-- The live keys of the registered resources. -/
def places (s : TransactionEngine N K Fn W) (c : Committed N K V) : Finset (N × K) :=
  (s.resources.map Registration.name).toFinset.biUnion fun name =>
    (c.keys name).image fun key => (name, key)

theorem mem_places :
  p ∈ s.places c ↔ s.registered p.1 = true ∧ p.2 ∈ c.keys p.1
  := by
  rw [places, Finset.mem_biUnion, registered_iff]
  constructor
  · rintro ⟨name, hname, hp⟩
    obtain ⟨key, hkey, rfl⟩ := Finset.mem_image.mp hp
    exact ⟨mem_toFinset.mp hname, hkey⟩
  rintro ⟨hname, hkey⟩
  refine ⟨p.1, mem_toFinset.mpr hname, ?_⟩
  rw [Finset.mem_image]
  use p.2, hkey

theorem named_outside (s : TransactionEngine N K Fn W) (tidy : c.Tidy) :
  ∀ p ∉ s.places c, s.named c p = []
  := by
  intro p h
  rw [mem_places, not_and] at h
  rcases hreg : s.registered p.1 with _ | _
  case true => rw [named, tidy p.1 p.2 (h hreg), filterMap_nil]
  case false =>
  rw [registered, isSome_eq_false_iff, isNone_iff_eq_none] at hreg
  rw [named, filterMap_eq_nil_iff]
  intro ref _
  rw [countsOn, hreg, bind_none]

/-- The ledger counts the references that live values hold, and each is to a live key. -/
structure Consistent (s : TransactionEngine N K Fn W) (c : Committed N K V) : Prop where
  count : ∀ x : N × K, s.registered x.1 = true →
    s.count x.1 x.2 = total (s.places c) (s.named c) x
  live : ∀ p ∈ s.places c, ∀ ref ∈ c.references p.1 p.2,
    ∃ h, s.countsOn c.held p.1 ref = some (h, ref.key) ∧ ref.key ∈ c.keys h

/-- What a transaction of operations on different keys does that passed the checks: `c` is what
resources show before, and `c'` after it. -/
structure Change (s : TransactionEngine N K Fn W) (ops : List (Op N K V))
    (deltas : List (Delta N K)) (c c' : Committed N K V) : Prop where
  distinct : (ops.map Op.target).Nodup
  tidy : c.Tidy
  tidy' : c'.Tidy
  keys : ∀ p, p ∉ ops.map Op.target →
    (p.2 ∈ c'.keys p.1 ↔ p.2 ∈ c.keys p.1) ∧ c'.references p.1 p.2 = c.references p.1 p.2
  written : ∀ op ∈ ops, (op.key ∈ c'.keys op.resource ↔ op.kind = .upsert)
  deltas_nodup : (deltas.map Delta.at).Nodup
  sum : ∀ x, sumAt x deltas = (part (ops.map Op.target) (s.named c') x : ℤ)
    - part (ops.map Op.target) (s.named c) x
  erased : ∀ op ∈ ops, op.kind = .erase → ∃ d ∈ deltas, d.at = op.target
  added : ∀ op ∈ ops, op.kind = .upsert → ∀ ref ∈ c'.references op.resource op.key,
    ∃ h, s.countsOn c'.held op.resource ref = some (h, ref.key)
      ∧ ∃ d ∈ deltas, d.at = (h, ref.key) ∧ d.addedBy ≠ ⊤
  registered : ∀ d ∈ deltas, s.registered d.target = true
  checked : ∀ d ∈ deltas, (s.count d.target d.key : ℤ) + d.change ≤ 0
    ∨ (∃ op ∈ ops, op.target = d.at ∧ op.kind = .upsert)
    ∨ (∀ op ∈ ops, op.target ≠ d.at) ∧ (d.key ∈ c.keys d.target ∨ d.addedBy = ⊤)
  handover : ∀ target key h, c'.held target key ≠ c.held target key →
    s.holderOf c.held target key = some h →
    (∃ op ∈ ops, op.target = (h, key) ∧ op.kind = .erase)
      ∨ ∀ p ∈ s.places c, ⟨target, key⟩ ∉ c.references p.1 p.2

namespace Change

variable {ops : List (Op N K V)} {c c' : Committed N K V} {x : N × K}
  (change : s.Change ops deltas c c') (consistent : s.Consistent c)

include change consistent

/-- What is counted afterwards at a key: what the written values name, and what the others do. -/
theorem after (registered : s.registered x.1 = true) :
  (s.count x.1 x.2 : ℤ) + sumAt x deltas
    = part (ops.map Op.target) (s.named c') x
      + rest (s.places c) (ops.map Op.target) (s.named c) x
  := by
  have htotal := total_eq_part_add_rest change.distinct (named_outside s change.tidy) x
  have hcount := consistent.count x registered
  have hsum := change.sum x
  omega

/-- Nothing that stays names a key that is erased. -/
theorem rest_erased {op : Op N K V} (hop : op ∈ ops) (hkind : op.kind = .erase) :
  rest (s.places c) (ops.map Op.target) (s.named c) op.target = 0
  := by
  obtain ⟨d, hd, hat⟩ := change.erased op hop hkind
  have hafter := change.after consistent (x := d.at) (change.registered d hd)
  rw [sumAt_eq_change change.deltas_nodup hd] at hafter
  rw [← hat]
  obtain hle | ⟨op', hop', htarget, hupsert⟩ | ⟨hnone, -⟩ := change.checked d hd
  case inl =>
    change (s.count d.target d.key : ℤ) + d.change = _ at hafter
    omega
  case inr.inl =>
    have heq := inj_on_of_nodup_map change.distinct hop' hop (htarget.trans hat)
    rw [heq, hkind] at hupsert
    exact absurd hupsert (by simp)
  case inr.inr => exact absurd hat.symm (hnone op hop)

/-- The references of a value that is not written stay where they are counted. -/
theorem countsOn_kept (hp : p ∈ s.places c) (hkept : p ∉ ops.map Op.target)
    (href : ref ∈ c.references p.1 p.2) :
  s.countsOn c'.held p.1 ref = s.countsOn c.held p.1 ref
  := by
  by_cases hheld : c'.held ref.resource ref.key = c.held ref.resource ref.key
  case pos => exact countsOn_congr (fun _ _ _ => hheld)
  case neg =>
  obtain ⟨h, hcounts, -⟩ := consistent.live p hp ref href
  obtain ⟨op, hop, htarget, hkind⟩ | hnone :=
    change.handover _ _ h hheld (countsOn_eq_some hcounts).1
  case inr => exact absurd href (hnone p hp)
  case inl =>
  have hrest := change.rest_erased consistent hop hkind
  have hpos : 0 < rest (s.places c) (ops.map Op.target) (s.named c) (h, ref.key) := by
    apply rest_pos hp hkept
    rw [named, mem_filterMap]
    use ref, href
  rw [htarget] at hrest
  omega

theorem named_kept (hkept : p ∉ ops.map Op.target) :
  s.named c' p = s.named c p
  := by
  by_cases hp : p ∈ s.places c
  case pos =>
    rw [named, (change.keys p hkept).2]
    apply filterMap_congr
    intro ref href
    exact change.countsOn_kept consistent hp hkept href
  case neg =>
  have hp' : p ∉ s.places c' := by
    rw [mem_places, (change.keys p hkept).1, ← mem_places]
    exact hp
  rw [named_outside s change.tidy p hp, named_outside s change.tidy' p hp']

theorem total_eq (registered : s.registered x.1 = true) :
  (total (s.places c') (s.named c') x : ℤ) = s.count x.1 x.2 + sumAt x deltas
  := by
  have htotal := total_eq_part_add_rest change.distinct (named_outside s change.tidy') x
  have hrest := rest_congr (named_outside s change.tidy) (named_outside s change.tidy')
    (fun p hp => change.named_kept consistent hp) x
  have hafter := change.after consistent registered
  omega

/-- A key that is named afterwards, and was live or is written, is live afterwards. -/
theorem live_of_named (hlive : x.2 ∈ c.keys x.1)
    (hnamed : 0 < rest (s.places c) (ops.map Op.target) (s.named c) x) :
  x.2 ∈ c'.keys x.1
  := by
  by_cases hx : x ∈ ops.map Op.target
  case neg => exact (change.keys x hx).1.mpr hlive
  case pos =>
  obtain ⟨op, hop, rfl⟩ := mem_map.mp hx
  apply (change.written op hop).mpr
  rcases hkind : op.kind with _ | _
  case upsert => rfl
  case erase =>
  have hrest := change.rest_erased consistent hop hkind
  omega

/-- A change keeps that every reference is to a live key. -/
theorem live :
  ∀ p ∈ s.places c', ∀ ref ∈ c'.references p.1 p.2,
    ∃ h, s.countsOn c'.held p.1 ref = some (h, ref.key) ∧ ref.key ∈ c'.keys h
  := by
  intro p hp ref href
  by_cases hwritten : p ∈ ops.map Op.target
  case neg =>
    have hplace : p ∈ s.places c := by
      rw [mem_places, ← (change.keys p hwritten).1, ← mem_places]
      exact hp
    rw [(change.keys p hwritten).2] at href
    obtain ⟨h, hcounts, hlive⟩ := consistent.live p hplace ref href
    refine ⟨h, (change.countsOn_kept consistent hplace hwritten href).trans hcounts, ?_⟩
    apply change.live_of_named consistent (x := (h, ref.key)) hlive
    apply rest_pos hplace hwritten
    rw [named, mem_filterMap]
    use ref, href
  case pos =>
  obtain ⟨op, hop, rfl⟩ := mem_map.mp hwritten
  have hkind : op.kind = .upsert := (change.written op hop).mp (mem_places.mp hp).2
  obtain ⟨h, hcounts, d, hd, hat, hadded⟩ := change.added op hop hkind ref href
  refine ⟨h, hcounts, ?_⟩
  have hreg := change.registered d hd
  have hnamed : 0 < part (ops.map Op.target) (s.named c') d.at := by
    apply part_pos hwritten
    rw [named, mem_filterMap, hat]
    use ref, href
    exact hcounts
  have hafter := change.after consistent (x := d.at) hreg
  rw [sumAt_eq_change change.deltas_nodup hd] at hafter
  obtain ⟨rfl, hkey⟩ := Prod.mk.inj hat
  rw [← hkey]
  obtain hle | ⟨op', hop', htarget, hupsert⟩ | ⟨hnone, hlive⟩ := change.checked d hd
  case inl =>
    change (s.count d.target d.key : ℤ) + d.change = _ at hafter
    omega
  case inr.inl =>
    obtain ⟨hres, hkey'⟩ := Prod.mk.inj htarget
    rw [← hres, ← hkey']
    exact (change.written op' hop').mpr hupsert
  case inr.inr =>
  have hnot : d.at ∉ ops.map Op.target := by
    intro hmem
    obtain ⟨op', hop', htarget⟩ := mem_map.mp hmem
    exact hnone op' hop' htarget
  exact (change.keys d.at hnot).1.mpr (hlive.resolve_right hadded)

end Change

end

end TransactionEngine

end Engine
