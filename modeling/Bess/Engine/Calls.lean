import Bess.Engine.Contract
import Mathlib.Data.Prod.Lex

/-!
# Every call leaves the engine idle

The operations of a transaction that gets past the checks of its structure are on different
keys, so the contract of the resources applies to each reservation. A refused transaction leaves
no reservation behind, and a committed one publishes them all. So between any two calls the
world holds no reservation, no registration is marked, and every entry of the ledgers has a
reference.
-/

namespace Engine

open List

variable {N K V Staged Fn W : Type} {s' : TransactionEngine N K Fn W} {r : Result}

/-! ### One operation per key -/

def Op.target (op : Op N K V) : N × K :=
  (op.resource, op.key)

namespace TransactionEngine

section

variable [DecidableEq N] [LinearOrder K] (D : Dataplane N K V Staged Fn W)

theorem keyLe_iff (a b : KeyRef N K) :
  keyLe D a b ↔ toLex (D.address a.reg, toLex (a.key, a.op))
    ≤ toLex (D.address b.reg, toLex (b.key, b.op))
  := by
  rw [Prod.Lex.toLex_le_toLex, Prod.Lex.toLex_le_toLex, keyLe]
  by_cases hreg : a.reg = b.reg
  case pos =>
    by_cases hkey : a.key = b.key
    case pos | neg => simp [hreg, hkey]
  case neg => simp [hreg]

instance : IsTrans (KeyRef N K) (keyLe D) where
  trans a b c hab hbc := by
    rw [keyLe_iff] at hab hbc ⊢
    exact hab.trans hbc

instance : Std.Total (keyLe (K := K) D) where
  total a b := by
    rw [keyLe_iff, keyLe_iff]
    apply le_total

theorem keyLt_of_keyLe {D : Dataplane N K V Staged Fn W} {a b : KeyRef N K}
    (hle : keyLe D a b) (hne : ¬ (a.reg = b.reg ∧ a.key = b.key)) :
  toLex (D.address a.reg, a.key) < toLex (D.address b.reg, b.key)
  := by
  rw [Prod.Lex.toLex_lt_toLex]
  unfold keyLe at hle
  by_cases hreg : a.reg = b.reg
  case pos =>
    have hkey : a.key ≠ b.key := fun hkey => hne ⟨hreg, hkey⟩
    simpa [hreg, hkey] using hle
  case neg =>
    simpa [hreg] using hle

/-- In a sorted list without repetitions among neighbours the keys ascend. -/
theorem isChain_of_firstDuplicate {keys : List (KeyRef N K)}
    (sorted : keys.Pairwise (keyLe D)) (h : firstDuplicate keys = none) :
  keys.IsChain (fun a b => toLex (D.address a.reg, a.key) < toLex (D.address b.reg, b.key))
  := by
  rw [firstDuplicate] at h
  induction keys with
  | nil => simp
  | cons a keys ih =>
  cases keys with
  | nil => simp
  | cons b keys =>
  simp only [tail_cons, zip_cons_cons, filterMap_cons] at h
  rw [pairwise_cons] at sorted
  split at h
  case h_1 hab =>
    simp only [ite_eq_right_iff, reduceCtorEq] at hab
    apply List.IsChain.cons_cons
    · exact keyLt_of_keyLe (sorted.1 b mem_cons_self) hab
    · exact ih sorted.2 h
  case h_2 => simp at h

theorem nodup_of_firstDuplicate {ops : List (Op N K V)}
    (h : firstDuplicate (keyRefs D ops) = none) :
  (ops.map Op.target).Nodup
  := by
  have hsorted : (keyRefs D ops).Pairwise (keyLe D) := pairwise_insertionSort _ _
  have hchain := (isChain_of_firstDuplicate D hsorted h).pairwise
  have hnodup : ((keyRefs D ops).map (fun k => (k.reg, k.key))).Nodup := by
    rw [List.Nodup, pairwise_map]
    apply hchain.imp
    intro a b hab heq
    rw [Prod.mk.injEq] at heq
    rw [heq.1, heq.2] at hab
    exact lt_irrefl _ hab
  have hperm := (perm_insertionSort (keyLe D)
    (ops.zipIdx.map (fun p => (⟨p.1.resource, p.1.key, p.2⟩ : KeyRef N K)))).map
      (fun k => (k.reg, k.key))
  have htargets : (ops.zipIdx.map (fun p => (⟨p.1.resource, p.1.key, p.2⟩ : KeyRef N K))).map
      (fun k => (k.reg, k.key)) = ops.map Op.target := by
    rw [map_map]
    change ops.zipIdx.map (Op.target ∘ Prod.fst) = _
    rw [← map_map, zipIdx_map_fst]
  rw [htargets] at hperm
  exact hperm.nodup_iff.mp hnodup

end

/-! ### Commit -/

variable (D : Dataplane N K V Staged Fn W) (s : TransactionEngine N K Fn W)

/-- The names of the registrations, and which are marked. -/
def marks : List (N × Bool) :=
  s.resources.map (fun r => (r.name, r.touched))

section

variable [DecidableEq K]

theorem lookup_withEntry (key key' : K) (r : Registration N K) :
  (withEntry key r).incoming.lookup key'
    = if key' = key then some ((r.incoming.lookup key).getD 0) else r.incoming.lookup key'
  := by
  unfold withEntry
  by_cases hkey : key' = key
  case pos =>
    subst hkey
    rcases h : r.incoming.lookup key' with _ | count <;> simp [h]
  case neg =>
  split
  case isTrue => rw [AList.lookup_insert_ne hkey]
  case isFalse => rfl

/-- A count after a change, none if nothing is left. -/
def changed (count : Option ℕ) (change : ℤ) : Option ℕ :=
  count.bind fun count => if (count : ℤ) + change ≤ 0 then none else some (count + change).toNat

theorem lookup_withChange (key key' : K) (change : ℤ) (r : Registration N K) :
  (withChange key change r).incoming.lookup key'
    = if key' = key then changed (r.incoming.lookup key) change else r.incoming.lookup key'
  := by
  unfold withChange changed
  by_cases hkey : key' = key
  case pos =>
    subst hkey
    rw [if_pos rfl]
    split
    case h_1 hnone => rw [hnone, Option.bind_none]
    case h_2 count hcount =>
    rw [hcount, Option.bind_some]
    simp only
    split
    case isTrue | isFalse => simp
  case neg =>
  rw [if_neg hkey]
  split
  case h_1 => rfl
  case h_2 =>
  simp only
  split
  case isTrue => rw [AList.lookup_erase_ne hkey]
  case isFalse => rw [AList.lookup_insert_ne hkey]

theorem changed_ne_zero (count : Option ℕ) (change : ℤ) :
  changed count change ≠ some 0
  := by
  cases count with
  | none => simp [changed]
  | some count =>
  rw [changed, Option.bind_some]
  split
  case isTrue => simp
  case isFalse =>
  rw [ne_eq, Option.some.injEq]
  omega

theorem withEntry_withoutLedger (key : K) (r : Registration N K) :
  withoutLedger (withEntry key r) = withoutLedger r
  := by
  unfold withEntry
  split <;> rfl

theorem withChange_withoutLedger (key : K) (change : ℤ) (r : Registration N K) :
  withoutLedger (withChange key change r) = withoutLedger r
  := by
  unfold withChange
  split
  case h_1 => rfl
  case h_2 =>
  simp only
  split <;> rfl

/-- Every entry without a reference is about to get one. -/
def ZerosCovered (deltas : List (Delta N K)) : Prop :=
  ∀ r ∈ s.resources, ∀ key, r.incoming.lookup key = some 0 →
    ∃ d ∈ deltas, d.target = r.name ∧ d.key = key ∧ 0 < d.change

end

theorem startReclaim_unchanged (retirer : Retirer N Fn) (stages : List (List (Step N Fn))) :
  (startReclaim D s retirer stages).resources = s.resources
    ∧ (startReclaim D s retirer stages).generation = s.generation
  := by
  unfold startReclaim
  split
  case isTrue | isFalse => exact ⟨rfl, rfl⟩

section

variable [DecidableEq N] {s : TransactionEngine N K Fn W} (D : Dataplane N K V Staged Fn W)

theorem publishOrder_of_rank_eq (h : s'.rank = s.rank) (staged : List (Reserved N K V Staged)) :
  publishOrder s' staged = publishOrder s staged
  := by
  have hle : (publishLe s' : Reserved N K V Staged → Reserved N K V Staged → Prop)
      = publishLe s := by
    unfold publishLe
    rw [h]
  unfold publishOrder
  congr

theorem publishAll_world (s : TransactionEngine N K Fn W) (order : List (Reserved N K V Staged)) :
  (publishAll D s order).1 = order.foldl (fun w r => (D.publish w r.work).1) s.world
  := by
  have hfold : ∀ (order : List (Reserved N K V Staged)) (p : W × Retirer N Fn),
      (order.foldl (publishOne D s) p).1 = order.foldl (fun w r => (D.publish w r.work).1) p.1 := by
    intro order
    induction order with
    | nil => simp
    | cons r order ih =>
    intro p
    rw [foldl_cons, ih]
    rfl
  apply hfold

variable [DecidableEq K] {d : Delta N K} {deltas : List (Delta N K)}

theorem makeEntry_withoutLedger (s : TransactionEngine N K Fn W) (d : Delta N K) :
  (s.makeEntry d).resources.map withoutLedger = s.resources.map withoutLedger
  := by
  unfold makeEntry
  split
  case isTrue =>
    apply map_modify
    apply withEntry_withoutLedger
  case isFalse => rfl

theorem ZerosCovered.makeEntry (covered : s.ZerosCovered deltas) (hd : d ∈ deltas) :
  (s.makeEntry d).ZerosCovered deltas
  := by
  unfold TransactionEngine.makeEntry
  split
  case isFalse => exact covered
  case isTrue hchange =>
  intro r hr key hzero
  obtain ⟨r₀, hr₀, rfl⟩ := mem_map.mp hr
  by_cases hname : r₀.name = d.target
  case neg =>
    rw [if_neg hname] at hzero ⊢
    exact covered r₀ hr₀ key hzero
  case pos =>
  rw [if_pos hname] at hzero ⊢
  have hsame : (withEntry d.key r₀).name = r₀.name :=
    name_of_withoutLedger_eq (withEntry_withoutLedger d.key r₀)
  rw [hsame]
  rw [lookup_withEntry] at hzero
  by_cases hkey : key = d.key
  case pos =>
    exact ⟨d, hd, hname.symm, hkey.symm, hchange⟩
  case neg =>
  rw [if_neg hkey] at hzero
  exact covered r₀ hr₀ key hzero

theorem ZerosCovered.applyDelta (covered : s.ZerosCovered (d :: deltas)) :
  (s.applyDelta d).ZerosCovered deltas
  := by
  have hrest : ∀ r ∈ s.resources, ∀ key, r.incoming.lookup key = some 0 →
      ¬ (r.name = d.target ∧ key = d.key) →
      ∃ d' ∈ deltas, d'.target = r.name ∧ d'.key = key ∧ 0 < d'.change := by
    intro r hr key hzero hne
    obtain ⟨d', hd', htarget, hkey, hchange⟩ := covered r hr key hzero
    rw [mem_cons] at hd'
    obtain rfl | hd' := hd'
    case inl => exact absurd ⟨htarget.symm, hkey.symm⟩ hne
    case inr => exact ⟨d', hd', htarget, hkey, hchange⟩
  intro r hr key hzero
  obtain ⟨r₀, hr₀, rfl⟩ := mem_map.mp hr
  by_cases hname : r₀.name = d.target
  case neg =>
    rw [if_neg hname] at hzero ⊢
    exact hrest r₀ hr₀ key hzero (fun h => hname h.1)
  case pos =>
  rw [if_pos hname] at hzero ⊢
  have hsame : (withChange d.key d.change r₀).name = r₀.name :=
    name_of_withoutLedger_eq (withChange_withoutLedger d.key d.change r₀)
  rw [hsame]
  rw [lookup_withChange] at hzero
  by_cases hkey : key = d.key
  case pos =>
    rw [if_pos hkey] at hzero
    exact absurd hzero (changed_ne_zero _ _)
  case neg =>
  rw [if_neg hkey] at hzero
  exact hrest r₀ hr₀ key hzero (fun h => hkey h.2)

/-- Committing leaves the ledgers without an entry that has no reference. -/
theorem noZeros_of_deltas (zeros : s.NoZeros) (w : W) (deltas : List (Delta N K)) :
  (deltas.foldl applyDelta ((deltas.foldl makeEntry s).setWorld w)).NoZeros
  := by
  have hmade : ((deltas.foldl makeEntry s).setWorld w).ZerosCovered deltas := by
    apply List.foldlRecOn (motive := fun s : TransactionEngine N K Fn W => s.ZerosCovered deltas)
    · intro r hr key hzero
      exact absurd hzero (zeros r hr key)
    intro s covered d hd
    exact covered.makeEntry hd
  have happlied : ∀ (deltas : List (Delta N K)) (s : TransactionEngine N K Fn W),
      s.ZerosCovered deltas → (deltas.foldl applyDelta s).ZerosCovered [] := by
    intro deltas
    induction deltas with
    | nil => simp
    | cons d deltas ih =>
    intro s covered
    exact ih _ covered.applyDelta
  intro r hr key hzero
  obtain ⟨d, hd, -⟩ := happlied deltas _ hmade r hr key hzero
  exact absurd hd not_mem_nil

theorem publishStaged_generation (s : TransactionEngine N K Fn W) (t : Scratch N K V Staged) :
  (publishStaged D s t).1.generation = s.generation + 1
  := by
  have hmake : ∀ (s : TransactionEngine N K Fn W) d, (s.makeEntry d).generation = s.generation := by
    intro s d
    unfold makeEntry
    split <;> rfl
  simp only [publishStaged, advanceGeneration]
  rw [foldl_unchanged (fun s : TransactionEngine N K Fn W => s.generation)]
  · rw [foldl_unchanged (fun s : TransactionEngine N K Fn W => s.generation)]
    · change (t.deltas.foldl makeEntry s).generation + 1 = _
      rw [foldl_unchanged (fun s : TransactionEngine N K Fn W => s.generation) hmake]
    intro s d
    rfl
  intro s r
  rfl

/-- The registrations after publication: all but their ledgers and the counts of their removals
is as it was. -/
theorem publishStaged_marks (s : TransactionEngine N K Fn W) (t : Scratch N K V Staged) :
  (publishStaged D s t).1.marks = s.marks
  := by
  have hmarks : ∀ {s s' : TransactionEngine N K Fn W},
      s'.resources.map withoutLedger = s.resources.map withoutLedger → s'.marks = s.marks := by
    intro s s' h
    have hmap := congrArg (List.map (fun r : Registration N K => (r.name, r.touched))) h
    rwa [map_map, map_map] at hmap
  change marks (List.foldl removalPending _ _) = _
  rw [foldl_unchanged (fun s : TransactionEngine N K Fn W => s.marks)]
  · rw [foldl_unchanged (fun s : TransactionEngine N K Fn W => s.marks)]
    · change (t.deltas.foldl makeEntry s).marks = _
      apply foldl_unchanged (fun s : TransactionEngine N K Fn W => s.marks)
      intro s d
      exact hmarks (makeEntry_withoutLedger s d)
    intro s d
    apply hmarks
    apply map_modify
    apply withChange_withoutLedger
  intro s r
  apply map_modify
  intro reg
  rfl

theorem publishStaged_noZeros (zeros : s.NoZeros) (t : Scratch N K V Staged) :
  (publishStaged D s t).1.NoZeros
  := by
  have hpend : ∀ (removals : List (Removal N Fn)) (s : TransactionEngine N K Fn W),
      s.NoZeros → (removals.foldl removalPending s).NoZeros := by
    intro removals s zeros
    apply List.foldlRecOn (motive := NoZeros)
    · exact zeros
    intro s zeros removal _ r hr
    obtain ⟨r₀, hr₀, rfl⟩ := mem_map.mp hr
    split
    case isTrue | isFalse => exact zeros r₀ hr₀
  apply hpend
  exact noZeros_of_deltas zeros _ _

theorem rank_makeEntry (s : TransactionEngine N K Fn W) (d : Delta N K) :
  (s.makeEntry d).rank = s.rank
  := by
  funext name
  unfold rank
  rw [find_map_of_map_eq (makeEntry_withoutLedger s d) (fun _ => rfl) name Registration.rank
    (fun _ => rfl)]

/-- The world after publication: the staged operations are published in their order. -/
theorem publishStaged_world (s : TransactionEngine N K Fn W) (t : Scratch N K V Staged) :
  (publishStaged D s t).1.world
    = (publishOrder s t.staged).foldl (fun w r => (D.publish w r.work).1) s.world
  := by
  have hrank : (t.deltas.foldl makeEntry s).rank = s.rank :=
    foldl_unchanged (fun s : TransactionEngine N K Fn W => s.rank) rank_makeEntry _ _
  have hworld : (t.deltas.foldl makeEntry s).world = s.world := by
    apply foldl_unchanged (fun s : TransactionEngine N K Fn W => s.world)
    intro s d
    unfold makeEntry
    split <;> rfl
  simp only [publishStaged, advanceGeneration]
  rw [foldl_unchanged (fun s : TransactionEngine N K Fn W => s.world)]
  · rw [foldl_unchanged (fun s : TransactionEngine N K Fn W => s.world)]
    · rw [setWorld_world, publishAll_world, publishOrder_of_rank_eq hrank, hworld]
    intro s d
    rfl
  intro s r
  rfl

/-- What a commit does: it publishes, and then only ends the transaction and starts to reclaim. -/
theorem commit_spec (ops : List (Op N K V)) {t : Scratch N K V Staged} (marked : s.Marked t.touched)
    (zeros : s.NoZeros) (h : commit D s ops t = (s', r)) :
  r.outcome = .applied ∧ s'.generation = s.generation + 1 ∧ s'.Marked [] ∧ s'.NoZeros
    ∧ ∀ I : W → Prop, Kept D I →
        I ((publishOrder s t.staged).foldl (fun w r => (D.publish w r.work).1) s.world) →
        I s'.world
  := by
  have hgen := publishStaged_generation D s t
  have hmarks := publishStaged_marks D s t
  have hzeros := publishStaged_noZeros D zeros t
  have hworld := publishStaged_world D s t
  rcases hpub : publishStaged D s t with ⟨published, retirer⟩
  rw [hpub] at hgen hmarks hzeros hworld
  simp only [commit, hpub] at h
  obtain ⟨rfl, rfl⟩ := h
  set ended := endTransactions D published t.touched
  have hbare : ended.bare = published.bare := endTransactions_bare D _ _
  have hmarked : ended.Marked [] := by
    apply endTransactions_marked
    refine forall_of_map_eq hmarks ?_ marked
    intro r r' heq hr
    rw [Prod.mk.injEq] at heq
    rw [heq.1, heq.2]
    exact hr
  have hended := fun stages => startReclaim_unchanged D ended retirer stages
  refine ⟨rfl, ?_, ?_, ?_, ?_⟩
  · apply (hended _).2.trans
    rw [generation_of_bare_eq hbare]
    exact hgen
  · intro r hr
    rw [setWorld_resources, (hended _).1] at hr
    exact hmarked r hr
  · intro r hr
    rw [setWorld_resources, (hended _).1] at hr
    exact hzeros.of_bare_eq hbare r hr
  intro I kept hI
  apply kept.reclaimReady
  have hI' : I ended.world := by
    rw [endTransactions_world, hworld]
    apply List.foldlRecOn
    · exact hI
    intro w hw name _
    exact kept.endTransaction name hw
  unfold startReclaim
  split
  case isTrue => exact hI'
  case isFalse =>
  apply finish_kept kept
  exact kept.startGracePeriod hI'

end

end TransactionEngine

/-! ### Reservations under the contract -/

open TransactionEngine

def TransactionEngine.Entry.pair (e : Entry N K V Staged W) :
    Op N K V × Reservation N K Staged :=
  (e.op, e.reservation)

variable {rs : List (Op N K V × Reservation N K Staged)}

/-- An operation on another key than those before it is on a key that has no reservation. -/
theorem TransactionEngine.fresh_of_distinct {e : Entry N K V Staged W}
    {es : List (Entry N K V Staged W)}
    (distinct : ((e :: es).map (fun e => e.op.target) ++ rs.map (fun p => p.1.target)).Nodup) :
  (∀ p ∈ rs, ¬ (p.1.resource = e.op.resource ∧ p.1.key = e.op.key))
    ∧ ∀ r : Reservation N K Staged, (es.map (fun e => e.op.target)
        ++ ((e.op, r) :: rs).map (fun p => p.1.target)).Nodup
  := by
  rw [map_cons, cons_append, nodup_cons] at distinct
  constructor
  · rintro p hp ⟨hres, hkey⟩
    apply distinct.1
    apply mem_append_right
    rw [mem_map]
    use p, hp
    exact Prod.ext hres hkey
  intro r
  rw [map_cons, perm_middle.nodup_iff, nodup_cons]
  exact distinct

variable {D : Dataplane N K V Staged Fn W} {es : List (Entry N K V Staged W)} {w : W}

namespace Contract

variable (C : Contract D) {order : List (Reserved N K V Staged)} {w' : W}

theorem reserves (holding : C.Holding w rs)
    (distinct : (es.map (fun e => e.op.target) ++ rs.map (fun p => p.1.target)).Nodup)
    (h : Reserves D w es w') :
  C.Holding w' ((es.map Entry.pair).reverse ++ rs) ∧ C.committed w' = C.committed w
  := by
  induction h generalizing rs with
  | nil => simp [holding]
  | @cons w w' e es head tail ih =>
  obtain ⟨fresh, hdistinct⟩ := fresh_of_distinct distinct
  obtain ⟨hhold, hcommitted⟩ := C.reserve_ok holding fresh head
  obtain ⟨hhold', hcommitted'⟩ := ih hhold (hdistinct e.reservation)
  constructor
  · simpa [Entry.pair] using hhold'
  · exact hcommitted'.trans hcommitted

theorem refused {order : List (Op N K V × ℕ)} (holding : C.Holding w (es.map Entry.pair).reverse)
    (distinct : (order.map (fun p => p.1.target)).Nodup) (h : Refused D order es w w') :
  C.Holding w' (es.map Entry.pair).reverse ∧ C.committed w' = C.committed w
  := by
  cases h with
  | check => exact ⟨holding, rfl⟩
  | prepare names =>
    apply List.foldlRecOn (motive := fun w' : W =>
      C.Holding w' (es.map Entry.pair).reverse ∧ C.committed w' = C.committed w)
    · exact ⟨holding, rfl⟩
    rintro w' ⟨hhold, hcommitted⟩ name -
    obtain ⟨hhold', hcommitted'⟩ := C.prepare name hhold
    exact ⟨hhold', hcommitted'.trans hcommitted⟩
  | @reserve _ op i _ next failed =>
  apply C.reserve_error holding _ failed
  rintro p hp ⟨hres, hkey⟩
  have hnodup := distinct.sublist (next.map (fun p => p.1.target)).sublist
  simp only [map_append, map_map, nodup_append] at hnodup
  rw [mem_reverse, mem_map] at hp
  obtain ⟨e, he, rfl⟩ := hp
  apply hnodup.2.2 e.op.target (mem_map_of_mem he) op.target mem_cons_self
  exact Prod.ext hres hkey

/-- Aborting the reservations, the latest first, leaves none. -/
theorem aborts (holding : C.Holding w (es.map Entry.pair)) :
  C.Holding (es.foldl (fun w e => D.abort w e.reservation.staged) w) []
    ∧ C.committed (es.foldl (fun w e => D.abort w e.reservation.staged) w) = C.committed w
  := by
  induction es generalizing w with
  | nil => exact ⟨holding, rfl⟩
  | cons e es ih =>
  obtain ⟨hhold, hcommitted⟩ := C.abort holding
  obtain ⟨hhold', hcommitted'⟩ := ih hhold
  exact ⟨hhold', hcommitted'.trans hcommitted⟩

/-- The first of the reservations that are published, and those that are left. -/
theorem exists_perm_cons {r : Reserved N K V Staged}
    (perm : ((r :: order).map fun r => (r.op, r.work)).Perm (rs.map fun p => (p.1, p.2.staged))) :
  ∃ p rest, rs.Perm (p :: rest) ∧ p.2.staged = r.work
    ∧ (order.map fun r => (r.op, r.work)).Perm (rest.map fun p => (p.1, p.2.staged))
  := by
  have hmem : (r.op, r.work) ∈ rs.map (fun p => (p.1, p.2.staged)) := by
    rw [← perm.mem_iff]
    exact mem_cons_self
  obtain ⟨p, hp, heq⟩ := mem_map.mp hmem
  obtain ⟨before, after, rfl⟩ := append_of_mem hp
  have hrest : (before ++ p :: after).Perm (p :: (before ++ after)) := perm_middle
  have hperm := perm.trans (hrest.map (fun p => (p.1, p.2.staged)))
  rw [map_cons, map_cons, heq] at hperm
  use p, before ++ after, hrest, congrArg Prod.snd heq
  exact hperm.cons_inv

/-- Publishing the reservations, in whatever order, leaves none. -/
theorem publishes (holding : C.Holding w rs)
    (perm : (order.map (fun r => (r.op, r.work))).Perm (rs.map (fun p => (p.1, p.2.staged)))) :
  C.Holding (order.foldl (fun w r => (D.publish w r.work).1) w) []
  := by
  induction order generalizing w rs with
  | nil =>
    rw [map_nil, nil_perm, map_eq_nil_iff] at perm
    rw [← perm]
    exact holding
  | cons r order ih =>
  obtain ⟨p, rest, hrest, hwork, hperm⟩ := exists_perm_cons perm
  have hhold := C.publish holding hrest
  rw [hwork] at hhold
  apply ih hhold hperm

theorem endTransactions (holding : C.Holding w []) (touched : List N) :
  C.Holding (touched.foldl D.endTransaction w) []
    ∧ C.committed (touched.foldl D.endTransaction w) = C.committed w
  := by
  apply List.foldlRecOn (motive := fun w' : W =>
    C.Holding w' [] ∧ C.committed w' = C.committed w)
  · exact ⟨holding, rfl⟩
  intro w' hw name _
  exact (C.kept (C.committed w)).endTransaction name hw

end Contract

namespace TransactionEngine

/-! ### The whole call -/

/-- The references counted on each registration. -/
def ledger (s : TransactionEngine N K Fn W) : List (N × AList (fun _ : K => ℕ)) :=
  s.resources.map (fun r => (r.name, r.incoming))

theorem ledger_of_bare_eq {s : TransactionEngine N K Fn W} (h : s'.bare = s.bare) :
  s'.ledger = s.ledger
  := by
  have hmap := congrArg (List.map (fun r : Registration N K => (r.name, r.incoming)))
    (resources_of_bare_eq h)
  rwa [map_map, map_map] at hmap

section

variable [DecidableEq N]

/-- The state in which the checks of a transaction begin. -/
def begin (D : Dataplane N K V Staged Fn W) (s : TransactionEngine N K Fn W) :
    TransactionEngine N K Fn W :=
  (s.reclaimRetired D).recomputeRanks

theorem recomputeRanks_unchanged (s : TransactionEngine N K Fn W) :
  s.recomputeRanks.ledger = s.ledger ∧ s.recomputeRanks.generation = s.generation
    ∧ s.recomputeRanks.cascades = s.cascades ∧ s.recomputeRanks.world = s.world
  := by
  unfold recomputeRanks
  split
  case isFalse => simp
  case isTrue => simp [ledger]

section

variable (D : Dataplane N K V Staged Fn W) (s : TransactionEngine N K Fn W)

theorem begin_ledger :
  (s.begin D).ledger = s.ledger
  := by
  have hregistry := congrArg Prod.fst (reclaimRetired_registry D s)
  have hmap := congrArg (List.map (fun r : Registration N K => (r.name, r.incoming))) hregistry
  rw [registry, registry, map_map, map_map] at hmap
  exact (recomputeRanks_unchanged _).1.trans hmap

theorem begin_generation :
  (s.begin D).generation = s.generation
  := by
  apply (recomputeRanks_unchanged _).2.1.trans
  exact congrArg (fun p => p.2.1) (reclaimRetired_registry D s)

end

variable {consistency : Consistency} {ops : List (Op N K V)} {owned : Option (List ℕ)}
  {t : Scratch N K V Staged} {s s₁ : TransactionEngine N K Fn W} {C : Contract D}

theorem request_targets (distinct : (ops.map Op.target).Nodup) :
  ((s.reserveOrder ops).map (fun p => p.1.target)).Nodup
  := by
  have hperm : ((s.reserveOrder ops).map (fun p => p.1.target)).Perm
      (ops.zipIdx.map (fun p => p.1.target)) := (perm_insertionSort _ _).map _
  have htargets : ops.zipIdx.map (fun p => p.1.target) = ops.map Op.target := by
    change ops.zipIdx.map (Op.target ∘ Prod.fst) = _
    rw [← map_map, zipIdx_map_fst]
  rw [hperm.nodup_iff, htargets]
  exact distinct

theorem Idle.begin [DecidableEq K] (idle : s.Idle C) :
  (s.begin D).Idle C ∧ C.committed (s.begin D).world = C.committed s.world
  := by
  obtain ⟨hidle, hcommitted⟩ := idle.reclaimRetired
  refine ⟨hidle.recomputeRanks, ?_⟩
  rw [TransactionEngine.begin, (recomputeRanks_unchanged _).2.2.2]
  exact hcommitted

/-- A refused transaction leaves the resources as they were. -/
theorem Idle.aborted [LinearOrder K]
    (idle : s.Idle C) (distinct : (ops.map Op.target).Nodup) (h : Aborted D s ops s') :
  s'.Idle C ∧ C.committed s'.world = C.committed s.world
  := by
  obtain ⟨es, w, w', touched, hreserves, hinit, hrefused, hworld⟩ := h.undone
  have horder := request_targets (s := s) distinct
  have hes : (es.map (fun e => e.op.target)).Nodup := by
    have hsub := horder.sublist (hinit.map (fun p => p.1.target)).sublist
    rwa [map_map] at hsub
  obtain ⟨hheld, hcommitted⟩ := C.reserves idle.holding (by simpa using hes) hreserves
  rw [append_nil] at hheld
  obtain ⟨hheld', hcommitted'⟩ := C.refused hheld horder hrefused
  rw [← map_reverse] at hheld'
  obtain ⟨hfree, hcommitted''⟩ := C.aborts hheld'
  obtain ⟨hhold, hend⟩ := C.endTransactions hfree touched
  rw [← hworld] at hhold hend
  constructor
  · exact ⟨hhold, h.marked, idle.zeros.of_bare_eq h.bare⟩
  · rw [hend, hcommitted'', hcommitted', hcommitted]

variable [ToString N]

theorem of_checkStructure (h : s.checkStructure D ops consistency owned = none) :
  ∀ op ∈ ops, (s.find op.resource).isSome ∧ (op.kind = .upsert → op.value.isSome)
  := by
  intro op hop
  obtain ⟨i, hi⟩ := mem_iff_getElem?.mp hop
  rw [checkStructure, findSome?_eq_none_iff] at h
  have hcheck := h (op, i) (mk_mem_zipIdx_iff_getElem?.mpr hi)
  unfold checkOp at hcheck
  split at hcheck
  case h_1 => simp at hcheck
  case h_2 hfind =>
  rw [hfind]
  refine ⟨rfl, ?_⟩
  intro hkind
  by_contra hvalue
  rw [Option.not_isSome_iff_eq_none] at hvalue
  split at hcheck
  case isTrue => simp at hcheck
  case isFalse =>
  split at hcheck
  case isTrue => simp at hcheck
  case isFalse => simp [hkind, hvalue] at hcheck

theorem checkStructure_outcome {refusal : Result}
    (h : s.checkStructure D ops consistency owned = some refusal) :
  refusal.outcome ≠ .applied
  := by
  obtain ⟨p, -, hp⟩ := exists_of_findSome?_eq_some h
  unfold checkOp at hp
  split at hp
  case h_1 =>
    obtain rfl := Option.some.inj hp
    simp [reject]
  case h_2 =>
  split at hp
  case isTrue =>
    obtain rfl := Option.some.inj hp
    simp [reject]
  case isFalse =>
  split at hp
  case isTrue =>
    obtain rfl := Option.some.inj hp
    simp
  case isFalse =>
  split at hp
  case isTrue =>
    obtain rfl := Option.some.inj hp
    simp [reject]
  case isFalse => simp at hp

variable [LinearOrder K] [ToString K]

/-- A call is refused before anything is reserved, or it is a transaction on registered
resources with one operation per key. -/
theorem applyImpl_cases (D : Dataplane N K V Staged Fn W) {expectedGeneration : Option (BitVec 64)}
    (h : applyImpl D s ops expectedGeneration consistency owned = (s', r)) :
  (r.outcome ≠ .applied ∧ s' = s.begin D)
    ∨ ((s.begin D).referenceCycle = false
        ∧ (∀ op ∈ ops, ((s.begin D).find op.resource).isSome
            ∧ (op.kind = .upsert → op.value.isSome))
        ∧ (ops.map Op.target).Nodup ∧ transact D (s.begin D) ops = (s', r))
  := by
  change (if (s.begin D).referenceCycle then _ else _) = _ at h
  split at h
  case isTrue =>
    obtain ⟨rfl, rfl⟩ := h
    left
    simp [refuseCycle, reject, begin]
  case isFalse hcycle =>
  rw [applyOrdered] at h
  split at h
  case isTrue =>
    obtain ⟨rfl, rfl⟩ := h
    simp [begin]
  case isFalse =>
  split at h
  case h_1 refusal hrefusal =>
    obtain ⟨rfl, rfl⟩ := h
    left
    exact ⟨checkStructure_outcome hrefusal, rfl⟩
  case h_2 hstructure =>
  split at h
  case h_1 =>
    obtain ⟨rfl, rfl⟩ := h
    simp [reject, begin]
  case h_2 hduplicate =>
  right
  exact ⟨by simpa using hcycle, of_checkStructure hstructure,
    nodup_of_firstDuplicate D hduplicate, h⟩

/-! ### Reached states are idle -/

variable {C : Contract D}

/-- The world before publication holds what is staged. -/
theorem Accepted.holding (idle : s.Idle C) (distinct : (ops.map Op.target).Nodup)
    (accepted : Accepted D s ops es w s₁ t) :
  C.Holding s₁.world (es.map Entry.pair).reverse ∧ C.committed s₁.world = C.committed s.world
  := by
  have horder := request_targets (s := s) distinct
  have hes : (es.map (fun e => e.op.target)).Nodup := by
    rw [← accepted.requests, map_map] at horder
    exact horder
  obtain ⟨hheld, hcommitted⟩ := C.reserves idle.holding (by simpa using hes) accepted.reserves
  rw [append_nil] at hheld
  obtain ⟨names, hnames⟩ := accepted.prepared
  obtain ⟨hheld', hcommitted'⟩ := C.refused hheld horder (.prepare w names)
  rw [hnames]
  exact ⟨hheld', hcommitted'.trans hcommitted⟩

theorem Accepted.perm (accepted : Accepted D s ops es w s₁ t) :
  ((publishOrder s₁ t.staged).map (fun r => (r.op, r.work))).Perm
    ((es.map Entry.pair).reverse.map (fun p => (p.1, p.2.staged)))
  := by
  have hsort := (perm_insertionSort (publishLe s₁) t.staged).map (fun r => (r.op, r.work))
  apply hsort.trans
  rw [accepted.staged, map_map, ← map_reverse, map_map]
  exact ((reverse_perm es).map _).symm

/-- All operations of a transaction that commits are reserved. -/
theorem Accepted.ops_perm (accepted : Accepted D s ops es w s₁ t) :
  (es.map Entry.op).Perm ops
  := by
  have hops : es.map Entry.op = (s.reserveOrder ops).map Prod.fst := by
    rw [← accepted.requests, map_map]
    rfl
  have hperm : ((s.reserveOrder ops).map Prod.fst).Perm (ops.zipIdx.map Prod.fst) :=
    (perm_insertionSort _ _).map _
  rw [zipIdx_map_fst] at hperm
  rwa [hops]

theorem Idle.applyImpl (idle : s.Idle C) (ops : List (Op N K V))
    (expectedGeneration : Option (BitVec 64)) (consistency : Consistency) (owned : Option (List ℕ))
    :
  (applyImpl D s ops expectedGeneration consistency owned).1.Idle C
  := by
  rcases h : TransactionEngine.applyImpl D s ops expectedGeneration consistency owned with ⟨s', r⟩
  obtain ⟨hbegin, -⟩ := idle.begin
  obtain ⟨-, rfl⟩ | ⟨-, hknown, hdistinct, htransact⟩ := applyImpl_cases D h
  case inl => exact hbegin
  case inr =>
  obtain ⟨-, haborted⟩ | ⟨es, w, s₁, t, hacc, hcommit⟩ :=
    transact_cases D hbegin.zeros hbegin.marked (fun op hop => (hknown op hop).1) htransact
  case inl => exact (hbegin.aborted hdistinct haborted).1
  case inr =>
  obtain ⟨hhold, -⟩ := hacc.holding hbegin hdistinct
  obtain ⟨-, -, hmarked, hzeros, hkept⟩ :=
    commit_spec D ops hacc.marked (hbegin.zeros.of_bare_eq hacc.bare) hcommit
  have hpub := C.publishes hhold hacc.perm
  exact ⟨(hkept _ (C.kept _) ⟨hpub, rfl⟩).1, hmarked, hzeros⟩

theorem Reached.idle (reached : Reached C s) :
  s.Idle C
  := by
  induction reached with
  | create holding =>
    refine ⟨holding, ?_, ?_⟩
    · simp [Marked, TransactionEngine.create]
    · simp [NoZeros, TransactionEngine.create]
  | @call s c _ admitted idle =>
  cases c with
  | register emplace resource => exact idle.register admitted.1 resource
  | unregister names => exact idle.unregister names
  | releaseForTeardown names => exact idle.releaseForTeardown names
  | apply ops expectedGeneration consistency owned => exact idle.applyImpl _ _ _ _
  | reclaimRetired => exact idle.reclaimRetired.1
  | advanceGeneration => exact { idle with }
  | outside w => exact ⟨admitted.2 w rfl, idle.marked, idle.zeros⟩

end

end TransactionEngine

end Engine
