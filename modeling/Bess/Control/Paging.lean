import Mathlib

/-!
# Pages of a resource

`ReadResourcePage` (`core/control/pipeline_resources.cc`). Where the codec has no position of its own,
it walks all entries, and the page is the smallest keys after the cursor that fit. The heap is the list
of its entries with the largest key first, and `bytes` is the sum of their sizes. A codec with a position
(`VisitFrom`) is read from its key slots.

A key that has been evicted does not come back when a larger one, which takes less room, is kept, and
the next page starts after the larger one. In some order of the walks a key is lost, unless no larger key
ever fits a page in addition to the smallest keys that fit (`Tight`): a walk in ascending order keeps such
a key, and no walk evicts one of the smallest keys that fit.
-/

namespace Control

open List Function

/-- An entry that a codec visits: the canonical bytes of its key, and the sizes of the packed key, if it
has one, and of the packed value. -/
structure ResourceEntry (κ : Type) : Type where
  key : κ
  keySize : Option ℕ
  valueSize : ℕ
deriving DecidableEq

/-- `VarintSize64` -/
def varintSize (n : ℕ) : ℕ :=
  n.log2 / 7 + 1

def fieldBytes (bytes : ℕ) : ℕ :=
  1 + varintSize bytes + bytes

variable {κ : Type}

def framedEntryBytes (e : ResourceEntry κ) : ℕ :=
  fieldBytes (fieldBytes e.valueSize + (e.keySize.map fieldBytes).getD 0)

abbrev Entries (κ : Type) : Type :=
  List (ResourceEntry κ)

def bytesOf (heap : Entries κ) : ℕ :=
  (heap.map framedEntryBytes).sum

structure PageLimits : Type where
  maxEntries : ℕ
  maxBytes : ℕ

/-- A walk's `heap` and `more`. -/
structure Walk (κ : Type) : Type where
  heap : Entries κ
  more : Bool

namespace PageLimits

variable (m : PageLimits) {page : Entries κ}

/-- Nothing is evicted: there are not too many entries, and not too many bytes or only one entry. -/
def Fits (heap : Entries κ) : Prop :=
  ¬ (m.maxEntries < heap.length ∨ m.maxBytes < bytesOf heap ∧ 1 < heap.length)

instance (heap : Entries κ) : Decidable (m.Fits heap) :=
  inferInstanceAs (Decidable (¬ _))

/-- The loop that evicts the largest key. -/
def evict : Entries κ → Entries κ
  | [] => []
  | e :: heap => if m.Fits (e :: heap) then e :: heap else evict heap

section

variable {m} {s s' page larger : Entries κ} {e : ResourceEntry κ}

theorem Fits.mono (hfits : m.Fits s') (h : s <+ s') :
  m.Fits s
  := by
  have hbytes : bytesOf s ≤ bytesOf s' := (h.map _).sum_le_sum fun _ _ => Nat.zero_le _
  have hlen := h.length_le
  unfold Fits at hfits ⊢
  omega

theorem Fits.reverse (h : m.Fits s) :
  m.Fits s.reverse
  := by
  rw [Fits, length_reverse, bytesOf, map_reverse, sum_reverse]
  exact h

theorem evict_of_fits (h : m.Fits s) :
  m.evict s = s
  := by
  cases s with
  | nil => rfl
  | cons e s => exact if_pos h

theorem evict_cons (h : ¬ m.Fits (e :: s)) :
  m.evict (e :: s) = m.evict s
  := if_neg h

theorem fits_nil :
  m.Fits ([] : Entries κ)
  := fun h => h.elim (Nat.not_lt_zero _) fun h => Nat.not_lt_zero _ h.2

theorem fits_evict :
  m.Fits (m.evict s)
  := by
  induction s with
  | nil => exact fits_nil
  | cons e s ih =>
  rw [evict]
  split
  case isTrue h => exact h
  case isFalse => exact ih

theorem exists_evicted (h : ¬ m.Fits s) :
  ∃ x, x :: m.evict s <:+ s ∧ ¬ m.Fits (x :: m.evict s)
  := by
  induction s with
  | nil => exact absurd fits_nil h
  | cons y s ih =>
  rw [evict_cons h]
  by_cases hfits : m.Fits s
  · rw [evict_of_fits hfits]
    exact ⟨y, suffix_rfl, h⟩
  obtain ⟨x, hsuffix, hx⟩ := ih hfits
  exact ⟨x, hsuffix.trans (suffix_cons ..), hx⟩

theorem evict_suffix :
  m.evict s <:+ s
  := by
  by_cases h : m.Fits s
  · exact ⟨[], by rw [evict_of_fits h, nil_append]⟩
  obtain ⟨x, hsuffix, _⟩ := exists_evicted h
  exact (suffix_cons ..).trans hsuffix

end

/-! ### Reads -/

section

variable {ι : Type} {read read' : ℕ → ι → Entries κ × Option ι} {n : ℕ}

end

/-! ### Pages of a codec with a position -/

/-- What the visitor answers: the codec goes on while there is room. -/
def HasRoom (page : Entries κ) : Prop :=
  page.length < m.maxEntries ∧ bytesOf page < m.maxBytes

instance (page : Entries κ) : Decidable (m.HasRoom page) :=
  inferInstanceAs (Decidable (_ ∧ _))

/-- The page has room before the entries of its last slot. -/
def Within (slots : List (Entries κ)) (page : Entries κ) : Prop :=
  ∃ init, ∃ slot ∈ [] :: slots, page = init ++ slot ∧ (init = [] ∨ m.HasRoom init)

section

variable {m} {slots : List (Entries κ)} {page : Entries κ}

end

/-! ### Walks -/

variable [LinearOrder κ]

def push (e : ResourceEntry κ) (heap : Entries κ) : Entries κ :=
  heap.orderedInsert (fun a b => b.key < a.key) e

/-- A visit of a key after the cursor. The loop sets `more` when it evicts. -/
def visit (w : Walk κ) (e : ResourceEntry κ) : Walk κ :=
  if w.heap.head?.any (·.key < e.key) ∧ (m.maxEntries ≤ w.heap.length ∨ m.maxBytes ≤ bytesOf w.heap) then
    { w with more := true }
  else ⟨m.evict (push e w.heap), w.more || !decide (m.Fits (push e w.heap))⟩

/-- The entries after a cursor. -/
def following (after : WithBot κ) (entries : Entries κ) : Entries κ :=
  entries.filter fun e => after < e.key

/-- The largest key is the first. -/
def Ordered (s : Entries κ) : Prop :=
  s.Pairwise fun a b => b.key < a.key

variable {m} {s seen heap entries walk larger : Entries κ} {e y : ResourceEntry κ} {w : Walk κ}
  {after : WithBot κ}

theorem push_of_lt (h : ∀ a ∈ s, a.key < e.key) :
  push e s = e :: s
  := by
  cases s with
  | nil => rfl
  | cons y s => exact if_pos (h y mem_cons_self)

theorem push_cons (h : e.key < y.key) :
  push e (y :: s) = y :: push e s
  := if_neg h.not_gt

theorem Ordered.lt_of_head_lt (hs : Ordered (y :: s)) (h : y.key < e.key) :
  ∀ a ∈ y :: s, a.key < e.key
  := by
  rw [forall_mem_cons]
  exact ⟨h, fun a ha => (rel_of_pairwise_cons hs ha).trans h⟩

theorem Ordered.push (hs : Ordered s) (hnew : ∀ a ∈ s, a.key ≠ e.key) :
  Ordered (push e s)
  := by
  induction s with
  | nil => exact pairwise_singleton ..
  | cons y s ih =>
  rcases lt_or_gt_of_ne (hnew y mem_cons_self) with hlt | hgt
  · have hbelow := hs.lt_of_head_lt hlt
    rw [push_of_lt hbelow]
    exact hs.cons hbelow
  rw [push_cons hgt]
  refine (ih hs.of_cons fun a ha => hnew a (mem_cons_of_mem _ ha)).cons ?_
  intro a ha
  rcases (mem_orderedInsert _).mp ha with rfl | ha
  · exact hgt
  · exact rel_of_pairwise_cons hs ha

theorem Ordered.sublist_of_subset (hs : Ordered s) (hheap : Ordered heap) (h : heap ⊆ s) :
  heap <+ s
  := by
  have : Std.Antisymm fun a b : ResourceEntry κ => b.key < a.key :=
    ⟨fun _ _ h h' => absurd h h'.not_gt⟩
  have hnodup : heap.Nodup := hheap.imp fun h heq => h.ne' (congrArg _ heq)
  exact sublist_of_subperm_of_pairwise (subperm_of_subset hnodup h) hheap hs

theorem Ordered.mem_of_le (hs : Ordered s) (hheap : heap <:+ s) {a b : ResourceEntry κ}
    (ha : a ∈ heap) (hb : b ∈ s) (hle : b.key ≤ a.key) :
  b ∈ heap
  := by
  obtain ⟨larger, rfl⟩ := hheap
  refine (mem_append.mp hb).resolve_left fun hb => ?_
  exact hle.not_gt ((pairwise_append.mp hs).2.2 b hb a ha)

/-- A refused key is one that would be evicted at once. -/
theorem visit_eq (hfits : m.Fits w.heap) (hordered : Ordered w.heap) :
  m.visit w e = ⟨m.evict (push e w.heap), w.more || !decide (m.Fits (push e w.heap))⟩
  := by
  rw [visit]
  split
  case isFalse => rfl
  case isTrue hfull =>
  obtain ⟨⟨heap⟩ | ⟨y, heap⟩, more⟩ := w
  · cases hfull.1
  have hover : ¬ m.Fits (e :: y :: heap) := by
    have hbytes : bytesOf (e :: y :: heap) = framedEntryBytes e + bytesOf (y :: heap) := sum_cons
    have hpos : 0 < framedEntryBytes e := by
      rw [framedEntryBytes, fieldBytes]
      omega
    have hroom := hfull.2
    dsimp only at hroom
    rw [Fits, length_cons, length_cons] at *
    omega
  rw [push_of_lt (hordered.lt_of_head_lt (of_decide_eq_true hfull.1)), evict_cons hover,
    evict_of_fits hfits, decide_eq_false hover]
  simp

/-! ### What a walk keeps -/

/-- The heap and `more` after a visit of `seen`, of the entries `s` after the cursor: none of the
smallest keys that fit has been evicted. -/
structure Kept (m : PageLimits) (s seen : Entries κ) (w : Walk κ) : Prop where
  ordered : Ordered w.heap
  fits : m.Fits w.heap
  subset : w.heap ⊆ seen
  first : ∀ a ∈ seen, a ∈ m.evict s → a ∈ w.heap
  more : w.more = false ↔ seen ⊆ w.heap

theorem Kept.perm {seen' : Entries κ} (h : m.Kept s seen w) (hperm : seen ~ seen') :
  m.Kept s seen' w
  := ⟨h.ordered, h.fits, fun _ ha => hperm.subset (h.subset ha),
    fun a ha => h.first a (hperm.symm.subset ha), h.more.trans hperm.subset_congr_left⟩

theorem Kept.visit (h : m.Kept s seen w) (hs : Ordered s) (hseen : e :: seen ⊆ s)
    (hnew : ∀ a ∈ seen, a.key ≠ e.key) :
  m.Kept s (e :: seen) (m.visit w e)
  := by
  have hpush : Ordered (push e w.heap) := h.ordered.push fun a ha => hnew a (h.subset ha)
  have hmem : ∀ a, a ∈ push e w.heap ↔ a = e ∨ a ∈ w.heap := fun a => mem_orderedInsert _
  have hsub : push e w.heap ⊆ e :: seen := fun a ha =>
    mem_cons.mpr (((hmem a).mp ha).imp_right fun ha => h.subset ha)
  have hkeep : ∀ a ∈ e :: seen, a ∈ m.evict s → a ∈ push e w.heap := fun a ha hfirst =>
    (hmem a).mpr ((mem_cons.mp ha).imp_right fun ha => h.first a ha hfirst)
  rw [visit_eq h.fits h.ordered]
  by_cases hfits : m.Fits (push e w.heap)
  · rw [evict_of_fits hfits, decide_eq_true hfits]
    refine ⟨hpush, hfits, hsub, hkeep, ?_⟩
    rw [Bool.not_true, Bool.or_false, h.more]
    constructor
    · intro hall a ha
      exact (hmem a).mpr ((mem_cons.mp ha).imp_right fun ha => hall ha)
    intro hall a ha
    refine ((hmem a).mp (hall (mem_cons_of_mem _ ha))).resolve_left ?_
    rintro rfl
    exact hnew a ha rfl
  obtain ⟨x, hsuffix, hx⟩ := exists_evicted hfits
  have hin := hsuffix.subset
  have hrest : Ordered (x :: m.evict (push e w.heap)) := hpush.sublist hsuffix.sublist
  obtain ⟨dropped, hdropped⟩ := hsuffix
  refine ⟨hrest.of_cons, fits_evict, fun a ha => hsub (hin (mem_cons_of_mem _ ha)), ?_, ?_⟩
  · intro a ha hfirst
    by_contra hgone
    -- `a` is not below `x`, so `x` and what is kept are among the smallest keys that fit
    have hle : ∀ b ∈ x :: m.evict (push e w.heap), b.key ≤ a.key := by
      have hmem := hkeep a ha hfirst
      rw [← hdropped] at hmem hpush
      rcases mem_append.mp hmem with hmem | hmem
      · exact fun b hb => ((pairwise_append.mp hpush).2.2 a hmem b hb).le
      obtain rfl := (mem_cons.mp hmem).resolve_right hgone
      exact forall_mem_cons.mpr ⟨le_rfl, fun b hb => (rel_of_pairwise_cons hrest hb).le⟩
    have hsub' : x :: m.evict (push e w.heap) ⊆ m.evict s := fun b hb =>
      hs.mem_of_le evict_suffix hfirst (hseen (hsub (hin hb))) (hle b hb)
    exact hx (fits_evict.mono
      (Ordered.sublist_of_subset (hs.sublist evict_suffix.sublist) hrest hsub'))
  rw [decide_eq_false hfits, Bool.not_false, Bool.or_true]
  refine ⟨nofun, fun hall => ?_⟩
  exact absurd (rel_of_pairwise_cons hrest (hall (hsub (hin mem_cons_self)))) (lt_irrefl _)

theorem Kept.foldl (h : m.Kept s seen w) (hs : Ordered s) (hsub : seen ++ walk ⊆ s)
    (hkeys : (seen ++ walk).Pairwise (·.key ≠ ·.key)) :
  m.Kept s (seen ++ walk) (walk.foldl m.visit w)
  := by
  induction walk generalizing seen w with
  | nil => rwa [append_nil]
  | cons e walk ih =>
  have hperm : e :: seen ++ walk ~ seen ++ e :: walk := perm_middle.symm
  have hnew : ∀ a ∈ seen, a.key ≠ e.key :=
    fun a ha => (pairwise_append.mp hkeys).2.2 a ha e mem_cons_self
  have hnext := ih (h.visit hs (fun a ha => hsub (hperm.subset (mem_append_left _ ha))) hnew)
    (fun a ha => hsub (hperm.subset ha)) ((hperm.pairwise_iff Ne.symm).mpr hkeys)
  exact hnext.perm hperm

section

variable (h : m.Kept s s w) (hs : Ordered s)

include h hs

theorem Kept.sublist :
  w.heap <+ s
  := hs.sublist_of_subset h.ordered h.subset

end

section

variable (hpage : 1 ≤ m.maxEntries) (hentries : Ordered entries) {n : ℕ}
  (hn : (following after entries).length < n)

include hpage hentries hn

end

end PageLimits

end Control
