import Bess.Foundations.Probe
import Mathlib.Data.Fintype.Prod

/-!
# The directory of a flow table

`core/flow/flow_index.h`. The directory maps the hash of a key to a key id. A bucket holds eight
entries, each a 16-bit tag (0 marks an empty slot) and an id. An insert that finds its home bucket
full moves on to the next one and counts the pass in every bucket it skipped; an erase takes the
counts back, and a lookup stops at the first bucket whose count is zero. A count that reaches 255
stays there.

Ids and bucket numbers are natural numbers: an index has fewer than 2³² of either.
-/

open Probe

namespace Flow

open Function List

/-- `Bucket`: eight tags, eight ids, and how many inserts skipped the bucket. -/
structure Bucket : Type where
  tags : Fin 8 → BitVec 16
  ids : Fin 8 → ℕ
  overflow : BitVec 8

namespace Bucket

def empty : Bucket :=
  ⟨fun _ => 0, fun _ => 0, 0⟩

section

variable (bucket : Bucket)

/-- `MatchTags`: the slots whose tag is `tag`, in ascending order. -/
def matchTags (tag : BitVec 16) : List (Fin 8) :=
  (List.finRange 8).filter fun i => bucket.tags i = tag

def fill (slot : Fin 8) (tag : BitVec 16) (id : ℕ) : Bucket :=
  { bucket with
    tags := update bucket.tags slot tag
    ids := update bucket.ids slot id }

def clear (slot : Fin 8) : Bucket :=
  { bucket with tags := update bucket.tags slot 0 }

def raise : Bucket :=
  if bucket.overflow ≠ 255 then { bucket with overflow := bucket.overflow + 1 } else bucket

def lower : Bucket :=
  if bucket.overflow ≠ 255 then { bucket with overflow := bucket.overflow - 1 } else bucket

end

end Bucket

/-- Weak user hashes must not decide bucket placement directly: `Mix` spreads every input bit over
the whole word. -/
def mix (h : BitVec 64) : BitVec 64 :=
  let h := (h ^^^ (h >>> 32)) * 0xd6e8feb86659fd93#64
  let h := h ^^^ (h >>> 32)
  h * 0x9e3779b97f4a7c15#64

/-- The home bucket of a key and its tag. -/
structure Hashed : Type where
  bucket : ℕ
  tag : BitVec 16
  deriving DecidableEq

structure FlowIndex : Type where
  buckets : ℕ → Bucket
  count : ℕ

namespace FlowIndex

def kEntriesPerBucket : ℕ := 4

/-- Buckets for `maxKeys` ids; at least one. -/
def bucketsFor (maxKeys : ℕ) : ℕ :=
  (maxKeys + kEntriesPerBucket - 1) / kEntriesPerBucket + if maxKeys = 0 then 1 else 0

def create (count : ℕ) : FlowIndex :=
  ⟨fun _ => .empty, count⟩

/-- Splits a user hash into a home bucket (the high word scaled onto the bucket count) and a tag
that is never 0. -/
def split (ix : FlowIndex) (userHash : BitVec 64) : Hashed :=
  let m := mix userHash
  let tag := (m >>> 8).setWidth 16
  ⟨(m >>> 32).toNat * ix.count / 2 ^ 32, tag + if tag = 0 then 1 else 0⟩

def findFrom (ix : FlowIndex) (h : Hashed) (eq : ℕ → Bool) : ℕ → ℕ → Option ℕ
  | 0, _ => none
  | n + 1, b =>
      match (((ix.buckets b).matchTags h.tag).map (ix.buckets b).ids).find? eq with
      | some id => some id
      | none =>
          if (ix.buckets b).overflow = 0 then none
          else ix.findFrom h eq n (next ix.count b)

/-- The first id for which `eq` holds among those whose tag matches. -/
def find (ix : FlowIndex) (h : Hashed) (eq : ℕ → Bool) : Option ℕ :=
  ix.findFrom h eq ix.count h.bucket

def insertFrom (ix : FlowIndex) (h : Hashed) (id : ℕ) : ℕ → ℕ → ℕ → Option FlowIndex
  | 0, _, _ => none
  | n + 1, step, b =>
      match (ix.buckets b).matchTags 0 with
      | slot :: _ =>
          let filled := update ix.buckets b ((ix.buckets b).fill slot h.tag id)
          -- The buckets this id skipped now lead on to it.
          some { ix with buckets := along ix.count Bucket.raise step h.bucket filled }
      | [] => ix.insertFrom h id n (step + 1) (next ix.count b)

/-- Adds `id`; `none` if every bucket is full. -/
def insert (ix : FlowIndex) (h : Hashed) (id : ℕ) : Option FlowIndex :=
  ix.insertFrom h id ix.count 0 h.bucket

def eraseFrom (ix : FlowIndex) (h : Hashed) (id : ℕ) : ℕ → ℕ → ℕ → Option FlowIndex
  | 0, _, _ => none
  | n + 1, step, b =>
      match ((ix.buckets b).matchTags h.tag).find? fun slot => (ix.buckets b).ids slot = id with
      | some slot =>
          let cleared := update ix.buckets b ((ix.buckets b).clear slot)
          some { ix with buckets := along ix.count Bucket.lower step h.bucket cleared }
      | none =>
          if (ix.buckets b).overflow = 0 then none
          else ix.eraseFrom h id n (step + 1) (next ix.count b)

/-- Removes `id`, which was inserted under the same hash; `none` if absent. -/
def erase (ix : FlowIndex) (h : Hashed) (id : ℕ) : Option FlowIndex :=
  ix.eraseFrom h id ix.count 0 h.bucket

/-! ### What an index holds -/

end FlowIndex

section

variable {bucket : Bucket} {slot i : Fin 8} {tag : BitVec 16} {id n : ℕ}

@[simp] theorem Bucket.mem_matchTags :
  i ∈ bucket.matchTags tag ↔ bucket.tags i = tag
  := by
  simp [matchTags]

@[simp] theorem Bucket.raise_tags :
  bucket.raise.tags = bucket.tags
  := by
  rw [raise]
  split <;> rfl

@[simp] theorem Bucket.raise_ids :
  bucket.raise.ids = bucket.ids
  := by
  rw [raise]
  split <;> rfl

@[simp] theorem Bucket.lower_tags :
  bucket.lower.tags = bucket.tags
  := by
  rw [lower]
  split <;> rfl

@[simp] theorem Bucket.lower_ids :
  bucket.lower.ids = bucket.ids
  := by
  rw [lower]
  split <;> rfl

/-- The count of a bucket is exact as long as it has not stuck. -/
def Bucket.Counts (bucket : Bucket) (n : ℕ) : Prop :=
  bucket.overflow = 255 ∨ bucket.overflow.toNat = n

theorem Bucket.Counts.raise (h : bucket.Counts n) :
  bucket.raise.Counts (n + 1)
  := by
  rw [Bucket.raise]
  split
  case isFalse hstuck =>
    left
    exact not_not.mp hstuck
  case isTrue hne =>
  obtain h | h := h
  · exact absurd h hne
  right
  have hlt : bucket.overflow.toNat ≠ 255 := by
    intro h255
    exact hne (BitVec.eq_of_toNat_eq h255)
  rw [BitVec.toNat_add, show (1 : BitVec 8).toNat = 1 from rfl]
  omega

theorem Bucket.Counts.lower (h : bucket.Counts (n + 1)) :
  bucket.lower.Counts n
  := by
  rw [Bucket.lower]
  split
  case isFalse hstuck =>
    left
    exact not_not.mp hstuck
  case isTrue hne =>
  obtain h | h := h
  · exact absurd h hne
  right
  rw [BitVec.toNat_sub, show (1 : BitVec 8).toNat = 1 from rfl]
  omega

end

/-- For every id in the index the hash it was inserted under and how far from home it is. -/
abbrev Layout : Type :=
  ℕ → Option (Hashed × ℕ)

/-- The insert of `id` went past bucket `b`. -/
def Layout.Passed (L : Layout) (count b id : ℕ) : Prop :=
  ∃ h d, L id = some (h, d) ∧ ∃ e < d, place count h.bucket e = b

open Classical in
/-- How many of the ids below `maxKeys` went past bucket `b`. -/
noncomputable def Layout.passes (L : Layout) (count maxKeys b : ℕ) : ℕ :=
  ((Finset.range maxKeys).filter (L.Passed count b)).card

open Classical in
theorem Layout.passes_insert {L : Layout} {id : ℕ} (absent : L id = none) {maxKeys : ℕ}
    (hid : id < maxKeys) (h : Hashed) (d count b : ℕ) :
  Layout.passes (update L id (some (h, d))) count maxKeys b
    = L.passes count maxKeys b + if ∃ e < d, place count h.bucket e = b then 1 else 0
  := by
  have hself : ¬ L.Passed count b id := by
    rintro ⟨h', d', hL, _⟩
    rw [absent] at hL
    exact absurd hL (by simp)
  have hpassed (id' : ℕ) : Layout.Passed (update L id (some (h, d))) count b id'
      ↔ L.Passed count b id' ∨ id' = id ∧ ∃ e < d, place count h.bucket e = b := by
    by_cases hid' : id' = id
    case neg =>
      rw [or_iff_left (fun h => hid' h.1)]
      simp only [Layout.Passed, update_of_ne hid']
    case pos =>
    subst hid'
    constructor
    · rintro ⟨h', d', hL, hwalk⟩
      rw [update_self] at hL
      obtain ⟨rfl, rfl⟩ := hL
      exact .inr ⟨rfl, hwalk⟩
    rintro (hold | ⟨_, hwalk⟩)
    · exact absurd hold hself
    · exact ⟨h, d, update_self .., hwalk⟩
  rw [Layout.passes, Layout.passes, Finset.filter_congr (fun id' _ => hpassed id'),
    Finset.filter_or]
  split
  case isFalse hwalk =>
    have hnew : (Finset.range maxKeys).filter
        (fun id' => id' = id ∧ ∃ e < d, place count h.bucket e = b) = ∅ := by
      apply Finset.filter_eq_empty_iff.mpr
      exact fun id' _ h => hwalk h.2
    rw [hnew, Finset.union_empty, Nat.add_zero]
  case isTrue hwalk =>
  have hnew : (Finset.range maxKeys).filter
      (fun id' => id' = id ∧ ∃ e < d, place count h.bucket e = b) = {id} := by
    ext id'
    simp only [Finset.mem_filter, Finset.mem_range, Finset.mem_singleton]
    constructor
    · exact fun h => h.2.1
    rintro rfl
    exact ⟨hid, rfl, hwalk⟩
  rw [hnew, Finset.card_union_of_disjoint, Finset.card_singleton]
  rw [Finset.disjoint_singleton_right, Finset.mem_filter]
  exact fun h => hself h.2

/-- The entries of the buckets are the ids of a layout, each at its place, and the buckets count
the ids that went past them. -/
structure FlowIndex.Laid (ix : FlowIndex) (L : Layout) (maxKeys : ℕ) : Prop where
  bounds : ∀ {id h d}, L id = some (h, d) →
    id < maxKeys ∧ h.bucket < ix.count ∧ h.tag ≠ 0 ∧ d < ix.count
  stored : ∀ {id h d}, L id = some (h, d) →
    ∃ i, (ix.buckets (place ix.count h.bucket d)).tags i = h.tag
      ∧ (ix.buckets (place ix.count h.bucket d)).ids i = id
  occupied : ∀ {b}, b < ix.count → ∀ {i}, (ix.buckets b).tags i ≠ 0 →
    ∃ h d, L ((ix.buckets b).ids i) = some (h, d) ∧ (ix.buckets b).tags i = h.tag
      ∧ place ix.count h.bucket d = b
  once : ∀ {b}, b < ix.count → ∀ {i i'}, (ix.buckets b).tags i ≠ 0 → (ix.buckets b).tags i' ≠ 0 →
    (ix.buckets b).ids i = (ix.buckets b).ids i' → i = i'
  counted : ∀ {b}, b < ix.count → (ix.buckets b).Counts (L.passes ix.count maxKeys b)

variable {ix ix' : FlowIndex} {maxKeys : ℕ}

namespace FlowIndex

theorem laid_create (count maxKeys : ℕ) :
  (create count).Laid (fun _ => none) maxKeys
  := by
  classical
  constructor
  case bounds | stored => intro id h d hL; simp at hL
  case occupied => intro b _ i htag; simp [create, Bucket.empty] at htag
  case once => intro b _ i i' htag; simp [create, Bucket.empty] at htag
  case counted =>
  intro b _
  right
  rw [Layout.passes, Finset.filter_eq_empty_iff.mpr]
  · rfl
  rintro id _ ⟨h, d, hL, _⟩
  simp at hL

variable {L : Layout} {h : Hashed}

section

variable {d id : ℕ} {eq : ℕ → Bool}

theorem findFrom_some {n b : ℕ} (hb : b < ix.count) (hfind : ix.findFrom h eq n b = some id) :
  ∃ b' < ix.count, ∃ i, (ix.buckets b').tags i = h.tag ∧ (ix.buckets b').ids i = id
    ∧ eq id = true
  := by
  induction n generalizing b with
  | zero => simp [findFrom] at hfind
  | succ n ih =>
  rw [findFrom] at hfind
  split at hfind
  case h_1 id' hhere =>
    obtain rfl := Option.some.inj hfind
    obtain ⟨i, hi, hid⟩ := mem_map.mp (mem_of_find?_eq_some hhere)
    exact ⟨b, hb, i, Bucket.mem_matchTags.mp hi, hid, find?_some hhere⟩
  case h_2 =>
  split at hfind
  case isTrue => simp at hfind
  case isFalse => exact ih (next_lt hb) hfind

variable (laid : ix.Laid L maxKeys)

include laid

/-- Only an id of the index with the tag that is looked for is found. -/
theorem Laid.find_some (htag : h.tag ≠ 0) (hb : h.bucket < ix.count)
    (hfind : ix.find h eq = some id) :
  (∃ p, L id = some p) ∧ eq id = true
  := by
  obtain ⟨b, hb, i, hi, rfl, heq⟩ := findFrom_some hb hfind
  rw [← hi] at htag
  obtain ⟨h', d, hL, _⟩ := laid.occupied hb htag
  exact ⟨⟨_, hL⟩, heq⟩

variable (hL : L id = some (h, d)) {e : ℕ}

include hL

theorem Laid.overflow_ne_zero (he : e < d) :
  (ix.buckets (place ix.count h.bucket e)).overflow ≠ 0
  := by
  classical
  obtain ⟨hid, hbucket, _, hd⟩ := laid.bounds hL
  intro hzero
  obtain hstuck | hcount := laid.counted (place_lt (by omega) h.bucket e)
  · rw [hzero] at hstuck
    exact absurd hstuck (by decide)
  rw [hzero] at hcount
  have hempty := Finset.card_eq_zero.mp hcount.symm
  apply Finset.notMem_empty id
  rw [← hempty, Finset.mem_filter]
  exact ⟨Finset.mem_range.mpr hid, h, d, hL, e, he, rfl⟩

theorem Laid.findFrom_isSome {n : ℕ} (heq : eq id = true) (he : e ≤ d) (hn : d < e + n) :
  (ix.findFrom h eq n (place ix.count h.bucket e)).isSome = true
  := by
  have hcount : 0 < ix.count := Nat.zero_lt_of_lt (laid.bounds hL).2.2.2
  induction n generalizing e with
  | zero => omega
  | succ n ih =>
  rw [findFrom]
  split
  case h_1 => rfl
  case h_2 hnone =>
  rcases Nat.lt_or_eq_of_le he with hlt | rfl
  · rw [if_neg (laid.overflow_ne_zero hL hlt), next_place hcount]
    exact ih (by omega) (by omega)
  obtain ⟨i, htag, hid⟩ := laid.stored hL
  rw [find?_eq_none] at hnone
  apply absurd heq
  apply hnone
  rw [mem_map]
  exact ⟨i, Bucket.mem_matchTags.mpr htag, hid⟩

/-- An id of the index for which `eq` holds is not missed. -/
theorem Laid.find_isSome (heq : eq id = true) :
  (ix.find h eq).isSome = true
  := by
  obtain ⟨_, hbucket, _, hd⟩ := laid.bounds hL
  rw [find, ← place_zero hbucket]
  exact laid.findFrom_isSome hL heq (Nat.zero_le d) (by omega)

end

/-! ### Adding an id -/

/-- The index after the bucket at distance `d` from home changed by `g`, and those before it
by `f`. -/
def spread (ix : FlowIndex) (h : Hashed) (d : ℕ) (f g : Bucket → Bucket) : FlowIndex :=
  let b := place ix.count h.bucket d
  { ix with
    buckets := along ix.count f d h.bucket (update ix.buckets b (g (ix.buckets b))) }

section

variable {id d e n : ℕ} {slot : Fin 8} {α : Type}

theorem insertFrom_some (hcount : 0 < ix.count)
    (hinsert : ix.insertFrom h id n e (place ix.count h.bucket e) = some ix') :
  ∃ d < e + n, ∃ slot, (ix.buckets (place ix.count h.bucket d)).tags slot = 0
    ∧ ix' = ix.spread h d Bucket.raise (Bucket.fill · slot h.tag id)
  := by
  induction n generalizing e with
  | zero => simp [insertFrom] at hinsert
  | succ n ih =>
  rw [insertFrom] at hinsert
  split at hinsert
  case h_1 slot rest hmatch =>
    have hslot : slot ∈ (ix.buckets (place ix.count h.bucket e)).matchTags 0 := by
      rw [hmatch]
      exact mem_cons_self
    exact ⟨e, by omega, slot, Bucket.mem_matchTags.mp hslot, (Option.some.inj hinsert).symm⟩
  case h_2 =>
  rw [next_place hcount] at hinsert
  obtain ⟨d, hd, hrest⟩ := ih hinsert
  exact ⟨d, by omega, hrest⟩

theorem insertFrom_isSome (hcount : 0 < ix.count) (he : e ≤ d) (hn : d < e + n)
    (hempty : (ix.buckets (place ix.count h.bucket d)).tags slot = 0) :
  (ix.insertFrom h id n e (place ix.count h.bucket e)).isSome = true
  := by
  induction n generalizing e with
  | zero => omega
  | succ n ih =>
  rw [insertFrom]
  split
  case h_1 => rfl
  case h_2 hmatch =>
  rcases Nat.lt_or_eq_of_le he with hlt | rfl
  · rw [next_place hcount]
    exact ih (by omega) (by omega)
  apply absurd (Bucket.mem_matchTags.mpr hempty)
  rw [hmatch]
  exact not_mem_nil

section

variable (laid : ix.Laid L maxKeys) (absent : L id = none) (hid : id < maxKeys)
  (hroom : maxKeys ≤ 8 * ix.count)

include laid absent hid hroom

/-- An index with eight slots or more for every id but one has an empty slot. -/
theorem Laid.exists_empty :
  ∃ b < ix.count, ∃ i, (ix.buckets b).tags i = 0
  := by
  by_contra hfull
  push Not at hfull
  -- Every slot holds an id of its own below `maxKeys`, and none of them is `id`.
  have hcard : (Finset.univ : Finset (Fin ix.count × Fin 8)).card
      ≤ ((Finset.range maxKeys).erase id).card := by
    apply Finset.card_le_card_of_injOn fun p => (ix.buckets p.1).ids p.2
    · intro p _
      obtain ⟨h, d, hL, _⟩ := laid.occupied p.1.isLt (hfull p.1 p.1.isLt p.2)
      rw [Finset.mem_coe, Finset.mem_erase, Finset.mem_range]
      refine ⟨?_, (laid.bounds hL).1⟩
      intro (heq : (ix.buckets p.1).ids p.2 = id)
      rw [heq, absent] at hL
      exact absurd hL (by simp)
    intro p _ p' _ heq
    have hp := hfull p.1 p.1.isLt p.2
    have hp' := hfull p'.1 p'.1.isLt p'.2
    obtain ⟨h, d, hL, _, hb⟩ := laid.occupied p.1.isLt hp
    obtain ⟨h', d', hL', _, hb'⟩ := laid.occupied p'.1.isLt hp'
    have heq : (ix.buckets p.1).ids p.2 = (ix.buckets p'.1).ids p'.2 := heq
    rw [heq, hL'] at hL
    obtain ⟨rfl, rfl⟩ := hL
    have hbucket : p.1 = p'.1 := by
      apply Fin.ext
      rw [← hb, ← hb']
    rw [← hbucket] at heq hp'
    exact Prod.ext hbucket (laid.once p.1.isLt hp hp' heq)
  rw [Finset.card_univ, Fintype.card_prod, Fintype.card_fin, Fintype.card_fin,
    Finset.card_erase_of_mem (Finset.mem_range.mpr hid), Finset.card_range] at hcard
  omega

/-- The index has room for every id it is sized for. -/
theorem Laid.insert_isSome (hb : h.bucket < ix.count) :
  (ix.insert h id).isSome = true
  := by
  obtain ⟨b, hlt, slot, hempty⟩ := laid.exists_empty absent hid hroom
  obtain ⟨d, hd, rfl⟩ := exists_place hb hlt
  have hinsert : (ix.insertFrom h id ix.count 0 (place ix.count h.bucket 0)).isSome = true :=
    insertFrom_isSome (by omega) (Nat.zero_le d) (by omega) hempty
  rw [place_zero hb] at hinsert
  exact hinsert

end

theorem spread_apply (hb : h.bucket < ix.count) (hd : d < ix.count) (f g : Bucket → Bucket)
    (b : ℕ) [Decidable (∃ e < d, place ix.count h.bucket e = b)] :
  (ix.spread h d f g).buckets b
    = if ∃ e < d, place ix.count h.bucket e = b then f (ix.buckets b)
      else if b = place ix.count h.bucket d then g (ix.buckets b)
      else ix.buckets b
  := by
  rw [spread]
  simp only
  rw [along_home f hd.le hb]
  by_cases hhere : b = place ix.count h.bucket d
  case pos =>
    have hpassed : ¬ ∃ e < d, place ix.count h.bucket e = b := by
      rintro ⟨e, he, heq⟩
      have := place_inj (by omega) hd (heq.trans hhere)
      omega
    rw [if_neg hpassed, if_neg hpassed, if_pos hhere, hhere, update_self]
  case neg => rw [update_of_ne hhere, if_neg hhere]

@[simp] theorem spread_count (f g : Bucket → Bucket) :
  (ix.spread h d f g).count = ix.count
  := rfl

/-- A field of the buckets that `f` does not change. -/
theorem spread_field (field : Bucket → α) (hb : h.bucket < ix.count) (hd : d < ix.count)
    {f g : Bucket → Bucket} (hf : ∀ b, field (f b) = field b) (b : ℕ) :
  field ((ix.spread h d f g).buckets b)
    = if b = place ix.count h.bucket d then field (g (ix.buckets b))
      else field (ix.buckets b)
  := by
  rw [spread_apply hb hd]
  split
  case isTrue hpassed =>
    obtain ⟨e, he, rfl⟩ := hpassed
    rw [hf, if_neg]
    intro heq
    have := place_inj (by omega) hd heq
    omega
  case isFalse => split <;> rfl

theorem spread_cell (field : Bucket → Fin 8 → α) {v : α} (hb : h.bucket < ix.count)
    (hd : d < ix.count) {f g : Bucket → Bucket} (hf : ∀ b, field (f b) = field b)
    (hg : ∀ b, field (g b) = update (field b) slot v) (b : ℕ) (i : Fin 8) :
  field ((ix.spread h d f g).buckets b) i
    = if b = place ix.count h.bucket d ∧ i = slot then v else field (ix.buckets b) i
  := by
  rw [spread_field field hb hd hf, ite_and]
  split
  case isTrue => rw [hg, update_apply]
  case isFalse => rfl

section

variable (laid : ix.Laid L maxKeys)

include laid

section

variable (absent : L id = none) (hid : id < maxKeys) (hb : h.bucket < ix.count) (htag : h.tag ≠ 0)

include absent hid hb htag

theorem Laid.spread_raise (hd : d < ix.count)
    (hempty : (ix.buckets (place ix.count h.bucket d)).tags slot = 0) :
  (ix.spread h d Bucket.raise (Bucket.fill · slot h.tag id)).Laid
    (update L id (some (h, d))) maxKeys
  := by
  have htags := spread_cell Bucket.tags hb hd (fun _ => Bucket.raise_tags)
    (fun b => (rfl : (b.fill slot h.tag id).tags = _))
  have hids := spread_cell Bucket.ids hb hd (fun _ => Bucket.raise_ids)
    (fun b => (rfl : (b.fill slot h.tag id).ids = _))
  have hold {b : ℕ} (hlt : b < ix.count) {i : Fin 8} (hi : (ix.buckets b).tags i ≠ 0) :
      (ix.buckets b).ids i ≠ id := by
    intro heq
    obtain ⟨h', d', hL, _⟩ := laid.occupied hlt hi
    rw [heq, absent] at hL
    cases hL
  constructor
  case bounds =>
    intro id' h' d' hL
    by_cases hid' : id' = id
    case pos =>
      subst hid'
      rw [update_self] at hL
      obtain ⟨rfl, rfl⟩ := hL
      exact ⟨hid, hb, htag, hd⟩
    case neg =>
    rw [update_of_ne hid'] at hL
    exact laid.bounds hL
  case stored =>
    intro id' h' d' hL
    simp only [spread_count, htags, hids]
    by_cases hid' : id' = id
    case pos =>
      subst hid'
      rw [update_self] at hL
      obtain ⟨rfl, rfl⟩ := hL
      use slot
      simp
    case neg =>
    rw [update_of_ne hid'] at hL
    obtain ⟨i, hi, hi'⟩ := laid.stored hL
    have hnot : ¬ (place ix.count h'.bucket d' = place ix.count h.bucket d
        ∧ i = slot) := by
      rintro ⟨hhere, rfl⟩
      rw [hhere, hempty] at hi
      exact (laid.bounds hL).2.2.1 hi.symm
    use i
    rw [if_neg hnot, if_neg hnot]
    exact ⟨hi, hi'⟩
  case occupied =>
    intro b hlt i hi
    rw [htags] at hi
    rw [htags, hids]
    split at hi
    case isTrue hnew =>
      rw [if_pos hnew, if_pos hnew, update_self]
      exact ⟨h, d, rfl, rfl, hnew.1.symm⟩
    case isFalse hnew =>
    obtain ⟨h', d', hL, hplace⟩ := laid.occupied hlt hi
    rw [if_neg hnew, if_neg hnew, update_of_ne (hold hlt hi)]
    exact ⟨h', d', hL, hplace⟩
  case once =>
    intro b hlt i i' hi hi' heq
    rw [htags] at hi hi'
    rw [hids, hids] at heq
    split at hi
    case isTrue hnew =>
      rw [if_pos hnew] at heq
      split at hi'
      case isTrue hnew' => exact hnew.2.trans hnew'.2.symm
      case isFalse hnew' =>
      rw [if_neg hnew'] at heq
      exact absurd heq.symm (hold hlt hi')
    case isFalse hnew =>
    rw [if_neg hnew] at heq
    split at hi'
    case isTrue hnew' =>
      rw [if_pos hnew'] at heq
      exact absurd heq (hold hlt hi)
    case isFalse hnew' =>
    rw [if_neg hnew'] at heq
    exact laid.once hlt hi hi' heq
  case counted =>
  intro b hlt
  rw [spread_count, Layout.passes_insert absent hid, spread_apply hb hd]
  have hcounts := laid.counted hlt
  split
  case isTrue => exact hcounts.raise
  case isFalse =>
  split
  case isTrue | isFalse => exact hcounts

/-- Adding an id puts it in the layout under its hash. -/
theorem Laid.insert (hinsert : ix.insert h id = some ix') :
  ix'.count = ix.count ∧ ∃ d, ix'.Laid (update L id (some (h, d))) maxKeys
  := by
  rw [FlowIndex.insert] at hinsert
  have hplace := place_zero hb
  rw [show ix.insertFrom h id ix.count 0 h.bucket
    = ix.insertFrom h id ix.count 0 (place ix.count h.bucket 0) by rw [hplace]] at hinsert
  obtain ⟨d, hd, slot, hempty, rfl⟩ := insertFrom_some (by omega) hinsert
  refine ⟨rfl, d, ?_⟩
  exact laid.spread_raise absent hid hb htag (by omega) hempty

end

/-! ### Removing an id -/

variable (hL : L id = some (h, d))

include hL

theorem Laid.eraseFrom_eq (he : e ≤ d) (hn : d < e + n) :
  ∃ slot, (ix.buckets (place ix.count h.bucket d)).tags slot = h.tag
    ∧ (ix.buckets (place ix.count h.bucket d)).ids slot = id
    ∧ ix.eraseFrom h id n e (place ix.count h.bucket e)
      = some (ix.spread h d Bucket.lower (Bucket.clear · slot))
  := by
  obtain ⟨_, hb, htag, hd⟩ := laid.bounds hL
  induction n generalizing e with
  | zero => omega
  | succ n ih =>
  rcases Nat.lt_or_eq_of_le he with hlt | rfl
  case inl =>
    obtain ⟨slot, hslot, hid, herase⟩ := ih (e := e + 1) (by omega) (by omega)
    refine ⟨slot, hslot, hid, ?_⟩
    have habsent : ((ix.buckets (place ix.count h.bucket e)).matchTags h.tag).find?
        (fun slot => (ix.buckets (place ix.count h.bucket e)).ids slot = id) = none := by
      rw [find?_eq_none]
      intro i hi hid'
      rw [decide_eq_true_iff] at hid'
      have hi := Bucket.mem_matchTags.mp hi
      obtain ⟨h', d', hL', _, hplace⟩ := laid.occupied (place_lt (by omega) h.bucket e) (hi ▸ htag)
      rw [hid', hL] at hL'
      obtain ⟨rfl, rfl⟩ := hL'
      have := place_inj hd (by omega) hplace
      omega
    rw [eraseFrom, habsent]
    rw [if_neg (laid.overflow_ne_zero hL hlt), next_place (by omega), herase]
  case inr =>
  obtain ⟨i, hi, hid⟩ := laid.stored hL
  rw [eraseFrom]
  split
  case h_1 slot hfind =>
    have hslot := mem_of_find?_eq_some hfind
    have hids := find?_some hfind
    rw [decide_eq_true_iff] at hids
    exact ⟨slot, Bucket.mem_matchTags.mp hslot, hids, rfl⟩
  case h_2 hnone =>
  rw [find?_eq_none] at hnone
  apply absurd (hnone i (Bucket.mem_matchTags.mpr hi))
  simp [hid]

theorem Laid.spread_lower (hslot : (ix.buckets (place ix.count h.bucket d)).tags slot = h.tag)
    (hid : (ix.buckets (place ix.count h.bucket d)).ids slot = id) :
  (ix.spread h d Bucket.lower (Bucket.clear · slot)).Laid (update L id none) maxKeys
  := by
  obtain ⟨hlt, hb, htag, hd⟩ := laid.bounds hL
  have htags := spread_cell Bucket.tags hb hd (fun _ => Bucket.lower_tags)
    (fun b => (rfl : (b.clear slot).tags = _))
  have hids (b : ℕ) : ((ix.spread h d Bucket.lower (Bucket.clear · slot)).buckets b).ids
      = (ix.buckets b).ids := by
    rw [spread_field Bucket.ids hb hd (fun _ => Bucket.lower_ids)]
    split <;> rfl
  have hkept {b : ℕ} {i : Fin 8}
      (hi : ((ix.spread h d Bucket.lower (Bucket.clear · slot)).buckets b).tags i ≠ 0) :
      ((ix.spread h d Bucket.lower (Bucket.clear · slot)).buckets b).tags i = (ix.buckets b).tags i
        ∧ ¬ (b = place ix.count h.bucket d ∧ i = slot) := by
    rw [htags] at hi ⊢
    split
    case isTrue hhere => exact absurd (if_pos hhere) hi
    case isFalse hhere => exact ⟨rfl, hhere⟩
  constructor
  case bounds =>
    intro id' h' d' hL'
    rw [update_apply] at hL'
    split at hL'
    case isTrue => simp at hL'
    case isFalse => exact laid.bounds hL'
  case stored =>
    intro id' h' d' hL'
    rw [update_apply] at hL'
    split at hL'
    case isTrue => simp at hL'
    case isFalse hne =>
    obtain ⟨i, hi, hi'⟩ := laid.stored hL'
    use i
    rw [spread_count, hids, htags, if_neg]
    · exact ⟨hi, hi'⟩
    rintro ⟨hhere, rfl⟩
    rw [hhere, hid] at hi'
    exact hne hi'.symm
  case occupied =>
    intro b hlt i hi
    obtain ⟨htag', hne⟩ := hkept hi
    rw [htag'] at hi ⊢
    rw [hids]
    obtain ⟨h', d', hL', htag'', hplace⟩ := laid.occupied hlt hi
    refine ⟨h', d', ?_, htag'', hplace⟩
    rw [update_of_ne, hL']
    intro heq
    rw [heq, hL] at hL'
    obtain ⟨rfl, rfl⟩ := hL'
    apply hne
    refine ⟨hplace.symm, ?_⟩
    subst hplace
    exact laid.once hlt hi (hslot ▸ htag) (heq.trans hid.symm)
  case once =>
    intro b hlt i i' hi hi' heq
    rw [(hkept hi).1] at hi
    rw [(hkept hi').1] at hi'
    rw [hids] at heq
    exact laid.once hlt hi hi' heq
  case counted =>
  intro b hlt'
  have hcounts := laid.counted hlt'
  have hL₀ : update (update L id none) id (some (h, d)) = L := by
    rw [update_idem, ← hL, update_eq_self]
  rw [← hL₀, Layout.passes_insert (update_self ..) hlt] at hcounts
  rw [spread_apply hb hd]
  split
  case isTrue hpassed =>
    rw [if_pos hpassed] at hcounts
    exact hcounts.lower
  case isFalse hpassed =>
  rw [if_neg hpassed] at hcounts
  split
  case isTrue | isFalse => exact hcounts

/-- An id of the index is removed from the layout. -/
theorem Laid.erase :
  ∃ ix', ix.erase h id = some ix' ∧ ix'.count = ix.count
    ∧ ix'.Laid (update L id none) maxKeys
  := by
  obtain ⟨_, hb, _, hd⟩ := laid.bounds hL
  obtain ⟨slot, hslot, hid, herase⟩ := laid.eraseFrom_eq hL (n := ix.count) (Nat.zero_le d)
    (by omega)
  rw [place_zero hb] at herase
  exact ⟨_, herase, rfl, laid.spread_lower hL hslot hid⟩

end

theorem split_bucket_lt (hcount : 0 < ix.count) (userHash : BitVec 64) :
  (ix.split userHash).bucket < ix.count
  := by
  have hword : (mix userHash >>> 32).toNat < 2 ^ 32 := by
    rw [BitVec.toNat_ushiftRight]
    omega
  rw [split, Nat.div_lt_iff_lt_mul (by decide), Nat.mul_comm]
  exact Nat.mul_lt_mul_of_pos_left hword hcount

theorem split_tag_ne_zero (userHash : BitVec 64) :
  (ix.split userHash).tag ≠ 0
  := by
  rw [split]
  simp only
  split
  case isTrue h =>
    rw [h]
    decide
  case isFalse h => simpa using h

end

end FlowIndex

/-! ### The keys of a directory -/

theorem FlowIndex.bucketsFor_pos (maxKeys : ℕ) :
  0 < FlowIndex.bucketsFor maxKeys
  := by
  rw [FlowIndex.bucketsFor, FlowIndex.kEntriesPerBucket]
  split <;> omega

theorem FlowIndex.le_bucketsFor (maxKeys : ℕ) :
  maxKeys ≤ 8 * FlowIndex.bucketsFor maxKeys
  := by
  rw [FlowIndex.bucketsFor, FlowIndex.kEntriesPerBucket]
  omega

theorem FlowIndex.split_congr (h : ix'.count = ix.count) :
  ix'.split = ix.split
  := by
  funext userHash
  rw [FlowIndex.split, FlowIndex.split, h]

/-- The index holds the ids below `maxKeys` that `view` gives a key, each under the hash of its
key, and no key has two ids. -/
structure Directory {Key : Type} (hash : Key → BitVec 64) (ix : FlowIndex) (maxKeys : ℕ)
    (view : ℕ → Option Key) : Prop where
  count_eq : ix.count = FlowIndex.bucketsFor maxKeys
  laid : ∃ L : Layout, ix.Laid L maxKeys
    ∧ ∀ kid, (L kid).map Prod.fst = (view kid).map fun key => ix.split (hash key)
  distinct : ∀ {kid kid' key}, view kid = some key → view kid' = some key → kid = kid'

namespace Directory

variable {Key : Type} {hash : Key → BitVec 64} {view : ℕ → Option Key}

theorem create (hash : Key → BitVec 64) (maxKeys : ℕ) :
  Directory hash (.create (FlowIndex.bucketsFor maxKeys)) maxKeys fun _ => none
  := by
  refine ⟨rfl, ⟨_, FlowIndex.laid_create _ _, fun _ => rfl⟩, ?_⟩
  intro kid kid' key h
  simp at h

theorem count_pos (dir : Directory hash ix maxKeys view) :
  0 < ix.count
  := by
  rw [dir.count_eq]
  exact FlowIndex.bucketsFor_pos maxKeys

theorem bucket_lt (dir : Directory hash ix maxKeys view) (key : Key) :
  (ix.split (hash key)).bucket < ix.count
  := FlowIndex.split_bucket_lt dir.count_pos _

variable {kid : ℕ} (dir : Directory hash ix maxKeys view) {key : Key}

include dir

/-- The index finds the id of a key, when the caller resolves ids to the keys of the view. -/
theorem find_eq_some [DecidableEq Key] {keyAt : ℕ → Option Key}
    (agree : ∀ {kid key}, view kid = some key → keyAt kid = some key) :
  ix.find (ix.split (hash key)) (fun kid => keyAt kid = some key) = some kid
    ↔ view kid = some key
  := by
  obtain ⟨L, laid, hview⟩ := dir.laid
  have hfound {kid : ℕ}
      (h : ix.find (ix.split (hash key)) (fun kid => keyAt kid = some key) = some kid) :
      view kid = some key := by
    obtain ⟨⟨p, hL⟩, heq⟩ := laid.find_some (FlowIndex.split_tag_ne_zero _) (dir.bucket_lt key) h
    rw [decide_eq_true_iff] at heq
    have hsome := hview kid
    rw [hL, Option.map_some, eq_comm, Option.map_eq_some_iff] at hsome
    obtain ⟨key', hkey', _⟩ := hsome
    rw [agree hkey'] at heq
    rw [hkey', heq]
  constructor
  · exact hfound
  intro hkey
  have hsome := hview kid
  rw [hkey, Option.map_some, Option.map_eq_some_iff] at hsome
  obtain ⟨⟨h, d⟩, hL, rfl⟩ := hsome
  have hisSome : (ix.find (ix.split (hash key)) fun kid => decide (keyAt kid = some key)).isSome
      = true := laid.find_isSome hL (decide_eq_true (agree hkey))
  obtain ⟨kid', hkid'⟩ := Option.isSome_iff_exists.mp hisSome
  rw [hkid', dir.distinct (hfound hkid') hkey]

theorem updated {L : Layout}
    (hview : ∀ kid, (L kid).map Prod.fst = (view kid).map fun key => ix.split (hash key))
    (hcount : ix'.count = ix.count) {entry : Option (Hashed × ℕ)} {v : Option Key}
    (hlaid : ix'.Laid (update L kid entry) maxKeys)
    (hentry : entry.map Prod.fst = v.map fun key => ix.split (hash key))
    (fresh : ∀ key, v = some key → ∀ kid, view kid ≠ some key) :
  Directory hash ix' maxKeys (update view kid v) ∧ ix'.split = ix.split
  := by
  have hsplit := FlowIndex.split_congr hcount
  refine ⟨⟨hcount.trans dir.count_eq, ⟨_, hlaid, ?_⟩, ?_⟩, hsplit⟩
  · intro kid'
    rw [hsplit]
    by_cases h : kid' = kid
    case pos => rw [h, update_self, update_self, hentry]
    case neg => rw [update_of_ne h, update_of_ne h, hview]
  intro kid₁ kid₂ key' h₁ h₂
  rw [update_apply] at h₁ h₂
  split at h₁ <;> split at h₂
  case isTrue.isTrue heq₁ heq₂ => rw [heq₁, heq₂]
  case isTrue.isFalse => exact absurd h₂ (fresh key' h₁ kid₂)
  case isFalse.isTrue => exact absurd h₁ (fresh key' h₂ kid₁)
  case isFalse.isFalse => exact dir.distinct h₁ h₂

theorem insert (hkid : kid < maxKeys) (absent : view kid = none) (fresh : ∀ kid, view kid ≠ some key) :
  ∃ ix', ix.insert (ix.split (hash key)) kid = some ix'
    ∧ Directory hash ix' maxKeys (update view kid (some key)) ∧ ix'.split = ix.split
  := by
  obtain ⟨L, laid, hview⟩ := dir.laid
  have hL : L kid = none := by
    have := hview kid
    rwa [absent, Option.map_none, Option.map_eq_none_iff] at this
  have hroom : maxKeys ≤ 8 * ix.count := by
    rw [dir.count_eq]
    exact FlowIndex.le_bucketsFor maxKeys
  obtain ⟨ix', hinsert⟩ := Option.isSome_iff_exists.mp
    (laid.insert_isSome hL hkid hroom (dir.bucket_lt key))
  obtain ⟨hcount, d, hlaid⟩ := laid.insert hL hkid (dir.bucket_lt key)
    (FlowIndex.split_tag_ne_zero _) hinsert
  refine ⟨ix', hinsert, dir.updated hview hcount hlaid rfl ?_⟩
  rintro _ ⟨⟩
  exact fresh

theorem erase (hkey : view kid = some key) :
  ∃ ix', ix.erase (ix.split (hash key)) kid = some ix'
    ∧ Directory hash ix' maxKeys (update view kid none) ∧ ix'.split = ix.split
  := by
  obtain ⟨L, laid, hview⟩ := dir.laid
  have hsome := hview kid
  rw [hkey, Option.map_some, Option.map_eq_some_iff] at hsome
  obtain ⟨⟨h, d⟩, hL, rfl⟩ := hsome
  obtain ⟨ix', herase, hcount, hlaid⟩ := laid.erase hL
  exact ⟨ix', herase, dir.updated hview hcount hlaid rfl nofun⟩

end Directory

end Flow
