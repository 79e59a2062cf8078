import Mathlib.Data.List.Nodup

/-!
# Circular lists threaded through a store

A store whose cells carry a `prev` and a `next` field holds circular doubly linked
lists: each list has a head cell that is not a member, and an empty list is a head
linked to itself. `L.Loop h xs` says that the cells reached from the head `h` are `xs`,
in order. The operations are the three edits such lists are changed by:

* `link` appends a cell to the list of a head,
* `unlink` takes a cell out of whatever list holds it,
* `splice` appends the whole list of one head to that of another.

A family of lists over a set of heads with no common cell is a `Loops`, and each edit
acts on a family as the expected edit of one or two of its lists.
-/

/-- The link fields of a store of cells. -/
structure Links (α : Type) where
  prev : α → α
  next : α → α

namespace Links

open Function List

variable {α : Type} [DecidableEq α]

/-- Append the cell `index` to the list of `head`. -/
def link (L : Links α) (head index : α) : Links α where
  prev := update (update L.prev index (L.prev head)) head index
  next := update (update L.next index head) (L.prev head) index

/-- Take the cell `index` out of the list that holds it. -/
def unlink (L : Links α) (index : α) : Links α where
  prev := update L.prev (L.next index) (L.prev index)
  next := update L.next (L.prev index) (L.next index)

/-- Append the whole list of `src` to the list of `dst`, leaving `src` empty. -/
def splice (L : Links α) (src dst : α) : Links α :=
  if L.next src = src then L
  else
    { prev := update (update (update L.prev
        (L.next src) (L.prev dst)) dst (L.prev src)) src src
      next := update (update (update L.next
        (L.prev dst) (L.next src)) (L.prev src) dst) src src }

/-- Consecutive cells of a list are linked both ways. -/
def Linked (L : Links α) : List α → Prop
  | x :: y :: rest => L.next x = y ∧ L.prev y = x ∧ L.Linked (y :: rest)
  | _ => True

/-- The circular list of the head `head` has the members `xs`. -/
def Loop (L : Links α) (head : α) (xs : List α) : Prop :=
  (head :: xs).Nodup ∧ L.Linked (head :: (xs ++ [head]))

variable {L L' : Links α} {xs ys : List α} {dst h i src x : α}

/-- Taking out a cell that is linked to itself changes nothing. -/
theorem unlink_self (hp : L.prev i = i) (hn : L.next i = i) :
  L.unlink i = L
  := by
  have h₁ : update L.prev i i = L.prev := update_eq_self_iff.mpr hp.symm
  have h₂ : update L.next i i = L.next := update_eq_self_iff.mpr hn.symm
  rw [unlink, hp, hn, h₁, h₂]

/-! ### Linked lists of cells -/

omit [DecidableEq α] in
/-- A concatenation is linked when both parts are, the seam belonging to each. -/
theorem linked_append {L : Links α} :
    ∀ (l : List α) (x : α) (r : List α),
      L.Linked (l ++ x :: r) ↔ L.Linked (l ++ [x]) ∧ L.Linked (x :: r)
  | [], x, r => by simp [Linked]
  | [a], x, r => by simp [Linked, and_assoc]
  | a :: b :: l, x, r => by
    have ih := linked_append (L := L) (b :: l) x r
    simp only [cons_append, Linked] at ih ⊢
    rw [ih, and_assoc, and_assoc]

omit [DecidableEq α] in
/-- Being linked reads `next` of every cell but the last and `prev` of every cell but
the first. -/
theorem Linked.congr :
    ∀ {l : List α}, L.Linked l →
      (∀ x ∈ l.dropLast, L'.next x = L.next x) → (∀ y ∈ l.tail, L'.prev y = L.prev y) →
      L'.Linked l
  | [], _, _, _ => trivial
  | [_], _, _, _ => trivial
  | x :: y :: rest, ⟨hnext, hprev, h⟩, hn, hp => by
    have hx := hn x (by simp [List.dropLast])
    have hy := hp y (by simp)
    constructor
    · rw [hx, hnext]
    constructor
    · rw [hy, hprev]
    apply Linked.congr h
    · intro z hz
      apply hn
      rw [dropLast_cons_cons]
      apply mem_cons_of_mem _ hz
    intro z hz
    apply hp
    apply mem_of_mem_tail hz

omit [DecidableEq α] in
/-- Edits at the ends of a list, to what is after its last cell and before its first, leave it
linked. -/
theorem Linked.keep {a b : α} {pre : List α} (h : L.Linked (a :: xs)) (hnd : (a :: xs).Nodup)
    (e : a :: xs = pre ++ [b]) (hnext : ∀ x ∈ a :: xs, x ≠ b → L'.next x = L.next x)
    (hprev : ∀ x ∈ a :: xs, x ≠ a → L'.prev x = L.prev x) :
  L'.Linked (pre ++ [b])
  := by
  rw [← e]
  apply h.congr
  · intro x hx
    apply hnext x (dropLast_subset _ hx)
    rw [e] at hnd
    rw [e, dropLast_concat] at hx
    exact (nodup_append.mp hnd).2.2 x hx b (mem_singleton_self b)
  intro x hx
  exact hprev x (mem_of_mem_tail hx) (fun e' => (nodup_cons.mp hnd).1 (e' ▸ hx))

/-! ### One list -/

omit [DecidableEq α] in
/-- The last cell of a list, its head included, is the one before the head. -/
theorem Loop.prev_head (H : L.Loop h xs) :
  ∃ pre, h :: xs = pre ++ [L.prev h] ∧ L.Linked (h :: xs)
  := by
  obtain ⟨pre, last, e⟩ : ∃ pre last, h :: xs = pre ++ [last] := by
    use (h :: xs).dropLast, (h :: xs).getLast (by simp)
    rw [dropLast_concat_getLast]
  use pre
  have hl := H.2
  rw [← cons_append, e, append_assoc, singleton_append, linked_append] at hl
  rw [hl.2.2.1, e]
  exact ⟨rfl, hl.1⟩

omit [DecidableEq α] in
/-- The first cell of a list, its head last, is the one after the head. -/
theorem Loop.next_head (H : L.Loop h xs) :
  ∃ post, xs ++ [h] = L.next h :: post
  := by
  cases xs with
  | nil => exact ⟨[], by rw [H.2.1]; rfl⟩
  | cons x xs => exact ⟨xs ++ [h], by rw [H.2.1]; rfl⟩

omit [DecidableEq α] in
/-- A list is empty exactly when its head is linked to itself. -/
theorem Loop.next_head_eq_iff (H : L.Loop h xs) :
  L.next h = h ↔ xs = []
  := by
  cases xs with
  | nil => simpa using H.2.1
  | cons x xs =>
  have hx : L.next h = x := H.2.1
  have hne : h ≠ x := fun e => (nodup_cons.mp H.1).1 (by simp [e])
  simp only [hx, reduceCtorEq, iff_false]
  apply hne.symm

omit [DecidableEq α] in
/-- The first member of a nonempty list is the cell after its head. -/
theorem Loop.next_head_cons (H : L.Loop h (x :: xs)) :
  L.next h = x
  := H.2.1

omit [DecidableEq α] in
/-- A list is not changed by an edit of the link fields of other cells. -/
theorem Loop.congr (H : L.Loop h xs)
    (e : ∀ x ∈ h :: xs, L'.next x = L.next x ∧ L'.prev x = L.prev x) :
  L'.Loop h xs
  := by
  use H.1
  apply H.2.congr
  · intro x hx
    apply (e x _).1
    have := dropLast_subset _ hx
    simp only [mem_cons, mem_append] at this ⊢
    tauto
  intro x hx
  apply (e x _).2
  simp only [tail_cons, mem_append, mem_cons] at hx ⊢
  tauto

/-- Linking a new cell appends it to the list of the head. -/
theorem Loop.link (H : L.Loop h xs) (hi : i ∉ h :: xs) :
  (L.link h i).Loop h (xs ++ [i])
  := by
  obtain ⟨pre, e, hl⟩ := H.prev_head
  have hlh : L.prev h ∈ h :: xs := e ▸ mem_append_right _ (mem_singleton_self _)
  have hne : ∀ x ∈ h :: xs, x ≠ i := fun x hx e' => hi (e' ▸ hx)
  constructor
  · rw [← cons_append]
    apply List.Nodup.append H.1 (nodup_singleton i)
    simpa using hi
  have hgoal : h :: (xs ++ [i] ++ [h]) = pre ++ L.prev h :: [i, h] := by
    rw [← cons_append, ← cons_append, e]
    simp
  rw [hgoal, linked_append]
  constructor
  · apply hl.keep H.1 e
    · intro x hx hxl
      simp [Links.link, hne x hx, hxl]
    intro x hx hxh
    simp [Links.link, hne x hx, hxh]
  · simp [Linked, Links.link, (hne h mem_cons_self).symm, (hne _ hlh).symm]

omit [DecidableEq α] in
/-- The cells before and after a member, as the end and the start of the two parts of
its list. -/
theorem Loop.neighbours (H : L.Loop h (xs ++ i :: ys)) :
  (∃ pre, h :: xs = pre ++ [L.prev i] ∧ L.Linked (h :: xs))
    ∧ ∃ post, ys ++ [h] = L.next i :: post ∧ L.Linked (L.next i :: post)
  := by
  obtain ⟨pre, p, e⟩ : ∃ pre p, h :: xs = pre ++ [p] := by
    use (h :: xs).dropLast, (h :: xs).getLast (by simp)
    rw [dropLast_concat_getLast]
  obtain ⟨n, post, e'⟩ : ∃ n post, ys ++ [h] = n :: post := by
    cases ys with
    | nil => use h, []; rfl
    | cons y ys => use y, ys ++ [h]; rfl
  have hl := H.2
  have hlist : h :: (xs ++ i :: ys ++ [h]) = pre ++ p :: i :: n :: post := by
    rw [← cons_append, ← cons_append, e]
    simp [← e']
  rw [hlist, linked_append] at hl
  obtain ⟨hpre, -, rfl, rfl, -, hpost⟩ := hl
  constructor
  · use pre, e, e ▸ hpre
  · use post, e', hpost

/-- Unlinking a member takes it out of its list. -/
theorem Loop.unlink (H : L.Loop h (xs ++ i :: ys)) :
  (L.unlink i).Loop h (xs ++ ys)
  := by
  obtain ⟨⟨pre, e, hpre⟩, post, e', hpost⟩ := H.neighbours
  have hnd : ((h :: xs) ++ i :: ys).Nodup := H.1
  obtain ⟨hnd₁, hnd₂, hdis⟩ := nodup_append.mp hnd
  have hpx : L.prev i ∈ h :: xs := e ▸ mem_append_right _ (mem_singleton_self _)
  have hny : L.next i ∈ ys ++ [h] := e' ▸ mem_cons_self
  constructor
  · apply List.Nodup.sublist _ hnd
    rw [← cons_append]
    apply List.Sublist.append (List.Sublist.refl _) (sublist_cons_self i ys)
  have hgoal : h :: (xs ++ ys ++ [h]) = pre ++ L.prev i :: L.next i :: post := by
    rw [← cons_append, ← cons_append, e]
    simp [← e']
  rw [hgoal, linked_append]
  refine ⟨?_, ?_, ?_, ?_⟩
  · apply hpre.keep hnd₁ e
    · intro x _ hxp
      simp [Links.unlink, hxp]
    intro x hx hxh
    have hxn : x ≠ L.next i := by
      rintro rfl
      rcases mem_append.mp hny with hn | hn
      · exact hdis _ hx _ (mem_cons_of_mem _ hn) rfl
      · exact hxh (mem_singleton.mp hn)
    simp [Links.unlink, hxn]
  · simp [Links.unlink]
  · simp [Links.unlink]
  have hndy : (ys ++ [h]).Nodup := by
    rw [(perm_append_singleton h ys).nodup_iff, nodup_cons]
    exact ⟨fun hy => hdis h mem_cons_self h (mem_cons_of_mem _ hy) rfl, (nodup_cons.mp hnd₂).2⟩
  rw [← e']
  apply hpost.keep (e' ▸ hndy) e'.symm
  · intro x hx hxh
    have hxp : x ≠ L.prev i := by
      rw [← e', mem_append, mem_singleton, or_iff_left hxh] at hx
      exact fun e'' => hdis _ hpx x (mem_cons_of_mem _ hx) e''.symm
    simp [Links.unlink, hxp]
  intro x _ hxn
  simp [Links.unlink, hxn]

omit [DecidableEq α] in
/-- The two neighbours of a member are one cell, the head, exactly when it is the only
member. -/
theorem Loop.prev_eq_next_iff (H : L.Loop h (xs ++ i :: ys)) :
  L.prev i = L.next i ↔ xs = [] ∧ ys = []
  := by
  obtain ⟨⟨pre, e, -⟩, post, e', -⟩ := H.neighbours
  have hnd : ((h :: xs) ++ i :: ys).Nodup := H.1
  obtain ⟨hnd₁, -, hdis⟩ := nodup_append.mp hnd
  constructor
  · intro heq
    have hpx : L.prev i ∈ h :: xs := e ▸ mem_append_right _ (mem_singleton_self _)
    have hny : L.next i ∈ ys ++ [h] := e' ▸ mem_cons_self
    have hh : L.next i = h := by
      rcases mem_append.mp hny with hn | hn
      · apply absurd rfl (hdis _ hpx _ (mem_cons_of_mem _ (heq ▸ hn)))
      · apply mem_singleton.mp hn
    constructor
    · cases pre with
      | nil => simpa using congrArg List.tail e
      | cons a pre =>
      obtain ⟨rfl, hxs⟩ := List.cons.inj e
      apply absurd _ (nodup_cons.mp hnd₁).1
      rw [hxs, heq, hh]
      simp
    cases ys with
    | nil => rfl
    | cons y ys =>
    obtain ⟨hy, -⟩ := List.cons.inj e'
    apply absurd _ (hdis h mem_cons_self y (by simp))
    rw [hy, hh]
  rintro ⟨rfl, rfl⟩
  obtain ⟨h₁, h₂⟩ : L.prev i = h ∧ L.next i = h := by
    obtain ⟨-, h₁, h₂, -⟩ := H.2
    exact ⟨h₁, h₂⟩
  rw [h₁, h₂]

/-- Splicing appends the list of `src` to that of `dst`. -/
theorem Loop.splice_dst (Hs : L.Loop src xs) (Hd : L.Loop dst ys)
    (hdis : ∀ a ∈ src :: xs, a ∉ dst :: ys) :
  (L.splice src dst).Loop dst (ys ++ xs)
  := by
  cases xs with
  | nil =>
    rw [Links.splice, if_pos (Hs.next_head_eq_iff.mpr rfl), append_nil]
    apply Hd
  | cons first rest =>
  rw [Links.splice, if_neg (Hs.next_head_eq_iff.not.mpr (by simp))]
  obtain ⟨pre, e, hys⟩ := Hd.prev_head
  obtain ⟨q, eq, hxs⟩ : ∃ q, first :: rest = q ++ [L.prev src] ∧ L.Linked (first :: rest) := by
    obtain ⟨q, eq, hl⟩ := Hs.prev_head
    cases q with
    | nil => simp at eq
    | cons a q => exact ⟨q, (List.cons.inj eq).2, hl.2.2⟩
  have hfirst : L.next src = first := Hs.next_head_cons
  have hndx : (first :: rest).Nodup := (nodup_cons.mp Hs.1).2
  have hlast : L.prev src ∈ first :: rest := eq ▸ mem_append_right _ (mem_singleton_self _)
  have htail : L.prev dst ∈ dst :: ys := e ▸ mem_append_right _ (mem_singleton_self _)
  have hxy : ∀ a ∈ first :: rest, ∀ b ∈ dst :: ys, a ≠ b := fun a ha b hb e' =>
    hdis a (mem_cons_of_mem _ ha) (e' ▸ hb)
  have hsy : ∀ b ∈ dst :: ys, b ≠ src := fun b hb e' => hdis src mem_cons_self (e' ▸ hb)
  have hsx : ∀ a ∈ first :: rest, a ≠ src := fun a ha e' =>
    (nodup_cons.mp Hs.1).1 (e' ▸ ha)
  constructor
  · rw [← cons_append]
    apply List.Nodup.append Hd.1 hndx
    intro b hb ha
    apply hxy b ha b hb rfl
  have hgoal : dst :: (ys ++ first :: rest ++ [dst])
      = pre ++ L.prev dst :: first :: (rest ++ [dst]) := by
    rw [← cons_append, ← cons_append, e]
    simp
  rw [hgoal, linked_append]
  refine ⟨?_, ?_, ?_, ?_⟩
  · apply hys.keep Hd.1 e
    · intro x hx hne
      simp [hne, (hxy _ hlast x hx).symm, hsy x hx]
    intro x hx hne
    simp [hne, (hxy first mem_cons_self x hx).symm, hfirst, hsy x hx]
  · simp [hfirst, hsy _ htail, (hxy _ hlast _ htail).symm]
  · have h₁ := hxy first mem_cons_self dst mem_cons_self
    simp [hfirst, h₁, hsx first mem_cons_self]
  rw [← cons_append, eq, append_assoc, singleton_append, linked_append]
  refine ⟨?_, ?_, ?_, trivial⟩
  · apply hxs.keep hndx eq
    · intro x hx hne
      simp [hne, hxy x hx _ htail, hsx x hx]
    intro x hx hne
    simp [hne, hxy x hx dst mem_cons_self, hfirst, hsx x hx]
  · simp [hsx _ hlast]
  · simp [hsy dst mem_cons_self]

theorem Loop.splice_src (Hs : L.Loop src xs) :
  (L.splice src dst).Loop src []
  := by
  by_cases hxs : xs = []
  · subst hxs
    rw [Links.splice, if_pos (Hs.next_head_eq_iff.mpr rfl)]
    apply Hs
  rw [Links.splice, if_neg (Hs.next_head_eq_iff.not.mpr hxs)]
  simp [Loop, Linked]

/-! ### Cells outside the edited lists -/

omit [DecidableEq α] in
/-- The cell before the head is the head or a member. -/
theorem Loop.prev_head_mem (H : L.Loop h xs) :
  L.prev h ∈ h :: xs
  := by
  obtain ⟨pre, e, -⟩ := H.prev_head
  rw [e]
  simp

omit [DecidableEq α] in
/-- The cell after the head is the head or a member. -/
theorem Loop.next_head_mem (H : L.Loop h xs) :
  L.next h ∈ h :: xs
  := by
  obtain ⟨post, e⟩ := H.next_head
  have : L.next h ∈ xs ++ [h] := e ▸ mem_cons_self
  simp only [mem_append, mem_cons] at this ⊢
  tauto

omit [DecidableEq α] in
/-- The neighbours of a member are in its list, the head included. -/
theorem Loop.neighbours_mem (H : L.Loop h xs) (hi : i ∈ xs) :
  L.prev i ∈ h :: xs ∧ L.next i ∈ h :: xs
  := by
  obtain ⟨ys, zs, rfl⟩ := append_of_mem hi
  obtain ⟨⟨pre, e₁, -⟩, post, e₂, -⟩ := H.neighbours
  constructor
  · rw [← cons_append, e₁]
    simp
  have : L.next i ∈ zs ++ [h] := e₂ ▸ mem_cons_self
  simp only [mem_append, mem_cons] at this ⊢
  tauto

omit [DecidableEq α] in
theorem Loop.prev_ne_self (H : L.Loop h xs) (hi : i ∈ xs) :
  L.prev i ≠ i
  := by
  obtain ⟨ys, zs, rfl⟩ := append_of_mem hi
  obtain ⟨⟨pre, e, -⟩, -⟩ := H.neighbours
  have hnd : ((h :: ys) ++ i :: zs).Nodup := H.1
  have hp : L.prev i ∈ h :: ys := e ▸ mem_append_right _ (mem_singleton_self _)
  apply (nodup_append.mp hnd).2.2 _ hp i mem_cons_self

/-- Linking leaves the link fields of cells outside the list alone. -/
theorem Loop.link_frame (H : L.Loop h xs) (hx : x ∉ h :: xs) (hi : x ≠ i) :
  (L.link h i).next x = L.next x ∧ (L.link h i).prev x = L.prev x
  := by
  have h₁ : x ≠ h := fun e => hx (e ▸ mem_cons_self)
  have h₂ : x ≠ L.prev h := fun e => hx (e ▸ H.prev_head_mem)
  simp [Links.link, hi, h₁, h₂]

/-- Unlinking leaves the link fields of cells outside the list alone. -/
theorem Loop.unlink_frame (H : L.Loop h xs) (hi : i ∈ xs) (hx : x ∉ h :: xs) :
  (L.unlink i).next x = L.next x ∧ (L.unlink i).prev x = L.prev x
  := by
  obtain ⟨hp, hn⟩ := H.neighbours_mem hi
  have h₁ : x ≠ L.prev i := fun e => hx (e ▸ hp)
  have h₂ : x ≠ L.next i := fun e => hx (e ▸ hn)
  simp [Links.unlink, h₁, h₂]

/-- Splicing leaves the link fields of cells outside the two lists alone. -/
theorem Loop.splice_frame (Hs : L.Loop src xs) (Hd : L.Loop dst ys) (hx : x ∉ src :: xs)
    (hy : x ∉ dst :: ys) :
  (L.splice src dst).next x = L.next x ∧ (L.splice src dst).prev x = L.prev x
  := by
  rw [Links.splice]
  split
  case isTrue => simp
  case isFalse =>
  have h₁ : x ≠ L.prev src := fun e => hx (e ▸ Hs.prev_head_mem)
  have h₂ : x ≠ L.prev dst := fun e => hy (e ▸ Hd.prev_head_mem)
  have h₃ : x ≠ L.next src := fun e => hx (e ▸ Hs.next_head_mem)
  have h₄ : x ≠ src := fun e => hx (e ▸ mem_cons_self)
  have h₅ : x ≠ dst := fun e => hy (e ▸ mem_cons_self)
  simp [h₁, h₂, h₃, h₄, h₅]

/-! ### A family of lists -/

/-- Over the heads `H`, the list of each head `h` has the members `lists h`, and no cell
is in two lists. -/
structure Loops (L : Links α) (H : Set α) (lists : α → List α) : Prop where
  loop : ∀ h ∈ H, L.Loop h (lists h)
  apart : ∀ h ∈ H, ∀ h' ∈ H, h ≠ h' → ∀ a ∈ h :: lists h, a ∉ h' :: lists h'

variable {L : Links α} {H : Set α} {lists : α → List α}

omit [DecidableEq α] in
/-- A family of lists is not changed by an edit of the link fields of cells outside it. -/
theorem Loops.congr (hL : L.Loops H lists)
    (e : ∀ h ∈ H, ∀ x ∈ h :: lists h, L'.next x = L.next x ∧ L'.prev x = L.prev x) :
  L'.Loops H lists
  := ⟨fun h hh => (hL.loop h hh).congr (e h hh), hL.apart⟩

omit [DecidableEq α] in
/-- A cell that is a member of two lists of a family is a member of one. -/
theorem Loops.head_unique (hL : L.Loops H lists) {h' : α} (hh : h ∈ H) (hh' : h' ∈ H)
    (hi : i ∈ h :: lists h) (hi' : i ∈ h' :: lists h') :
  h = h'
  := by
  by_contra hne
  apply hL.apart h hh h' hh' hne i hi hi'

/-- Linking a cell outside the family appends it to one list. -/
theorem Loops.link (hL : L.Loops H lists) (hh : h ∈ H) (hi : ∀ h' ∈ H, i ∉ h' :: lists h') :
  (L.link h i).Loops H (update lists h (lists h ++ [i]))
  := by
  constructor
  · intro h' hh'
    by_cases e : h' = h
    · subst e
      rw [update_self]
      apply (hL.loop h' hh').link (hi h' hh')
    rw [update_of_ne e]
    apply (hL.loop h' hh').congr
    intro x hx
    apply (hL.loop h hh).link_frame (hL.apart h' hh' h hh e x hx)
    rintro rfl
    apply hi h' hh' hx
  have key : ∀ h' ∈ H, ∀ a ∈ h' :: update lists h (lists h ++ [i]) h',
      a ∈ h' :: lists h' ∨ h' = h ∧ a = i := by
    intro h' _ a ha
    by_cases e : h' = h
    · subst e
      rw [update_self, ← cons_append, mem_append, mem_singleton] at ha
      tauto
    rw [update_of_ne e] at ha
    tauto
  intro h₁ hh₁ h₂ hh₂ hne a ha₁ ha₂
  rcases key h₁ hh₁ a ha₁ with h₁' | ⟨rfl, rfl⟩
  · rcases key h₂ hh₂ a ha₂ with h₂' | ⟨rfl, rfl⟩
    · apply hL.apart h₁ hh₁ h₂ hh₂ hne a h₁' h₂'
    · apply hi h₁ hh₁ h₁'
  rcases key h₂ hh₂ a ha₂ with h₂' | ⟨rfl, -⟩
  · apply hi h₂ hh₂ h₂'
  · apply hne rfl

/-- Unlinking a member takes it out of its list. -/
theorem Loops.unlink (hL : L.Loops H lists) (hh : h ∈ H) (hi : i ∈ lists h) :
  (L.unlink i).Loops H (update lists h ((lists h).erase i))
  := by
  obtain ⟨xs, ys, e⟩ := append_of_mem hi
  have hloop := hL.loop h hh
  have hnd := (nodup_cons.mp hloop.1).2
  have herase : (lists h).erase i = xs ++ ys := by
    rw [e] at hnd ⊢
    have : i ∉ xs := fun hx => (nodup_append.mp hnd).2.2 i hx i (by simp) rfl
    rw [erase_append_right _ this, erase_cons_head]
  constructor
  · intro h' hh'
    by_cases e' : h' = h
    · subst e'
      rw [update_self, herase]
      rw [e] at hloop
      apply hloop.unlink
    rw [update_of_ne e']
    apply (hL.loop h' hh').congr
    intro x hx
    apply hloop.unlink_frame hi (hL.apart h' hh' h hh e' x hx)
  have key : ∀ h', ∀ a ∈ h' :: update lists h ((lists h).erase i) h',
      a ∈ h' :: lists h' := by
    intro h' a ha
    by_cases e' : h' = h
    · subst e'
      rw [update_self] at ha
      apply cons_subset_cons _ erase_subset ha
    · rwa [update_of_ne e'] at ha
  intro h₁ hh₁ h₂ hh₂ hne a ha₁ ha₂
  apply hL.apart h₁ hh₁ h₂ hh₂ hne a (key h₁ a ha₁) (key h₂ a ha₂)

theorem Loops.splice (hL : L.Loops H lists) (hs : src ∈ H) (hd : dst ∈ H) (hne : src ≠ dst) :
  (L.splice src dst).Loops H
    (update (update lists dst (lists dst ++ lists src)) src [])
  := by
  have Hs := hL.loop src hs
  have Hd := hL.loop dst hd
  constructor
  · intro h' hh'
    by_cases e : h' = src
    · subst e
      rw [update_self]
      apply Hs.splice_src
    rw [update_of_ne e]
    by_cases e' : h' = dst
    · subst e'
      rw [update_self]
      apply Hs.splice_dst Hd (hL.apart src hs h' hd hne)
    rw [update_of_ne e']
    apply (hL.loop h' hh').congr
    intro x hx
    apply Hs.splice_frame Hd (hL.apart h' hh' src hs e x hx) (hL.apart h' hh' dst hd e' x hx)
  have key : ∀ h', ∀ a ∈ h' :: update (update lists dst
      (lists dst ++ lists src)) src [] h',
      a ∈ h' :: lists h' ∨ h' = dst ∧ a ∈ lists src := by
    intro h' a ha
    by_cases e : h' = src
    · subst e
      rw [update_self] at ha
      left
      apply cons_subset_cons _ (nil_subset _) ha
    rw [update_of_ne e] at ha
    by_cases e' : h' = dst
    · subst e'
      rw [update_self, ← cons_append, mem_append] at ha
      tauto
    rw [update_of_ne e'] at ha
    tauto
  -- A member of the list of `src` now belongs to `dst` and to no other list.
  have moved : ∀ h' ∈ H, h' ≠ dst → ∀ a ∈ lists src, a ∉ h' :: update
      (update lists dst (lists dst ++ lists src)) src [] h' := by
    intro h' hh' hd' a ha ha'
    by_cases e : h' = src
    · subst e
      rw [update_self, mem_singleton] at ha'
      apply (nodup_cons.mp Hs.1).1 (ha' ▸ ha)
    rcases key h' a ha' with h | ⟨rfl, -⟩
    · apply hL.apart src hs h' hh' (Ne.symm e) a (mem_cons_of_mem _ ha) h
    · apply hd' rfl
  intro h₁ hh₁ h₂ hh₂ hne' a ha₁ ha₂
  rcases key h₁ a ha₁ with h | ⟨rfl, h⟩
  · rcases key h₂ a ha₂ with h' | ⟨rfl, h'⟩
    · apply hL.apart h₁ hh₁ h₂ hh₂ hne' a h h'
    · apply moved h₁ hh₁ hne' a h' ha₁
  · apply moved h₂ hh₂ (Ne.symm hne') a h ha₂

end Links
