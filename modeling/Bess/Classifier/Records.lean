import Bess.Flow.Shared
import Mathlib.Data.List.TakeWhile

/-!
# The record arena

`RecordArena` (`core/classifier/record_arena.cc`). Records are known by their ids. The free list
that runs through the records is a list of ids, and a chunk is only counted. The queue of retired
ids is a vector with a head, and its capacity tells when it has to grow.

An id has one owner at a time, and comes back after a grace period that started when it was
retired. A reservation makes room in the queue, and each retirement uses one up while there are
any, so one that was made without a reservation can take the room that another call has reserved.
-/

namespace Classifier

open Flow List

structure Retiring : Type where
  id : ℕ
  token : GracePeriod

structure RecordArena : Type where
  domain : RcuDomain
  free : List ℕ := []
  retiring : List Retiring := []
  retiringHead : ℕ := 0
  /-- The capacity of `retiring`. -/
  capacity : ℕ := 0
  retirementReserved : ℕ := 0
  nextId : ℕ := 1
  chunks : ℕ := 0

namespace RecordArena

def kChunkBits : ℕ := 10

def kMaxChunks : ℕ := 2 ^ 14

/-- The retired ids that wait for their grace periods. -/
def queue (a : RecordArena) : List Retiring :=
  a.retiring.drop a.retiringHead

/-- The loop frees what is complete at the front of the queue, one by one. -/
def reclaim (a : RecordArena) : RecordArena :=
  let done := a.queue.takeWhile (a.domain.isComplete ·.token)
  let free := (done.map Retiring.id).reverse ++ a.free
  let head := a.retiringHead + done.length
  if head = a.retiring.length then { a with free := free, retiring := [], retiringHead := 0 }
  else if 1024 ≤ head ∧ a.retiring.length ≤ 2 * head then
    { a with free := free, retiring := a.retiring.drop head, retiringHead := 0 }
  else { a with free := free, retiringHead := head }

/-- An id, or 0 if there is none; `none` if there is no memory for another chunk. -/
def allocate (a : RecordArena) (memory : Bool) : RecordArena × Option ℕ :=
  let a := a.reclaim
  match a.free with
  | id :: free => ({ a with free := free }, some id)
  | [] =>
      let chunk := a.nextId >>> kChunkBits
      if kMaxChunks ≤ chunk then (a, some 0)
      else if chunk = a.chunks then
        if memory then ({ a with chunks := a.chunks + 1, nextId := a.nextId + 1 }, some a.nextId)
        else (a, none)
      else ({ a with nextId := a.nextId + 1 }, some a.nextId)

/-- `Free` -/
def release (a : RecordArena) (id : ℕ) : RecordArena :=
  { a with free := id :: a.free }

def reserveRetirement (a : RecordArena) (count : ℕ) : RecordArena :=
  let needed := a.retiring.length + a.retirementReserved + count
  { a with
    capacity := if a.capacity < needed then max needed (2 * a.capacity) else a.capacity
    retirementReserved := a.retirementReserved + count }

def cancelRetirement (a : RecordArena) (count : ℕ) : RecordArena :=
  { a with retirementReserved := a.retirementReserved - count }

/-- `Retire`, and if the queue has to grow. -/
def retire (a : RecordArena) (id : ℕ) : RecordArena × Bool :=
  if id = 0 then (a, false)
  else
    let a := a.reclaim
    let (domain, token) := a.domain.startGracePeriod
    let grows := a.retiring.length = a.capacity
    ({ a with
      domain := domain
      retiring := a.retiring ++ [⟨id, token⟩]
      capacity := if grows then max 1 (2 * a.capacity) else a.capacity
      retirementReserved := a.retirementReserved - 1 }, grows)

variable (careful : Prop)

/-- An arena and what its callers know: the ids that they have, how many reservations they have
neither used nor cancelled, and all retirements. A careful caller makes no retirement without a
reservation while there are reservations. -/
inductive Reached : RecordArena → List ℕ → ℕ → List Retiring → Prop where
  | create (d : RcuDomain) : Reached { domain := d } [] 0 []
  | allocate (h : Reached a live n retired) (memory : Bool) :
      Reached (a.allocate memory).1 (((a.allocate memory).2.filter (· ≠ 0)).toList ++ live) n
        retired
  | free {id : ℕ} (h : Reached a live n retired) (hid : id ∈ live) :
      Reached (a.release id) (live.erase id) n retired
  | reserveRetirement (h : Reached a live n retired) (count : ℕ) :
      Reached (a.reserveRetirement count) live (n + count) retired
  | cancelRetirement (h : Reached a live n retired) (count : ℕ) :
      Reached (a.cancelRetirement count) live (n - count) retired
  | retire {id : ℕ} (h : Reached a live n retired) (hid : id ∈ live) (reserved : Bool)
      (hreserved : reserved = true → 0 < n) (hcareful : careful → reserved = false → n = 0) :
      Reached (a.retire id).1 (live.erase id) (if reserved then n - 1 else n)
        (retired ++ [⟨id, a.domain.startGracePeriod.2⟩])
  | reclaim (h : Reached a live n retired) :
      Reached a.reclaim live n retired
  | startGracePeriod (h : Reached a live n retired) :
      Reached { a with domain := a.domain.startGracePeriod.1 } live n retired
  | complete (h : Reached a live n retired) (htoken : a.domain.completed ≤ token) :
      Reached { a with domain := { a.domain with completed := token } } live n retired

/-- How often an id is free, retiring or live. -/
def ownersOf (a : RecordArena) (live : List ℕ) (id : ℕ) : ℕ :=
  a.free.count id + (a.queue.map Retiring.id).count id + live.count id

structure Inv (a : RecordArena) (live : List ℕ) (n : ℕ) (retired : List Retiring) : Prop where
  owners : ∀ id, a.ownersOf live id = if 1 ≤ id ∧ id < a.nextId then 1 else 0
  history : ∃ done, retired = done ++ a.queue ∧ ∀ r ∈ done, r.token ≤ a.domain.completed
  head_le : a.retiringHead ≤ a.retiring.length
  room : a.retiring.length + a.retirementReserved ≤ a.capacity
  paid : careful → a.retirementReserved = n
  next_pos : 1 ≤ a.nextId
  ascending : retired.Pairwise (·.token ≤ ·.token)
  issued : ∀ r ∈ retired, r.token ≤ a.domain.started

variable {careful} {a : RecordArena} {live : List ℕ} {n : ℕ} {retired : List Retiring}

theorem Inv.zero_not_mem (inv : Inv careful a live n retired) :
  0 ∉ a.free ∧ 0 ∉ live
  := by
  have howners := inv.owners 0
  rw [ownersOf, if_neg (by omega)] at howners
  exact ⟨count_eq_zero.mp (by omega), count_eq_zero.mp (by omega)⟩

theorem Inv.reclaim (inv : Inv careful a live n retired) :
  Inv careful a.reclaim live n retired ∧ a.reclaim.domain = a.domain
    ∧ a.reclaim.queue = a.queue.dropWhile (a.domain.isComplete ·.token)
  := by
  rw [RecordArena.reclaim]
  have hcomplete : ∀ r ∈ a.queue.takeWhile (a.domain.isComplete ·.token),
      r.token ≤ a.domain.completed := by
    intro r hr
    simpa [RcuDomain.isComplete] using mem_takeWhile_imp hr
  have hqueue := takeWhile_append_dropWhile (p := (a.domain.isComplete ·.token)) (l := a.queue)
  generalize a.queue.takeWhile (a.domain.isComplete ·.token) = done at hcomplete hqueue
  generalize a.queue.dropWhile _ = rest at hqueue
  have hrest : a.retiring.drop (a.retiringHead + done.length) = rest := by
    rw [← drop_drop, ← queue, ← hqueue, drop_left]
  have hlen := congrArg length hqueue
  rw [queue, length_drop, length_append] at hlen
  have hhead := inv.head_le
  have hkeep {retiring : List Retiring} {head : ℕ} (hsplit : retiring.drop head = rest)
      (hle : retiring.length ≤ a.retiring.length) (hhead : head ≤ retiring.length) :
      Inv careful { a with
        free := (done.map Retiring.id).reverse ++ a.free
        retiring := retiring
        retiringHead := head } live n retired := by
    refine { inv with owners := ?_, history := ?_, head_le := hhead, room := ?_ }
    · intro id
      refine Eq.trans ?_ (inv.owners id)
      rw [ownersOf, ownersOf, ← hqueue, ← hsplit, map_append]
      simp only [queue, count_append, count_reverse]
      omega
    · obtain ⟨done', rfl, hdone'⟩ := inv.history
      refine ⟨done' ++ done, ?_, forall_mem_append.mpr ⟨hdone', hcomplete⟩⟩
      rw [append_assoc, ← hqueue, ← hsplit]
      rfl
    · exact (Nat.add_le_add_right hle _).trans inv.room
  split_ifs with hall
  · rw [hall, drop_length] at hrest
    exact ⟨hkeep hrest (Nat.zero_le _) (le_refl _), rfl, hrest⟩
  · exact ⟨hkeep hrest (drop_sublist ..).length_le (Nat.zero_le _), rfl, hrest⟩
  · exact ⟨hkeep hrest (le_refl _) (by omega), rfl, hrest⟩

/-- The queue is in the order of its grace periods, so a reclaim leaves none that is complete. -/
theorem Inv.reclaim_incomplete (inv : Inv careful a live n retired) :
  ∀ r ∈ a.reclaim.queue, a.domain.completed < r.token
  := by
  rw [inv.reclaim.2.2]
  obtain ⟨done, hretired, _⟩ := inv.history
  have hqueue := (pairwise_append.mp (hretired ▸ inv.ascending)).2.1
  generalize a.queue = queue at hqueue
  induction queue with
  | nil => exact nofun
  | cons r queue ih =>
  rw [dropWhile_cons]
  split
  case isTrue => exact ih hqueue.of_cons
  case isFalse hincomplete =>
  rw [RcuDomain.isComplete, decide_eq_true_iff, not_le] at hincomplete
  exact forall_mem_cons.mpr
    ⟨hincomplete, fun r' hr' => hincomplete.trans_le (rel_of_pairwise_cons hqueue hr')⟩

theorem Inv.allocate (inv : Inv careful a live n retired) (memory : Bool) :
  Inv careful (a.allocate memory).1 (((a.allocate memory).2.filter (· ≠ 0)).toList ++ live) n
    retired
  := by
  obtain ⟨inv, -⟩ := inv.reclaim
  rw [RecordArena.allocate]
  generalize a.reclaim = a at inv
  have hpos := inv.next_pos
  have hnew (chunks : ℕ) : Inv careful { a with chunks := chunks, nextId := a.nextId + 1 }
      (((some a.nextId).filter (· ≠ 0)).toList ++ live) n retired := by
    rw [Option.filter_some_pos (by simpa using Nat.ne_of_gt hpos)]
    refine { inv with owners := ?_, next_pos := hpos.trans (Nat.le_succ _) }
    intro id
    have howners := inv.owners id
    simp only [ownersOf, queue, count_append, Option.toList_some, count_singleton, beq_iff_eq]
      at howners ⊢
    split_ifs at howners ⊢ <;> omega
  dsimp only
  split
  case h_2 =>
    split_ifs
    · exact inv
    · exact hnew _
    · exact inv
    · exact hnew _
  case h_1 id free hfree =>
  have hne : id ≠ 0 := by
    rintro rfl
    exact inv.zero_not_mem.1 (hfree ▸ mem_cons_self)
  rw [Option.filter_some_pos (by simpa using hne)]
  refine { inv with owners := ?_ }
  intro id'
  refine Eq.trans ?_ (inv.owners id')
  simp only [ownersOf, queue, hfree, count_append, count_cons, Option.toList_some, count_nil]
  omega

theorem Reached.inv (reached : Reached careful a live n retired) :
  Inv careful a live n retired
  := by
  induction reached with
  | create d =>
    refine ⟨fun id => (if_neg ?_).symm, ⟨[], rfl, nofun⟩, le_refl _, le_refl _, fun _ => rfl,
      le_refl _, .nil, nofun⟩
    dsimp only
    omega
  | allocate h memory ih => exact ih.allocate memory
  | free h hid ih =>
    refine { ih with owners := ?_ }
    intro id'
    refine Eq.trans ?_ (ih.owners id')
    have hlive := (perm_cons_erase hid).count_eq id'
    simp only [ownersOf, queue, release, count_cons] at hlive ⊢
    omega
  | reserveRetirement h count ih =>
    refine { ih with room := ?_, paid := fun hcareful => congrArg (· + count) (ih.paid hcareful) }
    simp only [RecordArena.reserveRetirement]
    split <;> omega
  | cancelRetirement h count ih =>
    refine { ih with room := ?_, paid := fun hcareful => congrArg (· - count) (ih.paid hcareful) }
    exact (Nat.add_le_add_left (Nat.sub_le ..) _).trans ih.room
  | @retire a _ _ _ id h hid reserved hreserved hcareful ih =>
    have hne : id ≠ 0 := by
      rintro rfl
      exact ih.zero_not_mem.2 hid
    obtain ⟨inv, hdom, -⟩ := ih.reclaim
    rw [RecordArena.retire, if_neg hne, ← hdom]
    generalize a.reclaim = a at inv
    have hroom := inv.room
    have hhead := inv.head_le
    have hqueue (r : Retiring) : (a.retiring ++ [r]).drop a.retiringHead = a.queue ++ [r] :=
      drop_append_of_le_length hhead
    have hissued := fun r hr => (inv.issued r hr).trans (Nat.le_succ _)
    refine { inv with
      owners := ?_, history := ?_, head_le := ?_, room := ?_, paid := ?_
      ascending := pairwise_append.mpr ⟨inv.ascending, pairwise_singleton .., fun r hr =>
        forall_mem_singleton.mpr (hissued r hr)⟩
      issued := forall_mem_append.mpr ⟨hissued, forall_mem_singleton.mpr le_rfl⟩ }
    · intro id'
      refine Eq.trans ?_ (inv.owners id')
      have hlive := (perm_cons_erase hid).count_eq id'
      rw [count_cons] at hlive
      change _ + count id' (map _ (drop _ (_ ++ _))) + _ = _
      rw [hqueue, ownersOf, map_append, count_append, map_singleton, count_singleton]
      dsimp only
      omega
    · obtain ⟨done, rfl, hdone⟩ := inv.history
      refine ⟨done, ?_, hdone⟩
      change _ = done ++ drop _ (_ ++ _)
      rw [hqueue, append_assoc]
    · simp only [length_append]
      omega
    · simp only [length_append, length_singleton]
      split <;> omega
    intro hc
    have hpaid := inv.paid hc
    cases reserved with
    | true => exact congrArg (· - 1) hpaid
    | false =>
    have hnone := hcareful hc rfl
    simp only [Bool.false_eq_true, if_false]
    omega
  | reclaim h ih => exact ih.reclaim.1
  | startGracePeriod h ih =>
    exact { ih with issued := fun r hr => (ih.issued r hr).trans (Nat.le_succ _) }
  | complete h htoken ih =>
  obtain ⟨done, hretired, hdone⟩ := ih.history
  exact { ih with history := ⟨done, hretired, fun r hr => (hdone r hr).trans htoken⟩ }

/-- Every id below the next new one is free, retiring or live, and only one of them, and no other id
is. An id that is handed out was not live, and the grace periods of all its retirements are
complete; every retirement is waiting or was reclaimed, in order, and after a reclaim none is waiting
whose grace period is complete. A retirement with a reservation does not grow the queue if none is made
without one while there are reservations. -/
theorem ids_owned (reached : Reached careful a live n retired) :
  (∀ id, a.ownersOf live id = if 1 ≤ id ∧ id < a.nextId then 1 else 0)
    ∧ (∀ memory id, (a.allocate memory).2 = some id → id ≠ 0 → id ∉ live
      ∧ ∀ r ∈ retired, r.id = id → r.token ≤ (a.allocate memory).1.domain.completed)
    ∧ (∃ done, retired = done ++ a.queue ∧ ∀ r ∈ done, r.token ≤ a.domain.completed)
    ∧ (∀ r ∈ a.reclaim.queue, a.reclaim.domain.completed < r.token)
    ∧ (careful → 0 < n → ∀ id, (a.retire id).2 = false)
  := by
  have inv := reached.inv
  refine ⟨inv.owners, ?_, inv.history, ?_, ?_⟩
  · intro memory id hid hne
    have inv := (reached.allocate memory).inv
    rw [hid, Option.filter_some_pos (by simpa using hne)] at inv
    have howners := inv.owners id
    rw [ownersOf, Option.toList_some, singleton_append, count_cons_self] at howners
    obtain ⟨done, hretired, hdone⟩ := inv.history
    split at howners
    case isFalse => omega
    case isTrue =>
    refine ⟨count_eq_zero.mp (by omega), ?_⟩
    intro r hr hid
    rw [hretired] at hr
    refine hdone r ((mem_append.mp hr).resolve_right fun hr => ?_)
    have := count_pos_iff.mpr (mem_map.mpr ⟨r, hr, hid⟩)
    omega
  · rw [inv.reclaim.2.1]
    exact inv.reclaim_incomplete
  intro hcareful hn id
  obtain ⟨inv, -⟩ := inv.reclaim
  have hroom := inv.room
  have hpaid := inv.paid hcareful
  rw [RecordArena.retire]
  split
  case isTrue => rfl
  case isFalse => exact decide_eq_false (by omega)

/-- A reservation and two ids, one of which is retired. -/
theorem ids_owned_reserved :
  let a := ({ domain := ⟨0, 0⟩ } : RecordArena).reserveRetirement 1
  let a := ((a.allocate true).1.allocate true).1
  a.ownersOf [2, 1] 2 = 1 ∧ (a.retire 2).2 = false
    ∧ (a.retire 2).1.reclaim.queue = [⟨2, 1⟩]
    ∧ ∀ r ∈ (a.retire 2).1.reclaim.queue, (a.retire 2).1.reclaim.domain.completed < r.token
  := by
  have reached : Reached True _ [2, 1] 1 [] :=
    (((Reached.create ⟨0, 0⟩).reserveRetirement 1).allocate true).allocate true
  have retired := reached.retire (by decide : 2 ∈ _) true (fun _ => one_pos) nofun
  obtain ⟨howners, _, _, _, hroom⟩ := ids_owned reached
  obtain ⟨_, _, _, hwaits, _⟩ := ids_owned retired
  exact ⟨howners 2, hroom trivial one_pos 2, rfl, hwaits⟩

/-- A retirement without a reservation takes the room that was reserved, and the one with the
reservation grows the queue. -/
theorem reserved_retire_grows :
  ∃ a, Reached False a [2] 1 [⟨1, 1⟩] ∧ (a.retire 2).2 = true
  := by
  have reached : Reached False _ [2, 1] 1 [] :=
    (((Reached.create ⟨0, 0⟩).reserveRetirement 1).allocate true).allocate true
  exact ⟨_, reached.retire (by decide : 1 ∈ _) false nofun nofun, by decide⟩

end RecordArena

end Classifier
