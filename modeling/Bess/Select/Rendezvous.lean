import Mathlib.Data.BitVec

/-!
# Rendezvous choice of a member

`RendezvousSelector` of `member_select.h` chooses the member whose score is highest. The mixer is
injective, so no two keys tie, and the choice depends on the set of keys alone.
-/

namespace Select

open Function List

/-- `select_internal::Mix64`. -/
def mix64 (x : BitVec 64) : BitVec 64 :=
  let x := x ^^^ x >>> 30
  let x := x * 0xbf58476d1ce4e5b9
  let x := x ^^^ x >>> 27
  let x := x * 0x94d049bb133111eb
  x ^^^ x >>> 31

/-- `RendezvousSelector`. -/
structure RendezvousSelector where
  keys : List (BitVec 64)

namespace RendezvousSelector

/-- `RendezvousSelector::Build`. -/
def build (memberKeys : List (BitVec 64)) : Option RendezvousSelector :=
  if memberKeys = [] ∨ 2 ^ 24 < memberKeys.length then none else some ⟨memberKeys.map mix64⟩

/-- The loop of the choice, on the best score so far and its position. -/
def scan (score : BitVec 64 → BitVec 64) :
    BitVec 64 × ℕ → BitVec 64 × ℕ → BitVec 64 × ℕ
  | (best, chosen), (key, i) => if best < score key then (score key, i) else (best, chosen)

/-- `RendezvousSelector::operator()`. -/
def select (s : RendezvousSelector) (hash : BitVec 32) : ℕ :=
  (s.keys.zipIdx.foldl (scan fun key => mix64 (key ^^^ hash.setWidth 64)) (0, 0)).2

/-- The key of the member that a hash chooses. -/
def chosen (memberKeys : List (BitVec 64)) (hash : BitVec 32) : Option (BitVec 64) :=
  (build memberKeys).bind fun s => memberKeys[s.select hash]?

end RendezvousSelector

theorem xor_shift_injective {k : ℕ} (hk : 0 < k) :
  Injective fun x : BitVec 64 => x ^^^ x >>> k
  := by
  intro a b (h : a ^^^ a >>> k = b ^^^ b >>> k)
  have hfix : a ^^^ b = (a ^^^ b) >>> k := by
    rw [BitVec.ushiftRight_xor_distrib, ← BitVec.xor_eq_zero_iff]
    rw [← BitVec.xor_eq_zero_iff] at h
    rw [← h]
    ac_rfl
  have hnat := congrArg BitVec.toNat hfix
  rw [BitVec.toNat_ushiftRight, Nat.shiftRight_eq_div_pow] at hnat
  rw [← BitVec.xor_eq_zero_iff]
  apply BitVec.eq_of_toNat_eq
  by_contra hne
  exact (Nat.div_lt_self (Nat.pos_of_ne_zero hne) (Nat.one_lt_two_pow hk.ne')).ne' hnat

theorem mul_injective {a b : BitVec 64} (h : a * b = 1) :
  Injective fun x : BitVec 64 => x * a
  := by
  apply LeftInverse.injective (g := (· * b))
  intro x
  simp only [BitVec.mul_assoc, h]
  exact BitVec.mul_one x

theorem mix64_injective :
  Injective mix64
  :=
  (xor_shift_injective (k := 31) (by decide)).comp
    ((mul_injective (b := 0x319642b2d24d8ec3) (by decide)).comp
      ((xor_shift_injective (k := 27) (by decide)).comp
        ((mul_injective (b := 0x96de1b173f119089) (by decide)).comp
          (xor_shift_injective (k := 30) (by decide)))))

namespace RendezvousSelector

/-- The score of a member. -/
def score (hash : BitVec 32) (key : BitVec 64) : BitVec 64 :=
  mix64 (mix64 key ^^^ hash.setWidth 64)

theorem score_injective (hash : BitVec 32) :
  Injective (score hash)
  := by
  apply mix64_injective.comp
  intro a b h
  exact mix64_injective ((BitVec.xor_left_inj _).mp h)

/-- The loop ends with the highest score, and at its position unless all scores are zero. -/
theorem foldl_scan (score : BitVec 64 → BitVec 64) (keys : List (BitVec 64)) :
  let found := keys.zipIdx.foldl (scan score) (0, 0)
  (∀ key ∈ keys, (score key).toNat ≤ found.1.toNat)
    ∧ (found = (0, 0) ∨ ∃ key, keys[found.2]? = some key ∧ score key = found.1)
  := by
  induction keys using reverseRecOn with
  | nil => exact ⟨nofun, .inl rfl⟩
  | append_singleton keys key ih =>
  obtain ⟨hle, hfound⟩ := ih
  rw [zipIdx_append, foldl_append]
  simp only [zipIdx_singleton, foldl_cons, scan, Nat.zero_add, mem_append, mem_singleton]
  split
  case isTrue hlt =>
    refine ⟨?_, .inr ⟨key, getElem?_concat_length, rfl⟩⟩
    rintro key' (hmem | rfl)
    · exact (hle key' hmem).trans hlt.le
    · exact le_rfl
  case isFalse hnot =>
  refine ⟨?_, hfound.imp_right ?_⟩
  · rintro key' (hmem | rfl)
    · exact hle key' hmem
    · exact not_lt.mp hnot
  rintro ⟨key', hkey, hscore⟩
  exact ⟨key', (getElem?_append_left (List.getElem?_eq_some_iff.mp hkey).1).trans hkey, hscore⟩

theorem build_ne_none {keys : List (BitVec 64)} :
  build keys ≠ none ↔ keys ≠ [] ∧ keys.length ≤ 2 ^ 24
  := by
  rw [build]
  simp

variable {keys : List (BitVec 64)} {hash : BitVec 32}

theorem exists_chosen (hbuild : build keys ≠ none) (hash : BitVec 32) :
  ∃ best ∈ keys, chosen keys hash = some best
    ∧ ∀ key ∈ keys, (score hash key).toNat ≤ (score hash best).toNat
  := by
  rw [build_ne_none] at hbuild
  obtain ⟨hle, hfound⟩ := foldl_scan (fun key => mix64 (key ^^^ hash.setWidth 64)) (keys.map mix64)
  rw [chosen, build, if_neg (by simpa using hbuild), Option.bind_some, select]
  generalize foldl (scan _) _ (keys.map mix64).zipIdx = found at hle hfound ⊢
  rw [forall_mem_map] at hle
  rcases hfound with rfl | ⟨_, hget, hscore⟩
  · obtain ⟨best, keys, rfl⟩ := exists_cons_of_ne_nil hbuild.1
    exact ⟨best, mem_cons_self, rfl, fun key hmem => (hle key hmem).trans (Nat.zero_le _)⟩
  rw [getElem?_map] at hget
  obtain ⟨best, hbest, rfl⟩ := Option.map_eq_some_iff.mp hget
  rw [← hscore] at hle
  exact ⟨best, mem_of_getElem? hbest, hbest, hle⟩

/-- No other member has the score of the chosen one. -/
theorem chosen_eq_some {key : BitVec 64} (hbuild : build keys ≠ none) (hmem : key ∈ keys)
    (hmax : ∀ key' ∈ keys, (score hash key').toNat ≤ (score hash key).toNat) :
  chosen keys hash = some key
  := by
  obtain ⟨best, hbest, hchosen, hhigh⟩ := exists_chosen hbuild hash
  rw [hchosen]
  congr 1
  apply score_injective hash
  exact BitVec.eq_of_toNat_eq ((hmax best hbest).antisymm (hhigh key hmem))

/-- The choice does not depend on the order of the members, and a member more or less changes it
only to or from that member. -/
theorem rendezvous_moves_least (keys : List (BitVec 64)) (hash : BitVec 32) :
  match build keys with
  | none => keys = [] ∨ 2 ^ 24 < keys.length
  | some _ => (∃ key ∈ keys, chosen keys hash = some key)
      ∧ (∀ keys', keys' ~ keys → chosen keys' hash = chosen keys hash)
      ∧ ∀ key keys', keys ~ key :: keys' →
          chosen keys hash = some key ∨ chosen keys hash = chosen keys' hash
  := by
  by_cases hbuild : build keys ≠ none
  case neg =>
    rw [not_not.mp hbuild]
    rw [build_ne_none, not_and_or, not_not, not_le] at hbuild
    exact hbuild
  case pos =>
  have hsize := build_ne_none.mp hbuild
  obtain ⟨best, hmem, hchosen, hmax⟩ := exists_chosen hbuild hash
  obtain ⟨s, hs⟩ := Option.ne_none_iff_exists'.mp hbuild
  rw [hs, hchosen]
  refine ⟨⟨best, hmem, rfl⟩, ?_, ?_⟩
  · intro keys' hperm
    apply chosen_eq_some
    · rw [build_ne_none, ← length_pos_iff, hperm.length_eq, length_pos_iff]
      exact hsize
    · exact hperm.mem_iff.mpr hmem
    · exact fun key hkey => hmax key (hperm.mem_iff.mp hkey)
  intro key keys' hperm
  rcases mem_cons.mp (hperm.mem_iff.mp hmem) with rfl | hrest
  · exact .inl rfl
  right
  symm
  apply chosen_eq_some _ hrest
  · exact fun key' hkey => hmax key' (hperm.mem_iff.mpr (mem_cons_of_mem _ hkey))
  rw [hperm.length_eq, length_cons] at hsize
  exact build_ne_none.mpr ⟨ne_nil_of_mem hrest, by omega⟩

end RendezvousSelector

end Select
