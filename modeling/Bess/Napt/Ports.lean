import Mathlib.Tactic.NormNum
import Bess.Foundations.Bits

/-!
# External ports

`PortPool` of `core/nat/nat.h`: a bitmap of 65536 ports for each external address and protocol
class. `allocate` scans a span of ports from a random place on, a 64-bit word at a time, takes the
first free one and marks it. Ports are natural numbers here; the span of a mapping never passes
65536.
-/

namespace Napt

open BitVec Function List

/-- The bitmaps, by address and class, as 1024 words each. -/
structure PortPool : Type where
  bits : ℕ → ℕ → BitVec 64

namespace PortPool

def kClasses : ℕ := 3

/-- The class of a protocol: TCP, UDP, and all others. -/
def classOf (protocol : BitVec 16) : ℕ :=
  if protocol = 6 then 0 else if protocol = 17 then 1 else 2

def bitmap (address : ℕ) (protocol : BitVec 16) : ℕ :=
  address * kClasses + classOf protocol

/-- A pool with every port free. -/
def empty : PortPool :=
  ⟨fun _ _ => 0⟩

/-- The clear bits of a word from `bit` on, below `width`. -/
def freeBits (word : BitVec 64) (bit width : ℕ) : BitVec 64 :=
  let free := ~~~word &&& (BitVec.allOnes 64 <<< bit)
  if width < 64 then free &&& ((1#64 <<< width) - 1) else free

/-- The loop of `Allocate` over one span of a bitmap: the first clear bit in `[p, stop)`. Every
round reaches the end of a word. -/
def scan (bm : ℕ → BitVec 64) (stop : ℕ) : ℕ → ℕ → Option ℕ
  | 0, _ => none
  | fuel + 1, p =>
      if p < stop then
        let word := p / 64
        let wordEnd := min stop ((word + 1) * 64)
        let free := freeBits (bm word) (p % 64) (wordEnd - word * 64)
        if free ≠ 0 then some (word * 64 + free.ctz.toNat) else scan bm stop fuel wordEnd
      else none

variable (pool : PortPool) {protocol : BitVec 16} {r : ℕ × ℕ} {fuel stop p : ℕ}

/-- Writes one bit of a bitmap. -/
def setBit (map port : ℕ) (value : Bool) : PortPool :=
  let word := pool.bits map (port / 64)
  let mask := 1#64 <<< (port % 64)
  ⟨update pool.bits map (update (pool.bits map) (port / 64)
    (if value then word ||| mask else word &&& ~~~mask))⟩

/-- A free port in `[lo, hi)`, marked used. `start` is the random offset into the span. -/
def allocate (address : ℕ) (protocol : BitVec 16) (lo hi : ℕ)
    (start : BitVec 32) : Option (ℕ × PortPool) :=
  if hi ≤ lo then none
  else
    let map := bitmap address protocol
    let p := lo + start.toNat % (hi - lo)
    -- `[p, hi)` first, then `[lo, p)`
    let port := (scan (pool.bits map) hi 1025 p).or (scan (pool.bits map) p 1025 lo)
    port.map fun port => (port, pool.setBit map port true)

def release (address : ℕ) (protocol : BitVec 16) (port : ℕ) : PortPool :=
  pool.setBit (bitmap address protocol) port false

/-- Whether a bit of a bitmap is set. -/
def bit (map port : ℕ) : Bool :=
  (pool.bits map (port / 64)).getLsbD (port % 64)

def used (address : ℕ) (protocol : BitVec 16) (port : ℕ) : Bool :=
  pool.bit (bitmap address protocol) port

/-! ### What the operations do to the bits -/

theorem classOf_lt (protocol : BitVec 16) :
  classOf protocol < kClasses
  := by
  rw [classOf, kClasses]
  split
  · omega
  · split <;> omega

theorem bitmap_inj {a a' : ℕ} {protocol' : BitVec 16} :
  bitmap a protocol = bitmap a' protocol' ↔ a = a' ∧ classOf protocol = classOf protocol'
  := by
  have h := classOf_lt protocol
  have h' := classOf_lt protocol'
  rw [bitmap, bitmap]
  rw [kClasses] at *
  omega

theorem getLsbD_mask (i j : ℕ) (hi : i < 64) :
  (1#64 <<< j).getLsbD i = decide (i = j)
  := by
  rcases Nat.lt_trichotomy i j with h | h | h
  · simp [h, Nat.ne_of_lt h]
  · simp [h, h ▸ hi]
  simp [Nat.ne_of_gt h]
  omega

theorem bit_setBit (map port : ℕ) (value : Bool) (map' port' : ℕ) :
  (pool.setBit map port value).bit map' port'
    = if map' = map ∧ port' = port then value else pool.bit map' port'
  := by
  simp only [bit, setBit]
  by_cases hmap : map' = map
  case neg =>
    rw [update_of_ne hmap, if_neg (fun h => hmap h.1)]
  case pos =>
  have hmod := Nat.mod_lt port' (show 0 < 64 by omega)
  rw [hmap, update_self]
  by_cases hword : port' / 64 = port / 64
  case neg =>
    have hne : port' ≠ port := by
      rintro rfl
      exact hword rfl
    rw [update_of_ne hword, if_neg (fun h => hne h.2)]
  case pos =>
  have hiff : port' % 64 = port % 64 ↔ port' = port := by omega
  rw [hword, update_self]
  cases value with
  | true =>
    rw [if_pos rfl, getLsbD_or, getLsbD_mask _ _ hmod]
    by_cases h : port' = port <;> simp [h, hiff]
  | false =>
  rw [if_neg (by simp), getLsbD_and, getLsbD_not, getLsbD_mask _ _ hmod]
  by_cases h : port' = port <;> simp [h, hiff, hmod]

theorem getLsbD_freeBits (bm : BitVec 64) (bit width i : ℕ) (hi : i < 64) :
  (freeBits bm bit width).getLsbD i
    = (!bm.getLsbD i && decide (bit ≤ i) && decide (width < 64 → i < width))
  := by
  rw [freeBits]
  have hlow : (~~~bm &&& (BitVec.allOnes 64 <<< bit)).getLsbD i
      = (!bm.getLsbD i && decide (bit ≤ i)) := by
    rw [getLsbD_and, getLsbD_shiftLeft, getLsbD_allOnes]
    by_cases h : bit ≤ i
    · simp [hi, h, show i - bit < 64 by omega]
    · simp [h]
  by_cases hwidth : width < 64
  case neg => rw [if_neg hwidth, hlow, decide_eq_true (fun h => absurd h hwidth), Bool.and_true]
  case pos =>
  have hmask := Bits.getLsbD_first hwidth.le i
  rw [Bits.first, if_neg hwidth.ne] at hmask
  rw [if_pos hwidth, getLsbD_and, hlow, hmask]
  simp [hwidth]

/-! ### The ports a scan looks at -/

/-- The rounds of `scan`: the ports `[r.1, r.2)` that each one looks at, if none before it found a
port. -/
def rounds (stop : ℕ) : ℕ → ℕ → List (ℕ × ℕ)
  | 0, _ => []
  | fuel + 1, p =>
      if p < stop then
        (p, min stop ((p / 64 + 1) * 64)) :: rounds stop fuel (min stop ((p / 64 + 1) * 64))
      else []

/-- What one round finds. -/
def look (bm : ℕ → BitVec 64) (r : ℕ × ℕ) : Option ℕ :=
  let free := freeBits (bm (r.1 / 64)) (r.1 % 64) (r.2 - r.1 / 64 * 64)
  if free ≠ 0 then some (r.1 / 64 * 64 + free.ctz.toNat) else none

theorem scan_eq_findSome (bm : ℕ → BitVec 64) (stop fuel p : ℕ) :
  scan bm stop fuel p = (rounds stop fuel p).findSome? (look bm)
  := by
  induction fuel generalizing p with
  | zero => rfl
  | succ fuel ih =>
  rw [scan, rounds]
  split
  case isFalse => rfl
  case isTrue =>
  rw [findSome?_cons, ← ih, look]
  dsimp only
  split <;> rfl

theorem rounds_of_mem (hr : r ∈ rounds stop fuel p) :
  p ≤ r.1 ∧ r.1 < r.2 ∧ r.2 = min stop ((r.1 / 64 + 1) * 64)
  := by
  induction fuel generalizing p with
  | zero => exact absurd hr not_mem_nil
  | succ fuel ih =>
  rw [rounds] at hr
  split at hr
  case isFalse => exact absurd hr not_mem_nil
  case isTrue hp =>
  rcases mem_cons.mp hr with rfl | hr
  · exact ⟨le_rfl, by dsimp only; omega, rfl⟩
  obtain ⟨hle, hround⟩ := ih hr
  exact ⟨by omega, hround⟩

/-- The rounds look at every port once, in order. -/
theorem flatMap_rounds (hfuel : p < stop → stop ≤ (p / 64 + fuel) * 64) :
  (rounds stop fuel p).flatMap (fun r => List.range' r.1 (r.2 - r.1)) = List.range' p (stop - p)
  := by
  induction fuel generalizing p with
  | zero =>
    rw [show stop - p = 0 by omega]
    rfl
  | succ fuel ih =>
  rw [rounds]
  split
  case isFalse =>
    rw [show stop - p = 0 by omega]
    rfl
  case isTrue hlt =>
  set wordEnd := min stop ((p / 64 + 1) * 64) with hend
  have hsplit : stop - p = (wordEnd - p) + (stop - wordEnd) := by omega
  have hnext : p + (wordEnd - p) = wordEnd := by omega
  have happend := range'_append_1 (s := p) (m := wordEnd - p) (n := stop - wordEnd)
  rw [flatMap_cons, ih (by omega), hsplit, ← happend, hnext]

/-- A round finds the first clear bit of its ports. -/
theorem look_eq_find (bm : ℕ → BitVec 64) (hr : r.1 < r.2 ∧ r.2 = min stop ((r.1 / 64 + 1) * 64)) :
  look bm r = (List.range' r.1 (r.2 - r.1)).find? fun q => !(bm (q / 64)).getLsbD (q % 64)
  := by
  obtain ⟨p, e⟩ := r
  obtain ⟨hlt, he⟩ := hr
  dsimp only at hlt he
  have hfree : ∀ i < 64, (freeBits (bm (p / 64)) (p % 64) (e - p / 64 * 64)).getLsbD i
      = (!(bm (p / 64)).getLsbD i && decide (p ≤ p / 64 * 64 + i ∧ p / 64 * 64 + i < e)) := by
    intro i hi
    rw [getLsbD_freeBits _ _ _ _ hi, Bool.and_assoc, ← Bool.decide_and]
    congr 2
    apply propext
    omega
  rw [look]
  set free := freeBits (bm (p / 64)) (p % 64) (e - p / 64 * 64)
  symm
  split
  case isTrue hne =>
    have hbit := getLsbD_true_ctz_of_ne_zero hne
    have hi := lt_of_getLsbD hbit
    rw [hfree _ hi, Bool.and_eq_true, decide_eq_true_eq] at hbit
    rw [find?_range'_eq_some]
    refine ⟨?_, by rw [mem_range'_1]; omega, ?_⟩
    · rw [show (p / 64 * 64 + free.ctz.toNat) / 64 = p / 64 by omega,
        show (p / 64 * 64 + free.ctz.toNat) % 64 = free.ctz.toNat by omega]
      exact hbit.1
    intro q hq hqlt
    have hlow := getLsbD_false_of_lt_ctz (x := free) (i := q % 64) (by omega)
    rw [hfree _ (by omega), Bool.and_eq_false_iff] at hlow
    rw [show q / 64 = p / 64 by omega]
    rcases hlow with hset | hout
    · rw [hset]
      rfl
    · exact absurd (of_decide_eq_false hout) (by omega)
  case isFalse hzero =>
  rw [find?_eq_none]
  intro q hq
  rw [mem_range'_1] at hq
  have hbit := hfree (q % 64) (by omega)
  rw [not_not.mp hzero, ofNat_eq_ofNat, getLsbD_zero, eq_comm, Bool.and_eq_false_iff] at hbit
  rw [show q / 64 = p / 64 by omega]
  rcases hbit with hset | hout
  · simpa using hset
  · exact absurd (of_decide_eq_false hout) (by omega)

theorem scan_some {bm : ℕ → BitVec 64} {q : ℕ} (h : scan bm stop fuel p = some q) :
  p ≤ q ∧ q < stop ∧ (bm (q / 64)).getLsbD (q % 64) = false
  := by
  rw [scan_eq_findSome] at h
  obtain ⟨r, hr, h⟩ := exists_of_findSome?_eq_some h
  obtain ⟨hle, hround⟩ := rounds_of_mem hr
  rw [look_eq_find bm hround] at h
  have hmem := mem_range'_1.mp (mem_of_find?_eq_some h)
  exact ⟨by omega, by omega, by simpa using find?_some h⟩

/-- A scan that may look at every word finds the first clear bit of its span. -/
theorem scan_eq_find (bm : ℕ → BitVec 64) (hstop : stop ≤ 65536) (p : ℕ) :
  scan bm stop 1025 p
    = (List.range' p (stop - p)).find? fun q => !(bm (q / 64)).getLsbD (q % 64)
  := by
  have hports : (rounds stop 1025 p).flatMap (fun r => List.range' r.1 (r.2 - r.1))
      = List.range' p (stop - p) := flatMap_rounds (by omega)
  rw [scan_eq_findSome, ← hports, find?_flatMap, ← head?_filterMap, ← head?_filterMap]
  congr 1
  apply filterMap_congr
  intro r hr
  exact look_eq_find bm (rounds_of_mem hr).2

/-- An allocated port is in its span and was free, and its bit is the only one that changes. -/
theorem allocate_some {pool pool' : PortPool} {address : ℕ} {lo hi : ℕ} {start : BitVec 32} {port : ℕ}
    (h : pool.allocate address protocol lo hi start = some (port, pool')) :
  lo ≤ port ∧ port < hi ∧ pool.used address protocol port = false
    ∧ pool' = pool.setBit (bitmap address protocol) port true
  := by
  obtain ⟨-, ⟨⟩⟩ | ⟨hlo, h⟩ := ite_eq_iff.mp h
  obtain ⟨q, hq, heq⟩ := Option.map_eq_some_iff.mp h
  obtain ⟨rfl, rfl⟩ := Prod.mk.inj heq
  have hstart : start.toNat % (hi - lo) < hi - lo := Nat.mod_lt _ (by omega)
  rcases Option.or_eq_some_iff.mp hq with hscan | ⟨_, hscan⟩
  · obtain ⟨hle, hlt, hclear⟩ := scan_some hscan
    exact ⟨by omega, hlt, hclear, rfl⟩
  obtain ⟨hle, hlt, hclear⟩ := scan_some hscan
  exact ⟨hle, by omega, hclear, rfl⟩

/-- Allocation is complete, and looks at each port of its span once: from the starting port to the
end of the span, then from the beginning on, with every round going on to the end of its word. -/
theorem allocate_complete (pool : PortPool) (address : ℕ) (protocol : BitVec 16) {lo hi : ℕ}
    (hlo : lo < hi) (hhi : hi ≤ 65536) (start : BitVec 32) :
  let map := bitmap address protocol
  let p := lo + start.toNat % (hi - lo)
  let probe := rounds hi 1025 p ++ rounds p 1025 lo
  ((∃ port pool', pool.allocate address protocol lo hi start = some (port, pool'))
      ↔ ∃ port, lo ≤ port ∧ port < hi ∧ pool.used address protocol port = false)
    ∧ (∀ port pool', pool.allocate address protocol lo hi start = some (port, pool') →
        lo ≤ port ∧ port < hi ∧ pool.used address protocol port = false
          ∧ ∀ map' port', pool'.bit map' port'
              = if map' = map ∧ port' = port then true else pool.bit map' port')
    ∧ pool.allocate address protocol lo hi start
        = (probe.findSome? (look (pool.bits map))).map (fun port => (port, pool.setBit map port true))
    ∧ probe.flatMap (fun r => List.range' r.1 (r.2 - r.1))
        = List.range' p (hi - p) ++ List.range' lo (p - lo)
    ∧ (∀ r ∈ rounds hi 1025 p, r.2 = min hi ((r.1 / 64 + 1) * 64))
    ∧ ∀ r ∈ rounds p 1025 lo, r.2 = min p ((r.1 / 64 + 1) * 64)
  := by
  intro map p probe
  have hp : p < hi := by
    have := Nat.mod_lt start.toNat (show 0 < hi - lo by omega)
    omega
  have hallocate : pool.allocate address protocol lo hi start
      = ((scan (pool.bits map) hi 1025 p).or (scan (pool.bits map) p 1025 lo)).map
          fun port => (port, pool.setBit map port true) := if_neg (by omega)
  refine ⟨?_, ?_, ?_, ?_, fun r hr => (rounds_of_mem hr).2.2, fun r hr => (rounds_of_mem hr).2.2⟩
  · constructor
    · rintro ⟨port, pool', h⟩
      obtain ⟨hle, hlt, hfree, -⟩ := allocate_some h
      exact ⟨port, hle, hlt, hfree⟩
    rintro ⟨port, hle, hlt, hfree⟩
    have hmem : port ∈ List.range' p (hi - p) ++ List.range' lo (p - lo) := by
      rw [mem_append, mem_range'_1, mem_range'_1]
      omega
    have hfound : ((List.range' p (hi - p) ++ List.range' lo (p - lo)).find?
        fun q => !pool.bit map q).isSome := by
      rw [find?_isSome]
      exact ⟨port, hmem, by simpa [used] using hfree⟩
    obtain ⟨q, hq⟩ := Option.isSome_iff_exists.mp hfound
    rw [find?_append] at hq
    refine ⟨q, pool.setBit map q true, ?_⟩
    rw [hallocate, scan_eq_find _ hhi, scan_eq_find _ (by omega), Option.map_eq_some_iff]
    exact ⟨q, hq, rfl⟩
  · intro port pool' h
    obtain ⟨hle, hlt, hfree, rfl⟩ := allocate_some h
    refine ⟨hle, hlt, hfree, ?_⟩
    apply bit_setBit
  · rw [hallocate, scan_eq_findSome, scan_eq_findSome, findSome?_append]
  · rw [flatMap_append, flatMap_rounds (by omega), flatMap_rounds (by omega)]

/-- The only free port of a span inside one word is found from every starting point. -/
theorem allocate_complete_oneWord :
  ∃ port pool', ((⟨fun _ _ => ~~~(1#64 <<< 7)⟩ : PortPool).allocate 0 6 70 100 20)
    = some (port, pool')
  := by
  apply (allocate_complete _ 0 6 (by decide) (by decide) 20).1.mpr
  exact ⟨71, by decide⟩

end PortPool

end Napt
