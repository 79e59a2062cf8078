import Bess.Napt.Engine

/-!
# Books of bindings

What a NAT keeps is a book: its bindings, each under a pointer, and the port bits. A book is in
order when no endpoint belongs to two bindings and the set bits are those of the bindings' external
ports and those that have leaked, whose bindings were lost. The lemmas here say which changes keep
a book in order; they know nothing of tables.
-/

namespace Napt

open Function Flow Expiry

namespace Binding

/-- The endpoint is one of the binding's two. -/
def Has (b : Binding) (e : Endpoint) : Prop :=
  e = b.internal ∨ e = b.external

/-- The bit of the binding's external port. -/
def place (pool : ℕ → ℕ) (b : Binding) : ℕ × ℕ :=
  (PortPool.bitmap (pool b.addressIndex) b.external.protocol, b.external.port.toNat)

/-- The two bindings have the same endpoints, and their ports come from the same address. -/
def Same (b b' : Binding) : Prop :=
  b'.internal = b.internal ∧ b'.external = b.external ∧ b'.addressIndex = b.addressIndex

variable {b' b : Binding}

theorem Same.has_iff (h : b.Same b') (e : Endpoint) :
  b'.Has e ↔ b.Has e
  := by
  rw [Has, Has, h.1, h.2.1]

theorem Same.place_eq (h : b.Same b') (pool : ℕ → ℕ) :
  b'.place pool = b.place pool
  := by
  rw [place, place, h.2.1, h.2.2]

theorem Same.side_eq (h : b.Same b') (dir : Direction) :
  b'.side dir = b.side dir
  := by
  cases dir with
  | forward => exact h.1
  | reverse => exact h.2.1

end Binding

/-- The bindings of a NAT by their pointers. -/
abbrev Book : Type := BindingRef → Option Binding

namespace Book

/-- An endpoint of some binding. -/
def Bound (book : Book) (e : Endpoint) : Prop :=
  ∃ r b, book r = some b ∧ b.Has e

/-- The external addresses of a NAT: how many there are, the bitmap of each, and its IP. -/
structure Estate : Type where
  count : ℕ
  pool : ℕ → ℕ
  addr : ℕ → BitVec 32

/-- The book is in order, and the set port bits are its own and the `leaked` ones. -/
structure Ordered (estate : Estate) (ports : PortPool) (leaked : Set (ℕ × ℕ)) (book : Book) :
    Prop where
  apart : ∀ {r r' b b' e}, book r = some b → book r' = some b' → b.Has e → b'.Has e → r = r'
  proper : ∀ {r b}, book r = some b → b.internal ≠ b.external
  addressed : ∀ {r b}, book r = some b → b.addressIndex < estate.count
    ∧ b.external.addr = estate.addr b.addressIndex ∧ b.external.protocol = b.internal.protocol
  bits : ∀ map port, ports.bit map port = true
    ↔ (map, port) ∈ leaked ∨ ∃ r b, book r = some b ∧ b.place estate.pool = (map, port)
  kept : ∀ {r b}, book r = some b → b.place estate.pool ∉ leaked
  single : ∀ {r r' b b'}, book r = some b → book r' = some b' →
    b.place estate.pool = b'.place estate.pool → r = r'

variable {estate : Estate} {leaked : Set (ℕ × ℕ)} {ports ports' : PortPool} {book book' : Book}
  {r : BindingRef} {b : Binding}

theorem ordered_empty :
  Ordered estate .empty ∅ fun _ => none
  := by
  constructor
  case bits => simp [PortPool.empty, PortPool.bit]
  all_goals simp

section

variable (h : Ordered estate ports leaked book)

include h

/-- A new binding under unbound endpoints, with a port that was free. -/
theorem Ordered.add (hnew : book r = none)
    (hinternal : ¬ book.Bound b.internal) (hext : ¬ book.Bound b.external)
    (hproper : b.internal ≠ b.external)
    (haddr : b.addressIndex < estate.count ∧ b.external.addr = estate.addr b.addressIndex
      ∧ b.external.protocol = b.internal.protocol)
    (hfree : ports.bit (b.place estate.pool).1 (b.place estate.pool).2 = false)
    (hports : ∀ map port, ports'.bit map port
      = if (map, port) = b.place estate.pool then true else ports.bit map port) :
  Ordered estate ports' leaked (update book r (some b))
  := by
  have hunbound {e : Endpoint} (he : b.Has e) : ¬ book.Bound e := by
    rcases he with rfl | rfl
    · exact hinternal
    · exact hext
  have hclear {r' : BindingRef} {b' : Binding} (hb' : book r' = some b') :
      b'.place estate.pool ≠ b.place estate.pool := by
    intro heq
    have hset := (h.bits (b.place estate.pool).1 (b.place estate.pool).2).mpr
      (.inr ⟨r', b', hb', heq⟩)
    rw [hfree] at hset
    cases hset
  constructor
  case apart =>
    intro r₁ r₂ b₁ b₂ e h₁ h₂ he₁ he₂
    rw [update_apply] at h₁ h₂
    split at h₁ <;> split at h₂
    · simp_all
    · cases h₁
      exact absurd ⟨r₂, b₂, h₂, he₂⟩ (hunbound he₁)
    · cases h₂
      exact absurd ⟨r₁, b₁, h₁, he₁⟩ (hunbound he₂)
    · exact h.apart h₁ h₂ he₁ he₂
  case proper =>
    intro r₁ b₁ h₁
    rw [update_apply] at h₁
    split at h₁
    · cases h₁
      exact hproper
    · exact h.proper h₁
  case addressed =>
    intro r₁ b₁ h₁
    rw [update_apply] at h₁
    split at h₁
    · cases h₁
      exact haddr
    · exact h.addressed h₁
  case bits =>
    intro map port
    rw [hports]
    constructor
    · split
      case isTrue heq => exact fun _ => .inr ⟨r, b, update_self .., heq.symm⟩
      case isFalse =>
      intro hset
      rcases (h.bits map port).mp hset with hleaked | ⟨r', b', hb', hplace⟩
      · exact .inl hleaked
      refine .inr ⟨r', b', ?_, hplace⟩
      rw [update_of_ne, hb']
      rintro rfl
      rw [hnew] at hb'
      cases hb'
    rintro (hleaked | ⟨r', b', hb', hplace⟩)
    · rw [(h.bits map port).mpr (.inl hleaked), ite_self]
    rw [update_apply] at hb'
    split at hb'
    · cases hb'
      rw [if_pos hplace.symm]
    · rw [(h.bits map port).mpr (.inr ⟨r', b', hb', hplace⟩), ite_self]
  case kept =>
    intro r₁ b₁ h₁
    rw [update_apply] at h₁
    split at h₁
    · cases h₁
      intro hleaked
      have hset := (h.bits (b.place estate.pool).1 (b.place estate.pool).2).mpr (.inl hleaked)
      rw [hfree] at hset
      cases hset
    · exact h.kept h₁
  case single =>
  intro r₁ r₂ b₁ b₂ h₁ h₂ hplace
  rw [update_apply] at h₁ h₂
  split at h₁ <;> split at h₂
  · simp_all
  · cases h₁
    exact absurd hplace.symm (hclear h₂)
  · cases h₂
    exact absurd hplace (hclear h₁)
  · exact h.single h₁ h₂ hplace

/-- A binding goes, and its port bit is cleared. -/
theorem Ordered.remove (hold : book r = some b) (hports : ∀ map port, ports'.bit map port
      = if (map, port) = b.place estate.pool then false else ports.bit map port) :
  Ordered estate ports' leaked (update book r none)
  := by
  have hkept {r' : BindingRef} {b' : Binding} (hb' : update book r none r' = some b') :
      r' ≠ r ∧ book r' = some b' := by
    rw [update_apply, Option.ite_none_left_eq_some] at hb'
    exact hb'
  constructor
  case apart =>
    intro r₁ r₂ b₁ b₂ e h₁ h₂
    exact h.apart (hkept h₁).2 (hkept h₂).2
  case proper =>
    intro r₁ b₁ h₁
    exact h.proper (hkept h₁).2
  case addressed =>
    intro r₁ b₁ h₁
    exact h.addressed (hkept h₁).2
  case bits =>
    intro map port
    rw [hports]
    constructor
    · rw [Bool.ite_eq_true_distrib]
      split
      · exact fun hset => absurd hset (by simp)
      case isFalse hne =>
      intro hset
      rcases (h.bits map port).mp hset with hleaked | ⟨r', b', hb', hplace⟩
      · exact .inl hleaked
      refine .inr ⟨r', b', ?_, hplace⟩
      rw [update_of_ne, hb']
      rintro rfl
      rw [hold] at hb'
      cases hb'
      exact hne hplace.symm
    rintro (hleaked | ⟨r', b', hb', hplace⟩)
    · rw [if_neg, (h.bits map port).mpr (.inl hleaked)]
      intro heq
      exact h.kept hold (heq ▸ hleaked)
    obtain ⟨hne, hb'⟩ := hkept hb'
    rw [if_neg, (h.bits map port).mpr (.inr ⟨r', b', hb', hplace⟩)]
    intro heq
    exact hne (h.single hb' hold (hplace.trans heq))
  case kept =>
    intro r₁ b₁ h₁
    exact h.kept (hkept h₁).2
  case single =>
  intro r₁ r₂ b₁ b₂ h₁ h₂
  exact h.single (hkept h₁).2 (hkept h₂).2

/-- The bindings are the same up to what does not name them, each perhaps under another pointer. -/
theorem Ordered.rename {k : BindingRef → BindingRef}
    (hto : ∀ {r b}, book' r = some b → ∃ b', book (k r) = some b' ∧ b'.Same b)
    (hinj : ∀ {r r' b b'}, book' r = some b → book' r' = some b' → k r = k r' → r = r')
    (honto : ∀ {r b}, book r = some b → ∃ r' b', book' r' = some b' ∧ k r' = r)
    (hports : ∀ map port, ports'.bit map port = ports.bit map port) :
  Ordered estate ports' leaked book'
  := by
  constructor
  case apart =>
    intro r₁ r₂ b₁ b₂ e h₁ h₂ he₁ he₂
    obtain ⟨c₁, hc₁, hs₁⟩ := hto h₁
    obtain ⟨c₂, hc₂, hs₂⟩ := hto h₂
    exact hinj h₁ h₂ (h.apart hc₁ hc₂ ((hs₁.has_iff e).mp he₁) ((hs₂.has_iff e).mp he₂))
  case proper =>
    intro r₁ b₁ h₁
    obtain ⟨c₁, hc₁, hs₁⟩ := hto h₁
    rw [hs₁.1, hs₁.2.1]
    exact h.proper hc₁
  case addressed =>
    intro r₁ b₁ h₁
    obtain ⟨c₁, hc₁, hs₁⟩ := hto h₁
    rw [hs₁.1, hs₁.2.1, hs₁.2.2]
    exact h.addressed hc₁
  case bits =>
    intro map port
    rw [hports, h.bits]
    constructor
    · rintro (hleaked | ⟨r', b', hb', hplace⟩)
      · exact .inl hleaked
      obtain ⟨r'', b'', hb'', rfl⟩ := honto hb'
      obtain ⟨c, hc, hs⟩ := hto hb''
      rw [hb'] at hc
      cases hc
      exact .inr ⟨r'', b'', hb'', (hs.place_eq _).trans hplace⟩
    rintro (hleaked | ⟨r', b', hb', hplace⟩)
    · exact .inl hleaked
    obtain ⟨c, hc, hs⟩ := hto hb'
    exact .inr ⟨_, c, hc, (hs.place_eq _).symm.trans hplace⟩
  case kept =>
    intro r₁ b₁ h₁
    obtain ⟨c₁, hc₁, hs₁⟩ := hto h₁
    rw [hs₁.place_eq]
    exact h.kept hc₁
  case single =>
  intro r₁ r₂ b₁ b₂ h₁ h₂ hplace
  obtain ⟨c₁, hc₁, hs₁⟩ := hto h₁
  obtain ⟨c₂, hc₂, hs₂⟩ := hto h₂
  refine hinj h₁ h₂ (h.single hc₁ hc₂ ?_)
  rw [← hs₁.place_eq, ← hs₂.place_eq, hplace]

theorem Ordered.congr (hports : ∀ map port, ports'.bit map port = ports.bit map port) :
  Ordered estate ports' leaked book
  := h.rename (k := id) (fun {_ b} hb => ⟨b, hb, rfl, rfl, rfl⟩) (fun _ _ heq => heq)
    (fun {r b} hb => ⟨r, b, hb, rfl⟩) hports

/-- A write through a pointer that leaves the endpoints. -/
theorem Ordered.write {g : Binding → Binding} (hg : ∀ b : Binding, b.Same (g b)) (r : BindingRef) :
  Ordered estate ports leaked (update book r ((book r).map g))
  := by
  have hback {r' : BindingRef} {b' : Binding}
      (hb' : update book r ((book r).map g) r' = some b') :
      ∃ b, book r' = some b ∧ b.Same b' := by
    rw [update_apply] at hb'
    split at hb'
    case isTrue heq =>
      obtain ⟨b, hb, rfl⟩ := Option.map_eq_some_iff.mp hb'
      exact ⟨b, heq ▸ hb, hg b⟩
    case isFalse => exact ⟨b', hb', rfl, rfl, rfl⟩
  refine h.rename hback (fun _ _ heq => heq) ?_ (fun _ _ => rfl)
  intro r' b' hb'
  refine ⟨r', ?_⟩
  rw [update_apply]
  split
  case isTrue heq =>
    subst heq
    exact ⟨g b', by rw [hb', Option.map_some], rfl⟩
  case isFalse => exact ⟨b', hb', rfl⟩

theorem Ordered.move {r₁ r₂ : BindingRef} (hne : r₁ ≠ r₂)
    (hold : book r₁ = some b) (hnew : book r₂ = none) :
  Ordered estate ports leaked (update (update book r₁ none) r₂ (some b))
  := by
  have hcases (r' : BindingRef) :
      update (update book r₁ none) r₂ (some b) r'
        = if r' = r₂ then some b else if r' = r₁ then none else book r' := by
    rw [update_apply, update_apply]
  refine h.rename (k := fun r => if r = r₂ then r₁ else r) ?_ ?_ ?_ (fun _ _ => rfl)
  · intro r' b' hb'
    rw [hcases] at hb'
    split at hb'
    case isTrue heq =>
      cases hb'
      exact ⟨b, by rw [if_pos heq, hold], rfl, rfl, rfl⟩
    case isFalse hne' =>
    rw [Option.ite_none_left_eq_some] at hb'
    exact ⟨b', by rw [if_neg hne', hb'.2], rfl, rfl, rfl⟩
  · intro r' r'' b' b'' hb' hb'' heq
    rw [hcases] at hb' hb''
    split at hb' <;> split at hb'' <;> simp_all
  intro r' b' hb'
  by_cases heq : r' = r₁
  · exact ⟨r₂, b, by rw [hcases, if_pos rfl], by rw [if_pos rfl, heq]⟩
  have hne' : r' ≠ r₂ := by
    rintro rfl
    rw [hnew] at hb'
    cases hb'
  exact ⟨r', b', by rw [hcases, if_neg hne', if_neg heq, hb'], if_neg hne'⟩

/-- Bindings are lost, and their port bits with them. -/
theorem Ordered.lose (hsub : ∀ {r b}, book' r = some b → book r = some b) :
  Ordered estate ports
    (leaked ∪ {p | ∃ r b, book r = some b ∧ book' r = none ∧ b.place estate.pool = p}) book'
  := by
  constructor
  case apart =>
    intro r₁ r₂ b₁ b₂ e h₁ h₂
    exact h.apart (hsub h₁) (hsub h₂)
  case proper =>
    intro r₁ b₁ h₁
    exact h.proper (hsub h₁)
  case addressed =>
    intro r₁ b₁ h₁
    exact h.addressed (hsub h₁)
  case bits =>
    intro map port
    rw [h.bits, Set.mem_union, or_assoc]
    refine or_congr_right ?_
    constructor
    · rintro ⟨r, b, hb, hplace⟩
      rcases hb' : book' r with _ | b'
      · exact .inl ⟨r, b, hb, hb', hplace⟩
      have hsame := hsub hb'
      rw [hb] at hsame
      cases hsame
      exact .inr ⟨r, b, hb', hplace⟩
    rintro (⟨r, b, hb, _, hplace⟩ | ⟨r, b, hb, hplace⟩)
    · exact ⟨r, b, hb, hplace⟩
    · exact ⟨r, b, hsub hb, hplace⟩
  case kept =>
    rintro r₁ b₁ h₁ (hleaked | ⟨r₂, b₂, h₂, hnone, hplace⟩)
    · exact h.kept (hsub h₁) hleaked
    rw [h.single h₂ (hsub h₁) hplace, h₁] at hnone
    cases hnone
  case single =>
  intro r₁ r₂ b₁ b₂ h₁ h₂
  exact h.single (hsub h₁) (hsub h₂)

end

end Book

end Napt
