import Bess.Classifier.Prefixes

/-!
# The first match of the firewall

`firstMatch` is what a policy means: the first rule that holds the key decides. The groups of a
built table hold the rules of the policy by family, protocol and prefix lengths, each in the order
of the policy; a group answers with the first of its rules that holds the key, and the walk over
the groups finds the first of those.
-/

namespace Classifier

open List FirewallScan

/-- The first rule of a policy that holds a key, numbered from 1. -/
def firstMatch (rules : List FirewallRule) (key : FirewallKey) : Option Match :=
  (rules.zipIdx 1).findSome? fun entry =>
    if entry.1.Holds key then some ⟨entry.1.action, entry.2⟩ else none

/-! ### Building -/

namespace FirewallTable

/-- The entry of a rule. -/
def entryOf (rule : FirewallRule) (index : ℕ) : Entry :=
  ⟨pack rule.srcNet rule.srcLen rule.dstNet rule.dstLen rule.family, index⟩

/-- The entries of a group, in the order of the policy. -/
def entriesFor (rules : List FirewallRule) (g : GroupKey) : List Entry :=
  (rules.zipIdx 1).filterMap fun entry =>
    if groupOf entry.1 = g then some (entryOf entry.1 entry.2) else none

/-- The group of a key of groups. -/
def groupFor (rules : List FirewallRule) (g : GroupKey) : Group :=
  let maskSrc := maskBytes g.2.2.1 g.1
  let maskDst := maskBytes g.2.2.2 g.1
  { family := g.1
    proto := g.2.1
    srcLen := g.2.2.1
    dstLen := g.2.2.2
    keyBytes := 2 * familyBytes g.1
    mask64 := Classifier.mask64 maskSrc maskDst
    maskSrc := maskSrc
    maskDst := maskDst
    firstRule := ((entriesFor rules g).head?.map (·.rule)).getD 0
    entries := entriesFor rules g }

theorem entriesFor_append (rules : List FirewallRule) (rule : FirewallRule) (g : GroupKey) :
  entriesFor (rules ++ [rule]) g
    = entriesFor rules g ++ if groupOf rule = g then [entryOf rule (rules.length + 1)] else []
  := by
  rw [entriesFor, zipIdx_append, filterMap_append, Nat.add_comm 1]
  congr 1
  rw [zipIdx_singleton, filterMap_cons, filterMap_nil]
  split
  case h_1 hnone =>
    simp only [ite_eq_right_iff, reduceCtorEq] at hnone
    rw [if_neg hnone]
  case h_2 entry hsome =>
  simp only [Option.ite_none_right_eq_some, Option.some.injEq] at hsome
  rw [if_pos hsome.1, hsome.2]

/-- What `Build` has after some rules it accepted. -/
structure Built (b : Building) (policy : List FirewallRule) : Prop where
  index : b.index = policy.length
  rules : b.rules = policy.map normalizeRule
  groups : ∀ g, b.byKey.lookup g
    = if entriesFor policy g = [] then none else some (groupFor policy g)
  accepted : ∀ rule ∈ policy, rule.refusal = none
  any : b.stats.anyFamilyRules = policy.countP fun rule => decide (rule.family = .any)
  ipv4 : b.stats.ipv4Rules = policy.countP fun rule => decide (rule.family = .ipv4)
  ipv6 : b.stats.ipv6Rules = policy.countP fun rule => decide (rule.family = .ipv6)

theorem Built.empty :
  Built {} []
  := by
  refine ⟨rfl, rfl, ?_, nofun, rfl, rfl, rfl⟩
  intro g
  exact AList.lookup_empty g

variable {rules : List FirewallRule}

theorem addEntry_groupFor (rule : FirewallRule) :
  addEntry (if entriesFor rules (groupOf rule) = [] then none
      else some (groupFor rules (groupOf rule))) rule (rules.length + 1)
    = groupFor (rules ++ [rule]) (groupOf rule)
  := by
  have hentries := entriesFor_append rules rule (groupOf rule)
  rw [if_pos rfl] at hentries
  rw [addEntry]
  simp only [normalizeRule, pack_maskedAddr]
  by_cases hempty : entriesFor rules (groupOf rule) = []
  · rw [if_pos hempty, groupFor, hentries, hempty]
    rfl
  obtain ⟨entry, entries, hcons⟩ := exists_cons_of_ne_nil hempty
  rw [groupFor, groupFor, hentries, hcons]
  rfl

variable {rule : FirewallRule} {t : FirewallTable} {i best : ℕ} {q p : ℕ → Prop} {key : FirewallKey}
  {b' b : Building} {g : GroupKey}

theorem Built.addRule (h : Built b rules) (hadd : addRule b rule = .ok b') :
  Built b' (rules ++ [rule])
  := by
  rw [FirewallTable.addRule] at hadd
  split at hadd
  case h_1 => cases hadd
  case h_2 hcheck =>
  cases hadd
  have hrefusal : rule.refusal = none := Option.map_eq_none_iff.mp hcheck
  have hlen : (rules ++ [rule]).length = rules.length + 1 := length_append
  constructor
  case index => rw [h.index, hlen]
  case rules =>
    rw [h.rules, map_append]
    rfl
  case groups =>
    intro g
    by_cases hg : g = groupOf rule
    · subst hg
      have hne : entriesFor (rules ++ [rule]) (groupOf rule) ≠ [] := by
        rw [entriesFor_append, if_pos rfl]
        exact append_ne_nil_of_right_ne_nil _ nofun
      rw [AList.lookup_insert, h.groups, h.index, addEntry_groupFor, if_neg hne]
    have hsame : entriesFor (rules ++ [rule]) g = entriesFor rules g := by
      rw [entriesFor_append, if_neg (Ne.symm hg), append_nil]
    rw [AList.lookup_insert_ne hg, h.groups, groupFor, groupFor, hsame]
  case accepted =>
    intro other hother
    rcases mem_append.mp hother with hmem | hmem
    · exact h.accepted other hmem
    rw [mem_singleton.mp hmem]
    exact hrefusal
  case any =>
    rw [countP_append, countP_singleton, ← h.any]
    cases rule.family <;> rfl
  case ipv4 =>
    rw [countP_append, countP_singleton, ← h.ipv4]
    cases rule.family <;> rfl
  case ipv6 =>
  rw [countP_append, countP_singleton, ← h.ipv6]
  cases rule.family <;> rfl

theorem Built.foldlM {done rules : List FirewallRule} (h : Built b done)
    (hfold : rules.foldlM FirewallTable.addRule b = .ok b') :
  Built b' (done ++ rules)
  := by
  induction rules generalizing b done with
  | nil =>
    cases hfold
    rw [append_nil]
    exact h
  | cons rule rules ih =>
  rw [foldlM_cons] at hfold
  cases hadd : FirewallTable.addRule b rule with
  | error refused =>
    rw [hadd] at hfold
    cases hfold
  | ok b₁ =>
  rw [hadd] at hfold
  have hbuilt := ih (h.addRule hadd) hfold
  rwa [append_assoc] at hbuilt

/-! ### The answer of a group -/

/-- Rule number `n` is in the group and holds the key. -/
def HoldsAt (rules : List FirewallRule) (g : GroupKey) (key : FirewallKey) (n : ℕ) : Prop :=
  ∃ rule, n ≠ 0 ∧ rules[n - 1]? = some rule ∧ groupOf rule = g ∧ rule.Holds key

/-- The first number with a property, 0 when there is none. -/
def FirstOf (p : ℕ → Prop) (n : ℕ) : Prop :=
  n = kNoRule ∧ (∀ m, ¬ p m) ∨ n ≠ kNoRule ∧ p n ∧ ∀ m, p m → n ≤ m

theorem mem_entriesFor {entry : Entry} :
  entry ∈ entriesFor rules g ↔ ∃ i rule, rules[i]? = some rule ∧ groupOf rule = g
    ∧ entry = entryOf rule (i + 1)
  := by
  rw [entriesFor, mem_filterMap]
  constructor
  · rintro ⟨⟨rule, n⟩, hmem, hentry⟩
    rw [mem_zipIdx_iff_le_and_getElem?_sub] at hmem
    obtain ⟨hn, hget⟩ := hmem
    obtain ⟨i, rfl⟩ := Nat.exists_eq_add_of_le hn
    rw [Option.ite_none_right_eq_some] at hentry
    rw [Nat.add_sub_cancel_left] at hget
    refine ⟨i, rule, hget, hentry.1, ?_⟩
    rw [Nat.add_comm i]
    exact (Option.some.inj hentry.2).symm
  rintro ⟨i, rule, hget, hgroup, rfl⟩
  refine ⟨(rule, i + 1), ?_, if_pos hgroup⟩
  rw [mem_zipIdx_iff_le_and_getElem?_sub]
  exact ⟨Nat.le_add_left 1 i, hget⟩

theorem pairwise_entriesFor (rules : List FirewallRule) (g : GroupKey) :
  (entriesFor rules g).Pairwise fun a b => a.rule < b.rule
  := by
  rw [entriesFor, pairwise_filterMap]
  have hindex : (rules.zipIdx 1).Pairwise fun entry entry' => entry.2 < entry'.2 := by
    have hrange : ((rules.zipIdx 1).map Prod.snd).Pairwise (· < ·) := by
      rw [zipIdx_map_snd]
      exact pairwise_lt_range'
    exact pairwise_map.mp hrange
  apply hindex.imp
  intro entry entry' hlt a ha b hb
  rw [Option.ite_none_right_eq_some, Option.some.injEq] at ha hb
  rw [← ha.2, ← hb.2]
  exact hlt

theorem getLsbD_mask64 (src dst : FirewallAddr) (k : ℕ) :
  (mask64 src dst).getLsbD k
    = if k < 32 then (load32 src 0).getLsbD k else (load32 dst 0).getLsbD (k - 32)
  := by
  rw [mask64, BitVec.getLsbD_or, BitVec.getLsbD_setWidth, BitVec.getLsbD_shiftLeft,
    BitVec.getLsbD_setWidth]
  by_cases hlow : k < 32
  · rw [if_pos hlow]
    simp [hlow]
    omega
  rw [BitVec.getLsbD_of_ge _ _ (not_lt.mp hlow)]
  by_cases hhigh : k < 64
  · simp [hlow, hhigh]
    omega
  have hbeyond : 32 ≤ k - 32 := by omega
  rw [BitVec.getLsbD_of_ge _ (k - 32) hbeyond]
  simp

theorem getLsbD_load32 (p : ℕ → BitVec 8) {k : ℕ} (hi : i < 4) (hk : k < 8) :
  (load32 p 0).getLsbD (8 * i + k) = (p i).getLsbD k
  := by
  rw [load32, BitVec.getLsbD_append, BitVec.getLsbD_append, BitVec.getLsbD_append]
  interval_cases i
  · rw [if_pos (by omega), Nat.zero_add]
  · rw [if_neg (by omega), if_pos (by omega)]
    congr 1
    omega
  · rw [if_neg (by omega), if_neg (by omega), if_pos (by omega)]
    congr 1
    omega
  rw [if_neg (by omega), if_neg (by omega), if_neg (by omega)]
  congr 1
  omega

theorem extract_mask64_low (src dst : FirewallAddr) (hi : i < 4) :
  (mask64 src dst).extractLsb' (8 * i) 8 = src i
  := by
  apply BitVec.eq_of_getLsbD_eq
  intro k hk
  rw [BitVec.getLsbD_extractLsb', decide_eq_true hk, Bool.true_and, getLsbD_mask64,
    if_pos (by omega), getLsbD_load32 src hi hk]

theorem extract_mask64_high (src dst : FirewallAddr) (hi : i < 4) :
  (mask64 src dst).extractLsb' (8 * (4 + i)) 8 = dst i
  := by
  apply BitVec.eq_of_getLsbD_eq
  intro k hk
  have hindex : 8 * (4 + i) + k - 32 = 8 * i + k := by omega
  rw [BitVec.getLsbD_extractLsb', decide_eq_true hk, Bool.true_and, getLsbD_mask64,
    if_neg (by omega), hindex, getLsbD_load32 dst hi hk]

/-- The packet's addresses are packed to the lengths of the group. -/
theorem want_groupFor (rules : List FirewallRule) (g : GroupKey) (key : FirewallKey) :
  want (sortEntries (groupFor rules g)) key = pack key.src g.2.2.1 key.dst g.2.2.2 g.1
  := by
  obtain ⟨family, proto, srcLen, dstLen⟩ := g
  cases family with
  | any =>
    apply eq_pack
    · intro i hi
      exact absurd hi (Nat.not_lt_zero i)
    · intro i hi
      exact absurd hi (Nat.not_lt_zero i)
    intro i _
    rfl
  | ipv6 => rfl
  | ipv4 =>
  apply eq_pack
  · intro i hi
    have hi' : i < 4 := hi
    refine (if_pos (by omega)).trans ?_
    refine BitVec.extractLsb'_and.trans ?_
    rw [extract_mask64_low _ _ hi']
    exact congrArg _ (extract_mask64_low _ _ hi')
  · intro i hi
    have hi' : i < 4 := hi
    refine (if_pos (by change 4 + i < 8; omega)).trans ?_
    refine BitVec.extractLsb'_and.trans ?_
    exact congrArg₂ _ (extract_mask64_high _ _ hi') (extract_mask64_high _ _ hi')
  intro i hi
  have hi' : 8 ≤ i := hi
  exact if_neg (by omega)

/-- The search in a group finds its entries with the key, in the order of their rules. -/
theorem equal_entries (group : Group) (packed : PackedKey) :
  ((sortEntries group).entries.drop (Search.lowerBound (fun i =>
      decide (∃ entry ∈ (sortEntries group).entries[i]?,
        keyLess (sortEntries group).keyBytes entry.key packed)) 0
      (sortEntries group).entries.length)).takeWhile
      (fun entry => keyEqual (sortEntries group).keyBytes entry.key packed)
    = group.entries.filter fun entry => keyEqual group.keyBytes entry.key packed
  := by
  have hsorted : (sortEntries group).entries
      = Search.sortBy (fun entry => keyRank group.keyBytes entry.key) group.entries := by
    change group.entries.mergeSort (fun a b => !keyLess group.keyBytes b.key a.key) = _
    congr 1
    funext a b
    rw [keyLess_eq, ← decide_not]
    exact decide_eq_decide.mpr not_lt
  have hrun := Search.run_sortBy (fun entry => keyRank group.keyBytes entry.key)
    (keyRank group.keyBytes packed) group.entries
  rw [← hsorted] at hrun
  simp only [keyLess_eq, keyEqual_eq, decide_eq_true_eq]
  exact hrun

/-- The entry of a rule has the key of the packet exactly when its prefixes hold the addresses. -/
theorem keyEqual_entryOf (hrefusal : rule.refusal = none) (key : FirewallKey) (index : ℕ) :
  keyEqual (2 * familyBytes rule.family) (entryOf rule index).key
      (pack key.src rule.srcLen key.dst rule.dstLen rule.family) = true
    ↔ InPrefix rule.srcNet rule.srcLen key.src ∧ InPrefix rule.dstNet rule.dstLen key.dst
  := by
  obtain ⟨-, hsrc, hdst⟩ := refusal_eq_none hrefusal
  rw [← pack_eq_iff hsrc hdst]
  refine (keyEqual_iff ?_ ?_).trans eq_comm
  · intro i hi
    exact pack_beyond hi
  intro i hi
  exact pack_beyond hi

theorem entryMatches_entryOf (hget : rules[i]? = some rule) (hrefusal : rule.refusal = none)
    (hfam : rule.family = .any ∨ rule.family = key.family) :
  entryMatches (rules.map normalizeRule) key
      (pack key.src rule.srcLen key.dst rule.dstLen rule.family) (entryOf rule (i + 1))
    = decide (rule.Holds key)
  := by
  have hget' : (rules.map normalizeRule)[(entryOf rule (i + 1)).rule - 1]?
      = some (normalizeRule rule) := by
    change (rules.map normalizeRule)[i + 1 - 1]? = _
    rw [Nat.add_sub_cancel, getElem?_map, hget]
    rfl
  rw [entryMatches, hget']
  exact matches_normalizeRule hrefusal hfam fun _ => rfl

/-- A group answers with the first of its rules that holds the key. -/
theorem matchInGroup_firstOf (hrules : t.rules = rules.map normalizeRule)
    (hacc : ∀ rule ∈ rules, rule.refusal = none) (g : GroupKey) (key : FirewallKey) :
  FirstOf (HoldsAt rules g key) (t.matchInGroup (sortEntries (groupFor rules g)) key)
  := by
  rw [matchInGroup]
  split
  case isTrue hfam =>
    refine Or.inl ⟨rfl, ?_⟩
    rintro m ⟨rule, -, -, rfl, hholds⟩
    rcases hholds.1 with hany | hsame
    · exact hfam.1 hany
    · exact hfam.2 hsame
  case isFalse hfam =>
  split
  case isTrue hproto =>
    refine Or.inl ⟨rfl, ?_⟩
    rintro m ⟨rule, -, -, rfl, hholds⟩
    rcases hholds.2.1 with hany | hsame
    · exact hproto.1 hany
    · exact hproto.2 hsame
  case isFalse =>
  have hfam' : g.1 = .any ∨ g.1 = key.family := by
    by_contra hnot
    rw [not_or] at hnot
    exact hfam hnot
  simp only [want_groupFor, hrules]
  rw [equal_entries (groupFor rules g)]
  -- the entries with the key are those of the rules whose prefixes hold the addresses
  have hentry : ∀ i rule, rules[i]? = some rule → groupOf rule = g → rule.Holds key →
      entryOf rule (i + 1) ∈ (groupFor rules g).entries.filter (fun entry =>
          keyEqual (groupFor rules g).keyBytes entry.key (pack key.src g.2.2.1 key.dst g.2.2.2 g.1))
        ∧ entryMatches (rules.map normalizeRule) key
          (pack key.src g.2.2.1 key.dst g.2.2.2 g.1) (entryOf rule (i + 1)) = true := by
    rintro i rule hget rfl hholds
    have hrefusal := hacc rule (mem_of_getElem? hget)
    constructor
    · apply mem_filter.mpr
      refine ⟨mem_entriesFor.mpr ⟨i, rule, hget, rfl, rfl⟩, ?_⟩
      exact (keyEqual_entryOf hrefusal key (i + 1)).mpr ⟨hholds.2.2.1, hholds.2.2.2.1⟩
    refine (entryMatches_entryOf hget hrefusal hfam').trans ?_
    exact decide_eq_true hholds
  split
  case h_2 hnone =>
    refine Or.inl ⟨rfl, ?_⟩
    rintro m ⟨rule, hm, hget, hgroup, hholds⟩
    obtain ⟨hmem, hmatches⟩ := hentry (m - 1) rule hget hgroup hholds
    exact absurd hmatches (find?_eq_none.mp hnone _ hmem)
  case h_1 entry hsome =>
  obtain ⟨hmatches, before, after, hsplit, hbefore⟩ := find?_eq_some_iff_append.mp hsome
  have hmem : entry ∈ entriesFor rules g := (mem_filter.mp (mem_of_find?_eq_some hsome)).1
  obtain ⟨i, rule, hget, hgroup, rfl⟩ := mem_entriesFor.mp hmem
  refine Or.inr ⟨Nat.succ_ne_zero i, ⟨rule, Nat.succ_ne_zero i, hget, hgroup, ?_⟩, ?_⟩
  · have hrefusal := hacc rule (mem_of_getElem? hget)
    subst hgroup
    exact of_decide_eq_true ((entryMatches_entryOf hget hrefusal hfam').symm.trans hmatches)
  rintro m ⟨other, hm, hget', hgroup', hholds⟩
  obtain ⟨hmem', hmatches'⟩ := hentry (m - 1) other hget' hgroup' hholds
  have hpair : (before ++ entryOf rule (i + 1) :: after).Pairwise
      fun a b => a.rule < b.rule := by
    rw [← hsplit]
    exact (pairwise_entriesFor rules g).sublist filter_sublist
  have hm' : (entryOf other (m - 1 + 1)).rule = m := Nat.succ_pred hm
  rw [hsplit] at hmem'
  rcases mem_append.mp hmem' with hearlier | hlater
  · have hnot := hbefore _ hearlier
    rw [hmatches'] at hnot
    cases hnot
  rcases mem_cons.mp hlater with heq | hlater
  · rw [← heq, hm']
  have hlt := (pairwise_cons.mp (pairwise_append.mp hpair).2.1).1 _ hlater
  rw [hm'] at hlt
  exact hlt.le

/-! ### The walk over the groups -/

theorem FirstOf.congr {n : ℕ} (h : FirstOf p n) (hpq : ∀ m, p m ↔ q m) :
  FirstOf q n
  := by
  have heq : p = q := funext fun m => propext (hpq m)
  rwa [← heq]

theorem FirstOf.or {found : ℕ} (h : FirstOf p best) (h' : FirstOf q found) :
  FirstOf (fun m => p m ∨ q m)
    (if found ≠ kNoRule ∧ (best = kNoRule ∨ found < best) then found else best)
  := by
  rcases h with ⟨rfl, hnone⟩ | ⟨hbest, hp, hleast⟩
  · rcases h' with ⟨rfl, hnone'⟩ | ⟨hfound, hq, hleast'⟩
    · rw [if_neg fun hcond => hcond.1 rfl]
      exact Or.inl ⟨rfl, fun m hm => hm.elim (hnone m) (hnone' m)⟩
    rw [if_pos ⟨hfound, Or.inl rfl⟩]
    exact Or.inr ⟨hfound, Or.inr hq, fun m hm => hm.elim (fun hp => absurd hp (hnone m)) (hleast' m)⟩
  rcases h' with ⟨rfl, hnone'⟩ | ⟨hfound, hq, hleast'⟩
  · rw [if_neg fun hcond => hcond.1 rfl]
    exact Or.inr ⟨hbest, Or.inl hp, fun m hm => hm.elim (hleast m) fun hq => absurd hq (hnone' m)⟩
  split
  case isTrue hcond =>
    have hlt := hcond.2.resolve_left hbest
    exact Or.inr ⟨hfound, Or.inr hq, fun m hm =>
      hm.elim (fun hp => hlt.le.trans (hleast m hp)) (hleast' m)⟩
  case isFalse hcond =>
  have hle : best ≤ found := not_lt.mp fun hlt => hcond ⟨hfound, Or.inr hlt⟩
  exact Or.inr ⟨hbest, Or.inl hp, fun m hm =>
    hm.elim (hleast m) fun hq => hle.trans (hleast' m hq)⟩

/-- The loop finds the first of the answers of the groups: no group after the one it stops at has
a better rule. -/
theorem bestRule_firstOf {p : Group → ℕ → Prop} {groups : List Group}
    (hsorted : groups.Pairwise fun a b => a.firstRule ≤ b.firstRule)
    (hans : ∀ group ∈ groups, FirstOf (p group) (t.matchInGroup group key))
    (hfirst : ∀ group ∈ groups, ∀ m, p group m → group.firstRule ≤ m) (hbest : FirstOf q best) :
  FirstOf (fun m => q m ∨ ∃ group ∈ groups, p group m) (t.bestRule key best groups)
  := by
  induction groups generalizing q best with
  | nil =>
    apply hbest.congr
    simp
  | cons group groups ih =>
  rw [pairwise_cons] at hsorted
  rw [forall_mem_cons] at hans hfirst
  rw [bestRule]
  split
  case isFalse =>
    apply (ih hsorted.2 hans.2 hfirst.2 (hbest.or hans.1)).congr
    intro m
    rw [exists_mem_cons_iff, or_assoc]
  case isTrue hstop =>
  rcases hbest with ⟨hzero, -⟩ | ⟨hne, hq, hleast⟩
  · exact absurd hzero hstop.1
  refine Or.inr ⟨hne, Or.inl hq, ?_⟩
  rintro m (hm | ⟨other, hother, hm⟩)
  · exact hleast m hm
  rcases mem_cons.mp hother with rfl | hmem
  · exact hstop.2.trans (hfirst.1 m hm)
  · exact hstop.2.trans ((hsorted.1 other hmem).trans (hfirst.2 other hmem m hm))

/-- The best rule of a group comes before its others. -/
theorem firstRule_le {m : ℕ} (h : HoldsAt rules g key m) :
  (groupFor rules g).firstRule ≤ m
  := by
  obtain ⟨rule, hm, hget, hgroup, -⟩ := h
  have hmem : entryOf rule (m - 1 + 1) ∈ entriesFor rules g :=
    mem_entriesFor.mpr ⟨m - 1, rule, hget, hgroup, rfl⟩
  have hm' : (entryOf rule (m - 1 + 1)).rule = m := Nat.succ_pred hm
  have hpair := pairwise_entriesFor rules g
  change ((entriesFor rules g).head?.map (·.rule)).getD 0 ≤ m
  cases hentries : entriesFor rules g with
  | nil =>
    rw [hentries] at hmem
    cases hmem
  | cons entry entries =>
  rw [hentries] at hmem hpair
  change entry.rule ≤ m
  rcases mem_cons.mp hmem with heq | hlater
  · rw [← heq, hm']
  have hlt := (pairwise_cons.mp hpair).1 _ hlater
  rw [hm'] at hlt
  exact hlt.le

/-! ### Tables that were built -/

/-- What a table that was built holds. -/
structure Indexes (t : FirewallTable) (policy : List FirewallRule) : Prop where
  rules : t.rules = policy.map normalizeRule
  accepted : ∀ rule ∈ policy, rule.refusal = none
  sorted : t.groups.Pairwise fun a b => a.firstRule ≤ b.firstRule
  groups : ∀ group, group ∈ t.groups ↔ ∃ g, entriesFor policy g ≠ [] ∧
    group = sortEntries (groupFor policy g)
  any : t.stats.anyFamilyRules = policy.countP fun rule => decide (rule.family = .any)
  ipv4 : t.stats.ipv4Rules = policy.countP fun rule => decide (rule.family = .ipv4)
  ipv6 : t.stats.ipv6Rules = policy.countP fun rule => decide (rule.family = .ipv6)

variable {policy : List FirewallRule}

theorem Indexes.build (h : build policy = .ok t) :
  Indexes t policy
  := by
  cases hfold : policy.foldlM addRule {} with
  | error refused =>
    rw [FirewallTable.build, hfold] at h
    cases h
  | ok b =>
  rw [FirewallTable.build, hfold] at h
  cases h
  have hbuilt := Built.empty.foldlM hfold
  rw [nil_append] at hbuilt
  refine ⟨hbuilt.rules, hbuilt.accepted, ?_, ?_, hbuilt.any, hbuilt.ipv4, hbuilt.ipv6⟩
  · exact Search.pairwise_sortBy (fun group : Group => group.firstRule) _
  intro group
  change group ∈ Search.sortBy (fun group : Group => group.firstRule) _ ↔ _
  rw [Search.sortBy, mem_mergeSort, mem_map]
  constructor
  · rintro ⟨⟨g, group'⟩, hmem, rfl⟩
    have hlook := hbuilt.groups g
    rw [AList.mem_lookup_iff.mpr hmem] at hlook
    split at hlook
    case isTrue => cases hlook
    case isFalse hne =>
    cases hlook
    exact ⟨g, hne, rfl⟩
  rintro ⟨g, hne, rfl⟩
  have hlook := hbuilt.groups g
  rw [if_neg hne] at hlook
  exact ⟨⟨g, groupFor policy g⟩, AList.mem_lookup_iff.mp hlook, rfl⟩

/-- The number of the first rule of the policy that holds the key. -/
theorem Indexes.bestRule (h : Indexes t policy) (key : FirewallKey) :
  FirstOf (fun m => ∃ rule, m ≠ 0 ∧ policy[m - 1]? = some rule ∧ rule.Holds key)
    (t.bestRule key kNoRule t.groups)
  := by
  have hwalk := bestRule_firstOf
    (p := fun group => HoldsAt policy (group.family, group.proto, group.srcLen, group.dstLen) key)
    h.sorted
    (by
      intro group hgroup
      obtain ⟨g, -, rfl⟩ := (h.groups group).mp hgroup
      exact matchInGroup_firstOf h.rules h.accepted g key)
    (by
      intro group hgroup m hm
      obtain ⟨g, -, rfl⟩ := (h.groups group).mp hgroup
      exact firstRule_le hm)
    (Or.inl ⟨rfl, fun _ => id⟩)
  apply hwalk.congr
  intro m
  rw [false_or]
  constructor
  · rintro ⟨group, -, rule, hm, hget, -, hholds⟩
    exact ⟨rule, hm, hget, hholds⟩
  rintro ⟨rule, hm, hget, hholds⟩
  have hentry : entryOf rule (m - 1 + 1) ∈ entriesFor policy (groupOf rule) :=
    mem_entriesFor.mpr ⟨m - 1, rule, hget, rfl, rfl⟩
  refine ⟨sortEntries (groupFor policy (groupOf rule)), ?_, rule, hm, hget, rfl, hholds⟩
  exact (h.groups _).mpr ⟨groupOf rule, ne_nil_of_mem hentry, rfl⟩

end FirewallTable

/-! ### First matches -/

variable {key : FirewallKey} {policy : List FirewallRule} {t : FirewallTable}

theorem firstMatch_eq_none_iff {rules : List FirewallRule} :
  firstMatch rules key = none ↔ ∀ rule ∈ rules, ¬ rule.Holds key
  := by
  rw [firstMatch, findSome?_eq_none_iff]
  constructor
  · intro hnone rule hrule hholds
    obtain ⟨i, hi, rfl⟩ := getElem_of_mem hrule
    have hentry := hnone (rules[i], 1 + i) (mem_zipIdx_iff_le_and_getElem?_sub.mpr
      ⟨Nat.le_add_right 1 i, by rw [Nat.add_sub_cancel_left]; exact getElem?_eq_getElem hi⟩)
    rw [if_pos hholds] at hentry
    cases hentry
  rintro hnone ⟨rule, n⟩ hmem
  obtain ⟨-, hget⟩ := mem_zipIdx_iff_le_and_getElem?_sub.mp hmem
  exact if_neg (hnone rule (mem_of_getElem? hget))

/-- The first rule that holds the key, with those before it. -/
theorem firstMatch_eq_some {rules : List FirewallRule} {i : ℕ}
    {rule : FirewallRule} (hget : rules[i]? = some rule) (hholds : rule.Holds key)
    (hfirst : ∀ j < i, ∀ other, rules[j]? = some other → ¬ other.Holds key) :
  firstMatch rules key = some ⟨rule.action, i + 1⟩
  := by
  have hgeneral : ∀ (rules : List FirewallRule) (i n : ℕ), rules[i]? = some rule →
      (∀ j < i, ∀ other, rules[j]? = some other → ¬ other.Holds key) →
      ((rules.zipIdx n).findSome? fun entry =>
        if entry.1.Holds key then some (⟨entry.1.action, entry.2⟩ : Match) else none)
        = some ⟨rule.action, n + i⟩ := by
    intro rules
    induction rules with
    | nil =>
      intro i n hget
      cases hget
    | cons other rules ih =>
    intro i n hget hfirst
    rw [zipIdx_cons, findSome?_cons]
    cases i with
    | zero =>
      cases hget
      rw [if_pos hholds]
      rfl
    | succ i =>
    rw [if_neg (hfirst 0 (Nat.succ_pos i) other rfl)]
    have hrest := ih i (n + 1) hget fun j hj other' hget' =>
      hfirst (j + 1) (Nat.succ_lt_succ hj) other' hget'
    rw [Nat.add_right_comm] at hrest
    exact hrest
  have hsome := hgeneral rules i 1 hget hfirst
  rw [Nat.add_comm 1] at hsome
  exact hsome

theorem FirewallTable.Indexes.lookup (h : FirewallTable.Indexes t policy) (key : FirewallKey) :
  t.lookup key = firstMatch policy key
  := by
  rw [FirewallTable.lookup]
  rcases h.bestRule key with ⟨hzero, hnone⟩ | ⟨hne, ⟨rule, -, hget, hholds⟩, hleast⟩
  · rw [if_pos hzero]
    symm
    apply firstMatch_eq_none_iff.mpr
    intro rule hrule hholds
    obtain ⟨i, hi, rfl⟩ := getElem_of_mem hrule
    exact hnone (i + 1) ⟨policy[i], Nat.succ_ne_zero i, getElem?_eq_getElem hi, hholds⟩
  rw [if_neg hne]
  have hfirst : firstMatch policy key = some ⟨rule.action, _⟩ :=
    firstMatch_eq_some hget hholds (by
      intro j hj other hget' hholds'
      have hle := hleast (j + 1) ⟨other, Nat.succ_ne_zero j, hget', hholds'⟩
      omega)
  rw [hfirst, h.rules, getElem?_map, hget]
  rw [Nat.sub_add_cancel (Nat.one_le_iff_ne_zero.mpr hne)]
  rfl

/-! ### The scan -/

namespace FirewallScan

theorem accepted_of_checkRules {rules : List FirewallRule} {n : ℕ}
    (h : checkRules rules n = .ok ()) :
  ∀ rule ∈ rules, rule.refusal = none
  := by
  induction rules generalizing n with
  | nil => nofun
  | cons rule rules ih =>
  rw [checkRules] at h
  split at h
  case h_1 => cases h
  case h_2 hcheck =>
  rw [forall_mem_cons]
  exact ⟨Option.map_eq_none_iff.mp hcheck, ih h⟩

/-- `Build` refuses what `Create` refuses, with the same words. -/
theorem foldlM_of_checkRules (rules : List FirewallRule) (b : FirewallTable.Building) :
  (∀ refused, checkRules rules b.index = .error refused →
      rules.foldlM FirewallTable.addRule b = .error refused)
    ∧ (checkRules rules b.index = .ok () → ∃ b', rules.foldlM FirewallTable.addRule b = .ok b')
  := by
  induction rules generalizing b with
  | nil => exact ⟨nofun, fun _ => ⟨b, rfl⟩⟩
  | cons rule rules ih =>
  rw [checkRules, foldlM_cons, FirewallTable.addRule]
  cases checkRule rule (b.index + 1) with
  | some refused =>
    refine ⟨?_, nofun⟩
    rintro _ ⟨⟩
    rfl
  | none => exact ih ⟨b.index + 1, _, _, _⟩

theorem create_eq (rules : List FirewallRule) :
  create rules = (checkRules rules 0).map fun _ => ⟨rules.map normalizeRule⟩
  := by
  rw [create]
  cases checkRules rules 0 with
  | error | ok => rfl

theorem build_error_iff (rules : List FirewallRule) (refused : String) :
  FirewallTable.build rules = .error refused ↔ create rules = .error refused
  := by
  obtain ⟨herror, hok⟩ := foldlM_of_checkRules rules {}
  rw [create_eq, FirewallTable.build]
  cases hcheck : checkRules rules 0 with
  | ok _ =>
    obtain ⟨b, hfold⟩ := hok hcheck
    rw [hfold]
    exact ⟨nofun, nofun⟩
  | error refused' =>
  rw [herror refused' hcheck]
  constructor
  · rintro ⟨⟩
    rfl
  rintro ⟨⟩
  rfl

theorem lookupFrom_eq {rules : List FirewallRule} (hacc : ∀ rule ∈ rules, rule.refusal = none)
    (key : FirewallKey) (i : ℕ) :
  lookupFrom key (rules.map normalizeRule) i
    = (rules.zipIdx (i + 1)).findSome? fun entry =>
        if entry.1.Holds key then some ⟨entry.1.action, entry.2⟩ else none
  := by
  induction rules generalizing i with
  | nil => rfl
  | cons rule rules ih =>
  rw [forall_mem_cons] at hacc
  rw [map_cons, lookupFrom, zipIdx_cons, findSome?_cons, ih hacc.2]
  split
  case isTrue hfam =>
    have hnot : ¬ rule.Holds key := fun hholds => hholds.1.elim hfam.1 hfam.2
    rw [if_neg hnot]
  case isFalse hfam =>
  have hfam' : rule.family = .any ∨ rule.family = key.family := by
    by_contra hnot
    rw [not_or] at hnot
    exact hfam hnot
  have hmatches := matches_normalizeRule hacc.1 hfam' fun hany => by
    rw [hfam'.resolve_left hany]
  change (if (normalizeRule rule).matches key
    (pack key.src rule.srcLen key.dst rule.dstLen key.family) = true then _ else _) = _
  rw [hmatches]
  by_cases hholds : rule.Holds key
  · rw [if_pos hholds, if_pos (decide_eq_true hholds)]
    rfl
  · rw [if_neg hholds, if_neg (by simpa using hholds)]

end FirewallScan

/-! ### The firewall -/

theorem not_holds_of_family {rules : List FirewallRule} (hany : ∀ rule ∈ rules, rule.family ≠ .any)
    (hfam : ∀ rule ∈ rules, rule.family ≠ key.family) :
  firstMatch rules key = none
  := by
  apply firstMatch_eq_none_iff.mpr
  intro rule hrule hholds
  exact hholds.1.elim (hany rule hrule) (hfam rule hrule)

theorem FirewallTable.Indexes.hasFamily (h : FirewallTable.Indexes t policy)
    (hfam : t.hasFamily key.family = false) :
  firstMatch policy key = none
  := by
  obtain ⟨-, ⟨⟩⟩ | ⟨hnone, hfam⟩ := ite_eq_iff.mp hfam
  have hcount : ∀ {family : FirewallFamily} {n : ℕ},
      n = policy.countP (fun rule => decide (rule.family = family)) → ¬ 0 < n →
        ∀ rule ∈ policy, rule.family ≠ family := by
    intro family n hn hzero rule hrule
    have hnot := countP_eq_zero.mp (hn.symm.trans (Nat.eq_zero_of_not_pos hzero)) rule hrule
    simpa using hnot
  have hany := hcount h.any hnone
  apply not_holds_of_family hany
  cases hcase : key.family with
  | any => exact hany
  | ipv4 =>
    rw [hcase] at hfam
    exact hcount h.ipv4 (of_decide_eq_false hfam)
  | ipv6 =>
  rw [hcase] at hfam
  exact hcount h.ipv6 (of_decide_eq_false hfam)

/-- The table and the scan of a policy: both take the same lists and refuse the others with the
same words, both answer every key with the first rule that holds it, and a family they do not have
is one no rule of which can hold a key. -/
theorem firewall_first_match (rules : List FirewallRule) :
  (∀ table, FirewallTable.build rules = .ok table →
      (∀ key, table.lookup key = firstMatch rules key)
      ∧ ∀ key, table.hasFamily key.family = false → table.lookup key = none)
    ∧ (∀ scan, create rules = .ok scan →
      (∀ key, scan.lookup key = firstMatch rules key)
      ∧ ∀ key, scan.hasFamily key.family = false → scan.lookup key = none)
    ∧ (∀ refused, FirewallTable.build rules = .error refused
      ↔ create rules = .error refused)
    ∧ ∀ key, (firstMatch rules key = none ↔ ∀ rule ∈ rules, ¬ rule.Holds key)
      ∧ ∀ i rule, rules[i]? = some rule → rule.Holds key →
        (∀ j < i, ∀ other, rules[j]? = some other → ¬ other.Holds key) →
        firstMatch rules key = some ⟨rule.action, i + 1⟩
  := by
  refine ⟨?_, ?_, build_error_iff rules, ?_⟩
  · intro table hbuild
    have hindexes := FirewallTable.Indexes.build hbuild
    refine ⟨hindexes.lookup, fun key hfam => ?_⟩
    rw [hindexes.lookup]
    exact hindexes.hasFamily hfam
  · intro scan hcreate
    rw [create_eq] at hcreate
    cases hcheck : checkRules rules 0 with
    | error refused =>
      rw [hcheck] at hcreate
      cases hcreate
    | ok _ =>
    rw [hcheck] at hcreate
    cases hcreate
    have hlook : ∀ key, FirewallScan.lookup ⟨rules.map normalizeRule⟩ key
        = firstMatch rules key :=
      fun key => FirewallScan.lookupFrom_eq (FirewallScan.accepted_of_checkRules hcheck) key 0
    refine ⟨hlook, fun key hfam => ?_⟩
    rw [hlook]
    rw [hasFamily, any_eq_false] at hfam
    have hnone : ∀ rule ∈ rules, rule.family ≠ .any ∧ rule.family ≠ key.family := by
      intro rule hrule
      have hnot := hfam (normalizeRule rule) (mem_map_of_mem hrule)
      rw [Bool.or_eq_true, not_or, decide_eq_true_eq, decide_eq_true_eq] at hnot
      exact hnot
    exact not_holds_of_family (fun rule hrule => (hnone rule hrule).1)
      fun rule hrule => (hnone rule hrule).2
  intro key
  refine ⟨firstMatch_eq_none_iff, ?_⟩
  intro i rule hget hholds hfirst
  exact firstMatch_eq_some hget hholds hfirst

/-- A rule for one network and one protocol, before a rule for everything. -/
def narrowRules : List FirewallRule :=
  [{ srcNet := fun i => if i = 0 then 10 else 7, srcLen := 8, proto := 6, action := 1 },
    { family := .any, action := 2 }]

/-- A key of the network: the policy is accepted, and the first rule decides. -/
theorem firewall_first_match_narrow :
  ∃ table, FirewallTable.build narrowRules = .ok table
    ∧ table.lookup { proto := 6, src := fun i => if i = 0 then 10 else 3 } = some ⟨1, 1⟩
  := by
  cases hbuild : FirewallTable.build narrowRules with
  | error refused =>
    rw [(firewall_first_match narrowRules).2.2.1] at hbuild
    cases hbuild
  | ok table =>
  refine ⟨table, rfl, ?_⟩
  rw [((firewall_first_match narrowRules).1 table hbuild).1]
  decide

end Classifier
