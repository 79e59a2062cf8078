import Bess.Foundations.Search
import Mathlib.Data.BitVec
import Mathlib.Data.List.AList

/-!
# The firewall table

A policy is a list of rules, and the first one that holds a key decides. `FirewallTable` indexes
the list: one group for each family, protocol and pair of prefix lengths, whose entries are sorted
by their masked addresses, and the groups in the order of their best rules. `FirewallScan` walks
the list. Both take the same rules, mask their networks and check them with the same predicate.
-/

namespace Classifier

inductive FirewallFamily
  | any
  | ipv4
  | ipv6
deriving DecidableEq, Repr

/-- Sixteen bytes in network order; an IPv4 address is in the first four. -/
abbrev FirewallAddr := ℕ → BitVec 8

structure FirewallKey where
  family : FirewallFamily := .ipv4
  proto : BitVec 8 := 0
  src : FirewallAddr := fun _ => 0
  dst : FirewallAddr := fun _ => 0
  srcPort : BitVec 16 := 0
  dstPort : BitVec 16 := 0

structure FirewallRule where
  family : FirewallFamily := .ipv4
  srcNet : FirewallAddr := fun _ => 0
  srcLen : ℕ := 0
  dstNet : FirewallAddr := fun _ => 0
  dstLen : ℕ := 0
  proto : BitVec 8 := 0
  srcPortLow : BitVec 16 := 0
  srcPortHigh : BitVec 16 := 0xffff
  dstPortLow : BitVec 16 := 0
  dstPortHigh : BitVec 16 := 0xffff
  action : BitVec 16 := 0
  checksPorts : Bool := false

def kAnyProto : BitVec 8 := 0

def kNoRule : ℕ := 0

/-- `FamilyBytes`. -/
def familyBytes : FirewallFamily → ℕ
  | .ipv4 => 4
  | .ipv6 => 16
  | .any => 0

/-- `FamilyBits`. -/
def familyBits (family : FirewallFamily) : ℕ :=
  familyBytes family * 8

/-- The masked addresses of a key, the source first, with zeros after them. -/
abbrev PackedKey := ℕ → BitVec 8

def load32 (p : ℕ → BitVec 8) (i : ℕ) : BitVec 32 :=
  p (i + 3) ++ p (i + 2) ++ p (i + 1) ++ p i

def load64 (p : ℕ → BitVec 8) (i : ℕ) : BitVec 64 :=
  load32 p (i + 4) ++ load32 p i

/-- `Bytes16Equal`. -/
def bytes16Equal (a b : ℕ → BitVec 8) (i j : ℕ) : Bool :=
  load64 a i == load64 b j && load64 a (i + 8) == load64 b (j + 8)

/-- The packed key as four words. -/
structure Key64 where
  w0 : BitVec 64
  w1 : BitVec 64
  w2 : BitVec 64
  w3 : BitVec 64
deriving DecidableEq

namespace Key64

def load (p : PackedKey) : Key64 :=
  ⟨load64 p 0, load64 p 8, load64 p 16, load64 p 24⟩

/-- `operator<`. -/
def less (a b : Key64) : Bool :=
  if a.w0 ≠ b.w0 then decide (a.w0 < b.w0)
  else if a.w1 ≠ b.w1 then decide (a.w1 < b.w1)
  else if a.w2 ≠ b.w2 then decide (a.w2 < b.w2)
  else decide (a.w3 < b.w3)

end Key64

/-- `Mask64`: the source in the low half, the destination in the high half. -/
def mask64 (src dst : FirewallAddr) : BitVec 64 :=
  (load32 src 0).setWidth 64 ||| (load32 dst 0).setWidth 64 <<< 32

/-- `MaskBytes`. -/
def maskBytes (len : ℕ) (family : FirewallFamily) : FirewallAddr := fun i =>
  if familyBytes family ≤ i then 0
  else if i * 8 + 8 ≤ len then 0xff
  else if i * 8 < len then 0xff#8 <<< (8 - (len - i * 8))
  else 0

/-- `MaskedAddr`. -/
def maskedAddr (addr : FirewallAddr) (len : ℕ) (family : FirewallFamily) : FirewallAddr := fun i =>
  if i < familyBytes family then addr i &&& maskBytes len family i else 0

/-- `MaskedAddrPair16x2`. -/
def maskedAddrPair (src dst maskSrc maskDst : FirewallAddr) : PackedKey := fun i =>
  if i < 16 then src i &&& maskSrc i
  else if i < 32 then dst (i - 16) &&& maskDst (i - 16)
  else 0

/-- `Pack`. -/
def pack (src : FirewallAddr) (srcLen : ℕ) (dst : FirewallAddr) (dstLen : ℕ)
    (family : FirewallFamily) : PackedKey :=
  let maskSrc := maskBytes srcLen family
  let maskDst := maskBytes dstLen family
  if family = .ipv6 then maskedAddrPair src dst maskSrc maskDst
  else fun i =>
    let bytes := familyBytes family
    if i < bytes then src i &&& maskSrc i
    else if i < 2 * bytes then dst (i - bytes) &&& maskDst (i - bytes)
    else 0

/-- `Matches`. -/
def FirewallRule.matches (rule : FirewallRule) (key : FirewallKey) (packed : PackedKey) : Bool :=
  let addresses :=
    if rule.family = .ipv6 then
      (rule.srcLen == 0 || bytes16Equal rule.srcNet packed 0 0)
        && (rule.dstLen == 0 || bytes16Equal rule.dstNet packed 0 16)
    else
      (rule.srcLen == 0 || load32 rule.srcNet 0 == load32 packed 0)
        && (rule.dstLen == 0 || load32 rule.dstNet 0 == load32 packed 4)
  let ports := !rule.checksPorts
    || (decide (rule.srcPortLow ≤ key.srcPort) && decide (key.srcPort ≤ rule.srcPortHigh)
      && decide (rule.dstPortLow ≤ key.dstPort) && decide (key.dstPort ≤ rule.dstPortHigh))
  (rule.proto == kAnyProto || rule.proto == key.proto) && addresses && ports

/-- `Refusal`. -/
def FirewallRule.refusal (rule : FirewallRule) : Option String :=
  let bits := familyBits rule.family
  if rule.family = .any ∧ (rule.srcLen ≠ 0 ∨ rule.dstLen ≠ 0) then
    some "a rule that names no family cannot carry a prefix"
  else if bits < rule.srcLen then
    some ("source prefix length " ++ toString rule.srcLen ++ " is beyond " ++ toString bits)
  else if bits < rule.dstLen then
    some ("destination prefix length " ++ toString rule.dstLen ++ " is beyond " ++ toString bits)
  else if rule.srcPortHigh < rule.srcPortLow then
    some ("source port range " ++ toString rule.srcPortLow.toNat ++ "-"
      ++ toString rule.srcPortHigh.toNat ++ " has its low bound above its high")
  else if rule.dstPortHigh < rule.dstPortLow then
    some ("destination port range " ++ toString rule.dstPortLow.toNat ++ "-"
      ++ toString rule.dstPortHigh.toNat ++ " has its low bound above its high")
  else none

/-- `CheckRule`. -/
def checkRule (rule : FirewallRule) (index : ℕ) : Option String :=
  rule.refusal.map fun refused => "rule " ++ toString index ++ ": " ++ refused

/-- `NormalizeRule`. -/
def normalizeRule (rule : FirewallRule) : FirewallRule :=
  { rule with
    srcNet := maskedAddr rule.srcNet rule.srcLen rule.family
    dstNet := maskedAddr rule.dstNet rule.dstLen rule.family
    checksPorts := decide (rule.srcPortLow ≠ 0) || decide (rule.srcPortHigh ≠ 0xffff)
      || decide (rule.dstPortLow ≠ 0) || decide (rule.dstPortHigh ≠ 0xffff) }

/-- Family, protocol and the two prefix lengths. -/
abbrev GroupKey := FirewallFamily × BitVec 8 × ℕ × ℕ

/-- `GroupOf`. -/
def groupOf (rule : FirewallRule) : GroupKey :=
  (rule.family, rule.proto, rule.srcLen, rule.dstLen)

structure Entry where
  key : PackedKey
  rule : ℕ

structure Group where
  family : FirewallFamily
  proto : BitVec 8
  srcLen : ℕ
  dstLen : ℕ
  keyBytes : ℕ
  mask64 : BitVec 64
  maskSrc : FirewallAddr
  maskDst : FirewallAddr
  firstRule : ℕ
  entries : List Entry

structure Stats where
  rules : ℕ := 0
  groups : ℕ := 0
  ipv4Rules : ℕ := 0
  ipv6Rules : ℕ := 0
  anyFamilyRules : ℕ := 0

structure FirewallTable where
  rules : List FirewallRule
  groups : List Group
  stats : Stats

/-- The action and the number of the rule that decides; rules are numbered from 1. The code numbers
them in a `uint32_t`, here a list may also have more rules than that. -/
structure Match where
  action : BitVec 16
  ruleId : ℕ
deriving DecidableEq, Repr

namespace FirewallTable

/-- What `Build` has after some rules. -/
structure Building where
  index : ℕ := 0
  byKey : AList (fun _ : GroupKey => Group) := ∅
  rules : List FirewallRule := []
  stats : Stats := {}

/-- The group of a rule as its entry is added: a new one begins with the rule. -/
def addEntry (group : Option Group) (rule : FirewallRule) (index : ℕ) : Group :=
  let entries := (group.map (·.entries)).getD []
  let maskSrc := maskBytes rule.srcLen rule.family
  let maskDst := maskBytes rule.dstLen rule.family
  let normal := normalizeRule rule
  { family := rule.family
    proto := rule.proto
    srcLen := rule.srcLen
    dstLen := rule.dstLen
    keyBytes := 2 * familyBytes rule.family
    mask64 := Classifier.mask64 maskSrc maskDst
    maskSrc := maskSrc
    maskDst := maskDst
    firstRule := if entries.isEmpty then index else (group.map (·.firstRule)).getD 0
    entries := entries ++
      [⟨pack normal.srcNet rule.srcLen normal.dstNet rule.dstLen rule.family, index⟩] }

/-- One rule more of a family. -/
def countFamily (stats : Stats) : FirewallFamily → Stats
  | .ipv4 => { stats with ipv4Rules := stats.ipv4Rules + 1 }
  | .ipv6 => { stats with ipv6Rules := stats.ipv6Rules + 1 }
  | .any => { stats with anyFamilyRules := stats.anyFamilyRules + 1 }

/-- One rule of the loop of `Build`. -/
def addRule (b : Building) (rule : FirewallRule) : Except String Building :=
  let index := b.index + 1
  match checkRule rule index with
  | some refused => .error refused
  | none =>
      let key := groupOf rule
      .ok {
        index := index
        byKey := b.byKey.insert key (addEntry (b.byKey.lookup key) rule index)
        rules := b.rules ++ [normalizeRule rule]
        stats := countFamily b.stats rule.family }

/-- The order of the entries of a group. -/
def keyLess (bytes : ℕ) (a b : PackedKey) : Bool :=
  if bytes = 8 then decide (load64 a 0 < load64 b 0) else (Key64.load a).less (Key64.load b)

def keyEqual (bytes : ℕ) (a b : PackedKey) : Bool :=
  if bytes = 8 then load64 a 0 == load64 b 0 else decide (Key64.load a = Key64.load b)

/-- A group with its entries sorted, equal keys in the order of their rules. -/
def sortEntries (group : Group) : Group :=
  { group with
    entries := group.entries.mergeSort fun a b => !keyLess group.keyBytes b.key a.key }

/-- The groups, the one with the best rule first. -/
def sortGroups (groups : List Group) : List Group :=
  groups.mergeSort fun a b => decide (a.firstRule ≤ b.firstRule)

/-- `Build`. -/
def build (rules : List FirewallRule) : Except String FirewallTable := do
  let b ← rules.foldlM addRule {}
  let groups := sortGroups (b.byKey.entries.map fun entry => sortEntries entry.2)
  return {
    rules := b.rules
    groups := groups
    stats := { b.stats with rules := b.rules.length, groups := groups.length } }

/-- The packet's addresses under the masks of the group. -/
def want (group : Group) (key : FirewallKey) : PackedKey :=
  if group.keyBytes = 8 then
    let raw := mask64 key.src key.dst
    let masked := raw &&& group.mask64
    fun i => if i < 8 then masked.extractLsb' (8 * i) 8 else 0
  else if group.keyBytes = 32 then maskedAddrPair key.src key.dst group.maskSrc group.maskDst
  else fun _ => 0

/-- The rule an entry names matches the key. -/
def entryMatches (rules : List FirewallRule) (key : FirewallKey) (packed : PackedKey)
    (entry : Entry) : Bool :=
  match rules[entry.rule - 1]? with
  | some rule => rule.matches key packed
  | none => false

/-- `MatchInGroup`: a binary search, then the entries with the key in the order of their rules. -/
def matchInGroup (t : FirewallTable) (group : Group) (key : FirewallKey) : ℕ :=
  if group.family ≠ .any ∧ group.family ≠ key.family then kNoRule
  else if group.proto ≠ kAnyProto ∧ group.proto ≠ key.proto then kNoRule
  else
    let packed := want group key
    let start := Search.lowerBound (fun i =>
      decide (∃ entry ∈ group.entries[i]?, keyLess group.keyBytes entry.key packed)) 0
      group.entries.length
    let equal := (group.entries.drop start).takeWhile fun entry =>
      keyEqual group.keyBytes entry.key packed
    match equal.find? (entryMatches t.rules key packed) with
    | some entry => entry.rule
    | none => kNoRule

/-- The loop of `Lookup`, which stops at a group that cannot hold a better rule. -/
def bestRule (t : FirewallTable) (key : FirewallKey) : ℕ → List Group → ℕ
  | best, [] => best
  | best, group :: groups =>
      if best ≠ kNoRule ∧ best ≤ group.firstRule then best
      else
        let found := t.matchInGroup group key
        bestRule t key (if found ≠ kNoRule ∧ (best = kNoRule ∨ found < best) then found else best)
          groups

/-- `Lookup`. -/
def lookup (t : FirewallTable) (key : FirewallKey) : Option Match :=
  let best := t.bestRule key kNoRule t.groups
  if best = kNoRule then none
  else (t.rules[best - 1]?).map fun rule => ⟨rule.action, best⟩

/-- `HasFamily`. -/
def hasFamily (t : FirewallTable) (family : FirewallFamily) : Bool :=
  if 0 < t.stats.anyFamilyRules then true
  else match family with
    | .ipv6 => decide (0 < t.stats.ipv6Rules)
    | .any | .ipv4 => decide (0 < t.stats.ipv4Rules)

end FirewallTable

/-- The rules in the order of the policy. -/
structure FirewallScan where
  rules : List FirewallRule

namespace FirewallScan

/-- The first loop of `Create`. -/
def checkRules : List FirewallRule → ℕ → Except String Unit
  | [], _ => .ok ()
  | rule :: rules, i =>
      match checkRule rule (i + 1) with
      | some refused => .error refused
      | none => checkRules rules (i + 1)

/-- `Create`. -/
def create (rules : List FirewallRule) : Except String FirewallScan := do
  checkRules rules 0
  return ⟨rules.map normalizeRule⟩

/-- The loop of `Lookup`, from rule `i` on. -/
def lookupFrom (key : FirewallKey) : List FirewallRule → ℕ → Option Match
  | [], _ => none
  | rule :: rules, i =>
      if rule.family ≠ .any ∧ rule.family ≠ key.family then lookupFrom key rules (i + 1)
      else if rule.matches key (pack key.src rule.srcLen key.dst rule.dstLen key.family) then
        some ⟨rule.action, i + 1⟩
      else lookupFrom key rules (i + 1)

/-- `Lookup`. -/
def lookup (s : FirewallScan) (key : FirewallKey) : Option Match :=
  lookupFrom key s.rules 0

/-- `HasFamily`. -/
def hasFamily (s : FirewallScan) (family : FirewallFamily) : Bool :=
  s.rules.any fun rule => decide (rule.family = .any) || decide (rule.family = family)

end FirewallScan

end Classifier
