/-
# Bonded weights, quorum predicates and certificates

`consensus/weight_snapshot.rs`, `consensus/certificate.rs`, the quorum
predicates of `consensus/cordiality.rs`, and the fingerprints of `trace.rs`.

A bond table is a `HashMap<NodeId, u64>`.  A hash map allocates at most
`isize::MAX` bytes, 32 for each entry here, so it has fewer than `2 ^ 58`
entries; the structure carries that bound, and with it no checked sum or
product over a table overflows (`checkedBondWeight_eq`).  The sixteen lowercase
hex digits in which a fingerprint is printed stand for one 64-bit number, which
is what the model keeps.
-/

import CordialMiners.Core.Types
import CordialMiners.Quorum.Rule

namespace CordialMiners

/-- A `u64`. -/
abbrev U64 := Fin (2 ^ 64)

instance neZeroU64 : NeZero (2 ^ 64) := ⟨by decide⟩

/-- `HashMap<NodeId, u64>`. -/
structure Bonds where
  table : AList fun _ : NodeId => U64
  entries_lt : table.entries.length < 2 ^ 58

/-- A table with one bond. -/
def Bonds.single (validator : NodeId) (stake : U64) : Bonds :=
  ⟨AList.singleton validator stake, show 1 < 2 ^ 58 by decide⟩

/-! ### Fingerprints -/

/-- The ASCII code of a lowercase hex digit. -/
def hexDigit (n : ℕ) : ℕ := if n < 10 then 48 + n else 87 + n

/-- `trace::hex`: two lowercase digits for each byte, as ASCII codes. -/
def hex (bytes : List ℕ) : List ℕ := bytes.flatMap fun b => [hexDigit (b / 16), hexDigit (b % 16)]

/-- The 32 bytes of a content hash. -/
def hashBytes (h : ContentHash) : List ℕ :=
  (List.range 32).map fun k => h.val / 256 ^ (31 - k) % 256

/-- The decimal digits of a `u64`, as ASCII codes. -/
def decimal (w : U64) : List ℕ :=
  match ((List.range 20).reverse.map fun k => w.val / 10 ^ k % 10).dropWhile (· = 0) with
  | [] => [48]
  | digits => digits.map (48 + ·)

/-- FNV-1a-64 over a list of bytes. -/
def fnv1a (bytes : List ℕ) : ℕ :=
  bytes.foldl (fun h byte => (h ^^^ byte) * 0x100000001b3 % 2 ^ 64) 0xcbf29ce484222325

/-- `trace::weight_table_hash_sorted`. -/
def weightTableHashSorted (entries : List (Sigma fun _ : NodeId => U64)) : ℕ :=
  fnv1a (entries.flatMap fun entry =>
    hex (entry.1.bytes.map Fin.val) ++ [58] ++ decimal entry.2 ++ [10])

/-! ### Snapshots -/

/-- An immutable weight table, in key order, together with its fingerprint. -/
structure WeightSnapshot where
  id : ℕ
  bonds : AList fun _ : NodeId => U64

/-- `WeightSnapshot` derives `Eq`. -/
instance : DecidableEq WeightSnapshot := fun s t =>
  decidable_of_iff (s.id = t.id ∧ s.bonds.entries = t.bonds.entries) <| by
    cases s; cases t
    simp [AList.ext_iff]

namespace WeightSnapshot

/-- Capture a snapshot: the entries in the order of a `BTreeMap`. -/
def fromBonds (bonds : Bonds) : WeightSnapshot :=
  let sorted := bonds.table.entries.insertionSort fun x y => x.1 ≤ y.1
  { id := weightTableHashSorted sorted
    bonds := ⟨sorted, (List.perm_nodupKeys (List.perm_insertionSort _ _)).2 bonds.table.nodupKeys⟩ }

/-- Bonded stake of `node`; unknown validators carry no weight. -/
def weightOf (weights : WeightSnapshot) (node : NodeId) : ℕ :=
  match weights.bonds.lookup node with
  | some w => w
  | none => 0

end WeightSnapshot

/-- `u128::checked_add`. -/
def checkedAdd128 (a b : ℕ) : Option ℕ := if a + b < 2 ^ 128 then some (a + b) else none

/-- `u128::checked_mul`. -/
def checkedMul128 (a b : ℕ) : Option ℕ := if a * b < 2 ^ 128 then some (a * b) else none

/-- A checked `u128` sum of weights. -/
def checkedBondWeight (weights : List ℕ) : Option ℕ := weights.foldlM checkedAdd128 0

/-- Total bonded stake, `none` on overflow. -/
def WeightSnapshot.total (weights : WeightSnapshot) : Option ℕ :=
  checkedBondWeight (weights.bonds.entries.map fun entry => entry.2.val)

/-! ### Quorum predicates -/

/-- `3 · support > 2 · total`, `false` on overflow. -/
def strictTwoThirds (supportWeight totalWeight : ℕ) : Bool :=
  match checkedMul128 supportWeight 3, checkedMul128 totalWeight 2 with
  | some weightedSupport, some threshold => weightedSupport > threshold
  | _, _ => false

/-- Whether `creators` hold strictly more than two thirds of the stake. -/
def isWeightedSupermajoritySnapshot (creators : List NodeId) (weights : WeightSnapshot) : Bool :=
  match weights.total with
  | none => false
  | some totalWeight =>
      if totalWeight = 0 then false
      else
        match checkedBondWeight (creators.map weights.weightOf) with
        | none => false
        | some supportWeight => strictTwoThirds supportWeight totalWeight

/-- Whether the blocks have more than `(n + f) / 2` distinct creators. -/
def isSupermajority (blocks : List Block) (n f : ℕ) : Bool :=
  (blocks.map fun block => block.identity.creator).dedup.length > (n + f) / 2

/-! ### Certificates -/

/-- Which rung of the approval ladder a certificate attests. -/
inductive CertificateKind where
  | ratification
  | superRatification
deriving DecidableEq, Repr

/-- The discriminant as it appears in the trace, as ASCII codes:
`ratification` and `super_ratification`. -/
def CertificateKind.asStr : CertificateKind → List ℕ
  | .ratification => "ratification".toList.map Char.toNat
  | .superRatification => "super_ratification".toList.map Char.toNat

/-- `trace::certificate_id`. -/
def certificateId (kind leaderHash : List ℕ) (ratifierHash : Option (List ℕ)) : ℕ :=
  fnv1a (kind ++ [0xff] ++ leaderHash ++ [0xff] ++ ratifierHash.getD [])

/-- Portable evidence that a weighted quorum supported a block. -/
structure ThresholdCertificate where
  kind : CertificateKind
  leader : BlockIdentity
  ratifier : Option BlockIdentity
  certificateId : ℕ
  approverBlocks : List BlockIdentity
  approvers : List NodeId
  approverWeight : ℕ
  totalWeight : ℕ
  weightSnapshot : ℕ
deriving DecidableEq, Repr

/-- Assemble a certificate; both collections are sorted here. -/
def ThresholdCertificate.new (kind : CertificateKind) (leader : BlockIdentity)
    (ratifier : Option BlockIdentity) (approverBlocks : List BlockIdentity)
    (approvers : List NodeId) (weights : WeightSnapshot) : ThresholdCertificate where
  kind := kind
  leader := leader
  ratifier := ratifier
  certificateId := CordialMiners.certificateId kind.asStr (hex (hashBytes leader.contentHash))
    (ratifier.map fun id => hex (hashBytes id.contentHash))
  approverBlocks := approverBlocks.insertionSort (· ≤ ·)
  approvers := approvers.insertionSort (· ≤ ·)
  approverWeight :=
    (checkedBondWeight ((approvers.insertionSort (· ≤ ·)).map weights.weightOf)).getD 0
  totalWeight := weights.total.getD 0
  weightSnapshot := weights.id

/-! ### No overflow -/

namespace Bonds

/-- The weight of a validator. -/
def weight (bonds : Bonds) (node : NodeId) : ℕ :=
  match bonds.table.lookup node with
  | some w => w
  | none => 0

/-- The total stake. -/
def total (bonds : Bonds) : ℕ := (bonds.table.entries.map fun entry => entry.2.val).sum

/-- The quorum rule of the table: strictly more than two thirds of the stake. -/
def rule (bonds : Bonds) : Quorum.Rule NodeId := Quorum.stake bonds.weight bonds.total

theorem total_lt (bonds : Bonds) : bonds.total < 2 ^ 122 := by
  have hle : bonds.total ≤ bonds.table.entries.length * (2 ^ 64) := by
    have := List.sum_le_card_nsmul (bonds.table.entries.map fun entry => entry.2.val) (2 ^ 64)
      (by
        intro x hx
        obtain ⟨e, -, rfl⟩ := List.mem_map.1 hx
        exact e.2.isLt.le)
    simpa [total] using this
  have hlen := bonds.entries_lt
  calc bonds.total ≤ bonds.table.entries.length * 2 ^ 64 := hle
    _ < 2 ^ 58 * 2 ^ 64 := Nat.mul_lt_mul_of_pos_right hlen (by positivity)
    _ = 2 ^ 122 := by norm_num

/-- The weights of the listed validators add up to the total. -/
theorem sum_keys (bonds : Bonds) : (bonds.table.keys.map bonds.weight).sum = bonds.total := by
  unfold total AList.keys List.keys
  rw [List.map_map]
  congr 1
  refine List.map_congr_left fun entry he => ?_
  have hl : bonds.table.lookup entry.1 = some entry.2 := AList.mem_lookup_iff.2 he
  simp [weight, hl]

/-- **No set of validators weighs more than the total.** -/
theorem sum_le_total (bonds : Bonds) (F : Finset NodeId) : ∑ c ∈ F, bonds.weight c ≤ bonds.total := by
  have hzero : ∀ c, c ∉ bonds.table.keys → bonds.weight c = 0 := by
    intro c hc
    unfold weight
    rw [AList.lookup_eq_none.2 (by rwa [← AList.mem_keys] at hc)]
  have hkeys : bonds.table.keys.Nodup := bonds.table.nodupKeys
  have hsum : ∑ c ∈ bonds.table.keys.toFinset, bonds.weight c = bonds.total := by
    rw [List.sum_toFinset _ hkeys, sum_keys]
  calc ∑ c ∈ F, bonds.weight c
      = ∑ c ∈ F.filter (· ∈ bonds.table.keys.toFinset), bonds.weight c := by
        rw [Finset.sum_filter_of_ne]
        intro c _ hne
        by_contra hc
        exact hne (hzero c fun h => hc (List.mem_toFinset.2 h))
    _ ≤ ∑ c ∈ bonds.table.keys.toFinset, bonds.weight c :=
        Finset.sum_le_sum_of_subset fun c hc => (Finset.mem_filter.1 hc).2
    _ = bonds.total := hsum

end Bonds

/-- A checked sum is the sum when that fits. -/
theorem checkedBondWeight_eq {weights : List ℕ} (h : weights.sum < 2 ^ 128) :
    checkedBondWeight weights = some weights.sum := by
  have hfold : ∀ (l : List ℕ) (t : ℕ), t + l.sum < 2 ^ 128 →
      l.foldlM checkedAdd128 t = some (t + l.sum) := by
    intro l
    induction l with
    | nil => simp
    | cons w l ih =>
        intro t ht
        rw [List.sum_cons] at ht ⊢
        rw [List.foldlM_cons]
        have hadd : checkedAdd128 t w = some (t + w) := if_pos (by omega)
        rw [hadd]
        show l.foldlM checkedAdd128 (t + w) = _
        rw [ih _ (by omega), Nat.add_assoc]
  have h₀ := hfold weights 0 (by omega)
  rwa [Nat.zero_add] at h₀

theorem WeightSnapshot.weightOf_fromBonds (bonds : Bonds) (node : NodeId) :
    (WeightSnapshot.fromBonds bonds).weightOf node = bonds.weight node := by
  unfold weightOf Bonds.weight fromBonds
  have hl : AList.lookup node ⟨bonds.table.entries.insertionSort fun x y => x.1 ≤ y.1,
      (List.perm_nodupKeys (List.perm_insertionSort _ _)).2 bonds.table.nodupKeys⟩ =
      bonds.table.lookup node := AList.perm_lookup (List.perm_insertionSort _ _)
  rw [hl]

theorem WeightSnapshot.total_fromBonds (bonds : Bonds) :
    (WeightSnapshot.fromBonds bonds).total = some bonds.total := by
  have hsum : ((WeightSnapshot.fromBonds bonds).bonds.entries.map fun entry => entry.2.val).sum =
      bonds.total :=
    ((List.perm_insertionSort _ bonds.table.entries).map _).sum_eq
  have hlt := bonds.total_lt
  unfold total
  rw [checkedBondWeight_eq (by rw [hsum]; exact hlt.trans (by norm_num)), hsum]

/-- **The stake predicate is the quorum rule of the table**; the checked
arithmetic never fails on it. -/
theorem isWeightedSupermajoritySnapshot_iff {creators : List NodeId} (hnd : creators.Nodup)
    (bonds : Bonds) :
    isWeightedSupermajoritySnapshot creators (WeightSnapshot.fromBonds bonds) = true ↔
      bonds.rule.holds {c | c ∈ creators} := by
  have hsupport : (creators.map (WeightSnapshot.fromBonds bonds).weightOf).sum =
      ∑ c ∈ creators.toFinset, bonds.weight c := by
    rw [List.sum_toFinset _ hnd, funext (WeightSnapshot.weightOf_fromBonds bonds)]
  have hle := bonds.sum_le_total creators.toFinset
  have hlt := bonds.total_lt
  have h122 : (2 : ℕ) ^ 122 * 3 < 2 ^ 128 := by norm_num
  have hset : {c | c ∈ creators} = (creators.toFinset : Set NodeId) := by
    ext c
    simp
  unfold isWeightedSupermajoritySnapshot Bonds.rule
  rw [hset, Quorum.stake_coe, WeightSnapshot.total_fromBonds]
  simp only
  rw [checkedBondWeight_eq (by rw [hsupport]; omega), hsupport]
  split_ifs with h0
  · refine iff_of_false (fun h => h) ?_
    omega
  · simp only [strictTwoThirds, checkedMul128]
    rw [if_pos (by omega), if_pos (by omega)]
    simp only [gt_iff_lt, decide_eq_true_eq]
    omega

/-- **The count predicate is the quorum rule of more than `(n + f) / 2`.** -/
theorem isSupermajority_iff {blocks : List Block} {n f : ℕ} :
    isSupermajority blocks n f = true ↔
      (Quorum.count ((n + f) / 2)).holds {c | ∃ b ∈ blocks, b.identity.creator = c} := by
  have hset : {c | ∃ b ∈ blocks, b.identity.creator = c} =
      ((blocks.map fun block => block.identity.creator).toFinset : Set NodeId) := by
    ext c
    simp
  unfold isSupermajority
  rw [hset, Quorum.count_coe, List.card_toFinset, decide_eq_true_eq]

end CordialMiners
