import Zelox.Exchange.Distribute

/-!
# The keyed exchange as a stage boundary

In a distributed stream the planner cuts the plan at a `StreamExchangeExec`: its
partitioning `Hash(keys, N)` becomes the distribution of a stage with `N` channels, and
the rows go through the hash partitioner of `ShuffleWriteExec` instead of `distribute`.
The partitioner takes the same hash modulo `N`, where `distribute` takes its key group
and then the owner of the group.  Instance `i` of the window operator restores the key
groups of its range (`instanceKeyGroupRange`) and reads channel `i`.  The two agree for
one instance and for one instance per key group, and for no other number
(`cut_keeps_ownership_iff`).  The sinks are assumed to stay open.
-/

namespace Zelox.Exchange

open StateIo List

variable {α K : Type}

/-- The hash `BatchPartitioner`: the channel of a row. -/
def hashPartition (hash : K → UInt64) (channels : Nat) (k : K) : Nat :=
  (hash k).toNat % channels

/-- `shuffle_write`: the writes in order, each with the index of its sink.  An input error
ends the task without a write. -/
def shuffleWrite (hash : K → UInt64) (hashKeys : α → K) (channels : Nat) :
    List (Item α) → List (Nat × Item α)
  | [] => []
  | .error _ :: _ => []
  | .ok batch :: input =>
    if batch.isData then
      ((List.range channels).filterMap fun p =>
        ownerBatch p (batch.data.filter fun row =>
          hashPartition hash channels (hashKeys row) = p)) ++
      shuffleWrite hash hashKeys channels input
    else (List.range channels).map (fun p => (p, .ok batch)) ++
      shuffleWrite hash hashKeys channels input

theorem dataRows_shuffleWrite (hash : K → UInt64) (hashKeys : α → K) (n i : Nat) (hi : i < n)
    (input : List (Item α)) :
    dataRows (sentTo i (shuffleWrite hash hashKeys n input)) =
      (inputRows input).filter fun row => hashPartition hash n (hashKeys row) = i :=
  dataRows_loop hi rfl (fun _ _ => rfl) (fun _ _ => rfl) input

/-- The cut exchange gives every instance the rows the exchange would, of keys whose state it
restores. -/
def CutKeepsOwnership (n : Nat) : Prop :=
  ∀ (α K : Type) (hash : K → UInt64) (hashKeys : α → K) (input : List (Item α)) (i : Nat), i < n →
    dataRows (sentTo i (shuffleWrite hash hashKeys n input)) =
      dataRows (sentTo i (distribute hash hashKeys n input)) ∧
    ∀ row ∈ dataRows (sentTo i (shuffleWrite hash hashKeys n input)),
      (instanceKeyGroupRange i n defaultKeyGroups).1 ≤
          keyGroup (hash (hashKeys row)) defaultKeyGroups ∧
        keyGroup (hash (hashKeys row)) defaultKeyGroups <
          (instanceKeyGroupRange i n defaultKeyGroups).2

theorem defaultKeyGroup_toNat (h : UInt64) :
    (keyGroup h defaultKeyGroups).toNat = h.toNat % 128 := by
  have hne : defaultKeyGroups ≠ 0 := by decide
  rw [keyGroup, if_neg hne]
  simp only [UInt64.toNat_toUInt16, UInt64.toNat_mod, UInt16.toNat_toUInt64]
  show h.toNat % 128 % 2 ^ 16 = h.toNat % 128
  omega

/-- The owner in terms of the hash: the key group is in the instance's part. -/
theorem route_eq_iff {hash : K → UInt64} {n i : Nat} {k : K} (hn : 0 < n) :
    route hash n k = i ↔
      i * 128 / n ≤ (hash k).toNat % 128 ∧ (hash k).toNat % 128 < (i + 1) * 128 / n := by
  have hlt : (keyGroup (hash k) defaultKeyGroups).toNat < defaultKeyGroups.toNat :=
    keyGroup_lt _ (by decide)
  rw [route, keyGroupOwner_eq hn hlt, ← EvenSplit.mem_part_iff hn (by decide),
    defaultKeyGroup_toNat]
  exact Iff.rfl

/-- The cut keeps ownership if the two formulas agree on all hashes. -/
theorem cutKeepsOwnership_iff_forall_hash {n : Nat} (hn : 0 < n) :
    CutKeepsOwnership n ↔ ∀ h : UInt64, route id n h = h.toNat % n := by
  constructor
  · intro hcut h
    have hlt : h.toNat % n < n := Nat.mod_lt _ hn
    obtain ⟨heq, -⟩ := hcut UInt64 UInt64 id id [.ok (RecordBatch.encodeData [h])] _ hlt
    have hrows : inputRows [.ok (RecordBatch.encodeData [h])] = [h] := by
      rw [inputRows, if_pos (isData_encodeData [h])]
      rfl
    have hmem : h ∈ dataRows (sentTo (h.toNat % n)
        (shuffleWrite id id n [.ok (RecordBatch.encodeData [h])])) := by
      rw [dataRows_shuffleWrite _ _ _ _ hlt, hrows]
      simp [hashPartition]
    rw [heq, dataRows_distribute _ _ _ _ hlt, hrows] at hmem
    simpa using (mem_filter.mp hmem).2
  · intro hall α K hash hashKeys input i hi
    have heq : dataRows (sentTo i (shuffleWrite hash hashKeys n input)) =
        dataRows (sentTo i (distribute hash hashKeys n input)) := by
      rw [dataRows_shuffleWrite _ _ _ _ hi, dataRows_distribute _ _ _ _ hi]
      apply filter_congr
      intro row _
      have := hall (hash (hashKeys row))
      rw [hashPartition, ← this]
      rfl
    refine ⟨heq, fun row hrow => ?_⟩
    rw [heq, dataRows_distribute _ _ _ _ hi] at hrow
    rw [mem_range_iff_owner hi (keyGroup_lt _ (by decide))]
    exact of_decide_eq_true (mem_filter.mp hrow).2

/-- A key with hash 1 goes to channel 1 of the cut, and its key group belongs to instance 0. -/
theorem cut_loses_ownership :
    dataRows (sentTo 1 (shuffleWrite id id 2 [.ok (RecordBatch.encodeData [(1 : UInt64)])])) = [1] ∧
      dataRows (sentTo 0 (distribute id id 2 [.ok (RecordBatch.encodeData [(1 : UInt64)])])) = [1] ∧
      ¬ CutKeepsOwnership 2 := by
  refine ⟨by decide, by decide, fun hcut => ?_⟩
  exact absurd ((cutKeepsOwnership_iff_forall_hash (by decide)).mp hcut 1) (by decide)

/-- The two agree for one instance and for one instance per key group only. -/
theorem cut_keeps_ownership_iff {n : Nat} (hn : 0 < n) :
    CutKeepsOwnership n ↔ n = 1 ∨ n = 128 := by
  rw [cutKeepsOwnership_iff_forall_hash hn]
  constructor
  · intro hall
    by_contra hne
    have hcases : 128 < n ∨ n ≤ 64 ∨ 64 < n ∧ n < 128 := by omega
    rcases hcases with hlarge | hsmall | ⟨hlow, hhigh⟩
    · -- the first instance has no key group
      have h := (route_eq_iff hn).mp (hall 0)
      simp only [UInt64.toNat_zero, Nat.zero_mod, Nat.zero_add, Nat.one_mul] at h
      rw [Nat.div_eq_of_lt hlarge] at h
      omega
    · -- the first instance has the key groups 0 and 1
      have h := (route_eq_iff hn).mp (hall 1)
      have hmod : (1 : UInt64).toNat % n = 1 := Nat.mod_eq_of_lt (show 1 < n by omega)
      rw [hmod, Nat.one_mul] at h
      have htwo : 2 ≤ 128 / n := (Nat.le_div_iff_mul_le hn).mpr (by omega)
      exact absurd (le_trans htwo h.1) (by decide)
    · -- hash 128 is in key group 0, which belongs to the first instance
      have h := (route_eq_iff hn).mp (hall 128)
      have hmod : (128 : UInt64).toNat % n = 128 - n := by
        show 128 % n = 128 - n
        rw [Nat.mod_eq_sub_mod (by omega), Nat.mod_eq_of_lt (by omega)]
      rw [hmod] at h
      have hone : 1 ≤ (128 - n) * 128 / n := (Nat.le_div_iff_mul_le hn).mpr (by omega)
      exact absurd (le_trans hone h.1) (by decide)
  · rintro (rfl | rfl) h
    · rw [route_eq_iff (by decide)]
      have := Nat.mod_lt h.toNat (show 0 < 128 by decide)
      simp only [id_eq, Nat.mod_one]
      omega
    · rw [route_eq_iff (by decide)]
      simp only [id_eq]
      omega

theorem cut_keeps_ownership_iff_128 : CutKeepsOwnership 128 :=
  (cut_keeps_ownership_iff (by decide)).mpr (.inr rfl)

end Zelox.Exchange
