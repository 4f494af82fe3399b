import Zelox.Window.Accum

/-!
# The record batches of one changelog

In update mode a finalize calls `emit_changelog` once for each record batch of the merge.  A call
compares the rows of its batch with the rows emitted last, and then forgets the groups whose
windows are past their lateness, whether their rows have come or not.  A forgotten group that has
its row in a later call is taken for a new group there: the previous row is not retracted.

The split into record batches makes no difference if and only if no row of a later batch belongs
to a group that the first call forgets (`splitInvariant_iff`).
-/

namespace Zelox.Window

open GroupFold

variable {K R : Type} [DecidableEq K] [DecidableEq R]

/-- The rows emitted last, by group, with the window end that expiry goes by. -/
abbrev LastEmitted (K R : Type) := Group K → Option (Int64 × (Group K × R))

/-- The rows of an output with their retraction flags. -/
def changes {Row : Type} (out : List (FlowEvent Row)) : List (Row × Bool) :=
  out.flatMap fun ev =>
    match ev with
    | .data batch retracted => batch.zip retracted
    | .marker _ => []

/-- `emit_changelog` with the watermark of the merge; without one nothing happens. -/
def emitChangelogAt (cfg : Config) (wm : Option Int64) (m : Merge K R)
    (batch : List (Group K × R)) : Merge K R :=
  match wm with
  | none => m
  | some wm => emitChangelog cfg wm m batch

/-- The window of the entry is past its lateness. -/
def expired (cfg : Config) (wm : Int64) (entry : Int64 × (Group K × R)) : Prop :=
  entry.1.saturatingAdd cfg.allowedLateness ≤ wm

instance (cfg : Config) (wm : Int64) (entry : Int64 × (Group K × R)) :
    Decidable (expired cfg wm entry) :=
  inferInstanceAs (Decidable (entry.1.saturatingAdd cfg.allowedLateness ≤ wm))

/-- What is left when the expired entries are forgotten. -/
def prune (cfg : Config) (wm : Int64) (last : LastEmitted K R) : LastEmitted K R := fun g =>
  (last g).filter fun v => wm < v.1.saturatingAdd cfg.allowedLateness

def rowChanges (last : LastEmitted K R) (row : Group K × R) : List ((Group K × R) × Bool) :=
  match last row.1 with
  | some (_, prev) => if prev = row then [] else [(prev, true), (row, false)]
  | none => [(row, false)]

/-! ## One call -/

theorem changes_pushBatch {K R : Type} (out : List (FlowEvent (Group K × R)))
    (batch : List (Group K × R)) (v : Bool) :
    changes (pushBatch out batch v) = changes out ++ batch.map fun r => (r, v) := by
  have hzip : batch.zip (retractedFlags batch.length v) = batch.map fun r => (r, v) := by
    induction batch with
    | nil => rfl
    | cons r batch ih =>
      show (r, v) :: batch.zip (retractedFlags batch.length v) = _
      rw [ih, List.map_cons]
  unfold pushBatch
  cases batch with
  | nil => simp
  | cons r batch =>
    rw [List.isEmpty_cons, if_neg Bool.false_ne_true, changes, List.flatMap_append]
    show _ ++ ((r :: batch).zip (retractedFlags (r :: batch).length v) ++ []) = _
    rw [hzip, List.append_nil]
    rfl

theorem changelogRow_last_of_ne (unit : TimeUnit) (c : Changelog K R) {row : Group K × R}
    {g : Group K} (h : g ≠ row.1) : (changelogRow unit c row).lastEmitted g = c.lastEmitted g := by
  unfold changelogRow
  split
  · split
    · rfl
    · exact if_neg h
  · exact if_neg h

theorem changelogRow_changes (unit : TimeUnit) (c : Changelog K R) (row : Group K × R) :
    ((changelogRow unit c row).retracts.map (·, true) ++
        (changelogRow unit c row).inserts.map (·, false)).Perm
      (c.retracts.map (·, true) ++ c.inserts.map (·, false) ++ rowChanges c.lastEmitted row) := by
  unfold changelogRow rowChanges
  cases c.lastEmitted row.1 with
  | none =>
    simp only [Changelog.record, List.map_append, List.map_cons, List.map_nil, List.append_assoc]
    exact List.Perm.refl _
  | some v =>
    by_cases hv : v.2 = row
    · simp only [hv, if_true, List.append_nil]
      exact List.Perm.refl _
    · simp only [hv, if_false, Changelog.record, List.map_append, List.map_cons, List.map_nil,
        List.append_assoc]
      refine List.Perm.append_left _ ?_
      rw [List.singleton_append]
      exact List.perm_middle.symm

theorem rowChanges_congr {last last' : LastEmitted K R} {row : Group K × R}
    (h : last row.1 = last' row.1) : rowChanges last row = rowChanges last' row := by
  unfold rowChanges
  rw [h]

theorem flatMap_rowChanges_congr {last last' : LastEmitted K R} {rows : List (Group K × R)}
    (h : ∀ g ∈ keys rows, last g = last' g) :
    rows.flatMap (rowChanges last) = rows.flatMap (rowChanges last') :=
  List.flatMap_congr fun _ hrow => rowChanges_congr (h _ (mem_keys_of_mem hrow))

/-- The rows of a batch, which has each group once: what they add, and what they leave alone. -/
theorem foldl_changelogRow (unit : TimeUnit) (batch : List (Group K × R)) (c : Changelog K R)
    (h : (keys batch).Nodup) :
    ((batch.foldl (changelogRow unit) c).retracts.map (·, true) ++
          (batch.foldl (changelogRow unit) c).inserts.map (·, false)).Perm
        (c.retracts.map (·, true) ++ c.inserts.map (·, false) ++
          batch.flatMap (rowChanges c.lastEmitted)) ∧
      ∀ g ∉ keys batch, (batch.foldl (changelogRow unit) c).lastEmitted g = c.lastEmitted g := by
  induction batch generalizing c with
  | nil =>
    refine ⟨?_, fun g _ => rfl⟩
    rw [List.flatMap_nil, List.append_nil]
    exact List.Perm.refl _
  | cons row batch ih =>
    have hrow : row.1 ∉ keys batch := (List.nodup_cons.mp h).1
    obtain ⟨hchanges, hlast⟩ := ih (changelogRow unit c row) (List.nodup_cons.mp h).2
    constructor
    · -- the later rows are of other groups, and see the entries that were there before
      have hsame : batch.flatMap (rowChanges (changelogRow unit c row).lastEmitted) =
          batch.flatMap (rowChanges c.lastEmitted) :=
        flatMap_rowChanges_congr fun g hg =>
          changelogRow_last_of_ne unit c fun heq => hrow (heq ▸ hg)
      rw [List.foldl_cons, List.flatMap_cons, ← List.append_assoc]
      refine hchanges.trans ?_
      rw [hsame]
      exact (changelogRow_changes unit c row).append_right _
    · intro g hg
      have hne : g ≠ row.1 := fun heq => hg (heq ▸ List.mem_cons_self)
      have hnot : g ∉ keys batch := fun hmem => hg (List.mem_cons_of_mem _ hmem)
      rw [List.foldl_cons, hlast g hnot]
      exact changelogRow_last_of_ne unit c hne

section

variable (cfg : Config) (wm : Int64) (m : Merge K R) {batch : List (Group K × R)}
  (h : (keys batch).Nodup)
include h

theorem changes_emitChangelog :
    (changes (emitChangelog cfg wm m batch).out).Perm
      (changes m.out ++ batch.flatMap (rowChanges m.lastEmitted)) := by
  have hfold := (foldl_changelogRow cfg.unit batch ⟨m.lastEmitted, [], []⟩ h).1
  unfold emitChangelog
  rw [changes_pushBatch, changes_pushBatch, List.append_assoc]
  exact hfold.append_left _

/-- Groups without a row in the batch are kept unless they are expired. -/
theorem lastEmitted_emitChangelog {g : Group K} (hg : g ∉ keys batch) :
    (emitChangelog cfg wm m batch).lastEmitted g = prune cfg wm m.lastEmitted g := by
  show Option.filter _ _ = Option.filter _ _
  rw [(foldl_changelogRow cfg.unit batch ⟨m.lastEmitted, [], []⟩ h).2 g hg]

end

/-! ## All calls -/

omit [DecidableEq K] [DecidableEq R] in
theorem prune_prune (cfg : Config) (wm : Int64) (last : LastEmitted K R) :
    prune cfg wm (prune cfg wm last) = prune cfg wm last := by
  funext g
  unfold prune
  rw [Option.filter_filter]
  simp only [Bool.and_self]

/-- The calls after the first see the entries that are not expired. -/
theorem changes_foldl_emitChangelog (cfg : Config) (wm : Int64) (m : Merge K R)
    {batch : List (Group K × R)} {batches : List (List (Group K × R))}
    (h : (keys (batch :: batches).flatten).Nodup) :
    (changes ((batch :: batches).foldl (emitChangelog cfg wm) m).out).Perm
      (changes m.out ++ batch.flatMap (rowChanges m.lastEmitted) ++
        batches.flatten.flatMap (rowChanges (prune cfg wm m.lastEmitted))) := by
  induction batches generalizing batch m with
  | nil =>
    rw [List.flatten_cons, List.flatten_nil, List.append_nil] at h
    rw [List.flatten_nil, List.flatMap_nil, List.append_nil]
    exact changes_emitChangelog cfg wm m h
  | cons next batches ih =>
    rw [List.flatten_cons, keys_append, List.nodup_append] at h
    obtain ⟨hbatch, hrest, hdisjoint⟩ := h
    have hlast : ∀ g ∈ keys (next :: batches).flatten,
        (emitChangelog cfg wm m batch).lastEmitted g = prune cfg wm m.lastEmitted g :=
      fun g hg => lastEmitted_emitChangelog cfg wm m hbatch fun hmem => hdisjoint g hmem g hg rfl
    have hnext : next.flatMap (rowChanges (emitChangelog cfg wm m batch).lastEmitted) =
        next.flatMap (rowChanges (prune cfg wm m.lastEmitted)) := by
      refine flatMap_rowChanges_congr fun g hg => hlast g ?_
      rw [List.flatten_cons, keys_append]
      exact List.mem_append_left _ hg
    have hlater : batches.flatten.flatMap
          (rowChanges (prune cfg wm (emitChangelog cfg wm m batch).lastEmitted)) =
        batches.flatten.flatMap (rowChanges (prune cfg wm m.lastEmitted)) := by
      refine flatMap_rowChanges_congr fun g hg => ?_
      have hmem : g ∈ keys (next :: batches).flatten := by
        rw [List.flatten_cons, keys_append]
        exact List.mem_append_right _ hg
      rw [← prune_prune cfg wm m.lastEmitted]
      exact congrArg (Option.filter _) (hlast g hmem)
    refine (ih (emitChangelog cfg wm m batch) hrest).trans ?_
    rw [hnext, hlater, List.flatten_cons, List.flatMap_append, List.append_assoc,
      List.append_assoc, ← List.append_assoc (changes m.out)]
    exact (changes_emitChangelog cfg wm m hbatch).append_right _

/-! ## Comparing -/

/-- Inserts less retractions. -/
def balance {Row : Type} (cs : List (Row × Bool)) : Int :=
  (cs.map fun c => if c.2 then -1 else 1).sum

theorem balance_perm {Row : Type} {cs cs' : List (Row × Bool)} (h : cs.Perm cs') :
    balance cs = balance cs' := (h.map _).sum_eq

/-- The balance of a changelog is the number of groups that are new to it. -/
theorem balance_flatMap_rowChanges (last : LastEmitted K R) (rows : List (Group K × R)) :
    balance (rows.flatMap (rowChanges last)) = rows.countP fun row => (last row.1).isNone := by
  induction rows with
  | nil => rfl
  | cons row rows ih =>
    have hrow : balance (rowChanges last row) = if (last row.1).isNone then 1 else 0 := by
      unfold rowChanges balance
      cases last row.1 with
      | none => rfl
      | some v =>
        by_cases hv : v.2 = row
        · simp [hv]
        · simp [hv]
    have happend : balance (rowChanges last row ++ rows.flatMap (rowChanges last)) =
        balance (rowChanges last row) + balance (rows.flatMap (rowChanges last)) := by
      simp [balance]
    rw [List.flatMap_cons, happend, hrow, ih, List.countP_cons]
    split
    · push_cast
      omega
    · simp

omit [DecidableEq K] [DecidableEq R] in
/-- As many groups are new with and without their expired entries only if no entry is expired. -/
theorem not_expired_of_countP_eq (cfg : Config) (wm : Int64) (last : LastEmitted K R)
    (rows : List (Group K × R))
    (h : (rows.countP fun row => (prune cfg wm last row.1).isNone) =
      rows.countP fun row => (last row.1).isNone) :
    ∀ row ∈ rows, ∀ entry ∈ last row.1, ¬ expired cfg wm entry := by
  have hmono : ∀ row : Group K × R, (last row.1).isNone = true →
      (prune cfg wm last row.1).isNone = true := by
    intro row hrow
    unfold prune
    rw [Option.isNone_iff_eq_none.mp hrow]
    rfl
  have hsub : (rows.filter fun row => (last row.1).isNone).Sublist
      (rows.filter fun row => (prune cfg wm last row.1).isNone) :=
    List.monotone_filter_right rows hmono
  rw [List.countP_eq_length_filter, List.countP_eq_length_filter] at h
  intro row hrow entry hentry hexp
  have hle : entry.1.saturatingAdd cfg.allowedLateness ≤ wm := hexp
  have hnone : (prune cfg wm last row.1).isNone = true := by
    unfold prune
    rw [Option.mem_def.mp hentry]
    simp [Option.filter, Int64.not_lt.mpr hle]
  have hmem := List.mem_filter (p := fun row => (prune cfg wm last row.1).isNone).mpr ⟨hrow, hnone⟩
  rw [← hsub.eq_of_length h.symm, List.mem_filter, Option.mem_def.mp hentry] at hmem
  cases hmem.2

omit [DecidableEq K] [DecidableEq R] in
theorem prune_of_not_expired {cfg : Config} {wm : Int64} {last : LastEmitted K R} {g : Group K}
    (h : ∀ entry ∈ last g, ¬ expired cfg wm entry) : prune cfg wm last g = last g := by
  unfold prune
  cases hg : last g with
  | none => rfl
  | some entry =>
    have hlt : ¬ entry.1.saturatingAdd cfg.allowedLateness ≤ wm := h entry hg
    simp [Option.filter, Int64.not_le.mp hlt]

/-- One call for each batch and one for all rows emit the same if and only if no row after the first
batch belongs to a group with an expired entry. -/
theorem splitInvariant_iff (cfg : Config) (wm : Option Int64) (m : Merge K R)
    (batches : List (List (Group K × R))) (h : (keys batches.flatten).Nodup) :
    (changes (batches.foldl (emitChangelogAt cfg wm) m).out).Perm
        (changes (emitChangelogAt cfg wm m batches.flatten).out) ↔
      ∀ w ∈ wm, ∀ row ∈ batches.tail.flatten, ∀ entry ∈ m.lastEmitted row.1,
        ¬ expired cfg w entry := by
  cases wm with
  | none =>
    have hfold : batches.foldl (emitChangelogAt cfg none) m = m := by
      induction batches with
      | nil => rfl
      | cons batch batches ih =>
        rw [List.flatten_cons, keys_append, List.nodup_append] at h
        exact ih h.2.1
    rw [hfold]
    simp [emitChangelogAt]
  | some w =>
    show (changes (batches.foldl (emitChangelog cfg w) m).out).Perm
      (changes (emitChangelog cfg w m batches.flatten).out) ↔ _
    simp only [Option.mem_def, Option.some.injEq, forall_eq']
    cases batches with
    | nil => simp [emitChangelog, pushBatch]
    | cons batch batches =>
      have hsplit := changes_foldl_emitChangelog cfg w m h
      have hwhole := changes_emitChangelog cfg w m h
      rw [List.flatten_cons, List.flatMap_append, ← List.append_assoc] at hwhole
      constructor
      · intro hperm
        -- what the later batches add has the same balance both times
        have hrest := (List.perm_append_left_iff _).mp (hsplit.symm.trans (hperm.trans hwhole))
        have hbalance := balance_perm hrest
        rw [balance_flatMap_rowChanges, balance_flatMap_rowChanges] at hbalance
        exact not_expired_of_countP_eq cfg w m.lastEmitted batches.flatten
          (by exact_mod_cast hbalance)
      · intro hkept
        have hsame : batches.flatten.flatMap (rowChanges (prune cfg w m.lastEmitted)) =
            batches.flatten.flatMap (rowChanges m.lastEmitted) := by
          refine List.flatMap_congr fun row hrow => rowChanges_congr ?_
          exact prune_of_not_expired (hkept row hrow)
        rw [hsame] at hsplit
        exact hsplit.trans hwhole.symm

/-- A configuration in update mode without lateness. -/
def noLateness : Config where
  outputMode := .update
  allowedLateness := 0
  stateBudgetBytes := 0
  compactEnabled := false
  incCkpt := false
  completeOnEnd := false
  hasStore := false
  unit := .microsecond

/-- The groups `a` and `b` of the window that ends at 10. -/
def windowGroup (key : Nat) : Group Nat := ⟨some 0, some 10, key⟩

/-- One row of value 1 was emitted for every group of the window. -/
def emittedOnce : Merge Nat Nat where
  newlyEmitted := []
  lastEmitted g := if g = windowGroup g.key then some (10, g, 1) else none
  out := []

/-- While the window is open, two record batches are as good as one. -/
theorem splitInvariant_open :
    (keys [[(windowGroup 0, 2)], [(windowGroup 1, 2)]].flatten).Nodup ∧
      (changes ([[(windowGroup 0, 2)], [(windowGroup 1, 2)]].foldl
          (emitChangelogAt noLateness (some 5)) emittedOnce).out).Perm
        (changes (emitChangelogAt noLateness (some 5) emittedOnce
          [[(windowGroup 0, 2)], [(windowGroup 1, 2)]].flatten).out) := by
  refine ⟨by decide, (splitInvariant_iff noLateness (some 5) emittedOnce
    [[(windowGroup 0, 2)], [(windowGroup 1, 2)]] (by decide)).mpr ?_⟩
  intro w hw row hrow entry hentry
  obtain rfl : 5 = w := Option.some.inj hw
  obtain rfl : row = (windowGroup 1, 2) := List.mem_singleton.mp hrow
  obtain rfl : (10, windowGroup 1, 1) = entry := Option.some.inj hentry
  decide

/-- In two record batches the first call forgets the second group, whose old row stays. -/
theorem split_keeps_old_row :
    let split := changes ([[(windowGroup 0, 2)], [(windowGroup 1, 2)]].foldl
      (emitChangelogAt noLateness (some 10)) emittedOnce).out
    let whole := changes (emitChangelogAt noLateness (some 10) emittedOnce
      [(windowGroup 0, 2), (windowGroup 1, 2)]).out
    ((windowGroup 1, 1), true) ∈ whole ∧ ((windowGroup 1, 1), true) ∉ split ∧
      ¬ split.Perm whole := by
  decide

end Zelox.Window
