import Zelox.Iceberg.DeleteApply
import Zelox.Lib.Lists
import Mathlib.Data.List.Flatten

/-!
# Deletes over a repartitioned scan

`IcebergDeleteApplyExec` asks nothing of the distribution of its input, so `EnforceDistribution`
may put a round-robin exchange below it or split the scan of the file into ranges.  `execute`
reads the first partition of the input and no other, and counts positions in the order the rows
arrive there.

All delete files are applied rightly if and only if the other partitions have no rows
(`repartitioned_iff`).
-/

namespace Zelox.Iceberg

open List

variable {L T V : Type}

/-- `RepartitionExec` over a single input: batches go round the partitions. -/
def roundRobin {α : Type} (n : Nat) (batches : List α) : List (List α) :=
  (List.range n).map fun k => (batches.zipIdx.filter fun x => x.2 % n = k).map (·.1)

/-- The input that the operator may be given for a file that is read in these batches. -/
inductive Repartitioned (file : List (List (Row V))) : List (List (List (Row V))) → Prop
  | unchanged : Repartitioned file [file]
  | roundRobin (n : Nat) (hn : 0 < n) : Repartitioned file (roundRobin n file)
  /-- The ranges have batches of their own, of which none is empty. -/
  | split (ranges : List (List (List (Row V)))) (hrows : ranges.flatten.flatten = file.flatten)
      (hbatches : ∀ range ∈ ranges, [] ∉ range) : Repartitioned file ranges

/-- `IcebergDeleteApplyExec::execute` for its only partition. -/
def executeFirst [DecidableEq T] [DecidableEq V] (d : DeleteFiles T V) (schema : List (KeyField T))
    (path : String) (matched : MatchedDeletes L) (columns : Columns T)
    (input : List (List (List (Row V)))) : Option (List (List (Row V))) :=
  applyDeletes d schema path matched columns (input.headD [])

/-- Whatever delete files there are for the file, as long as they can be read, the rows that come
out are those that survive. -/
def AppliesDeletes (L : Type) [DecidableEq L] [DecidableEq T] [DecidableEq V] (columns : Columns T)
    (file : List (List (Row V))) (input : List (List (List (Row V)))) : Prop :=
  ∀ (d : DeleteFiles T V) schema refs index (f : DataFile L) seq,
    DeleteFileIndex.build refs = some index → d.Targeted refs →
      index.forDataFile f seq ≠ ⟨[], []⟩ → DeletesReadable d schema refs f seq columns file →
        ∃ out, executeFirst d schema f.filePath (index.forDataFile f seq) columns input = some out ∧
          out.flatten.Perm (survivors (keyByName schema) d refs f seq columns file)

namespace Repartitioned

variable {file : List (List (Row V))} {input : List (List (List (Row V)))}

theorem length_flatten (h : Repartitioned file input) :
    input.flatten.flatten.length = file.flatten.length := by
  cases h with
  | unchanged => simp
  | split _ hrows _ => rw [hrows]
  | roundRobin n hn =>
    have hperm := (Lists.perm_flatMap_filter (fun x : List (Row V) × Nat => x.2 % n) n file.zipIdx
      fun x _ => Nat.mod_lt _ hn).map (·.1)
    rw [map_flatMap, zipIdx_map_fst] at hperm
    rw [Iceberg.roundRobin, ← flatMap_def]
    exact hperm.flatten.length_eq

/-- The first partition has rows of the file in the order of the file. -/
theorem first_sublist (h : Repartitioned file input) :
    (input.headD []).flatten.Sublist file.flatten ∧ (input.headD [] ≠ [] → file ≠ []) := by
  cases h with
  | unchanged => exact ⟨.refl _, id⟩
  | split _ hrows hbatches =>
    rw [← hrows]
    cases input with
    | nil => exact ⟨nil_sublist _, fun h => (h rfl).elim⟩
    | cons range ranges =>
      refine ⟨by simp, fun hne hfile => ?_⟩
      obtain ⟨batch, hbatch⟩ := exists_mem_of_ne_nil _ hne
      have hnil : batch = [] := by
        rw [hfile, flatten_nil, flatten_eq_nil_iff] at hrows
        exact hrows batch (mem_flatten_of_mem mem_cons_self hbatch)
      exact hbatches range mem_cons_self (hnil ▸ hbatch)
  | roundRobin n hn =>
    have hsub : ((file.zipIdx.filter fun x => x.2 % n = 0).map (·.1)).Sublist file := by
      have := (filter_sublist (l := file.zipIdx) (p := fun x => x.2 % n = 0)).map (·.1)
      rwa [zipIdx_map_fst] at this
    obtain ⟨m, rfl⟩ := Nat.exists_eq_succ_of_ne_zero hn.ne'
    rw [Iceberg.roundRobin, range_succ_eq_map]
    exact ⟨hsub.flatten, fun hne hfile => hne (sublist_nil.mp (hfile ▸ hsub))⟩

theorem first_flatten_eq_iff (h : Repartitioned file input) :
    (input.headD []).flatten.length = file.flatten.length ↔ ∀ p ∈ input.tail, p.flatten = [] := by
  rw [← h.length_flatten]
  cases input with
  | nil => simp
  | cons first rest =>
    rw [flatten_cons, flatten_append, length_append, headD_cons, Nat.left_eq_add,
      length_eq_zero_iff, flatten_eq_nil_iff]
    simp only [mem_flatten, tail_cons, flatten_eq_nil_iff]
    exact ⟨fun h p hp b hb => h b ⟨p, hp, hb⟩, fun h b ⟨p, hp, hb⟩ => h p hp b hb⟩

end Repartitioned

/-- All delete files are applied rightly if and only if the first partition has all rows. -/
theorem repartitioned_iff [DecidableEq L] [DecidableEq T] [DecidableEq V] (columns : Columns T)
    (file : List (List (Row V))) (input : List (List (List (Row V))))
    (h : Repartitioned file input) :
    AppliesDeletes L columns file input ↔ ∀ p ∈ input.tail, p.flatten = [] := by
  rw [← h.first_flatten_eq_iff]
  constructor
  · intro happly
    -- a position delete file that deletes nothing
    let d : DeleteFiles T V := { positions _ := [], columns _ := [], batches _ := [] }
    let r : DeleteFileRef L :=
      { dataFile := { content := .positionDeletes, filePath := "", referencedDataFile := some "" }
        dataSequenceNumber := 0
        partitionSpecId := 0
        isUnpartitionedSpec := true }
    have hindex : DeleteFileIndex.build [r] = some { posByPath := [r] } := rfl
    have htargets : d.Targeted [r] := fun _ _ _ _ _ hrows => (not_mem_nil hrows).elim
    obtain ⟨out, hout, hperm⟩ := happly d [] [r] _ { filePath := "" } 0 hindex htargets
      (by simp [DeleteFileIndex.forDataFile, r])
      ⟨fun _ _ _ _ hb => (not_mem_nil hb).elim, by simp [DeleteFileRef.DeletesKeys, r]⟩
    have hall (batches : List (List (Row V))) :
        survivors (keyByName []) d [r] { filePath := "" } 0 columns batches = batches.flatten := by
      rw [survivors, filter_eq_self.mpr, zipIdx_map_fst]
      simp [PositionDeleted, KeyDeleted, d]
    rw [flatten_applyDeletes (DeleteFileIndex.holds_build hindex) htargets hout, hall,
      hall] at hperm
    exact hperm.length_eq
  · intro hlen d schema refs index f seq hindex htargets _ hreadable
    have hh := DeleteFileIndex.holds_build hindex
    have hfirst := h.first_sublist.1.eq_of_length hlen
    have hout : DeletesReadable d schema refs f seq columns (input.headD []) := by
      refine ⟨hreadable.1, fun r hr hkeys => ?_⟩
      obtain ⟨hids, spec, hspec, hdel, hcols⟩ := hreadable.2 r hr hkeys
      exact ⟨hids, spec, hspec, hdel, fun hne => hcols (h.first_sublist.2 hne)⟩
    obtain ⟨out, hout⟩ := Option.isSome_iff_exists.mp ((applyDeletes_isSome_iff hh).mpr hout)
    refine ⟨out, hout, ?_⟩
    rw [flatten_applyDeletes hh htargets hout, survivors, survivors, hfirst]

/-- Deletes the row at a position of the file `f`. -/
def positionDeletes (p : Int) : DeleteFiles String Nat where
  positions _ := [some [(some "f", some p)]]
  columns _ := []
  batches _ := []

def positionDelete : DeleteFileRef Int where
  dataFile := { content := .positionDeletes, filePath := "d", referencedDataFile := some "f" }
  dataSequenceNumber := 1
  partitionSpecId := 0
  isUnpartitionedSpec := true

/-- Of three batches of a row each the last one is deleted: after a round-robin exchange the second
row is lost and the deleted one comes out. -/
theorem repartitioned_loses_row :
    applyDeletes (positionDeletes 2) [] "f" ⟨[positionDelete], []⟩ [⟨1, "a", "int"⟩]
      [[[some 10]], [[some 11]], [[some 12]]] = some [[[some 10]], [[some 11]]] ∧
    executeFirst (positionDeletes 2) [] "f" ⟨[positionDelete], []⟩ [⟨1, "a", "int"⟩]
      (roundRobin 2 [[[some 10]], [[some 11]], [[some 12]]]) = some [[[some 10]], [[some 12]]] := by
  decide +kernel

/-- A plan that is not changed, and a file of one batch, of which the other partitions get nothing. -/
theorem repartitioned_iff_oneBatch :
    Repartitioned [[[some 10]], [[some 11]]] [[[[some 10]], [[some 11]]]] ∧
    AppliesDeletes Int [⟨1, "a", "int"⟩] [[[some 10]], [[some 11]]] [[[[some 10]], [[some 11]]]] ∧
    Repartitioned [[[some 10], [some 11]]] (roundRobin 2 [[[some 10], [some 11]]]) ∧
    AppliesDeletes Int [⟨1, "a", "int"⟩] [[[some 10], [some 11]]]
      (roundRobin 2 [[[some 10], [some 11]]]) :=
  ⟨.unchanged, (repartitioned_iff [⟨1, "a", "int"⟩] [[[some 10]], [[some 11]]] _ .unchanged).mpr
    (by simp), .roundRobin 2 (by decide), (repartitioned_iff [⟨1, "a", "int"⟩]
      [[[some 10], [some 11]]] _ (.roundRobin 2 (by decide))).mpr (by decide)⟩

end Zelox.Iceberg
