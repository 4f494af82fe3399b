import Zelox.Iceberg.Metadata

/-!
# Which delete files apply to a data file

`spec/delete_index.rs`: delete files are indexed by what they are scoped to, and looked up for a
data file by its path, its partition tuple and its sequence number.  `positional_iff` and
`equality_iff` say which of the registered files a lookup finds.
-/

namespace Zelox.Iceberg

open List

variable {L : Type} [DecidableEq L]

/-- A delete file with its sequence number and whether its spec is unpartitioned. -/
structure DeleteFileRef (L : Type) where
  dataFile : DataFile L
  dataSequenceNumber : Int
  partitionSpecId : Int
  isUnpartitionedSpec : Bool
deriving DecidableEq, Repr

/-- The encoded partition key: the encoding is injective on the tuples of a spec. -/
abbrev PartitionKey (L : Type) := Int × List (Option L)

def DeleteFileRef.key (r : DeleteFileRef L) : PartitionKey L :=
  (r.partitionSpecId, r.dataFile.partition)

def DataFile.key (f : DataFile L) : PartitionKey L := (f.partitionSpecId, f.partition)

/-- Each map from keys to lists is the list of its files in the order they came in. -/
structure DeleteFileIndex (L : Type) where
  globalEq : List (DeleteFileRef L) := []
  eqByPartition : List (DeleteFileRef L) := []
  posByPartition : List (DeleteFileRef L) := []
  posByPath : List (DeleteFileRef L) := []
deriving DecidableEq, Repr

structure MatchedDeletes (L : Type) where
  positional : List (DeleteFileRef L)
  equality : List (DeleteFileRef L)
deriving DecidableEq, Repr

namespace DeleteFileIndex

/-- Fails on deletion vectors and on files that are not delete files. -/
def insert (i : DeleteFileIndex L) (r : DeleteFileRef L) : Option (DeleteFileIndex L) :=
  if r.dataFile.isDeletionVector then none
  else match r.dataFile.content with
    | .data => none
    | .equalityDeletes =>
      if r.isUnpartitionedSpec then some { i with globalEq := i.globalEq ++ [r] }
      else some { i with eqByPartition := i.eqByPartition ++ [r] }
    | .positionDeletes =>
      if r.dataFile.referencedDataFile.isSome then some { i with posByPath := i.posByPath ++ [r] }
      else some { i with posByPartition := i.posByPartition ++ [r] }

def forDataFile (i : DeleteFileIndex L) (f : DataFile L) (sequenceNumber : Int) :
    MatchedDeletes L where
  positional :=
    i.posByPath.filter (fun r => r.dataFile.referencedDataFile = some f.filePath ∧
      sequenceNumber ≤ r.dataSequenceNumber) ++
    i.posByPartition.filter fun r => r.key = f.key ∧ sequenceNumber ≤ r.dataSequenceNumber
  equality :=
    i.eqByPartition.filter (fun r => r.key = f.key ∧ sequenceNumber < r.dataSequenceNumber) ++
    i.globalEq.filter fun r => sequenceNumber < r.dataSequenceNumber

def build (refs : List (DeleteFileRef L)) : Option (DeleteFileIndex L) := refs.foldlM insert {}

/-- Where `insert` puts the files it accepts. -/
structure Holds (i : DeleteFileIndex L) (refs : List (DeleteFileRef L)) : Prop where
  globalEq : i.globalEq = refs.filter fun r =>
    r.dataFile.content = .equalityDeletes ∧ r.isUnpartitionedSpec
  eqByPartition : i.eqByPartition = refs.filter fun r =>
    r.dataFile.content = .equalityDeletes ∧ ¬ r.isUnpartitionedSpec
  posByPartition : i.posByPartition = refs.filter fun r =>
    r.dataFile.content = .positionDeletes ∧ ¬ r.dataFile.referencedDataFile.isSome
  posByPath : i.posByPath = refs.filter fun r =>
    r.dataFile.content = .positionDeletes ∧ r.dataFile.referencedDataFile.isSome

omit [DecidableEq L] in
theorem Holds.insert {i j : DeleteFileIndex L} {refs : List (DeleteFileRef L)} {r : DeleteFileRef L}
    (h : i.Holds refs) (hj : i.insert r = some j) : j.Holds (refs ++ [r]) := by
  unfold DeleteFileIndex.insert at hj
  cases hc : r.dataFile.content <;> simp only [hc] at hj <;> split at hj
  all_goals first | cases hj | skip
  all_goals split at hj
  all_goals
    next hs =>
    cases hj
    constructor <;> simp_all [filter_append, h.globalEq, h.eqByPartition, h.posByPartition,
      h.posByPath, Option.isSome_iff_ne_none]

section

variable {i : DeleteFileIndex L} {refs : List (DeleteFileRef L)}

omit [DecidableEq L] in
theorem holds_build (h : build refs = some i) : i.Holds refs := by
  suffices ∀ (pre : List (DeleteFileRef L)) (j : DeleteFileIndex L), j.Holds pre →
      refs.foldlM DeleteFileIndex.insert j = some i → i.Holds (pre ++ refs) from
    this [] {} ⟨rfl, rfl, rfl, rfl⟩ h
  intro pre j hj hrefs
  clear h
  induction refs generalizing pre j with
  | nil =>
    obtain rfl := Option.some.inj hrefs
    rwa [append_nil]
  | cons r refs ih =>
    rw [foldlM_cons] at hrefs
    obtain ⟨k, hk, hrefs⟩ := Option.bind_eq_some_iff.mp hrefs
    have := ih (pre ++ [r]) k (hj.insert hk) hrefs
    rwa [append_assoc] at this

section

variable (h : i.Holds refs) (f : DataFile L) (sequenceNumber : Int) (r : DeleteFileRef L)
include h

/-- A position delete that is not older and names the file or, naming none, shares its partition. -/
theorem positional_iff :
    r ∈ (i.forDataFile f sequenceNumber).positional ↔
      r ∈ refs ∧ r.dataFile.content = .positionDeletes ∧ sequenceNumber ≤ r.dataSequenceNumber ∧
      (r.dataFile.referencedDataFile = some f.filePath ∨
        r.dataFile.referencedDataFile = none ∧ r.key = f.key) := by
  simp only [forDataFile, h.posByPath, h.posByPartition, mem_append, mem_filter,
    decide_eq_true_eq, Option.not_isSome_iff_eq_none]
  constructor
  · rintro (⟨⟨hr, hc, -⟩, hn, hs⟩ | ⟨⟨hr, hc, hn⟩, hk, hs⟩)
    · exact ⟨hr, hc, hs, .inl hn⟩
    · exact ⟨hr, hc, hs, .inr ⟨hn, hk⟩⟩
  · rintro ⟨hr, hc, hs, hn | ⟨hn, hk⟩⟩
    · exact .inl ⟨⟨hr, hc, by simp [hn]⟩, hn, hs⟩
    · exact .inr ⟨⟨hr, hc, hn⟩, hk, hs⟩

/-- An equality delete that is newer and is unpartitioned or shares the file's partition. -/
theorem equality_iff :
    r ∈ (i.forDataFile f sequenceNumber).equality ↔
      r ∈ refs ∧ r.dataFile.content = .equalityDeletes ∧ sequenceNumber < r.dataSequenceNumber ∧
      (r.isUnpartitionedSpec ∨ r.key = f.key) := by
  simp only [forDataFile, h.eqByPartition, h.globalEq, mem_append, mem_filter,
    decide_eq_true_eq]
  constructor
  · rintro (⟨⟨hr, hc, -⟩, hk, hs⟩ | ⟨⟨hr, hc, hu⟩, hs⟩)
    · exact ⟨hr, hc, hs, .inr hk⟩
    · exact ⟨hr, hc, hs, .inl hu⟩
  · rintro ⟨hr, hc, hs, h⟩
    by_cases hu : r.isUnpartitionedSpec = true
    · exact .inr ⟨⟨hr, hc, hu⟩, hs⟩
    · exact .inl ⟨⟨hr, hc, hu⟩, h.resolve_left hu, hs⟩

end

end

end DeleteFileIndex

end Zelox.Iceberg
