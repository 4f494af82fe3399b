import Mathlib.Data.List.Sort
import Zelox.Lib.Lists

/-!
# The commit log of the streaming file sink

`_spark_metadata` holds one metadata file per committed batch: the files the batch
added, or at every tenth batch a compaction file with the whole live set.  Readers
fold the files from the newest compaction on.  A metadata file stands for its
decoded entries, and a `put` replaces it as a whole.

A log written by batches in order is well formed (`WellFormed`), and there the
live set obeys one equation per file (`live_snoc`).  A batch committed for the
first time adds a file (`commitBatch_fresh`); committed again, it replaces that file,
and a compaction then starts with the live set the old one had given
(`commitBatch_again`, `live_snoc_batchFile`).
-/

namespace Zelox.SinkLog

open List

variable {P : Type}

def compactInterval : Nat := 10

/-- The `action` of an entry; the sink only writes `"add"`. -/
inductive Action where
  | add
  | delete
deriving DecidableEq

/-- `SinkFileStatus`: what readers use of it. -/
structure SinkFileStatus (P : Type) where
  path : P
  action : Action
deriving DecidableEq

def SinkFileStatus.ofAdd (location : P) : SinkFileStatus P := ⟨location, .add⟩

/-- `<id>` or `<id>.compact` with its entries. -/
structure MetaFile (P : Type) where
  id : Nat
  compact : Bool
  entries : List (SinkFileStatus P)
deriving DecidableEq

/-- The objects under `_spark_metadata`. -/
abbrev Log (P : Type) := List (MetaFile P)

def put (log : Log P) (f : MetaFile P) : Log P :=
  (log.filter fun g => ¬ (g.id = f.id ∧ g.compact = f.compact)) ++ [f]

/-- The order of `files.sort_by`. -/
def before (a b : MetaFile P) : Prop :=
  a.id < b.id ∨ a.id = b.id ∧ (a.compact = false ∨ b.compact = true)

instance (a b : MetaFile P) : Decidable (before a b) := by unfold before; infer_instance

def latestCompact (files : List (MetaFile P)) : Option Nat :=
  ((files.filter (·.compact)).map (·.id)).max?

/-- The files that count: from the newest compaction on. -/
def counted (files : List (MetaFile P)) : List (MetaFile P) :=
  files.filter fun f => (latestCompact files).all fun c =>
    !(decide (f.id < c) || (decide (f.id = c) && !f.compact))

def readLiveEntries [DecidableEq P] (log : Log P) (upTo : Option Nat) : List (SinkFileStatus P) :=
  let files := (log.filter fun f => upTo.all fun u => f.id ≤ u).insertionSort before
  let entries := (counted files).flatMap (·.entries)
  let deleted := (entries.filter fun e => e.action = .delete).map (·.path)
  (entries.filter fun e => e.action ≠ .delete).filter fun e => e.path ∉ deleted

def isCompaction (batchId : Nat) : Bool := (batchId + 1) % compactInterval = 0

def commitBatch [DecidableEq P] (log : Log P) (batchId : Nat) (files : List P) : Log P :=
  let adds := files.map SinkFileStatus.ofAdd
  if isCompaction batchId then put log ⟨batchId, true, readLiveEntries log (some batchId) ++ adds⟩
  else put log ⟨batchId, false, adds⟩

/-- `None` without a commit log. -/
def readCommittedFiles [DecidableEq P] (log : Log P) : Option (List P) :=
  if log.isEmpty then none else some ((readLiveEntries log none).map (·.path))

/-! ## Well-formed logs -/

/-- Metadata files in order of their batches, of the kind their ids ask for, that only add. -/
structure WellFormed (log : Log P) : Prop where
  ids : log.Pairwise fun f g => f.id < g.id
  kind : ∀ f ∈ log, f.compact = isCompaction f.id
  adds : ∀ f ∈ log, ∀ e ∈ f.entries, e.action = .add

theorem wellFormed_nil : WellFormed ([] : Log P) := ⟨List.Pairwise.nil, by simp, by simp⟩

theorem WellFormed.of_append {l m : Log P} (h : WellFormed (l ++ m)) : WellFormed l where
  ids := (pairwise_append.mp h.ids).1
  kind f hf := h.kind f (mem_append_left _ hf)
  adds f hf := h.adds f (mem_append_left _ hf)

theorem WellFormed.snoc {l : Log P} (h : WellFormed l) (f : MetaFile P)
    (hid : ∀ g ∈ l, g.id < f.id) (hk : f.compact = isCompaction f.id)
    (ha : ∀ e ∈ f.entries, e.action = .add) : WellFormed (l ++ [f]) where
  ids := Lists.pairwise_concat.mpr ⟨h.ids, hid⟩
  kind := Lists.forall_mem_concat.mpr ⟨h.kind, hk⟩
  adds := Lists.forall_mem_concat.mpr ⟨h.adds, ha⟩

theorem WellFormed.lt_last {l : Log P} {f : MetaFile P} (h : WellFormed (l ++ [f])) :
    ∀ g ∈ l, g.id < f.id := (Lists.pairwise_concat.mp h.ids).2

variable {log : Log P}

theorem latestCompact_snoc {f : MetaFile P} (h : WellFormed (log ++ [f])) :
    latestCompact (log ++ [f]) = if f.compact then some f.id else latestCompact log := by
  unfold latestCompact
  by_cases hc : f.compact = true
  · rw [if_pos hc, filter_append, filter_cons_of_pos hc, filter_nil,
      map_append, map_singleton, max?_eq_some_iff]
    refine ⟨by simp, Lists.forall_mem_concat.mpr ⟨fun i hi => ?_, le_rfl⟩⟩
    obtain ⟨g, hg, rfl⟩ := mem_map.mp hi
    exact le_of_lt (h.lt_last g (mem_filter.mp hg).1)
  · rw [if_neg hc, filter_append, filter_cons_of_neg hc, filter_nil, append_nil]

theorem exists_of_latestCompact {c : Nat} (h : latestCompact log = some c) :
    ∃ g ∈ log, g.id = c := by
  obtain ⟨g, hg, rfl⟩ := mem_map.mp (max?_mem h)
  exact ⟨g, (mem_filter.mp hg).1, rfl⟩

theorem counted_snoc {f : MetaFile P} (h : WellFormed (log ++ [f])) :
    counted (log ++ [f]) = if f.compact then [f] else counted log ++ [f] := by
  unfold counted
  rw [latestCompact_snoc h, filter_append]
  by_cases hc : f.compact = true
  · have hold : ∀ g ∈ log, ¬ ((some f.id).all fun c =>
        !(decide (g.id < c) || (decide (g.id = c) && !g.compact))) = true := by
      intro g hg
      simp [h.lt_last g hg]
    rw [if_pos hc, if_pos hc, filter_eq_nil_iff.mpr hold, nil_append]
    simp [hc]
  · -- the file is newer than the newest compaction
    have hnew : ((latestCompact log).all fun c =>
        !(decide (f.id < c) || (decide (f.id = c) && !f.compact))) = true := by
      rw [Option.all_eq_true_iff_get]
      intro hs
      obtain ⟨g, hg, hgc⟩ := exists_of_latestCompact (Option.some_get hs).symm
      have := h.lt_last g hg
      simp only [Bool.not_eq_eq_eq_not, Bool.not_true, Bool.or_eq_false_iff,
        Bool.and_eq_false_imp, decide_eq_false_iff_not, decide_eq_true_eq]
      omega
    rw [if_neg hc, if_neg hc]
    simp only [filter_cons, hnew, if_true, filter_nil]

theorem WellFormed.counted_adds (h : WellFormed log) :
    ∀ e ∈ (counted log).flatMap (·.entries), e.action = .add := by
  intro e he
  obtain ⟨f, hf, he⟩ := mem_flatMap.mp he
  exact h.adds f (mem_filter.mp hf).1 e he

/-! ## Puts -/

theorem put_fresh {f : MetaFile P} (h : ∀ g ∈ log, g.id < f.id) :
    put log f = log ++ [f] := by
  unfold put
  rw [filter_eq_self.mpr]
  intro g hg
  have := h g hg
  simp only [decide_not, Bool.not_eq_eq_eq_not, Bool.not_true, decide_eq_false_iff_not]
  omega

theorem put_last {f g : MetaFile P} (h : ∀ g ∈ log, g.id < f.id) (hid : g.id = f.id)
    (hc : g.compact = f.compact) : put (log ++ [g]) f = log ++ [f] := by
  have := put_fresh h
  unfold put at this ⊢
  rw [filter_append, filter_cons_of_neg (by simp [hid, hc]), filter_nil, append_nil, this]

theorem adds_ofAdd (files : List P) : ∀ e ∈ files.map SinkFileStatus.ofAdd, e.action = .add := by
  intro e he
  obtain ⟨p, -, rfl⟩ := mem_map.mp he
  rfl

/-- The metadata file a commit writes over the live set `prior`. -/
def batchFile (prior : List (SinkFileStatus P)) (batchId : Nat) (files : List P) : MetaFile P :=
  if isCompaction batchId then ⟨batchId, true, prior ++ files.map .ofAdd⟩
  else ⟨batchId, false, files.map .ofAdd⟩

section

variable (prior : List (SinkFileStatus P)) (b : Nat) (files : List P)

@[simp] theorem batchFile_id :
    (batchFile prior b files).id = b := by
  unfold batchFile
  split <;> rfl

@[simp] theorem batchFile_compact :
    (batchFile prior b files).compact = isCompaction b := by
  unfold batchFile
  split <;> simp [*]

end

theorem batchFile_adds {prior : List (SinkFileStatus P)} (h : ∀ e ∈ prior, e.action = .add)
    (b : Nat) (files : List P) : ∀ e ∈ (batchFile prior b files).entries, e.action = .add := by
  unfold batchFile
  split
  · exact forall_mem_append.mpr ⟨h, adds_ofAdd files⟩
  · exact adds_ofAdd files

/-- A log whose last file was written by a commit over `prior`. -/
theorem WellFormed.snoc_batchFile {l : Log P} (h : WellFormed l) {b : Nat}
    (hid : ∀ g ∈ l, g.id < b) {prior : List (SinkFileStatus P)}
    (hp : ∀ e ∈ prior, e.action = .add) (files : List P) :
    WellFormed (l ++ [batchFile prior b files]) := by
  apply h.snoc
  · simpa using hid
  · simp
  · exact batchFile_adds hp b files

/-! ## The live set -/

variable [DecidableEq P]

/-- The live set of the whole log. -/
def live (log : Log P) : List (SinkFileStatus P) := readLiveEntries log none

/-- What is listed is already sorted, and nothing is deleted. -/
theorem readLiveEntries_eq (h : WellFormed log) (upTo : Option Nat)
    (hu : ∀ f ∈ log, upTo.all (fun u => decide (f.id ≤ u)) = true) :
    readLiveEntries log upTo = (counted log).flatMap (·.entries) := by
  have hall : (log.filter fun f => upTo.all fun u => decide (f.id ≤ u)) = log :=
    filter_eq_self.mpr hu
  have hsorted : log.insertionSort before = log :=
    List.Pairwise.insertionSort_eq (h.ids.imp fun hlt => .inl hlt)
  have hadd := h.counted_adds
  have hnone : ((counted log).flatMap (·.entries)).filter
      (fun e => decide (e.action = .delete)) = [] := by
    rw [filter_eq_nil_iff]
    intro e he
    simp [hadd e he]
  unfold readLiveEntries
  simp only [hall, hsorted, hnone, map_nil, not_mem_nil, not_false_eq_true, decide_true]
  rw [filter_eq_self.mpr (by simp), filter_eq_self.mpr]
  intro e he
  simp [hadd e he]

theorem live_eq (h : WellFormed log) : live log = (counted log).flatMap (·.entries) :=
  readLiveEntries_eq h none (by simp)

theorem readLiveEntries_upTo (h : WellFormed log) (u : Nat) (hu : ∀ f ∈ log, f.id ≤ u) :
    readLiveEntries log (some u) = live log := by
  rw [live_eq h]
  refine readLiveEntries_eq h (some u) ?_
  intro f hf
  simpa using hu f hf

theorem live_adds (h : WellFormed log) : ∀ e ∈ live log, e.action = .add := by
  rw [live_eq h]
  exact h.counted_adds

@[simp] theorem live_nil : live ([] : Log P) = [] := rfl

/-- A compaction file is the live set; any other file adds to it. -/
theorem live_snoc {f : MetaFile P} (h : WellFormed (log ++ [f])) :
    live (log ++ [f]) = if f.compact then f.entries else live log ++ f.entries := by
  rw [live_eq h, live_eq h.of_append, counted_snoc h]
  by_cases hc : f.compact = true
  · rw [if_pos hc, if_pos hc, flatMap_singleton]
  · rw [if_neg hc, if_neg hc, flatMap_append, flatMap_singleton]

/-! ## One commit -/

theorem commitBatch_eq_put (log : Log P) (b : Nat) (files : List P) :
    commitBatch log b files = put log (batchFile (readLiveEntries log (some b)) b files) := by
  unfold commitBatch batchFile
  split <;> rfl

theorem commitBatch_eq (h : WellFormed log) {b : Nat} (hb : ∀ g ∈ log, g.id ≤ b) (files : List P) :
    commitBatch log b files = put log (batchFile (live log) b files) := by
  rw [commitBatch_eq_put, readLiveEntries_upTo h b hb]

theorem commitBatch_fresh (h : WellFormed log) {b : Nat} (hb : ∀ g ∈ log, g.id < b)
    (files : List P) : commitBatch log b files = log ++ [batchFile (live log) b files] := by
  rw [commitBatch_eq h fun g hg => le_of_lt (hb g hg)]
  apply put_fresh
  intro g hg
  rw [batchFile_id]
  exact hb g hg

theorem commitBatch_again {g : MetaFile P} (h : WellFormed (log ++ [g])) (files : List P) :
    commitBatch (log ++ [g]) g.id files = log ++ [batchFile (live (log ++ [g])) g.id files] := by
  have hle : ∀ f ∈ log ++ [g], f.id ≤ g.id :=
    Lists.forall_mem_concat.mpr ⟨fun f hf => le_of_lt (h.lt_last f hf), le_rfl⟩
  rw [commitBatch_eq h hle]
  apply put_last
  · intro f hf
    rw [batchFile_id]
    exact h.lt_last f hf
  · rw [batchFile_id]
  · rw [batchFile_compact]
    exact h.kind g (mem_append_right _ (mem_singleton.mpr rfl))

theorem live_snoc_batchFile {l : Log P} (h : WellFormed l) {b : Nat}
    (hid : ∀ g ∈ l, g.id < b) {prior : List (SinkFileStatus P)}
    (hp : ∀ e ∈ prior, e.action = .add) (files : List P) :
    live (l ++ [batchFile prior b files]) =
      (if isCompaction b then prior else live l) ++ files.map .ofAdd := by
  rw [live_snoc (h.snoc_batchFile hid hp files), batchFile_compact]
  by_cases hc : isCompaction b = true
  · simp [hc, batchFile]
  · simp [hc, batchFile]

end Zelox.SinkLog
