import Zelox.Sink.Commits
import Mathlib.Data.List.AList

/-!
# The output directory of a streaming file sink

Data files live in one directory per batch, `<base>/<batchId>/<name>`; the commit log
lists them by batch and name.  Readers take the rows of the files that are listed
(`visibleRows`); a listed file that is gone gives them none.  What happens in one
batch's directory does not touch the rows of the others.
-/

namespace Zelox.SinkLog

open List

/-- `<base>`: the commit log, and the rows of each data file. -/
structure Output (N R : Type) where
  log : Log (Nat × N)
  data : AList fun _ : Nat × N => List R

namespace Output

variable {N R : Type} [DecidableEq N]

def empty : Output N R := ⟨[], ∅⟩

def putFile (out : Output N R) (p : Nat × N) (rows : List R) : Output N R :=
  { out with data := out.data.insert p rows }

def deleteFile (out : Output N R) (p : Nat × N) : Output N R :=
  { out with data := out.data.erase p }

def listBatchFiles (out : Output N R) (batchId : Nat) : List (Nat × N) :=
  out.data.keys.filter (·.1 = batchId)

/-- `commit_batch` of the files that were listed. -/
def commitListed (out : Output N R) (batchId : Nat) (metas : List (Nat × N)) : Output N R :=
  { out with log := commitBatch out.log batchId metas }

def rowsAt (out : Output N R) (p : Nat × N) : List R := (out.data.lookup p).getD []

/-- The rows of a list of data files. -/
def rowsOf (out : Output N R) (ps : List (Nat × N)) : List R := ps.flatMap out.rowsAt

/-- The files that readers of the output are given. -/
def listed (out : Output N R) : List (Nat × N) := (readCommittedFiles out.log).getD []

/-- What readers of the output see. -/
def visibleRows (out : Output N R) : List R := out.rowsOf out.listed

theorem rowsAt_putFile_of_ne (out : Output N R) {p q : Nat × N} (rows : List R) (h : q ≠ p) :
    (out.putFile p rows).rowsAt q = out.rowsAt q := by
  unfold rowsAt putFile
  rw [AList.lookup_insert_ne h]

theorem rowsAt_deleteFile_of_ne (out : Output N R) {p q : Nat × N} (h : q ≠ p) :
    (out.deleteFile p).rowsAt q = out.rowsAt q := by
  unfold rowsAt deleteFile
  rw [AList.lookup_erase_ne h]

omit [DecidableEq N] in
theorem mem_listBatchFiles {out : Output N R} {b : Nat} {p : Nat × N} :
    p ∈ out.listBatchFiles b ↔ p ∈ out.data.keys ∧ p.1 = b := by
  unfold listBatchFiles
  rw [mem_filter, decide_eq_true_iff]

/-- The commit of a directory's own listing. -/
def commitOf (out : Output N R) (b : Nat) : Commit (Nat × N) Prod.fst where
  batchId := b
  files := out.listBatchFiles b
  located _ hp := (mem_listBatchFiles.mp hp).2
  nodup := out.data.keys_nodup.filter _

theorem log_commitListed {out : Output N R} {h : List (Commit (Nat × N) Prod.fst)}
    (hlog : out.log = commits h) (b : Nat) :
    (out.commitListed b (out.listBatchFiles b)).log = commits (h ++ [out.commitOf b]) := by
  unfold commits commitListed
  rw [Runs.run_append]
  show commitBatch out.log b _ = commitBatch (commits h) b _
  rw [hlog]
  rfl

theorem rowsOf_append (out : Output N R) (ps qs : List (Nat × N)) :
    out.rowsOf (ps ++ qs) = out.rowsOf ps ++ out.rowsOf qs := flatMap_append

theorem rowsOf_congr {out out' : Output N R} {ps : List (Nat × N)}
    (h : ∀ p ∈ ps, out.rowsAt p = out'.rowsAt p) : out.rowsOf ps = out'.rowsOf ps :=
  flatMap_congr h

theorem listed_eq {out : Output N R} {h : List (Commit (Nat × N) Prod.fst)}
    (hlog : out.log = commits h) (hs : Nondecreasing h) : out.listed = paths (visible h) := by
  unfold listed
  rw [hlog, readCommittedFiles_commits h hs]
  cases h with
  | nil => rfl
  | cons c h => rfl

theorem listed_eq_live (out : Output N R) : out.listed = (live out.log).map (·.path) := by
  unfold listed readCommittedFiles
  cases out.log with
  | nil => rfl
  | cons f log => rfl

/-- The first commit of a batch adds its files to what readers are given. -/
theorem listed_commitListed {out : Output N R} (hwf : WellFormed out.log) {b : Nat}
    (hb : ∀ g ∈ out.log, g.id < b) (metas : List (Nat × N)) :
    (out.commitListed b metas).listed = out.listed ++ metas := by
  rw [listed_eq_live, listed_eq_live]
  show (live (commitBatch out.log b metas)).map _ = _
  rw [commitBatch_fresh hwf hb, live_snoc_batchFile hwf hb (live_adds hwf), ite_self,
    map_append, map_map]
  congr 1
  exact map_id _

end Output

end Zelox.SinkLog
