import Zelox.MicroBatch.FileQuery

/-!
# Exactly-once of a file-to-file query

The invariant follows the batch id: `nextId`, one past the committed record.  Readers
see the rows of the committed files in the batches below it (`Sound.rows`), the
commit log may already hold a lost attempt at batch `nextId`, and a staged record
carries that id, unless it was left over from the promotion of the batch before.

From a scan that finds neither a leftover staged record nor files of a compaction
batch it is about to replay, the micro-batch that ends cleanly is exact.
-/

namespace Zelox.MicroBatch

open Checkpoint CheckpointStore SinkLog SinkLog.Output List

variable {F K N R : Type}

/-! ## The records under the checkpoint's operations -/

section

variable (ck : CheckpointStore (Artifact F K))

@[simp] theorem readRecord_put_staged (b : Nat) (files : List F) :
    readRecord (ck.put stagedKey (.record b files)) .staged = some (b, files) := by
  unfold readRecord
  rw [show ([.sources, .num 0, .staged] : Path) = stagedKey from rfl, get_put]

theorem readRecord_put_of_ne {p : Path} (v : Artifact F K) {name : Seg}
    (h : [.sources, .num 0, name] ≠ p) :
    readRecord (ck.put p v) name = readRecord ck name := by
  unfold readRecord
  rw [get_put_ne _ _ h]

@[simp] theorem readRecord_delete_staged :
    readRecord (ck.delete stagedKey) .staged = none := by
  unfold readRecord
  rw [show ([.sources, .num 0, .staged] : Path) = stagedKey from rfl, get_delete]

theorem readRecord_delete_of_ne {p : Path} {name : Seg} (h : [.sources, .num 0, name] ≠ p) :
    readRecord (ck.delete p) name = readRecord ck name := by
  unfold readRecord
  rw [get_delete_ne _ h]

end

theorem get_of_readRecord {ck : CheckpointStore (Artifact F K)} {name : Seg} {b : Nat}
    {files : List F} (h : readRecord ck name = some (b, files)) :
    ck.get [.sources, .num 0, name] = some (.record b files) := by
  unfold readRecord at h
  split at h
  case h_1 hget =>
    simp_all
  case h_2 => cases h

theorem promotePut_eq {ck : CheckpointStore (Artifact F K)} {b : Nat} {files : List F}
    (h : readRecord ck .staged = some (b, files)) :
    ck.promotePut stagedKey committedKey = ck.put committedKey (.record b files) := by
  unfold promotePut
  rw [show stagedKey = [.sources, .num 0, .staged] from rfl, get_of_readRecord h]

/-- One past the committed batch. -/
def nextId (ck : CheckpointStore (Artifact F K)) : Nat :=
  ((readRecord ck .committed).map (·.1 + 1)).getD 0

section

variable {ck ck' : CheckpointStore (Artifact F K)}
  (h : readRecord ck' .committed = readRecord ck .committed)
include h

theorem nextId_congr : nextId ck' = nextId ck := by
  unfold nextId
  rw [h]

theorem readCommittedFiles_congr :
    readCommittedFiles ck' = readCommittedFiles ck := by
  unfold readCommittedFiles
  rw [h]

end

/-! ## The invariant -/

/-- The commits of a query's sink. -/
abbrev History (N : Type) := List (Commit (Nat × N) Prod.fst)

variable [DecidableEq N]

/-- What holds between any two steps, with the commits that the sink has made. -/
structure Sound (src : FileStreamSource F R) (q : Query F K N R) (h : History N) : Prop where
  inputs : q.inputs.Nodup
  log : q.out.log = commits h
  sorted : Nondecreasing h
  upTo : ∀ c ∈ h, c.batchId ≤ nextId q.ck
  files : (readCommittedFiles q.ck).Nodup
  rows : (q.out.rowsOf (paths ((visible h).filter (·.batchId < nextId q.ck)))).Perm
    ((readCommittedFiles q.ck).flatMap src.rows)
  staged : ∀ b fs, readRecord q.ck .staged = some (b, fs) → b = nextId q.ck ∨ b + 1 = nextId q.ck
  fresh : readRecord q.ck .staged = none → readRecord q.ck .committed = none →
    nextOffsetBatchId q.ck = 0

/-- The staged record of the running batch: the committed files and the new ones. -/
def Staged (q : Query F K N R) (new : List F) : Prop :=
  readRecord q.ck .staged = some (nextId q.ck, readCommittedFiles q.ck ++ new) ∧
    (readCommittedFiles q.ck ++ new).Nodup

/-- A compaction batch of which readers see no file yet. -/
def Unlisted (h : History N) (b : Nat) : Prop :=
  isCompaction b = true → ∀ c ∈ visible h, c.batchId = b → c.files = []

def InPhase (src : FileStreamSource F R) (q : Query F K N R) (h : History N) : Phase F → Prop
  | .down => True
  | .ended | .promoted => 0 < nextId q.ck ∧ ∀ c ∈ h, c.batchId < nextId q.ck
  | .planned new => Staged q new ∧ Unlisted h (nextId q.ck)
  | .cleaning b new | .writing b new => b = nextId q.ck ∧ Staged q new ∧ Unlisted h b
  | .sinkCommitted | .marked => ∃ new, Staged q new ∧
      (q.out.rowsOf (paths (visible h))).Perm
        ((readCommittedFiles q.ck ++ new).flatMap src.rows)

def Inv (src : FileStreamSource F R) (q : Query F K N R) : Prop :=
  ∃ h, Sound src q h ∧ InPhase src q h q.phase

/-- A scan finds no staged record of a committed batch, and no files of a compaction batch that it
takes up. -/
def ScanOk (q : Query F K N R) (a : Action F N R) : Prop :=
  a = .scan → q.phase = .down ∨ q.phase = .ended →
    (∀ b ∈ (readRecord q.ck .staged).map (·.1), (readRecord q.ck .committed).map (·.1) ≠ some b) ∧
    (isCompaction (currentBatchIdIn q.ck) = true →
      ∀ p ∈ q.out.listed, p.1 ≠ currentBatchIdIn q.ck)

instance [DecidableEq F] [DecidableEq R] (q : Query F K N R) (a : Action F N R) :
    Decidable (ScanOk q a) := inferInstanceAs (Decidable (_ → _ → _ ∧ _))

theorem inv_start (src : FileStreamSource F R) : Inv src (Query.start : Query F K N R) := by
  refine ⟨[], ?_, trivial⟩
  constructor
  case inputs => exact nodup_nil
  case log => rfl
  case sorted => exact List.Pairwise.nil
  case upTo => simp
  case files => exact nodup_nil
  case rows => exact List.Perm.refl _
  case staged =>
    intro b fs hs
    cases hs
  case fresh =>
    intro _ _
    rfl

/-! ## One step -/

section Step

variable {src : FileStreamSource F R} {q : Query F K N R} {h : History N}

/-- Without a leftover record, source and sink agree on the next id. -/
theorem Sound.id_eq (hs : Sound src q h)
    (hleft : ∀ b ∈ (readRecord q.ck .staged).map (·.1),
      (readRecord q.ck .committed).map (·.1) ≠ some b) :
    currentBatchIdIn q.ck = nextId q.ck := by
  have hstaged := hs.staged
  have hfresh := hs.fresh
  unfold currentBatchIdIn
  unfold nextId at hstaged ⊢
  cases hst : readRecord q.ck .staged with
  | some r =>
    obtain ⟨b, fs⟩ := r
    cases hc : readRecord q.ck .committed with
    | none =>
      have := hstaged b fs hst
      simp only [hc, Option.map_none, Option.getD_none] at this ⊢
      omega
    | some r' =>
      obtain ⟨c, gs⟩ := r'
      have hne : c ≠ b := by
        have := hleft b (by rw [hst]; rfl)
        rw [hc] at this
        simpa using this
      have := hstaged b fs hst
      simp only [hc, Option.map_some, Option.getD_some] at this ⊢
      omega
  | none =>
    cases hc : readRecord q.ck .committed with
    | none => exact hfresh hst hc
    | some r' => rfl

theorem Sound.setPhase (hs : Sound src q h) (phase : Phase F) :
    Sound src { q with phase := phase } h :=
  { hs with }

theorem Sound.setCk (hs : Sound src q h) {ck : CheckpointStore (Artifact F K)}
    (hc : readRecord ck .committed = readRecord q.ck .committed)
    (hst : ∀ b fs, readRecord ck .staged = some (b, fs) → b = nextId q.ck ∨ b + 1 = nextId q.ck)
    (hfresh : readRecord ck .staged = none → readRecord ck .committed = none →
      nextOffsetBatchId ck = 0) : Sound src { q with ck := ck } h := by
  have hn := nextId_congr hc
  have hf := readCommittedFiles_congr hc
  refine { hs with upTo := ?_, files := ?_, rows := ?_, staged := ?_, fresh := hfresh }
  · show ∀ c ∈ h, c.batchId ≤ nextId ck
    rw [hn]
    exact hs.upTo
  · show (readCommittedFiles ck).Nodup
    rw [hf]
    exact hs.files
  · show (q.out.rowsOf (paths ((visible h).filter (·.batchId < nextId ck)))).Perm
      ((readCommittedFiles ck).flatMap src.rows)
    rw [hn, hf]
    exact hs.rows
  · show ∀ b fs, readRecord ck .staged = some (b, fs) → b = nextId ck ∨ b + 1 = nextId ck
    rw [hn]
    exact hst

theorem Sound.setOut (hs : Sound src q h) {out : Output N R} (hlog : out.log = q.out.log)
    (hdata : ∀ p : Nat × N, p.1 < nextId q.ck → out.rowsAt p = q.out.rowsAt p) :
    Sound src { q with out := out } h := by
  have hrows : out.rowsOf (paths ((visible h).filter (·.batchId < nextId q.ck))) =
      q.out.rowsOf (paths ((visible h).filter (·.batchId < nextId q.ck))) := by
    apply rowsOf_congr
    intro p hp
    obtain ⟨c, hc, hpc⟩ := mem_paths.mp hp
    apply hdata
    rw [c.located p hpc]
    exact of_decide_eq_true (mem_filter.mp hc).2
  refine { hs with log := hlog.trans hs.log, rows := ?_ }
  show (out.rowsOf _).Perm _
  rw [hrows]
  exact hs.rows

omit [DecidableEq N] in
theorem paths_visible_commit {h : History N} {c : Commit (Nat × N) Prod.fst}
    (hle : ∀ d ∈ h, d.batchId ≤ c.batchId) (hu : Unlisted h c.batchId) :
    paths (visible (h ++ [c])) = paths ((visible h).filter (·.batchId < c.batchId)) ++ c.files := by
  have hbelow : (visible h).filter (·.batchId ≠ c.batchId) =
      (visible h).filter (·.batchId < c.batchId) := by
    apply filter_congr
    intro d hd
    have := hle d (visible_subset h hd)
    by_cases heq : d.batchId = c.batchId
    · simp [heq]
    · simp [heq]
      omega
  have hsnoc : ∀ l : History N, paths (l ++ [c]) = paths l ++ c.files := by
    intro l
    simp [paths]
  rw [visible_snoc, hsnoc]
  by_cases hc : isCompaction c.batchId = true
  · -- the earlier attempts that a compaction keeps list no file
    rw [if_pos hc, ← hbelow, paths_filter, filter_eq_self.mpr]
    intro p hp
    obtain ⟨d, hd, hpd⟩ := mem_paths.mp hp
    have hne : d.batchId ≠ c.batchId := by
      intro he
      rw [hu hc d hd he] at hpd
      cases hpd
    simpa [d.located p hpd] using hne
  · rw [if_neg hc, hbelow]

omit [DecidableEq N] in
theorem filter_visible_below (h : History N) (c : Commit (Nat × N) Prod.fst) :
    (visible (h ++ [c])).filter (·.batchId < c.batchId) =
      (visible h).filter (·.batchId < c.batchId) := by
  rw [visible_snoc, filter_append, filter_cons_of_neg (by simp), filter_nil, append_nil]
  split
  · rfl
  · rw [filter_filter]
    apply filter_congr
    intro d _
    by_cases hd : d.batchId < c.batchId
    · simp [hd, ne_of_lt hd]
    · simp [hd]

section

variable (hs : Sound src q h) {new : List F} (hst : Staged q new)
include hs hst

/-- The commit of the batch that the writers have filled. -/
theorem Sound.commitBatch (hu : Unlisted h (nextId q.ck))
    (hrows : (q.out.rowsOf (q.out.listBatchFiles (nextId q.ck))).Perm (new.flatMap src.rows)) :
    Inv src { q with
      out := q.out.commitListed (nextId q.ck) (q.out.listBatchFiles (nextId q.ck))
      phase := .sinkCommitted } := by
  have hpaths := paths_visible_commit (c := q.out.commitOf (nextId q.ck)) hs.upTo hu
  have hold : (visible (h ++ [q.out.commitOf (nextId q.ck)])).filter
      (·.batchId < nextId q.ck) = (visible h).filter (·.batchId < nextId q.ck) :=
    filter_visible_below h (q.out.commitOf (nextId q.ck))
  refine ⟨h ++ [q.out.commitOf (nextId q.ck)], ?_, new, hst, ?_⟩
  · refine { hs with log := log_commitListed hs.log _, sorted := ?_, upTo := ?_, rows := ?_ }
    · exact Lists.pairwise_concat.mpr ⟨hs.sorted, hs.upTo⟩
    · exact Lists.forall_mem_concat.mpr ⟨hs.upTo, le_rfl⟩
    · show (q.out.rowsOf _).Perm _
      rw [hold]
      exact hs.rows
  · show (q.out.rowsOf _).Perm _
    rw [hpaths, rowsOf_append, flatMap_append]
    exact hs.rows.append hrows

section

variable
  (hrows : (q.out.rowsOf (paths (visible h))).Perm ((readCommittedFiles q.ck ++ new).flatMap src.rows))
include hrows

theorem Sound.promotePut :
    Inv src { q with ck := q.ck.promotePut stagedKey committedKey, phase := .promoted } := by
  have hput := promotePut_eq hst.1
  rw [hput]
  have hnext : nextId (q.ck.put committedKey (.record (nextId q.ck)
      (readCommittedFiles q.ck ++ new))) = nextId q.ck + 1 := by
    rfl
  have hfiles : readCommittedFiles (q.ck.put committedKey (.record (nextId q.ck)
      (readCommittedFiles q.ck ++ new))) = readCommittedFiles q.ck ++ new := by
    rfl
  have hlt : ∀ c ∈ h, c.batchId < nextId q.ck + 1 := fun c hc => Nat.lt_succ_of_le (hs.upTo c hc)
  have hall : (visible h).filter (·.batchId < nextId q.ck + 1) = visible h := by
    apply filter_eq_self.mpr
    intro c hc
    exact decide_eq_true (hlt c (visible_subset h hc))
  refine ⟨h, ?_, ?_⟩
  · refine { hs with upTo := ?_, files := ?_, rows := ?_, staged := ?_, fresh := ?_ }
    · show ∀ c ∈ h, c.batchId ≤ nextId _
      intro c hc
      exact le_of_lt (hlt c hc)
    · show (readCommittedFiles _).Nodup
      exact hst.2
    · show (q.out.rowsOf (paths ((visible h).filter (·.batchId < nextId _)))).Perm
        ((readCommittedFiles _).flatMap src.rows)
      rw [hnext, hfiles, hall]
      exact hrows
    · show ∀ b fs, readRecord _ .staged = some (b, fs) → b = nextId _ ∨ b + 1 = nextId _
      rw [hnext, readRecord_put_of_ne _ _ (by decide), hst.1]
      intro b fs hb
      right
      simp only [Option.some.injEq, Prod.mk.injEq] at hb
      rw [hb.1]
    · intro hnone _
      have : readRecord (q.ck.put committedKey (.record (nextId q.ck)
          (readCommittedFiles q.ck ++ new))) .staged = none := hnone
      rw [readRecord_put_of_ne _ _ (by decide), hst.1] at this
      cases this
  · show 0 < nextId _ ∧ ∀ c ∈ h, c.batchId < nextId _
    exact ⟨Nat.succ_pos _, hlt⟩

theorem Sound.mark :
    Inv src { q with ck := putMarker q.ck, phase := .marked } := by
  have hstaged : readRecord (putMarker q.ck) .staged = readRecord q.ck .staged :=
    readRecord_put_of_ne _ _ (by simp)
  have hc : readRecord (putMarker q.ck) .committed = readRecord q.ck .committed :=
    readRecord_put_of_ne _ _ (by simp)
  refine ⟨h, (hs.setCk hc ?_ ?_).setPhase _, new, ⟨?_, ?_⟩, ?_⟩
  · rw [hstaged]
    exact hs.staged
  · rw [hstaged, hst.1]
    intro hnone
    cases hnone
  · show readRecord (putMarker q.ck) .staged = some (nextId (putMarker q.ck),
      readCommittedFiles (putMarker q.ck) ++ new)
    rw [hstaged, nextId_congr hc, readCommittedFiles_congr hc]
    exact hst.1
  · show (readCommittedFiles (putMarker q.ck) ++ new).Nodup
    rw [readCommittedFiles_congr hc]
    exact hst.2
  · show List.Perm _ ((readCommittedFiles (putMarker q.ck) ++ new).flatMap src.rows)
    rw [readCommittedFiles_congr hc]
    exact hrows

end

end

theorem Sound.promoteDelete (hs : Sound src q h) (hpos : 0 < nextId q.ck)
    (hlt : ∀ c ∈ h, c.batchId < nextId q.ck) :
    Inv src { q with ck := q.ck.delete stagedKey, phase := .ended } := by
  have hc : readRecord (q.ck.delete stagedKey) .committed = readRecord q.ck .committed :=
    readRecord_delete_of_ne _ (by decide)
  refine ⟨h, (hs.setCk hc ?_ ?_).setPhase _, ?_⟩
  · rw [readRecord_delete_staged]
    intro b fs hb
    cases hb
  · rw [hc]
    intro _ hnone
    rw [nextId, hnone] at hpos
    cases hpos
  · show 0 < nextId (q.ck.delete stagedKey) ∧ ∀ c ∈ h, c.batchId < nextId (q.ck.delete stagedKey)
    rw [nextId_congr hc]
    exact ⟨hpos, hlt⟩

omit [DecidableEq N] in
/-- The record that `Staged` asks for is not the one of the committed batch. -/
theorem Staged.id_eq {new : List F} (hst : Staged q new) :
    currentBatchIdIn q.ck = nextId q.ck := by
  unfold currentBatchIdIn
  rw [hst.1]

theorem unlisted_of_log (hs : Sound src q h) {b : Nat}
    (hb : isCompaction b = true → ∀ p ∈ q.out.listed, p.1 ≠ b) :
    Unlisted h b := by
  intro hcomp c hc hcb
  apply eq_nil_iff_forall_not_mem.mpr
  intro p hp
  refine hb hcomp p ?_ ((c.located p hp).trans hcb)
  rw [listed_eq hs.log hs.sorted]
  exact mem_paths.mpr ⟨c, hc, hp⟩

end Step

section Scan

variable [DecidableEq F] {src : FileStreamSource F R} {q : Query F K N R} {h : History N}

omit [DecidableEq N] in
/-- A scan takes files that are there and not committed, each once. -/
theorem nodup_newFiles {inputs seen : List F} (hi : inputs.Nodup) (hseen : seen.Nodup) :
    (seen ++ src.newFiles inputs seen).Nodup := by
  have hsub : (src.newFiles inputs seen).Sublist
      ((inputs.filter (· ∉ seen)).insertionSort fun a b => src.older a b) := by
    unfold FileStreamSource.newFiles
    split
    · exact take_sublist _ _
    · exact List.Sublist.refl _
  have hperm := perm_insertionSort (fun a b => src.older a b = true)
    (inputs.filter (· ∉ seen))
  apply List.Nodup.append hseen
  · exact (hperm.nodup_iff.mpr (hi.filter _)).sublist hsub
  · intro f hf hnew
    have := (mem_filter.mp (hperm.subset (hsub.subset hnew))).2
    simp [hf] at this

theorem Sound.scan (hs : Sound src q h)
    (hleft : ∀ b ∈ (readRecord q.ck .staged).map (·.1),
      (readRecord q.ck .committed).map (·.1) ≠ some b)
    (hu : Unlisted h (nextId q.ck)) : Inv src (src.scan q) := by
  have hscan : src.scan q = { q with
      ck := q.ck.put stagedKey (.record (nextId q.ck)
        (readCommittedFiles q.ck ++ src.newFiles q.inputs (readCommittedFiles q.ck)))
      phase := .planned (src.newFiles q.inputs (readCommittedFiles q.ck)) } := by
    unfold FileStreamSource.scan
    rw [hs.id_eq hleft]
  have hst := readRecord_put_staged q.ck (nextId q.ck)
    (readCommittedFiles q.ck ++ src.newFiles q.inputs (readCommittedFiles q.ck))
  have hc : readRecord (q.ck.put stagedKey (.record (nextId q.ck)
      (readCommittedFiles q.ck ++ src.newFiles q.inputs (readCommittedFiles q.ck)))) .committed =
        readRecord q.ck .committed := readRecord_put_of_ne _ _ (by decide)
  rw [hscan]
  generalize q.ck.put stagedKey _ = ck at hst hc ⊢
  refine ⟨h, (hs.setCk hc ?_ ?_).setPhase _, ⟨?_, ?_⟩, ?_⟩
  · intro b fs hb
    rw [hst, Option.some.injEq, Prod.mk.injEq] at hb
    exact .inl hb.1.symm
  · intro hnone
    rw [hst] at hnone
    cases hnone
  · show readRecord ck .staged = some (nextId ck, readCommittedFiles ck ++ _)
    rw [hst, nextId_congr hc, readCommittedFiles_congr hc]
  · show (readCommittedFiles ck ++ _).Nodup
    rw [readCommittedFiles_congr hc]
    exact nodup_newFiles hs.inputs hs.files
  · show Unlisted h (nextId ck)
    rw [nextId_congr hc]
    exact hu

end Scan

/-! ## Runs -/

variable [DecidableEq F] [DecidableEq R] {src : FileStreamSource F R} {q : Query F K N R}

theorem inv_step (a : Action F N R) (hok : ScanOk q a) (hq : Inv src q) : Inv src (step src q a) := by
  obtain ⟨h, hs, hp⟩ := hq
  cases a with
  | arrive file =>
    simp only [step]
    split
    · exact ⟨h, hs, hp⟩
    case isFalse hnew =>
      refine ⟨h, ?_, hp⟩
      have hnd : (q.inputs ++ [file]).Nodup := by
        apply List.Nodup.append hs.inputs (nodup_singleton _)
        simpa using hnew
      exact { hs with inputs := hnd }
  | scan =>
    have hscan : q.phase = .down ∨ q.phase = .ended → Inv src (src.scan q) := by
      intro hphase
      obtain ⟨hleft, hcomp⟩ := hok rfl hphase
      rw [hs.id_eq hleft] at hcomp
      exact hs.scan hleft (unlisted_of_log hs hcomp)
    simp only [step]
    split
    case h_1 hphase => exact hscan (.inl hphase)
    case h_2 hphase => exact hscan (.inr hphase)
    case h_3 => exact ⟨h, hs, hp⟩
  | plan =>
    simp only [step]
    split
    case h_1 new hphase =>
      rw [hphase] at hp
      obtain ⟨hst, hu⟩ := hp
      rw [hst.id_eq]
      exact ⟨h, hs.setPhase _, rfl, hst, hu⟩
    case h_2 => exact ⟨h, hs, hp⟩
  | deleteFile name =>
    simp only [step]
    split
    case h_1 b new hphase =>
      rw [hphase] at hp
      obtain ⟨rfl, hst, hu⟩ := hp
      refine ⟨h, hs.setOut rfl ?_, ?_⟩
      · intro p hp
        exact rowsAt_deleteFile_of_ne _ fun e => lt_irrefl _ (e ▸ hp)
      · show InPhase src _ h q.phase
        rw [hphase]
        exact ⟨rfl, hst, hu⟩
    case h_2 => exact ⟨h, hs, hp⟩
  | startWriting =>
    simp only [step]
    split
    case h_1 b new hphase =>
      split
      · rw [hphase] at hp
        exact ⟨h, hs.setPhase _, hp⟩
      · exact ⟨h, hs, hp⟩
    case h_2 => exact ⟨h, hs, hp⟩
  | writeFile name rows =>
    simp only [step]
    split
    case h_1 b new hphase =>
      rw [hphase] at hp
      obtain ⟨rfl, hst, hu⟩ := hp
      refine ⟨h, hs.setOut rfl ?_, ?_⟩
      · intro p hp
        exact rowsAt_putFile_of_ne _ _ fun e => lt_irrefl _ (e ▸ hp)
      · show InPhase src _ h q.phase
        rw [hphase]
        exact ⟨rfl, hst, hu⟩
    case h_2 => exact ⟨h, hs, hp⟩
  | commitBatch =>
    simp only [step]
    split
    case h_1 b new hphase =>
      split
      case isTrue hrows =>
        rw [hphase] at hp
        obtain ⟨rfl, hst, hu⟩ := hp
        exact hs.commitBatch hst hu hrows
      case isFalse => exact ⟨h, hs, hp⟩
    case h_2 => exact ⟨h, hs, hp⟩
  | mark =>
    simp only [step]
    split
    case h_1 hphase =>
      rw [hphase] at hp
      obtain ⟨new, hst, hrows⟩ := hp
      exact hs.mark hst hrows
    case h_2 => exact ⟨h, hs, hp⟩
  | promotePut =>
    simp only [step]
    split
    case h_1 hphase =>
      rw [hphase] at hp
      obtain ⟨new, hst, hrows⟩ := hp
      exact hs.promotePut hst hrows
    case h_2 => exact ⟨h, hs, hp⟩
  | promoteDelete fails =>
    simp only [step]
    split
    case h_1 hphase =>
      rw [hphase] at hp
      cases fails with
      | true => exact ⟨h, hs.setPhase _, hp⟩
      | false => exact hs.promoteDelete hp.1 hp.2
    case h_2 => exact ⟨h, hs, hp⟩
  | crash => exact ⟨h, hs.setPhase _, trivial⟩

omit [DecidableEq F] [DecidableEq R] in
theorem exactlyOnce_of_inv (hq : Inv src q) (hend : q.phase = .ended) : ExactlyOnce src q := by
  obtain ⟨h, hs, hp⟩ := hq
  rw [hend] at hp
  have hall : (visible h).filter (·.batchId < nextId q.ck) = visible h := by
    apply filter_eq_self.mpr
    intro c hc
    exact decide_eq_true (hp.2 c (visible_subset h hc))
  refine ⟨hs.files, ?_⟩
  rw [visibleRows, listed_eq hs.log hs.sorted, ← hall]
  exact hs.rows

/-- If all scans are fine, every micro-batch that ends cleanly has given the rows of each committed
file to the readers exactly once. -/
theorem fileQuery_exactlyOnce (src : FileStreamSource F R) (as : List (Action F N R))
    (hok : Runs.Along (step src) ScanOk (Query.start : Query F K N R) as)
    (hend : (Runs.run (step src) (Query.start : Query F K N R) as).phase = .ended) :
    ExactlyOnce src (Runs.run (step src) (Query.start : Query F K N R) as) := by
  have hinv : Inv src (Runs.run (step src) (Query.start : Query F K N R) as) :=
    Runs.along_inv (step src) ScanOk (Inv src) (fun _ a hok hq => inv_step a hok hq) _ as hok
      (inv_start src)
  exact exactlyOnce_of_inv hinv hend

/-- Files are numbers, read in order; a file holds its own number. -/
def numbers : FileStreamSource Nat Nat := ⟨fun a b => a ≤ b, none, fun f => [f]⟩

/-- A crash behind the sink's commit of batch 0, and its replay with one more file. -/
def replayed : List (Action Nat Unit Nat) :=
  [.arrive 0, .scan, .plan, .startWriting, .writeFile () [0], .commitBatch, .crash, .arrive 1,
    .scan, .plan, .deleteFile (), .startWriting, .writeFile () [0, 1], .commitBatch, .mark,
    .promotePut, .promoteDelete false]

theorem fileQuery_exactlyOnce_replayed :
    Runs.Along (step numbers) ScanOk (Query.start : Query Nat Unit Unit Nat) replayed ∧
      (Runs.run (step numbers) (Query.start : Query Nat Unit Unit Nat) replayed).phase = .ended ∧
      ExactlyOnce numbers (Runs.run (step numbers) (Query.start : Query Nat Unit Unit Nat) replayed) := by
  have hok : Runs.Along (step numbers) ScanOk (Query.start : Query Nat Unit Unit Nat) replayed := by
    decide
  have hend : (Runs.run (step numbers) (Query.start : Query Nat Unit Unit Nat) replayed).phase =
      .ended := by decide
  exact ⟨hok, hend, fileQuery_exactlyOnce numbers replayed hok hend⟩

/-- A crash between the put of the committed record and the delete of the staged one. -/
def leftoverRun : List (Action Nat Unit Nat) :=
  [.arrive 0, .scan, .plan, .startWriting, .writeFile () [0], .commitBatch, .mark, .promotePut,
    .crash, .scan, .plan, .deleteFile (), .startWriting, .commitBatch, .mark, .promotePut,
    .promoteDelete false]

/-- Batch 0 is committed anew without files: file 0 is committed, and no reader sees its row. -/
theorem leftoverRun_loses :
    (Runs.run (step numbers) (Query.start : Query Nat Unit Unit Nat) leftoverRun).phase = .ended ∧
      readCommittedFiles
        (Runs.run (step numbers) (Query.start : Query Nat Unit Unit Nat) leftoverRun).ck = [0] ∧
      (Runs.run (step numbers) (Query.start : Query Nat Unit Unit Nat) leftoverRun).out.visibleRows =
        [] ∧
      ¬ ExactlyOnce numbers
        (Runs.run (step numbers) (Query.start : Query Nat Unit Unit Nat) leftoverRun) := by
  have hfiles : readCommittedFiles
      (Runs.run (step numbers) (Query.start : Query Nat Unit Unit Nat) leftoverRun).ck = [0] := by
    decide
  have hrows : (Runs.run (step numbers)
      (Query.start : Query Nat Unit Unit Nat) leftoverRun).out.visibleRows = [] := by decide
  refine ⟨by decide, hfiles, hrows, ?_⟩
  rintro ⟨-, hperm⟩
  exact absurd hperm (by decide)

end Zelox.MicroBatch
