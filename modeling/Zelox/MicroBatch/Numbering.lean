import Zelox.MicroBatch.Commit
import Zelox.Sink.Log

/-!
# Numbering micro-batches

Source and sink take the id of the current micro-batch from the checkpoint
(`currentBatchIdIn`): the staged record if there is one, else one past the
committed record, else one past the newest `offsets/<n>` marker.  Only the file
source writes records with an id; the offsets of a bounded Kafka read do not parse
as one, so there the id hangs on the marker, which `consumeStream` writes behind
the sink's commit and before the offsets are promoted.

A crash between the marker and the promotion of a range that was read therefore
replays that range under the next id (`sameId_iff`).
-/

namespace Zelox.MicroBatch

open Checkpoint CheckpointStore List

/-- The objects of a micro-batch checkpoint by what they parse as. -/
inductive Artifact (F K : Type) where
  | record (batchId : Nat) (files : List F)
  | offsets (next : List (K × Int))
  | marker (batchId : Nat)
  | state

variable {F K : Type}

def readRecord (ck : CheckpointStore (Artifact F K)) (name : Seg) : Option (Nat × List F) :=
  match ck.get [.sources, .num 0, name] with
  | some (.record batchId files) => some (batchId, files)
  | _ => none

/-- `latest_offset_batch_id`, and the driver's `latest_batch_id`. -/
def latestOffsetBatchId (ck : CheckpointStore (Artifact F K)) : Option Nat :=
  ((ck.list [.offsets]).filterMap Seg.num?).max?

/-- The id behind the newest marker. -/
def nextOffsetBatchId (ck : CheckpointStore (Artifact F K)) : Nat :=
  ((latestOffsetBatchId ck).map (· + 1)).getD 0

def currentBatchIdIn (ck : CheckpointStore (Artifact F K)) : Nat :=
  match readRecord ck .staged with
  | some (batchId, _) => batchId
  | none =>
    match readRecord ck .committed with
    | some (batchId, _) => batchId + 1
    | none => nextOffsetBatchId ck

/-- The driver's marker for its own batch id. -/
def putMarker (ck : CheckpointStore (Artifact F K)) : CheckpointStore (Artifact F K) :=
  ck.put [.offsets, .num (nextOffsetBatchId ck)] (.marker (nextOffsetBatchId ck))

/-- What follows the sink's commit: `consume_stream` writes the marker, then the driver
promotes what was staged. -/
def finishBatch (fails : Path → Bool) (ck : CheckpointStore (Artifact F K)) :
    List (CheckpointStore (Artifact F K)) :=
  putMarker ck :: commitSourceOffsets fails (putMarker ck)

/-! ## Checkpoints without records -/

/-- All artifacts of the sources are Kafka offsets. -/
def KafkaOnly (ck : CheckpointStore (Artifact F K)) : Prop :=
  ∀ p v, [.sources] <+: p → ck.get p = some v → ∃ next, v = .offsets next

section

variable {ck : CheckpointStore (Artifact F K)}

theorem readRecord_of_kafkaOnly (h : KafkaOnly ck) (name : Seg) : readRecord ck name = none := by
  unfold readRecord
  cases hget : ck.get [.sources, .num 0, name] with
  | none => rfl
  | some v =>
    obtain ⟨next, rfl⟩ := h _ _ (by simp) hget
    rfl

theorem currentBatchIdIn_of_kafkaOnly (h : KafkaOnly ck) :
    currentBatchIdIn ck = nextOffsetBatchId ck := by
  unfold currentBatchIdIn
  rw [readRecord_of_kafkaOnly h, readRecord_of_kafkaOnly h]

theorem KafkaOnly.put (h : KafkaOnly ck) {p : Path} (v : Artifact F K) (hp : ¬ [.sources] <+: p) :
    KafkaOnly (ck.put p v) := by
  intro q w hq hget
  have hne : q ≠ p := by
    rintro rfl
    exact hp hq
  rw [get_put_ne _ _ hne] at hget
  exact h q w hq hget

/-- A promotion copies an artifact of the sources to another key of theirs. -/
theorem KafkaOnly.promoteAll (h : KafkaOnly ck) (fails : Path → Bool) :
    ∀ s ∈ ck :: commitSourceOffsets fails ck, KafkaOnly s := by
  rw [commitSourceOffsets_eq]
  apply promoteAll_inv KafkaOnly fails (artifacts ck)
  case hck => exact h
  · intro s hs rel hrel data hdata q w hq hget
    by_cases hqc : q = committedPath rel
    · subst hqc
      rw [get_put, Option.some.injEq] at hget
      subst hget
      -- a committed object below `sources` comes from a staged one below it
      rcases mem_append.mp hrel with hrel | hrel
      · exact hs rel data (mem_stagedUnder.mp hrel).1.2.1 hdata
      · exact absurd hq (below_root hrel (by decide)).2
    · rw [get_put_ne _ _ hqc] at hget
      exact hs q w hq hget
  · intro s hs rel _ q w hq hget
    by_cases hqr : q = rel
    · subst hqr
      rw [get_delete] at hget
      cases hget
    · rw [get_delete_ne _ hqr] at hget
      exact hs q w hq hget

/-! ## The marker moves the number -/

theorem mem_offsetIds {n : Nat} :
    n ∈ (ck.list [.offsets]).filterMap Seg.num? ↔
      ∃ p, (ck.get p).isSome = true ∧ ([.offsets] <+: p ∧ p ≠ [.offsets]) ∧
        p.getLast? = some (.num n) := by
  unfold list
  simp only [mem_filterMap, mem_listRel]
  constructor
  · rintro ⟨seg, ⟨p, ⟨hp, hdir⟩, hlast⟩, hn⟩
    refine ⟨p, hp, hdir, ?_⟩
    cases seg <;> simp_all [Seg.num?]
  · rintro ⟨p, hp, hdir, hlast⟩
    exact ⟨.num n, ⟨p, ⟨hp, hdir⟩, hlast⟩, rfl⟩

theorem offsetId_lt_next {n : Nat} (hn : n ∈ (ck.list [.offsets]).filterMap Seg.num?) :
    n < nextOffsetBatchId ck := by
  unfold nextOffsetBatchId latestOffsetBatchId
  cases hmax : ((ck.list [.offsets]).filterMap Seg.num?).max? with
  | none =>
    rw [max?_eq_none_iff] at hmax
    rw [hmax] at hn
    cases hn
  | some m =>
    have := (max?_eq_some_iff.mp hmax).2 n hn
    show n < m + 1
    omega

end

theorem nextOffsetBatchId_putMarker (ck : CheckpointStore (Artifact F K)) :
    nextOffsetBatchId (putMarker ck) = nextOffsetBatchId ck + 1 := by
  have hmax : latestOffsetBatchId (putMarker ck) = some (nextOffsetBatchId ck) := by
    unfold latestOffsetBatchId
    rw [max?_eq_some_iff]
    constructor
    · rw [mem_offsetIds]
      refine ⟨[.offsets, .num (nextOffsetBatchId ck)], ?_, by simp, by simp⟩
      unfold putMarker
      rw [get_put]
      rfl
    · intro n hn
      obtain ⟨p, hp, hdir, hlast⟩ := mem_offsetIds.mp hn
      by_cases hpm : p = [.offsets, .num (nextOffsetBatchId ck)]
      · subst hpm
        have : nextOffsetBatchId ck = n := by simpa using hlast
        omega
      · unfold putMarker at hp
        rw [get_put_ne _ _ hpm] at hp
        exact le_of_lt (offsetId_lt_next (mem_offsetIds.mpr ⟨p, hp, hdir, hlast⟩))
  unfold nextOffsetBatchId
  rw [hmax]
  rfl

theorem nextOffsetBatchId_congr {s ck : CheckpointStore (Artifact F K)}
    (h : s.listRel [.offsets] = ck.listRel [.offsets]) :
    nextOffsetBatchId s = nextOffsetBatchId ck := by
  unfold nextOffsetBatchId latestOffsetBatchId list
  rw [h]

theorem currentBatchIdIn_finishBatch {ck : CheckpointStore (Artifact F K)} (h : KafkaOnly ck)
    (fails : Path → Bool) :
    ∀ s ∈ finishBatch fails ck, currentBatchIdIn s = currentBatchIdIn ck + 1 := by
  have hm : KafkaOnly (putMarker ck) := h.put _ (by simp)
  intro s hs
  have hlist : s.listRel [.offsets] = (putMarker ck).listRel [.offsets] := by
    unfold finishBatch at hs
    rw [commitSourceOffsets_eq] at hs
    refine listRel_promoteAll fails [.offsets] (artifacts (putMarker ck)) ?_ _ s hs
    exact forall_mem_append.mpr ⟨fun _ h => below_root h (by decide),
      fun _ h => below_root h (by decide)⟩
  rw [currentBatchIdIn_of_kafkaOnly (hm.promoteAll fails s hs), nextOffsetBatchId_congr hlist,
    nextOffsetBatchId_putMarker, currentBatchIdIn_of_kafkaOnly h]

/-! ## Replaying a bounded Kafka read -/

section Kafka

variable [DecidableEq K] (start : K → Int)

/-- Where a read of partition `p` starts: `read_committed_offsets`, or the configured start. -/
def position (stored : Option (Artifact F K)) (p : K) : Int :=
  match stored with
  | some (.offsets next) => (next.lookup p).getD (start p)
  | _ => start p

/-- Restarted from `s`, the reader of `rel` starts before an offset that the batch staged
in `ck` had reached. -/
def Replays (ck s : CheckpointStore (Artifact F K)) (rel : Path) : Prop :=
  ∃ p, position start (s.get (committedPath rel)) p < position start (ck.get rel) p

/-- What is replayed from `s` is replayed under the id of the batch. -/
def SameId (ck s : CheckpointStore (Artifact F K)) : Prop :=
  (∃ rel ∈ stagedUnder ck .sources, Replays start ck s rel) →
    currentBatchIdIn s = currentBatchIdIn ck

/-- Reader `i` replays its range unless it was empty or its offsets are promoted. -/
theorem replays_crash (fails : Path → Bool) (ck : CheckpointStore (Artifact F K)) (k i : Nat)
    (rel : Path) (hi : (stagedUnder ck .sources)[i]? = some rel) :
    Replays start ck (crash ck (finishBatch fails ck) (k + 1)) rel ↔
      Replays start ck ck rel ∧ k ≤ 2 * i := by
  have hlist : stagedUnder (putMarker ck) .sources = stagedUnder ck .sources :=
    stagedUnder_congr (listRel_put_of_not_below _ _ (by simp))
  have hidx : (artifacts (putMarker ck))[i]? = some rel := by
    unfold artifacts
    rw [hlist, getElem?_append_left (List.getElem?_eq_some_iff.mp hi).1, hi]
  have hstaged : isStaged rel = true := (mem_stagedUnder.mp (mem_of_getElem? hi)).2
  -- the marker is neither a staged nor a committed object
  have hmark : ∀ q : Path, q.getLast? ≠ some (.num (nextOffsetBatchId ck)) →
      (putMarker ck).get q = ck.get q := by
    intro q hq
    refine get_put_ne _ _ ?_
    rintro rfl
    exact hq (by simp)
  have hrel : (putMarker ck).get rel = ck.get rel := by
    apply hmark
    rw [of_decide_eq_true hstaged]
    simp
  have hcomm : (putMarker ck).get (committedPath rel) = ck.get (committedPath rel) := by
    apply hmark
    rw [committedPath, getLast?_concat]
    simp
  unfold Replays finishBatch
  rw [crash_cons, get_committed_crashAt fails _ k i rel hidx, hrel, hcomm]
  by_cases hk : 2 * i < k
  · rw [if_pos hk]
    constructor
    · rintro ⟨p, hp⟩
      omega
    · rintro ⟨-, hle⟩
      omega
  · rw [if_neg hk]
    exact (and_iff_left (by omega)).symm

/-- A crash behind `k` operations: the replayed range has the id of the batch if and only if the
marker was not written yet, or every reader that had read something is promoted. -/
theorem sameId_iff (fails : Path → Bool) (ck : CheckpointStore (Artifact F K))
    (hck : KafkaOnly ck) (k : Nat) :
    SameId start ck (crash ck (finishBatch fails ck) k) ↔
      k = 0 ∨ ∀ i rel, (stagedUnder ck .sources)[i]? = some rel → Replays start ck ck rel →
        2 * i + 1 < k := by
  cases k with
  | zero =>
    exact iff_of_true (fun _ => rfl) (.inl rfl)
  | succ k =>
    have hid : currentBatchIdIn (crash ck (finishBatch fails ck) (k + 1)) =
        currentBatchIdIn ck + 1 := by
      refine currentBatchIdIn_finishBatch hck fails _ ?_
      unfold finishBatch
      exact crash_mem _ _ k
    have hno : SameId start ck (crash ck (finishBatch fails ck) (k + 1)) ↔
        ∀ rel ∈ stagedUnder ck .sources,
          ¬ Replays start ck (crash ck (finishBatch fails ck) (k + 1)) rel := by
      unfold SameId
      rw [hid]
      simp
    rw [hno]
    constructor
    · intro h
      right
      intro i rel hi hread
      have := h rel (mem_of_getElem? hi)
      rw [replays_crash start fails ck k i rel hi] at this
      by_contra hlt
      exact this ⟨hread, by omega⟩
    · rintro (hk | h) rel hrel
      · omega
      · obtain ⟨i, hi⟩ := mem_iff_getElem?.mp hrel
        rw [replays_crash start fails ck k i rel hi]
        rintro ⟨hread, hle⟩
        have := h i rel hi hread
        omega

end Kafka

/-- Batch 0 of a bounded read of one partition: three records, staged. -/
def firstRead : CheckpointStore (Artifact Unit Unit) :=
  (∅ : CheckpointStore (Artifact Unit Unit)).put [.sources, .num 0, .staged] (.offsets [((), 3)])

theorem kafkaOnly_firstRead : KafkaOnly firstRead := by
  intro p v hp hget
  by_cases h : p = [.sources, .num 0, .staged]
  · subst h
    refine ⟨[((), 3)], ?_⟩
    have := get_put (∅ : CheckpointStore (Artifact Unit Unit)) [.sources, .num 0, .staged]
      (.offsets [((), 3)])
    unfold firstRead at hget
    exact (Option.some.inj hget).symm
  · unfold firstRead at hget
    rw [get_put_ne _ _ h] at hget
    cases hget

/-- A crash before the marker: the range is replayed under id 0. -/
theorem sameId_firstRead_beforeMarker :
    KafkaOnly firstRead ∧
      SameId (fun _ => 0) firstRead (crash firstRead (finishBatch (fun _ => false) firstRead) 0) :=
  ⟨kafkaOnly_firstRead,
    (sameId_iff (fun _ => 0) (fun _ => false) firstRead kafkaOnly_firstRead 0).mpr (.inl rfl)⟩

/-- A crash behind the marker: the three records are read again, as batch 1. -/
theorem firstRead_afterMarker :
    (stagedUnder firstRead .sources = [[.sources, .num 0, .staged]] ∧
      position (fun _ => 0) ((crash firstRead (finishBatch (fun _ => false) firstRead) 1).get
        [.sources, .num 0, .committed]) () = 0) ∧
      currentBatchIdIn firstRead = 0 ∧
      currentBatchIdIn (crash firstRead (finishBatch (fun _ => false) firstRead) 1) = 1 ∧
      SinkLog.readCommittedFiles
        (SinkLog.commitBatch (SinkLog.commitBatch [] 0 [(0, ())]) 1 [(1, ())]) =
          some [(0, ()), (1, ())] ∧
      ¬ SameId (fun _ => 0) firstRead
        (crash firstRead (finishBatch (fun _ => false) firstRead) 1) := by
  refine ⟨by decide, by decide, by decide, by decide, ?_⟩
  intro h
  have := h ⟨[.sources, .num 0, .staged], by decide, (), by decide⟩
  exact absurd this (by decide)

end Zelox.MicroBatch
