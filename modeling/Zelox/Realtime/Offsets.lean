import Zelox.Realtime.Sink
import Mathlib.Order.MinMax

/-!
# Committed offsets of a single realtime sink

A row is a source record, named by its partition and offset.  The barrier is in-band:
when the sink reads the offsets staged for an epoch, the records below them have
reached it.  Along a crash-free run of one task the committed offsets stay within what
readers see (`committed_covered`) as long as no epoch is deferred while the task
holds rows: the rows of a deferred epoch are dropped and their file is never listed,
while the next complete epoch commits offsets beyond them.
-/

namespace Zelox.Realtime.Single

open Checkpoint CheckpointStore SinkLog SinkLog.Output Sink List

variable {K : Type} [DecidableEq K]

/-! ## Merged offsets -/

theorem lookup_maxInsert {m : Offsets K} {entry : (_ : K) × Int} {p : K} {v : Int}
    (h : (maxInsert m entry).lookup p = some v) :
    m.lookup p = some v ∨ (p = entry.1 ∧ v = entry.2) := by
  unfold maxInsert at h
  by_cases hp : p = entry.1
  · subst hp
    cases hm : m.lookup entry.1 with
    | none =>
      rw [hm] at h
      simp only [AList.lookup_insert, Option.some.injEq] at h
      exact .inr ⟨rfl, h.symm⟩
    | some cur =>
      rw [hm] at h
      simp only [AList.lookup_insert, Option.some.injEq] at h
      rcases max_choice cur entry.2 with hmax | hmax
      · left
        rw [← h, hmax]
      · right
        exact ⟨rfl, by rw [← h, hmax]⟩
  · left
    split at h
    · rwa [AList.lookup_insert_ne hp] at h
    · rwa [AList.lookup_insert_ne hp] at h

theorem lookup_foldl_maxInsert {entries : List ((_ : K) × Int)} {m : Offsets K} {p : K} {v : Int}
    (h : (entries.foldl maxInsert m).lookup p = some v) :
    m.lookup p = some v ∨ ⟨p, v⟩ ∈ entries := by
  induction entries generalizing m with
  | nil => exact .inl h
  | cons entry entries ih =>
    rcases ih h with h | h
    · rcases lookup_maxInsert h with h | ⟨rfl, rfl⟩
      · exact .inl h
      · exact .inr mem_cons_self
    · exact .inr (mem_cons_of_mem entry h)

theorem lookup_mergeOffsets {ck : CheckpointStore (Artifact K)} {epoch : Nat} {p : K} {v : Int}
    (h : (mergeOffsets ck epoch).lookup p = some v) :
    (committedOffsets ck).lookup p = some v ∨
      ∃ next ∈ stagedOffsets ck epoch, next.lookup p = some v := by
  unfold mergeOffsets at h
  generalize stagedOffsets ck epoch = staged at h ⊢
  generalize committedOffsets ck = m at h ⊢
  induction staged generalizing m with
  | nil => exact .inl h
  | cons next staged ih =>
    rcases ih _ h with h | ⟨next', hmem, h⟩
    · rcases lookup_foldl_maxInsert h with h | h
      · exact .inl h
      · exact .inr ⟨next, mem_cons_self, AList.mem_lookup_iff.mpr h⟩
    · exact .inr ⟨next', mem_cons_of_mem next hmem, h⟩

/-! ## The property and what it needs -/

abbrev RecordSink (K : Type) := Sink K (K × Int)

/-- Records that lie below `offsets` and are of the source. -/
def Below (isRecord : K × Int → Prop) (offsets : Offsets K) (x : K × Int) : Prop :=
  isRecord x ∧ ∃ v, offsets.lookup x.1 = some v ∧ x.2 < v

/-- Every source record below the committed offsets is in a listed file. -/
def Covered (isRecord : K × Int → Prop) (s : RecordSink K) : Prop :=
  ∀ x, Below isRecord (committedOffsets s.ck) x → x ∈ s.out.visibleRows

/-- The task is about to merge the offsets of its epoch. -/
def AtGate (s : RecordSink K) (a : Action K (K × Int)) : Prop :=
  a = .task 0 .gate ∧ ∃ metas, (s.tasks 0).phase = .listed metas

/-- The barrier is in-band: the records below what is staged have reached the sink. -/
def InBand (isRecord : K × Int → Prop) (s : RecordSink K) (a : Action K (K × Int)) : Prop :=
  AtGate s a → ∀ next ∈ stagedOffsets s.ck (s.tasks 0).epoch, ∀ x, Below isRecord next x →
    x ∈ s.received

/-- No epoch is deferred while the task holds rows. -/
def NotDeferred (s : RecordSink K) (a : Action K (K × Int)) : Prop :=
  AtGate s a → isComplete s.ck (mergeOffsets s.ck (s.tasks 0).epoch) = true ∨
    (s.tasks 0).buffer = []

/-! ## The invariant -/

/-- Files of the running epoch are listed from `visible` on. -/
def limit : Phase K → Nat → Nat
  | .visible _, epoch | .returning, epoch => epoch + 1
  | _, epoch => epoch

/-- The buffered rows are in the slice of the epoch. -/
def Written (s : RecordSink K) : Prop :=
  (s.tasks 0).buffer ≠ [] →
    s.out.data.lookup ((s.tasks 0).epoch, 0) = some (s.tasks 0).buffer

/-- The listing of the epoch holds the slice, and nothing of another epoch. -/
def Listing (s : RecordSink K) (metas : List (Nat × Nat)) : Prop :=
  ((s.tasks 0).buffer ≠ [] → ((s.tasks 0).epoch, 0) ∈ metas) ∧
    ∀ p ∈ metas, p.1 = (s.tasks 0).epoch

/-- The records below merged offsets have reached the sink. -/
def Seen (isRecord : K × Int → Prop) (s : RecordSink K) (offsets : Offsets K) : Prop :=
  ∀ x, Below isRecord offsets x → x ∈ s.received ∨ x ∈ s.out.visibleRows

def AllVisible (s : RecordSink K) : Prop := ∀ x ∈ s.received, x ∈ s.out.visibleRows

def InPhase (isRecord : K × Int → Prop) (s : RecordSink K) : Phase K → Prop
  | .starting => readCommitted s.ck = none
  | .reading => True
  | .dropLog _ _ | .dropData _ | .marked => False
  | .sliced | .counted => Written s
  | .listed metas => Written s ∧ Listing s metas
  | .gated metas offsets => Written s ∧ Listing s metas ∧ Seen isRecord s offsets
  | .visible offsets => AllVisible s ∧ Seen isRecord s offsets
  | .returning => AllVisible s

structure Inv (isRecord : K × Int → Prop) (s : RecordSink K) : Prop where
  wf : WellFormed s.out.log
  ids : ∀ g ∈ s.out.log, g.id < limit (s.tasks 0).phase (s.tasks 0).epoch
  dirs : ∀ p ∈ s.out.listed, p.1 < limit (s.tasks 0).phase (s.tasks 0).epoch
  rows : ∀ x ∈ s.received, x ∈ s.out.visibleRows ∨ x ∈ (s.tasks 0).buffer
  covered : Covered isRecord s
  phase : InPhase isRecord s (s.tasks 0).phase

theorem inv_init (isRecord : K × Int → Prop) : Inv isRecord (Sink.init : RecordSink K) where
  wf := wellFormed_nil
  ids := by simp [Sink.init, empty]
  dirs := by simp [Sink.init, empty, listed_eq_live]
  rows := by simp [Sink.init]
  covered := by
    rintro x ⟨-, v, hv, -⟩
    cases hv
  phase := rfl

/-! ## One step -/

section Step

variable {isRecord : K × Int → Prop} {s : RecordSink K}

section

variable (h : Inv isRecord s)
include h

theorem Inv.setCk {ck : CheckpointStore (Artifact K)}
    (hck : readCommitted ck = readCommitted s.ck) : Inv isRecord { s with ck := ck } := by
  have hoff : committedOffsets ck = committedOffsets s.ck := by
    unfold committedOffsets
    rw [hck]
  refine { h with covered := ?_, phase := ?_ }
  · unfold Covered
    show ∀ x, Below isRecord (committedOffsets ck) x → _
    rw [hoff]
    exact h.covered
  · have hp := h.phase
    show InPhase isRecord _ (s.tasks 0).phase
    cases hph : (s.tasks 0).phase <;> rw [hph] at hp <;> try exact hp
    exact hck.trans hp

theorem Inv.setPhase {phase : Phase K}
    (hlim : limit (s.tasks 0).phase (s.tasks 0).epoch ≤ limit phase (s.tasks 0).epoch)
    (hp : InPhase isRecord (s.setPhase 0 phase) phase) : Inv isRecord (s.setPhase 0 phase) := by
  refine { h with ids := ?_, dirs := ?_, rows := ?_, phase := ?_ } <;> rw [setPhase_self]
  · intro g hg
    exact lt_of_lt_of_le (h.ids g hg) hlim
  · intro p hp
    exact lt_of_lt_of_le (h.dirs p hp) hlim
  · exact h.rows
  · exact hp

section

variable (hph : (s.tasks 0).phase = .reading)
include hph

theorem Inv.data (rows : List (K × Int)) :
    Inv isRecord ({ s with received := s.received ++ rows }.setTask 0
      { s.tasks 0 with buffer := (s.tasks 0).buffer ++ rows }) := by
  refine { h with ids := ?_, dirs := ?_, rows := ?_, phase := ?_ } <;> rw [setTask_self]
  · exact h.ids
  · exact h.dirs
  · intro x hx
    rcases mem_append.mp hx with hx | hx
    · exact (h.rows x hx).imp_right (mem_append_left rows)
    · exact .inr (mem_append_right _ hx)
  · show InPhase isRecord _ (s.tasks 0).phase
    rw [hph]
    trivial

/-- The slice goes to a directory that no reader is given yet. -/
theorem visibleRows_writeSlice :
    (s.writeSlice 0).out.visibleRows = s.out.visibleRows := by
  unfold Sink.writeSlice
  simp only
  split
  · rfl
  · show Output.rowsOf (s.out.putFile _ _) s.out.listed = _
    apply rowsOf_congr
    intro p hp
    apply rowsAt_putFile_of_ne
    rintro rfl
    have := h.dirs _ hp
    rw [hph] at this
    exact lt_irrefl _ this

theorem Inv.checkpoint :
    Inv isRecord ((s.writeSlice 0).setPhase 0 .sliced) := by
  have hvis := visibleRows_writeSlice h hph
  have hwritten : Written (s.writeSlice 0) := by
    intro hbuf
    rw [writeSlice_tasks] at hbuf ⊢
    unfold Sink.writeSlice
    simp only [List.isEmpty_iff, hbuf, if_false]
    exact AList.lookup_insert _
  have hwr : Inv isRecord (s.writeSlice 0) := by
    constructor
    case wf =>
      rw [writeSlice_log]
      exact h.wf
    case ids =>
      rw [writeSlice_log, writeSlice_tasks]
      exact h.ids
    case dirs =>
      rw [listed_eq_live, writeSlice_log, ← listed_eq_live, writeSlice_tasks]
      exact h.dirs
    case rows =>
      rw [writeSlice_received, hvis, writeSlice_tasks]
      exact h.rows
    case covered =>
      intro x hx
      rw [writeSlice_ck] at hx
      rw [hvis]
      exact h.covered x hx
    case phase =>
      rw [writeSlice_tasks, hph]
      trivial
  apply hwr.setPhase
  · rw [writeSlice_tasks, hph]
    exact le_rfl
  · show Written _
    unfold Written
    exact hwritten

end

theorem Inv.list (hph : (s.tasks 0).phase = .counted) :
    Inv isRecord (s.setPhase 0 (.listed (s.out.listBatchFiles (s.tasks 0).epoch))) := by
  have hw : Written s := by
    have := h.phase
    rw [hph] at this
    exact this
  apply h.setPhase
  · rw [hph]
    exact le_rfl
  · refine ⟨?_, ?_, ?_⟩
    · unfold Written
      exact hw
    · rw [setPhase_self]
      intro hbuf
      rw [mem_listBatchFiles]
      refine ⟨?_, rfl⟩
      rw [← AList.mem_keys, ← AList.lookup_isSome, hw hbuf]
      rfl
    · rw [setPhase_self]
      intro p hp
      exact (mem_listBatchFiles.mp hp).2

section

variable {metas : List (Nat × Nat)} (hph : (s.tasks 0).phase = .listed metas)
include hph

theorem Inv.gate (hin : ∀ next ∈ stagedOffsets s.ck (s.tasks 0).epoch, ∀ x, Below isRecord next x →
      x ∈ s.received) :
    Inv isRecord (s.setPhase 0 (.gated metas (mergeOffsets s.ck (s.tasks 0).epoch))) := by
  have hp := h.phase
  rw [hph] at hp
  apply h.setPhase
  · rw [hph]
    exact le_rfl
  · refine ⟨?_, ?_, ?_⟩
    · unfold Written
      exact hp.1
    · unfold Listing
      rw [setPhase_self]
      exact hp.2
    · rintro x ⟨hx, v, hv, hlt⟩
      rcases lookup_mergeOffsets hv with hv | ⟨next, hnext, hv⟩
      · exact .inr (h.covered x ⟨hx, v, hv, hlt⟩)
      · exact .inl (hin next hnext x ⟨hx, v, hv, hlt⟩)

/-- A deferred epoch without rows leaves nothing behind. -/
theorem Inv.defer (hbuf : (s.tasks 0).buffer = []) :
    Inv isRecord (s.setPhase 0 .returning) := by
  apply h.setPhase
  · rw [hph]
    exact Nat.le_succ _
  · intro x hx
    rcases h.rows x hx with hx | hx
    · exact hx
    · rw [hbuf] at hx
      cases hx

end

theorem Inv.commit {metas : List (Nat × Nat)} {offsets : Offsets K}
    (hph : (s.tasks 0).phase = .gated metas offsets) :
    Inv isRecord ({ s with out := s.out.commitListed (s.tasks 0).epoch metas }.setPhase 0
      (.visible offsets)) := by
  obtain ⟨hw, ⟨hmem, hdir⟩, hseen⟩ : InPhase isRecord s (.gated metas offsets) := hph ▸ h.phase
  have hids : ∀ g ∈ s.out.log, g.id < (s.tasks 0).epoch := by
    intro g hg
    have := h.ids g hg
    rwa [hph] at this
  have hdirs : ∀ p ∈ s.out.listed, p.1 < (s.tasks 0).epoch := by
    intro p hp
    have := h.dirs p hp
    rwa [hph] at this
  have hlisted := listed_commitListed h.wf hids metas
  have hvis : (s.out.commitListed (s.tasks 0).epoch metas).visibleRows =
      s.out.visibleRows ++ s.out.rowsOf metas := by
    unfold visibleRows
    rw [hlisted]
    exact rowsOf_append s.out _ _
  have hkeep : ∀ x ∈ s.out.visibleRows,
      x ∈ (s.out.commitListed (s.tasks 0).epoch metas).visibleRows := by
    intro x hx
    rw [hvis]
    exact mem_append_left _ hx
  -- the slice is among the files that are now listed
  have hbuf : ∀ x ∈ (s.tasks 0).buffer,
      x ∈ (s.out.commitListed (s.tasks 0).epoch metas).visibleRows := by
    intro x hx
    have hne : (s.tasks 0).buffer ≠ [] := ne_nil_of_mem hx
    rw [hvis]
    refine mem_append_right _ (mem_flatMap.mpr ⟨_, hmem hne, ?_⟩)
    unfold rowsAt
    rw [hw hne]
    exact hx
  have hall : ∀ x ∈ s.received,
      x ∈ (s.out.commitListed (s.tasks 0).epoch metas).visibleRows := by
    intro x hx
    exact (h.rows x hx).elim (hkeep x) (hbuf x)
  constructor
  case wf =>
    show WellFormed (commitBatch s.out.log (s.tasks 0).epoch metas)
    rw [commitBatch_fresh h.wf hids]
    exact h.wf.snoc_batchFile hids (live_adds h.wf) _
  case ids =>
    show ∀ g ∈ commitBatch s.out.log (s.tasks 0).epoch metas, g.id < (s.tasks 0).epoch + 1
    rw [commitBatch_fresh h.wf hids]
    refine Lists.forall_mem_concat.mpr ⟨fun g hg => Nat.lt_succ_of_lt (hids g hg), ?_⟩
    rw [batchFile_id]
    exact Nat.lt_succ_self _
  case dirs =>
    rw [setPhase_self]
    show ∀ p ∈ (s.out.commitListed (s.tasks 0).epoch metas).listed, p.1 < (s.tasks 0).epoch + 1
    rw [hlisted]
    refine forall_mem_append.mpr ⟨fun p hp => Nat.lt_succ_of_lt (hdirs p hp), fun p hp => ?_⟩
    rw [hdir p hp]
    exact Nat.lt_succ_self _
  case rows =>
    intro x hx
    exact .inl (hall x hx)
  case covered =>
    intro x hx
    exact hkeep x (h.covered x hx)
  case phase =>
    refine ⟨hall, ?_⟩
    intro x hx
    exact (hseen x hx).imp_right (hkeep x)

theorem Inv.putCommitted {offsets : Offsets K} (hph : (s.tasks 0).phase = .visible offsets) :
    Inv isRecord ({ s with
      ck := s.ck.put committedKey (.committed (s.tasks 0).epoch offsets s.incarnation)
      }.setPhase 0 .returning) := by
  obtain ⟨hall, hseen⟩ : InPhase isRecord s (.visible offsets) := hph ▸ h.phase
  have hlim : limit (s.tasks 0).phase (s.tasks 0).epoch = (s.tasks 0).epoch + 1 := by
    rw [hph]
    rfl
  have hids := h.ids
  have hdirs := h.dirs
  rw [hlim] at hids hdirs
  constructor
  case wf => exact h.wf
  case ids =>
    exact hids
  case dirs =>
    rw [setPhase_self]
    exact hdirs
  case rows =>
    intro x hx
    exact .inl (hall x hx)
  case covered =>
    intro x hx
    have hoff : committedOffsets (s.ck.put committedKey
        (.committed (s.tasks 0).epoch offsets s.incarnation)) = offsets := by
      unfold committedOffsets
      rfl
    have hx' : Below isRecord offsets x := hoff ▸ hx
    exact (hseen x hx').elim (hall x) id
  case phase =>
    exact hall

theorem Inv.finish (hph : (s.tasks 0).phase = .returning) :
    Inv isRecord (s.nextEpoch 0) := by
  have hall : AllVisible s := by
    have := h.phase
    rw [hph] at this
    exact this
  have hlim : limit (s.tasks 0).phase (s.tasks 0).epoch = (s.tasks 0).epoch + 1 := by
    rw [hph]
    rfl
  have hids := h.ids
  have hdirs := h.dirs
  rw [hlim] at hids hdirs
  constructor
  case wf => exact h.wf
  case ids =>
    exact hids
  case dirs =>
    rw [nextEpoch_self]
    exact hdirs
  case rows =>
    intro x hx
    exact .inl (hall x hx)
  case covered => exact h.covered
  case phase =>
    trivial

theorem inv_stepTask (a : TaskAction (K × Int)) (hin : InBand isRecord s (.task 0 a))
    (hdef : NotDeferred s (.task 0 a)) :
    Inv isRecord (stepTask 1 s 0 a) := by
  have hp := h.phase
  cases a with
  | start =>
    simp only [stepTask]
    split
    case h_1 hph =>
      rw [hph] at hp
      have hnone : readCommitted s.ck = none := hp
      simp only [if_true, hnone]
      apply h.setPhase
      · rw [hph]
        exact le_rfl
      · trivial
    case h_2 => exact h
  | drop =>
    simp only [stepTask]
    split
    case h_1 hph => rw [hph] at hp; exact hp.elim
    case h_2 hph => rw [hph] at hp; exact hp.elim
    case h_3 hph => rw [hph] at hp; exact hp.elim
    case h_4 hph => rw [hph] at hp; exact hp.elim
    case h_5 => exact h
  | data rows =>
    simp only [stepTask]
    split
    case h_1 hph => exact h.data hph rows
    case h_2 => exact h
  | checkpoint =>
    simp only [stepTask]
    split
    case h_1 hph => exact h.checkpoint hph
    case h_2 => exact h
  | mark =>
    simp only [stepTask, Nat.le_refl, if_true]
    split
    case h_1 hph =>
      rw [hph] at hp
      apply h.setPhase
      · rw [hph]
        exact le_rfl
      · show Written _
        unfold Written
        exact hp
    case h_2 => exact h
  | count =>
    simp only [stepTask]
    split
    case h_1 hph => rw [hph] at hp; exact hp.elim
    case h_2 => exact h
  | list =>
    simp only [stepTask]
    split
    case h_1 hph => exact h.list hph
    case h_2 => exact h
  | gate =>
    simp only [stepTask]
    split
    case h_1 metas hph =>
      split
      · exact h.gate hph (hin ⟨rfl, metas, hph⟩)
      case isFalse hinc =>
        exact h.defer hph ((hdef ⟨rfl, metas, hph⟩).resolve_left hinc)
    case h_2 => exact h
  | commit =>
    simp only [stepTask]
    split
    case h_1 hph => exact h.commit hph
    case h_2 => exact h
  | putCommitted =>
    simp only [stepTask]
    split
    case h_1 hph => exact h.putCommitted hph
    case h_2 => exact h
  | finish =>
    simp only [stepTask, Nat.le_refl, if_true]
    split
    case h_1 hph => exact h.finish hph
    case h_2 => exact h

end

theorem inv_step (h : Inv isRecord s) (a : Action K (K × Int)) (hcrash : a ≠ .crash)
    (hin : InBand isRecord s a) (hdef : NotDeferred s a) : Inv isRecord (step 1 s a) := by
  cases a with
  | stage inst epoch next =>
    exact h.setCk (readCommitted_put_of_ne _ _ (by simp [committedKey, stagedEpochKey]))
  | expect n => exact h.setCk (readCommitted_put_of_ne _ _ (by decide))
  | task idx a =>
    simp only [step]
    split
    case isTrue hidx =>
      obtain rfl : idx = 0 := by omega
      exact inv_stepTask h a hin hdef
    case isFalse => exact h
  | crash => exact absurd rfl hcrash

end Step

/-- In a crash-free run of one task in which no epoch is deferred while it holds rows, every record
below the committed offsets is in a listed file. -/
theorem committed_covered (isRecord : K × Int → Prop) (as : List (Action K (K × Int)))
    (hrun : Runs.Along (step 1)
      (fun s a => a ≠ .crash ∧ InBand isRecord s a ∧ NotDeferred s a) (Sink.init : RecordSink K) as) :
    Covered isRecord (Runs.run (step 1) (Sink.init : RecordSink K) as) := by
  have hinv : Inv isRecord (Runs.run (step 1) (Sink.init : RecordSink K) as) := by
    refine Runs.along_inv (step 1) _ (Inv isRecord) ?_ _ as hrun (inv_init isRecord)
    rintro s a ⟨hcrash, hin, hdef⟩ hs
    exact inv_step hs a hcrash hin hdef
  exact hinv.covered

theorem fair_of_ne {isRecord : K × Int → Prop} {s : RecordSink K} {a : Action K (K × Int)}
    (hcrash : a ≠ .crash) (hgate : a ≠ .task 0 .gate) :
    a ≠ .crash ∧ InBand isRecord s a ∧ NotDeferred s a :=
  ⟨hcrash, fun h => absurd h.1 hgate, fun h => absurd h.1 hgate⟩

/-- One partition, one record, one epoch. -/
def oneRecord : List (Action Bool (Bool × Int)) :=
  [.expect 1, .stage 0 0 ((∅ : Offsets Bool).insert false 1), .task 0 .start,
    .task 0 (.data [(false, 0)]), .task 0 .checkpoint, .task 0 .mark, .task 0 .list,
    .task 0 .gate, .task 0 .commit, .task 0 .putCommitted]

theorem committed_covered_oneRecord :
    Runs.Along (step 1) (fun s a => a ≠ .crash ∧ InBand (· = (false, 0)) s a ∧ NotDeferred s a)
        (Sink.init : RecordSink Bool) oneRecord ∧
      Covered (· = (false, 0)) (Runs.run (step 1) (Sink.init : RecordSink Bool) oneRecord) := by
  have hrun : Runs.Along (step 1)
      (fun s a => a ≠ .crash ∧ InBand (· = (false, 0)) s a ∧ NotDeferred s a)
      (Sink.init : RecordSink Bool) oneRecord := by
    refine ⟨fair_of_ne nofun nofun, fair_of_ne nofun nofun, fair_of_ne nofun nofun,
      fair_of_ne nofun nofun, fair_of_ne nofun nofun, fair_of_ne nofun nofun,
      fair_of_ne nofun nofun, ⟨nofun, ?_, ?_⟩, fair_of_ne nofun nofun, fair_of_ne nofun nofun,
      trivial⟩
    · rintro - next - x ⟨rfl, -⟩
      decide
    · intro _
      exact .inl (by decide)
  exact ⟨hrun, committed_covered _ _ hrun⟩

/-- Two partitions are expected; the second reader stages for the first time at epoch 1. -/
def deferredRun : List (Action Bool (Bool × Int)) :=
  [.expect 2, .stage 0 0 ((∅ : Offsets Bool).insert false 1), .task 0 .start,
    .task 0 (.data [(false, 0)]), .task 0 .checkpoint, .task 0 .mark, .task 0 .list,
    .task 0 .gate, .task 0 .finish,
    .stage 0 1 ((∅ : Offsets Bool).insert false 1), .stage 1 1 ((∅ : Offsets Bool).insert true 0),
    .task 0 .checkpoint, .task 0 .mark, .task 0 .list, .task 0 .gate, .task 0 .commit,
    .task 0 .putCommitted]

/-- Epoch 0 is deferred and its buffer cleared; epoch 1 commits behind the lost record. -/
theorem deferredRun_invisible :
    Runs.Along (step 1) (fun s a => a ≠ .crash ∧ InBand (· = (false, 0)) s a)
        (Sink.init : RecordSink Bool) deferredRun ∧
      (committedOffsets (Runs.run (step 1) (Sink.init : RecordSink Bool) deferredRun).ck).lookup
        false = some 1 ∧
      (Runs.run (step 1) (Sink.init : RecordSink Bool) deferredRun).out.visibleRows = [] ∧
      ¬ Covered (· = (false, 0))
        (Runs.run (step 1) (Sink.init : RecordSink Bool) deferredRun) := by
  have hoff : (committedOffsets
      (Runs.run (step 1) (Sink.init : RecordSink Bool) deferredRun).ck).lookup false = some 1 := by
    decide
  have hrows : (Runs.run (step 1) (Sink.init : RecordSink Bool) deferredRun).out.visibleRows =
      [] := by decide
  refine ⟨?_, hoff, hrows, ?_⟩
  · have hfree : ∀ {s : RecordSink Bool} {a : Action Bool (Bool × Int)}, a ≠ .crash →
        a ≠ .task 0 .gate → a ≠ .crash ∧ InBand (· = (false, 0)) s a :=
      fun hc hg => ⟨hc, fun h => absurd h.1 hg⟩
    refine ⟨hfree nofun nofun, hfree nofun nofun, hfree nofun nofun, hfree nofun nofun,
      hfree nofun nofun, hfree nofun nofun, hfree nofun nofun, ⟨nofun, ?_⟩, hfree nofun nofun,
      hfree nofun nofun, hfree nofun nofun, hfree nofun nofun, hfree nofun nofun,
      hfree nofun nofun, ⟨nofun, ?_⟩, hfree nofun nofun, hfree nofun nofun, trivial⟩
    · rintro - next - x ⟨rfl, -⟩
      decide
    · rintro - next - x ⟨rfl, -⟩
      decide
  · intro hcov
    have := hcov (false, 0) ⟨rfl, 1, hoff, by decide⟩
    cases this

end Zelox.Realtime.Single
