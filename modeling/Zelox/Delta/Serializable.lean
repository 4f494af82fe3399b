import Zelox.Delta.Commit

/-!
# Commits on an existing table

Writers that have read a snapshot of the table, any number of them in any interleaving.
The invariant of a writer (`Follows`) says how far it has come: its snapshot is of a
version at or above the one it was begun with, it has been moved only if the commit is a
blind append, and every commit between the two has been checked.  A listing finds the
last commit (`Contiguous.latestVersionFromListing_eq`), so a writer that gets to put its
commit puts it right after its snapshot, or finds the name taken.
-/

namespace Zelox.Delta

open Runs ConflictChecker List

/-! ### The table at a version -/

namespace LogStore

/-- The state of `version` of a table whose commits begin at `first`, where its state was
`table`. -/
def tableAt (table : ReconciledCheckpointState) (first : Nat) (store : LogStore) (version : Nat) :
    ReconciledCheckpointState :=
  table.applyAll (store.rangeActions first (version + 1 - first))

variable {store store' : LogStore}

/-- The commits strictly between the two versions are known and do not conflict with
`actions`. -/
def Checked (store : LogStore) (actions : List Action) (low high : Nat) : Prop :=
  ∀ v, low < v → v < high →
    ∃ winning, store.readCommitEntry v = some winning ∧ NoConflict actions winning

theorem Checked.extend {actions : List Action} {low high : Nat}
    (h : store.Checked actions low high) (hext : store.Extends store') :
    store'.Checked actions low high := by
  intro v hlow hhigh
  obtain ⟨winning, hread, hno⟩ := h v hlow hhigh
  exact ⟨winning, hext.readCommitEntry hread, hno⟩

theorem Checked.succ {actions winning : List Action} {low high : Nat}
    (h : store.Checked actions low high) (hread : store.readCommitEntry high = some winning)
    (hno : NoConflict actions winning) : store.Checked actions low (high + 1) := by
  intro v hlow hhigh
  rcases Nat.lt_or_ge v high with hlt | hge
  · exact h v hlow hlt
  · obtain rfl : v = high := by omega
    exact ⟨winning, hread, hno⟩

end LogStore

/-! ### One writer -/

namespace CommitRun

/-- How far a writer with the snapshot `s` has come, by its phase. -/
def Progress (store : LogStore) (w : CommitRun) (base s : DeltaSnapshot) : Prop :=
  match w.phase with
  | .listing => True
  | .loading _ => False
  | .checking latestVersion version =>
    w.commit.currentIsBlindAppend ∧ s.version < version ∧ version ≤ latestVersion ∧
      (store.commits.get? latestVersion).isSome ∧
      store.Checked w.commit.data.actions base.version version
  | .refreshing latestVersion =>
    w.commit.currentIsBlindAppend ∧ s.version < latestVersion ∧
      (store.commits.get? latestVersion).isSome ∧
      store.Checked w.commit.data.actions base.version (latestVersion + 1)
  | .finalizing version => version = s.version + 1 ∧ (store.commits.get? s.version).isSome
  | .putting version actions =>
    version = s.version + 1 ∧ (store.commits.get? s.version).isSome ∧
      actions.filterMap Action.remove? = w.commit.data.actions.filterMap Action.remove?
  | .committed post =>
    post.version = s.version + 1 ∧ store.readCommitEntry post.version = some post.actions ∧
      post.actions.filterMap Action.remove? = w.commit.data.actions.filterMap Action.remove?
  | .failed _ => True

/-- A writer that was begun with the snapshot `base` and holds the snapshot `s`. -/
structure Follows (store : LogStore) (w : CommitRun) (base s : DeltaSnapshot) : Prop where
  tableData : w.commit.tableData = some base
  readSnapshot : w.readSnapshot = some s
  localActions : w.localActions = w.commit.data.actions
  le : base.version ≤ s.version
  /-- Only a blind append moves on. -/
  stays : w.commit.currentIsBlindAppend = false → s.version = base.version
  known : store.Known s.version
  checked : store.Checked w.commit.data.actions base.version (s.version + 1)
  progress : w.Progress store base s

namespace Follows

variable {store store' : LogStore} {w : CommitRun} {base s : DeltaSnapshot} {first next : Nat}

section

variable (h : Follows store w base s)
include h

theorem extend (hext : store.Extends store') :
    Follows store' w base s := by
  refine { h with known := hext.known h.known, checked := h.checked.extend hext, progress := ?_ }
  have hprogress := h.progress
  unfold Progress at hprogress ⊢
  split at hprogress
  · trivial
  · exact hprogress
  · obtain ⟨hblind, hlt, hle, hlatest, hchecked⟩ := hprogress
    exact ⟨hblind, hlt, hle, hext.isSome hlatest, hchecked.extend hext⟩
  · obtain ⟨hblind, hlt, hlatest, hchecked⟩ := hprogress
    exact ⟨hblind, hlt, hext.isSome hlatest, hchecked.extend hext⟩
  · exact ⟨hprogress.1, hext.isSome hprogress.2⟩
  · exact ⟨hprogress.1, hext.isSome hprogress.2.1, hprogress.2.2⟩
  · exact ⟨hprogress.1, hext.readCommitEntry hprogress.2.1, hprogress.2.2⟩
  · trivial

theorem setPhase (phase : CommitPhase) (attempts : Nat)
    (hprogress : Progress store { w with phase, attempts } base s) :
    Follows store { w with phase, attempts } base s :=
  { h with progress := hprogress }

theorem fail (error : TransactionError) :
    Follows store (w.fail error) base s :=
  h.setPhase _ _ trivial

/-- The commit goes ahead if nothing came between; else only a blind append goes on to the checks.
-/
theorem meet (latestVersion attempts : Nat) (hle : s.version ≤ latestVersion)
    (hlatest : (store.commits.get? latestVersion).isSome) :
    Follows store ({ w with attempts }.meet s latestVersion) base s := by
  have hintent : w.commit.creationIntent = false := by
    simp [PreparedCommit.creationIntent, h.tableData]
  unfold CommitRun.meet creationConflict stripCreationActions
  simp only [hintent, Bool.not_false, if_true, Bool.false_and, Bool.false_eq_true, if_false]
  split
  next hlt =>
    split
    · exact h.setPhase _ _ trivial
    next hretries =>
      have hblind : w.commit.currentIsBlindAppend = true := by
        by_contra hnot
        simp [PreparedCommit.effectiveMaxRetries, hintent, hnot] at hretries
      exact h.setPhase _ _ ⟨hblind, Nat.lt_succ_self _, hlt, hlatest, h.checked⟩
  next hge =>
    obtain rfl : s.version = latestVersion := by omega
    exact h.setPhase _ _ ⟨rfl, hlatest⟩

theorem list (hlog : store.Contiguous first next) (hlt : first < next) :
    Follows store (w.list store) base s := by
  have hknown := hlog.lt_of_known h.known
  have hlatest : store.getLatestVersion (w.readSnapshot.elim (-1) fun s => s.version) =
      some (next - 1) := by
    have hmax : max (s.version : Int) 0 ≤ ((next - 1 : Nat) : Int) := by omega
    rw [LogStore.getLatestVersion, hlog.latestVersionFromListing_eq hlt, h.readSnapshot]
    exact if_pos (decide_eq_true hmax)
  unfold CommitRun.list
  split
  · exact h.fail _
  · dsimp only
    split
    next hnone =>
      rw [hlatest] at hnone
      cases hnone
    next hnone =>
      rw [h.readSnapshot] at hnone
      cases hnone
    next latestVersion s' hsome hs =>
      rw [hlatest] at hsome
      rw [h.readSnapshot] at hs
      cases hsome
      cases hs
      exact h.meet (next - 1) _ (by omega) ((hlog.commits _).mpr (by omega))

theorem check {latestVersion version : Nat} (hphase : w.phase = .checking latestVersion version) :
    Follows store (w.check store latestVersion version) base s := by
  have hprogress := h.progress
  rw [Progress, hphase] at hprogress
  obtain ⟨hblind, hlt, hle, hlatest, hchecked⟩ := hprogress
  unfold CommitRun.check
  split
  next hnone =>
    rw [h.readSnapshot] at hnone
    cases hnone
  · exact h.fail _
  next hs hread =>
    split
    · exact h.fail _
    next hok =>
      rw [h.localActions] at hok
      have hno := checkConflicts_ok (fun a ha => (w.commit.mem_of_blindAppend hblind ha).1)
        (fun a ha => (w.commit.mem_of_blindAppend hblind ha).2.1) hok
      have hchecked' := hchecked.succ hread hno
      split
      next hmore =>
        refine h.setPhase _ _ ?_
        exact ⟨hblind, by omega, hmore, hlatest, hchecked'⟩
      next hlast =>
        obtain rfl : version = latestVersion := by omega
        refine h.setPhase _ _ ?_
        exact ⟨hblind, hlt, hlatest, hchecked'⟩

theorem refresh {latestVersion : Nat} (hphase : w.phase = .refreshing latestVersion) :
    ∃ s', Follows store (w.refresh store latestVersion) base s' := by
  have hprogress := h.progress
  rw [Progress, hphase] at hprogress
  obtain ⟨hblind, hlt, hlatest, hchecked⟩ := hprogress
  unfold CommitRun.refresh
  rw [h.readSnapshot]
  dsimp only
  split
  · exact ⟨s, h.fail _⟩
  next s' hupdate =>
    have hversion := DeltaSnapshot.version_of_update hupdate
    subst hversion
    have hle := h.le
    refine ⟨s', { tableData := h.tableData, readSnapshot := rfl, localActions := h.localActions
                  le := by omega, stays := ?_, known := LogStore.known_of_isSome hlatest
                  checked := hchecked, progress := ⟨rfl, hlatest⟩ }⟩
    intro hnot
    rw [hnot] at hblind
    cases hblind

theorem finalize {validate : Validation} {version : Nat} {nowMs : Int64}
    (hphase : w.phase = .finalizing version) :
    Follows store (w.finalize validate store version nowMs) base s := by
  have hprogress := h.progress
  rw [Progress, hphase] at hprogress
  unfold CommitRun.finalize
  split
  · exact h.fail _
  · dsimp only
    split
    · exact h.fail _
    · refine h.setPhase _ _ ⟨hprogress.1, hprogress.2, ?_⟩
      rw [← h.localActions]
      exact filterMap_finalizeAttemptActions (fun _ => rfl) (fun _ => rfl) _ _ _ _ _

theorem put (hlog : store.Contiguous first next) {version : Nat} {actions : List Action}
    {modified : Int64} (hphase : w.phase = .putting version actions) :
    (∃ next', next ≤ next' ∧ (w.put store version actions modified).2.Contiguous first next') ∧
      Follows (w.put store version actions modified).2 (w.put store version actions modified).1
        base s := by
  have hprogress := h.progress
  rw [Progress, hphase] at hprogress
  obtain ⟨rfl, hlast, hremoves⟩ := hprogress
  unfold CommitRun.put
  cases hget : store.commits.get? (s.version + 1) with
  | some f => exact ⟨⟨next, le_rfl, hlog⟩, h.setPhase _ _ trivial⟩
  | none =>
    have hbounds := (hlog.commits _).mp hlast
    have hnext : s.version + 1 = next := by
      by_contra hne
      have : (store.commits.get? (s.version + 1)).isSome := (hlog.commits _).mpr (by omega)
      rw [hget] at this
      cases this
    refine ⟨⟨next + 1, Nat.le_succ _, ?_⟩, ?_⟩
    · rw [hnext]
      exact hlog.put (by omega) modified actions
    · have hext : store.Extends { store with
          commits := store.commits.insert ⟨s.version + 1, modified, actions⟩ } :=
        LogStore.extends_insert hget
      refine (h.extend hext).setPhase _ _ ⟨rfl, ?_, hremoves⟩
      simp [LogStore.readCommitEntry]

/-- A step keeps the log gap-free, and the writer on its way. -/
theorem step (hlog : store.Contiguous first next) (hlt : first < next) (validate : Validation)
    (nowMs modified : Int64) :
    (∃ next', next ≤ next' ∧
      (w.step validate store nowMs modified).2.Contiguous first next') ∧
      ∃ s', Follows (w.step validate store nowMs modified).2
        (w.step validate store nowMs modified).1 base s' := by
  have hsame : ∃ next', next ≤ next' ∧ store.Contiguous first next' := ⟨next, le_rfl, hlog⟩
  unfold CommitRun.step
  split
  · exact ⟨hsame, s, h.list hlog hlt⟩
  next hphase =>
    have hprogress := h.progress
    rw [Progress, hphase] at hprogress
    exact hprogress.elim
  next hphase => exact ⟨hsame, s, h.check hphase⟩
  next hphase => exact ⟨hsame, h.refresh hphase⟩
  next hphase => exact ⟨hsame, s, h.finalize hphase⟩
  next hphase =>
    obtain ⟨hlog', hput⟩ := h.put hlog hphase
    exact ⟨hlog', s, hput⟩
  · exact ⟨hsame, s, h⟩
  · exact ⟨hsame, s, h⟩

theorem abort (error : String) :
    Follows store (w.abort error) base s := by
  unfold CommitRun.abort
  split
  · exact h
  · exact h
  · exact h.fail _

end

end Follows

end CommitRun

/-! ### All writers -/

namespace CommitSystem

/-- Writers begin with a snapshot of a version that the log has come to. -/
def OnTable (s : CommitSystem) : CommitEvent → Prop
  | .begin commit => ∃ base, commit.tableData = some base ∧ s.store.Known base.version
  | .files files => files.SpeaksOf s.store
  | _ => True

theorem kept_onTable (validate : CommitRun.Validation) (first next : Nat) (hlt : first < next) :
    Kept validate (fun store => ∃ next', next ≤ next' ∧ store.Contiguous first next')
      (fun store _ w => ∃ base s, w.Follows store base s) OnTable where
  begin s commit hc _ := by
    obtain ⟨base, hdata, hknown⟩ := hc
    refine ⟨base, base, ?_⟩
    exact { tableData := hdata, readSnapshot := hdata, localActions := rfl, le := le_rfl
            stays := fun _ => rfl, known := hknown
            checked := fun v hlow hhigh => absurd hhigh (by omega), progress := trivial }
  step s i nowMs modified w _ _ hlog hw := by
    obtain ⟨next', hle, hlog⟩ := hlog
    obtain ⟨base, s', hfollows⟩ := hw
    obtain ⟨⟨next'', hle', hlog'⟩, s'', hfollows'⟩ :=
      hfollows.step hlog (by omega) validate nowMs modified
    exact ⟨⟨next'', by omega, hlog'⟩, base, s'', hfollows'⟩
  other store nowMs modified i w j w' _ _ hw' := by
    obtain ⟨base, s', hfollows⟩ := hw'
    exact ⟨base, s', hfollows.extend (w.extends_step validate store nowMs modified)⟩
  abort store i w error hw := by
    obtain ⟨base, s, hfollows⟩ := hw
    exact ⟨base, s, hfollows.abort error⟩
  files s files hc hlog := by
    obtain ⟨next', hle, hlog⟩ := hlog
    refine ⟨⟨next', hle, hlog.files hc⟩, fun i w hw => ?_⟩
    obtain ⟨base, s', hfollows⟩ := hw
    exact ⟨base, s', hfollows.extend fun _ _ h => h⟩

/-- What a commit on `base` owes to it: only commits that a blind append may pass lie in between,
and a file that it removes is still there. -/
structure CommitsAfter (table : ReconciledCheckpointState) (first : Nat) (store : LogStore)
    (c : PreparedCommit) (base : DeltaSnapshot) (post : PostCommit) : Prop where
  written : store.readCommitEntry post.version = some post.actions
  next : isBlindAppend c.data.actions c.data.operation = false → post.version = base.version + 1
  append : isBlindAppend c.data.actions c.data.operation = true →
    ∀ v, base.version < v → v < post.version →
      ∃ winning, store.readCommitEntry v = some winning ∧ NoConflict c.data.actions winning
  removes : ∀ r, .remove r ∈ post.actions →
    ((LogStore.tableAt table first store base.version).adds.get? r.key).isSome →
    ((LogStore.tableAt table first store (post.version - 1)).adds.get? r.key).isSome

/-- The versions have no gaps, and each commit comes after the snapshot it read. -/
theorem commits_serializable (validate : CommitRun.Validation) (table : ReconciledCheckpointState)
    (log : LogStore) (first next : Nat) (hlt : first < next) (hlog : log.Contiguous first next)
    (events : List CommitEvent)
    (hevents : Along (step validate) OnTable ⟨log, []⟩ events) :
    (∃ next', next ≤ next' ∧
      (run (step validate) ⟨log, []⟩ events).store.Contiguous first next') ∧
    (∀ v actions, next ≤ v →
      (run (step validate) ⟨log, []⟩ events).store.readCommitEntry v = some actions →
      ∃ w ∈ (run (step validate) ⟨log, []⟩ events).writers, ∃ post ∈ w.post?,
        post.version = v ∧ post.actions = actions) ∧
    ∀ w ∈ (run (step validate) ⟨log, []⟩ events).writers,
      ∀ base ∈ w.commit.tableData, ∀ post ∈ w.post?,
        CommitsAfter table first (run (step validate) ⟨log, []⟩ events).store w.commit base post := by
  obtain ⟨hlog', hwriters⟩ := (kept_onTable validate first next hlt).run hevents
    ⟨⟨next, le_rfl, hlog⟩, by simp⟩
  have hledger := (ledger_start log []).run validate events
  refine ⟨hlog', fun v actions hv hread => ?_, fun w hw base hbase post hpost => ?_⟩
  · obtain ⟨f, hf, rfl⟩ := Option.map_eq_some_iff.mp hread
    rcases hledger.made v f hf with hold | ⟨i, w, post, ⟨hi, hphase⟩, hpost⟩
    · have := (hlog.commits v).mp (Option.isSome_of_eq_some hold)
      omega
    · exact ⟨w, mem_of_getElem? hi, post, CommitRun.post?_of_phase hphase, hpost⟩
  obtain ⟨i, hi⟩ := mem_iff_getElem?.mp hw
  obtain ⟨base', s, hfollows⟩ := hwriters i w hi
  obtain rfl : base' = base := Option.some.inj (hfollows.tableData.symm.trans hbase)
  have hprogress := hfollows.progress
  rw [CommitRun.Progress, CommitRun.phase_of_post? hpost] at hprogress
  obtain ⟨hversion, hread, hremoves⟩ := hprogress
  have hblind := w.commit.currentIsBlindAppend_eq
  constructor
  case written => exact hread
  case next =>
    intro hnot
    rw [hversion, hfollows.stays (hblind.trans hnot)]
  case append =>
    intro _ v hlow hhigh
    exact hfollows.checked v hlow (hversion ▸ hhigh)
  case removes =>
    -- a blind append removes nothing, and any other commit is next to its snapshot
    intro r hr hactive
    have hnot : w.commit.currentIsBlindAppend = false := by
      by_contra hblind
      have hmem : r ∈ post.actions.filterMap Action.remove? := mem_filterMap.mpr ⟨_, hr, rfl⟩
      rw [hremoves] at hmem
      obtain ⟨a, ha, har⟩ := mem_filterMap.mp hmem
      rw [(w.commit.mem_of_blindAppend (by simpa using hblind) ha).2.2] at har
      cases har
    rw [hversion, hfollows.stays hnot, Nat.add_sub_cancel]
    exact hactive

/-- A table of one file. -/
def sharedLog : LogStore where
  commits := KeyedMap.empty.insertAll [
    ⟨0, 0, [.protocol ⟨1, 2, none, none⟩, .metadata { id := "t", schema := some [] },
      .add { path := "a", size := 1 }]⟩]

def sharedSnapshot : DeltaSnapshot where
  version := 0
  requireFiles := true
  protocol := ⟨1, 2, none, none⟩
  metadata := { id := "t", schema := some [] }
  adds := [{ path := "a", size := 1 }]
  removes := []
  appTxns := .empty
  domainMetadata := .empty
  commitTimestamps := .empty

/-- An append has no need of the files. -/
def sharedHeader : DeltaSnapshot := { sharedSnapshot with requireFiles := false, adds := [] }

/-- One writer deletes the file and another adds one; both list the log before either commits. -/
def sharedEvents : List CommitEvent :=
  [.begin ⟨.new [.remove { path := "a" }] (.delete none) [], some sharedSnapshot, 15⟩,
    .begin ⟨.new [.add { path := "b", size := 1 }] (.write none) [], some sharedHeader, 15⟩,
    .step 0 1 1, .step 1 1 1, .step 0 2 2, .step 1 2 2, .step 0 3 3, .step 1 3 3,
    .step 1 4 4, .step 1 5 5, .step 1 6 6, .step 1 7 7, .step 1 8 8]

theorem sharedLog_serializable :
    (0 < 1 ∧ sharedLog.Contiguous 0 1 ∧
      Along (step fun _ _ => .ok ()) OnTable ⟨sharedLog, []⟩ sharedEvents) ∧
    (∃ next', 1 ≤ next' ∧
      (run (step fun _ _ => .ok ()) ⟨sharedLog, []⟩ sharedEvents).store.Contiguous 0 next') ∧
    (∀ v actions, 1 ≤ v →
      (run (step fun _ _ => .ok ()) ⟨sharedLog, []⟩ sharedEvents).store.readCommitEntry v =
        some actions →
      ∃ w ∈ (run (step fun _ _ => .ok ()) ⟨sharedLog, []⟩ sharedEvents).writers, ∃ post ∈ w.post?,
        post.version = v ∧ post.actions = actions) ∧
    ∀ w ∈ (run (step fun _ _ => .ok ()) ⟨sharedLog, []⟩ sharedEvents).writers,
      ∀ base ∈ w.commit.tableData, ∀ post ∈ w.post?,
        CommitsAfter ReconciledCheckpointState.default 0
          (run (step fun _ _ => .ok ()) ⟨sharedLog, []⟩ sharedEvents).store w.commit base post :=
  have hlog : sharedLog.Contiguous 0 1 := by
    refine ⟨fun v => ?_, by decide, by decide, by decide⟩
    cases v with
    | zero => decide
    | succ v =>
      have hnone : sharedLog.commits.get? (v + 1) = none := by
        apply KeyedMap.get?_eq_none_iff.mpr
        intro f hf
        have hall : ∀ f ∈ sharedLog.commits.entries, f.version = 0 := by decide
        rw [hall f hf]
        omega
      rw [hnone]
      simp
  have hevents : Along (step fun _ _ => .ok ()) OnTable ⟨sharedLog, []⟩ sharedEvents :=
    ⟨⟨_, rfl, by decide⟩, ⟨_, rfl, by decide⟩, trivial, trivial, trivial, trivial, trivial, trivial, trivial, trivial,
      trivial, trivial, trivial, trivial⟩
  ⟨⟨by decide, hlog, hevents⟩,
    commits_serializable (fun _ _ => .ok ()) ReconciledCheckpointState.default sharedLog 0 1
      (by decide) hlog sharedEvents hevents⟩

end CommitSystem

end Zelox.Delta
