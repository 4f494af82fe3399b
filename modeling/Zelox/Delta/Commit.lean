import Zelox.Delta.Conflict
import Zelox.Lib.Lists
import Zelox.Lib.Runs

/-!
# Committing optimistically

`kernel/transaction/mod.rs`: the commit loop of `PreparedCommit::into_future` as a
machine.  Each attempt lists the log, checks the commits that came after the snapshot
that was read, moves the snapshot on, completes the actions, and tries to create the
file of the next version; if another writer was faster, it starts over.  A step does
what the source does between two accesses to the log, so any number of writers can be
interleaved over one log (`CommitSystem`), with other log files written at any time.

What holds of the log and of every writer is proved one step at a time
(`CommitSystem.Kept`).
-/

namespace Zelox.Delta

open Runs Lists List

/-! ### Actions to commit -/

def Action.isAppend : Action → Bool
  | add _ => true
  | txn _ => true
  | commitInfo _ => true
  | _ => false

/-- `CommitData::is_blind_append`: a write without a predicate that only adds files. -/
def isBlindAppend (actions : List Action) (operation : DeltaOperation) : Bool :=
  match operation with
  | .write none => actions.all Action.isAppend
  | _ => false

/-- The first action, and only it, is the commit info, which knows whether the commit is a
blind append. -/
def Normalized (actions : List Action) (operation : DeltaOperation) : Prop :=
  ∃ info rest, actions = .commitInfo info :: rest ∧
    info.isBlindAppend = some (isBlindAppend actions operation) ∧
    ∀ a ∈ rest, a.commitInfo? = none

structure CommitData where
  actions : List Action
  operation : DeltaOperation
  normalized : Normalized actions operation

namespace CommitData

/-- The actions that `CommitData::new` makes of those given. -/
def newActions (actions : List Action) (operation : DeltaOperation)
    (appTransactions : List Transaction) : List Action :=
  let info := (actions.findSome? Action.commitInfo?).getD {}
  .commitInfo { info with isBlindAppend := some (isBlindAppend actions operation) } ::
    (actions.filter (fun a => a.commitInfo?.isNone) ++ appTransactions.map .txn)

section

variable (actions : List Action) (operation : DeltaOperation) (appTransactions : List Transaction)

theorem isBlindAppend_newActions :
    isBlindAppend (newActions actions operation appTransactions) operation =
      isBlindAppend actions operation := by
  unfold isBlindAppend
  split
  · have htxns : (appTransactions.map Action.txn).all Action.isAppend = true := by
      simp [Action.isAppend]
    have hfilter : (actions.filter fun a => a.commitInfo?.isNone).all Action.isAppend =
        actions.all Action.isAppend := by
      rw [all_filter]
      congr 1
      funext a
      cases a <;> rfl
    rw [newActions, all_cons, all_append, htxns, hfilter, Bool.and_true]
    rfl
  · rfl

theorem normalized_newActions :
    Normalized (newActions actions operation appTransactions) operation := by
  refine ⟨_, _, rfl, ?_, fun a ha => ?_⟩
  · rw [isBlindAppend_newActions]
  · rcases mem_append.mp ha with ha | ha
    · simpa using (mem_filter.mp ha).2
    · obtain ⟨t, -, rfl⟩ := mem_map.mp ha
      rfl

end

def new (actions : List Action) (operation : DeltaOperation) (appTransactions : List Transaction) :
    CommitData :=
  ⟨newActions actions operation appTransactions, operation,
    normalized_newActions actions operation appTransactions⟩

end CommitData

def DeltaSnapshot.inCommitTimestampsEnabled (s : DeltaSnapshot) : Bool :=
  s.protocol.isInCommitTimestampsEnabled s.metadata.configuration

/-- The timestamp that the next commit has to come after. -/
def LogStore.previousEffectiveCommitTimestamp (store : LogStore) (snapshot : Option DeltaSnapshot) :
    DeltaResult (Option Int64) :=
  match snapshot with
  | none => .ok none
  | some s => (store.resolveVersionTimestamp s.version (s.versionTimestamp s.version) s.protocol
      s.metadata).map some

def updateFirstMetadata (f : Metadata → Metadata) : List Action → List Action
  | [] => []
  | .metadata m :: as => .metadata (f m) :: as
  | a :: as => a :: updateFirstMetadata f as

theorem filterMap_updateFirstMetadata {β : Type} {g : Action → Option β}
    (hm : ∀ m, g (.metadata m) = none) (f : Metadata → Metadata) (as : List Action) :
    (updateFirstMetadata f as).filterMap g = as.filterMap g := by
  induction as with
  | nil => rfl
  | cons a as ih =>
    cases a with
    | metadata m => simp [updateFirstMetadata, hm]
    | _ => simp [updateFirstMetadata, filterMap_cons, ih]

def nextInCommitTimestamp (previousCommitTimestamp : Option Int64) (nowMs : Int64) : Int64 :=
  max nowMs (previousCommitTimestamp.elim nowMs fun t => t.saturatingAdd 1)

/-- Whether the table has in-commit timestamps once the actions are committed. -/
def enablesInCommitTimestamps (readSnapshot : Option DeltaSnapshot) (actions : List Action) : Bool :=
  (resolveEffectiveProtocolAndMetadata (readSnapshot.map DeltaSnapshot.protocol)
    (readSnapshot.map DeltaSnapshot.metadata) actions).any
      fun pm => pm.1.isInCommitTimestampsEnabled pm.2.configuration

/-- `finalize_attempt_actions`.  The commit info comes first; the source takes anything else to
be impossible. -/
def finalizeAttemptActions (baseActions : List Action) (readSnapshot : Option DeltaSnapshot)
    (version : Nat) (previousCommitTimestamp : Option Int64) (nowMs : Int64) : List Action :=
  match baseActions with
  | .commitInfo info :: rest =>
    if enablesInCommitTimestamps readSnapshot baseActions then
      let timestamp := nextInCommitTimestamp previousCommitTimestamp nowMs
      let info := { info with timestamp := some nowMs, inCommitTimestamp := some timestamp }
      if readSnapshot.any fun s => !s.inCommitTimestampsEnabled then
        .commitInfo info :: updateFirstMetadata (fun m => { m with configuration :=
          { m.configuration with
            inCommitTimestampEnablementVersion := some version
            inCommitTimestampEnablementTimestamp := some timestamp } }) rest
      else .commitInfo info :: rest
    else .commitInfo { info with timestamp := some nowMs, inCommitTimestamp := none } :: rest
  | actions => actions

/-- Completing the actions changes the commit info and metadata only. -/
theorem filterMap_finalizeAttemptActions {β : Type} {g : Action → Option β}
    (hi : ∀ info, g (.commitInfo info) = none) (hm : ∀ m, g (.metadata m) = none)
    (as : List Action) (s : Option DeltaSnapshot) (version : Nat) (previous : Option Int64)
    (nowMs : Int64) :
    (finalizeAttemptActions as s version previous nowMs).filterMap g = as.filterMap g := by
  unfold finalizeAttemptActions
  split
  next info rest =>
    split
    · dsimp only
      split
      · simp [hi, filterMap_updateFirstMetadata hm]
      · simp [hi]
    · simp [hi]
  · rfl

/-! ### One writer -/

structure PreparedCommit where
  data : CommitData
  /-- The snapshot that was read; none if the table is to be created. -/
  tableData : Option DeltaSnapshot
  maxRetries : Nat

namespace PreparedCommit

variable (c : PreparedCommit)

def creationIntent : Bool := c.tableData.isNone

def creationProtocol : Option Protocol := c.data.actions.findSome? Action.protocol?

def creationMetadata : Option Metadata := c.data.actions.findSome? Action.metadata?

def currentIsBlindAppend : Bool :=
  (c.data.actions.findSome? fun a => a.commitInfo?.bind CommitInfo.isBlindAppend).getD false

/-- Only creations and blind appends are tried again. -/
def effectiveMaxRetries : Nat :=
  if c.creationIntent || c.currentIsBlindAppend then c.maxRetries else 0

theorem currentIsBlindAppend_eq :
    c.currentIsBlindAppend = isBlindAppend c.data.actions c.data.operation := by
  obtain ⟨info, rest, hactions, hinfo, -⟩ := c.data.normalized
  unfold currentIsBlindAppend
  rw [hactions] at hinfo ⊢
  simp [Action.commitInfo?, hinfo]

theorem mem_of_blindAppend (h : c.currentIsBlindAppend) {a : Action} (ha : a ∈ c.data.actions) :
    a.protocol? = none ∧ a.metadata? = none ∧ a.remove? = none := by
  rw [currentIsBlindAppend_eq] at h
  unfold isBlindAppend at h
  split at h
  · have hall := all_eq_true.mp h a ha
    cases a <;> first | exact ⟨rfl, rfl, rfl⟩ | cases hall
  · cases h

end PreparedCommit

inductive TransactionError where
  | commitConflict (error : CommitConflictError)
  | maxCommitAttempts (attempts : Nat)
  | delta (message : String)
deriving DecidableEq, Repr

/-- Where a writer is in its loop. -/
inductive CommitPhase where
  | listing
  | loading (latestVersion : Nat)
  | checking (latestVersion version : Nat)
  | refreshing (latestVersion : Nat)
  | finalizing (version : Nat)
  | putting (version : Nat) (actions : List Action)
  | committed (post : PostCommit)
  | failed (error : TransactionError)

/-- A commit under way, with the variables of the loop. -/
structure CommitRun where
  commit : PreparedCommit
  localActions : List Action
  readSnapshot : Option DeltaSnapshot
  creationActionsStripped : Bool
  /-- Attempts begun. -/
  attempts : Nat
  phase : CommitPhase

def PreparedCommit.start (c : PreparedCommit) : CommitRun where
  commit := c
  localActions := c.data.actions
  readSnapshot := c.tableData
  creationActionsStripped := false
  attempts := 0
  phase := .listing

def LogStore.getLatestVersion (store : LogStore) (startVersion : Int) : Option Nat :=
  store.latestVersionFromListing.filter fun version => max startVersion 0 ≤ version

namespace CommitRun

variable (w : CommitRun)

def fail (error : TransactionError) : CommitRun := { w with phase := .failed error }

/-- Why a creation cannot go on over a table that exists by now. -/
def creationConflict (snapshot : DeltaSnapshot) : Option CommitConflictError :=
  if !w.commit.creationIntent then none
  else if w.commit.creationProtocol.any fun p => p ≠ snapshot.protocol then
    some (.protocolChanged "protocol changed")
  else if w.commit.creationMetadata.all fun m =>
      (m.schema.isSome && m.schema = snapshot.metadata.schema) &&
        m.partitionColumns = snapshot.metadata.partitionColumns &&
        m.configuration = snapshot.metadata.configuration then none
  else some .metadataChanged

def isCreationAction (a : Action) : Bool := a.protocol?.isSome || a.metadata?.isSome

/-- A creation over a table that exists goes on as an append. -/
def stripCreationActions : CommitRun :=
  if w.commit.creationIntent && !w.creationActionsStripped &&
      w.localActions.any isCreationAction then
    { w with
      localActions := (w.localActions.filter fun a => !isCreationAction a).map fun
        | .commitInfo info => .commitInfo { info with isBlindAppend := some true }
        | a => a
      creationActionsStripped := true }
  else w

/-- The table exists: a creation turns into an append, and unknown commits are checked. -/
def meet (snapshot : DeltaSnapshot) (latestVersion : Nat) : CommitRun :=
  match w.creationConflict snapshot with
  | some error => w.fail (.commitConflict error)
  | none =>
    let w := w.stripCreationActions
    if snapshot.version < latestVersion then
      if w.commit.effectiveMaxRetries = 0 then w.fail (.maxCommitAttempts 0)
      else { w with phase := .checking latestVersion (snapshot.version + 1) }
    else { w with phase := .finalizing (latestVersion + 1) }

/-- The top of the loop. -/
def list (store : LogStore) : CommitRun :=
  if w.commit.effectiveMaxRetries < w.attempts then
    w.fail (.maxCommitAttempts w.commit.effectiveMaxRetries)
  else
    let w := { w with attempts := w.attempts + 1 }
    match store.getLatestVersion (w.readSnapshot.elim (-1) fun s => s.version), w.readSnapshot with
    | none, _ => { w with phase := .finalizing 0 }
    | some latestVersion, none => { w with phase := .loading latestVersion }
    | some latestVersion, some snapshot => w.meet snapshot latestVersion

def load (store : LogStore) (latestVersion : Nat) : CommitRun :=
  match DeltaSnapshot.tryNew store true latestVersion none with
  | .error e => w.fail (.delta e)
  | .ok snapshot => { w with readSnapshot := some snapshot }.meet snapshot latestVersion

/-- One round of the conflict checks. -/
def check (store : LogStore) (latestVersion version : Nat) : CommitRun :=
  match w.readSnapshot, store.readCommitEntry version with
  | none, _ => w
  | some _, none => w.fail (.delta "No table version found.")
  | some snapshot, some winning =>
    match (ConflictChecker.new
        ⟨w.localActions, snapshot, w.commit.data.operation.readWholeTable⟩ (.new winning)
        w.commit.data.operation).checkConflicts with
    | .error e => w.fail (.commitConflict e)
    | .ok () =>
      if version < latestVersion then { w with phase := .checking latestVersion (version + 1) }
      else { w with phase := .refreshing latestVersion }

def refresh (store : LogStore) (latestVersion : Nat) : CommitRun :=
  match w.readSnapshot with
  | none => w
  | some snapshot =>
    match snapshot.update store latestVersion with
    | .error e => w.fail (.delta e)
    | .ok snapshot =>
      { w with readSnapshot := some snapshot, phase := .finalizing (latestVersion + 1) }

/-- `validate_effective_commit_target`; nothing depends on what it refuses. -/
abbrev Validation := Option DeltaSnapshot → List Action → DeltaResult Unit

def finalize (validate : Validation) (store : LogStore) (version : Nat) (nowMs : Int64) :
    CommitRun :=
  match store.previousEffectiveCommitTimestamp w.readSnapshot with
  | .error e => w.fail (.delta e)
  | .ok previousCommitTimestamp =>
    let actions := finalizeAttemptActions w.localActions w.readSnapshot version
      previousCommitTimestamp nowMs
    match validate w.readSnapshot actions with
    | .error e => w.fail (.delta e)
    | .ok () => { w with phase := .putting version actions }

/-- `write_commit_entry`: the file is created only if there is none. -/
def put (store : LogStore) (version : Nat) (actions : List Action) (modified : Int64) :
    CommitRun × LogStore :=
  match store.commits.get? version with
  | some _ => ({ w with phase := .listing }, store)
  | none =>
    ({ w with phase := .committed ⟨version, actions, w.readSnapshot⟩ },
      { store with commits := store.commits.insert ⟨version, modified, actions⟩ })

/-- What the writer does up to its next access to the log; `nowMs` and `modified` are the clocks. -/
def step (validate : Validation) (store : LogStore) (nowMs modified : Int64) :
    CommitRun × LogStore :=
  match w.phase with
  | .listing => (w.list store, store)
  | .loading latestVersion => (w.load store latestVersion, store)
  | .checking latestVersion version => (w.check store latestVersion version, store)
  | .refreshing latestVersion => (w.refresh store latestVersion, store)
  | .finalizing version => (w.finalize validate store version nowMs, store)
  | .putting version actions => w.put store version actions modified
  | .committed _ => (w, store)
  | .failed _ => (w, store)

/-- An access to the log fails. -/
def abort (error : String) : CommitRun :=
  match w.phase with
  | .committed _ => w
  | .failed _ => w
  | _ => w.fail (.delta error)

/-- The commit that a writer has made. -/
def post? : Option PostCommit :=
  match w.phase with
  | .committed post => some post
  | _ => none

variable {w} in
theorem post?_of_phase {post : PostCommit} (h : w.phase = .committed post) : post ∈ w.post? := by
  unfold post?
  rw [h]
  rfl

variable {w} in
theorem phase_of_post? {post : PostCommit} (h : post ∈ w.post?) : w.phase = .committed post := by
  unfold post? at h
  split at h
  next heq =>
    cases h
    exact heq
  next => cases h

end CommitRun

/-! ### The log under the writers -/

namespace LogStore

/-- The log has come to `version`. -/
def Known (store : LogStore) (version : Nat) : Prop :=
  ∃ f ∈ store.commits.entries, version ≤ f.version

instance (store : LogStore) (version : Nat) : Decidable (store.Known version) :=
  inferInstanceAs (Decidable (∃ f ∈ store.commits.entries, version ≤ f.version))

/-- The commits are those from `first` up to `next`, and no other file speaks of a later version. -/
structure Contiguous (store : LogStore) (first next : Nat) : Prop where
  commits : ∀ v, (store.commits.get? v).isSome ↔ first ≤ v ∧ v < next
  checkpoints : ∀ f ∈ store.checkpoints.entries, f.version < next
  compactions : ∀ f ∈ store.compactions.entries, f.endVersion < next
  hint : ∀ h ∈ store.lastCheckpoint, h < next

/-- Every commit of `store` is one of `store'`. -/
def Extends (store store' : LogStore) : Prop :=
  ∀ v f, store.commits.get? v = some f → store'.commits.get? v = some f

variable {store store' : LogStore} {first next version : Nat}

theorem Extends.readCommitEntry (h : store.Extends store') {actions : List Action}
    (hv : store.readCommitEntry version = some actions) :
    store'.readCommitEntry version = some actions := by
  obtain ⟨f, hf, rfl⟩ := Option.map_eq_some_iff.mp hv
  exact Option.map_eq_some_iff.mpr ⟨f, h version f hf, rfl⟩

theorem Extends.isSome (h : store.Extends store') (hv : (store.commits.get? version).isSome) :
    (store'.commits.get? version).isSome := by
  obtain ⟨f, hf⟩ := Option.isSome_iff_exists.mp hv
  exact Option.isSome_of_eq_some (h version f hf)

theorem Extends.known (h : store.Extends store') (hv : store.Known version) :
    store'.Known version := by
  obtain ⟨f, hf, hle⟩ := hv
  exact ⟨f, KeyedMap.mem_of_get? (h f.version f (KeyedMap.mem_entries_iff.mp hf)), hle⟩

theorem known_of_isSome (hv : (store.commits.get? version).isSome) : store.Known version := by
  obtain ⟨f, hf⟩ := Option.isSome_iff_exists.mp hv
  exact ⟨f, KeyedMap.mem_of_get? hf, (KeyedMap.key_of_get? hf).ge⟩

namespace Contiguous

section

variable (h : store.Contiguous first next)
include h

theorem mem {f : CommitFile} (hf : f ∈ store.commits.entries) :
    first ≤ f.version ∧ f.version < next :=
  (h.commits f.version).mp (Option.isSome_of_eq_some (KeyedMap.mem_entries_iff.mp hf))

theorem lt_of_known (hv : store.Known version) :
    version < next := by
  obtain ⟨f, hf, hle⟩ := hv
  exact lt_of_le_of_lt hle (h.mem hf).2

theorem latestVersionFromListing_eq (hlt : first < next) :
    store.latestVersionFromListing = some (next - 1) := by
  have hlast : (store.commits.get? (next - 1)).isSome := (h.commits _).mpr (by omega)
  obtain ⟨f, hf⟩ := Option.isSome_iff_exists.mp hlast
  have hversion : f.version = next - 1 := KeyedMap.key_of_get? hf
  unfold latestVersionFromListing
  rw [max?_eq_some_iff]
  simp only [listFrom, mem_append, mem_map, mem_filter]
  constructor
  · -- the commit is listed: the hint is not beyond it
    refine .inl (.inl ⟨f, ⟨KeyedMap.mem_of_get? hf, ?_⟩, hversion⟩)
    cases hhint : store.lastCheckpoint with
    | none => simp
    | some hint =>
      have := h.hint hint hhint
      simp only [decide_eq_true_eq]
      omega
  · rintro v ((⟨g, ⟨hg, -⟩, rfl⟩ | ⟨g, ⟨hg, -⟩, rfl⟩) | ⟨g, ⟨hg, -⟩, rfl⟩)
    · have := (h.mem hg).2
      omega
    · have := h.checkpoints g hg
      omega
    · have := h.compactions g hg
      omega

theorem put (hle : first ≤ next) (modified : Int64)
    (actions : List Action) :
    { store with commits := store.commits.insert ⟨next, modified, actions⟩ }.Contiguous first
      (next + 1) where
  commits v := by
    rw [KeyedMap.get?_insert]
    split
    next hv =>
      subst hv
      simpa using hle
    next hv =>
      have hv : v ≠ next := hv
      rw [h.commits v]
      omega
  checkpoints f hf := Nat.lt_succ_of_lt (h.checkpoints f hf)
  compactions f hf := Nat.lt_succ_of_lt (h.compactions f hf)
  hint v hv := Nat.lt_succ_of_lt (h.hint v hv)

end

end Contiguous

/-- The files of `store` other than commits speak of versions that `log` has come to. -/
structure SpeaksOf (store log : LogStore) : Prop where
  checkpoints : ∀ f ∈ store.checkpoints.entries, log.Known f.version
  compactions : ∀ f ∈ store.compactions.entries, log.Known f.endVersion
  hint : ∀ h ∈ store.lastCheckpoint, log.Known h

theorem Contiguous.files (h : store.Contiguous first next) {files : LogStore}
    (hfiles : files.SpeaksOf store) :
    { files with commits := store.commits }.Contiguous first next where
  commits := h.commits
  checkpoints f hf := h.lt_of_known (hfiles.checkpoints f hf)
  compactions f hf := h.lt_of_known (hfiles.compactions f hf)
  hint v hv := h.lt_of_known (hfiles.hint v hv)

end LogStore

theorem LogStore.extends_insert {store : LogStore} {file : CommitFile}
    (h : store.commits.get? file.version = none) :
    store.Extends { store with commits := store.commits.insert file } := by
  intro v f hf
  show (store.commits.insert file).get? v = some f
  rw [KeyedMap.get?_insert, if_neg]
  · exact hf
  · rintro rfl
    rw [h] at hf
    cases hf

namespace CommitRun

variable {w : CommitRun}

/-- The commit has not been made. -/
def Open (w : CommitRun) : Prop := ∀ post, w.phase ≠ .committed post

theorem open_of_phase {phase : CommitPhase} (h : w.phase = phase)
    (hphase : ∀ post, phase ≠ .committed post) : w.Open :=
  fun post heq => hphase post (h.symm.trans heq)

theorem open_fail (w : CommitRun) (error : TransactionError) : (w.fail error).Open := by
  intro post h
  cases h

theorem open_meet (w : CommitRun) (snapshot : DeltaSnapshot) (latestVersion : Nat) :
    (w.meet snapshot latestVersion).Open := by
  unfold meet
  split
  · exact open_fail _ _
  · dsimp only
    split
    · split
      · exact open_fail _ _
      · exact open_of_phase rfl (by simp)
    · exact open_of_phase rfl (by simp)

theorem open_list (w : CommitRun) (store : LogStore) : (w.list store).Open := by
  unfold list
  split
  · exact open_fail _ _
  · dsimp only
    split
    · exact open_of_phase rfl (by simp)
    · exact open_of_phase rfl (by simp)
    · exact open_meet _ _ _

theorem open_load (w : CommitRun) (store : LogStore) (latestVersion : Nat) :
    (w.load store latestVersion).Open := by
  unfold load
  split
  · exact open_fail _ _
  · exact open_meet _ _ _

theorem open_check (h : w.Open) (store : LogStore) (latestVersion version : Nat) :
    (w.check store latestVersion version).Open := by
  unfold check
  split
  · exact h
  · exact open_fail _ _
  · split
    · exact open_fail _ _
    · split
      · exact open_of_phase rfl (by simp)
      · exact open_of_phase rfl (by simp)

theorem open_refresh (h : w.Open) (store : LogStore) (latestVersion : Nat) :
    (w.refresh store latestVersion).Open := by
  unfold refresh
  split
  · exact h
  · split
    · exact open_fail _ _
    · exact open_of_phase rfl (by simp)

section

variable (w : CommitRun) (validate : Validation) (store : LogStore)

theorem open_finalize (version : Nat)
    (nowMs : Int64) : (w.finalize validate store version nowMs).Open := by
  unfold finalize
  split
  · exact open_fail _ _
  · dsimp only
    split
    · exact open_fail _ _
    · exact open_of_phase rfl (by simp)

/-- A step changes nothing, goes on with an open commit, or makes the commit where there was none.
-/
theorem step_cases (nowMs modified : Int64) :
    w.step validate store nowMs modified = (w, store) ∨
    w.Open ∧ (w.step validate store nowMs modified).1.Open ∧
      (w.step validate store nowMs modified).2 = store ∨
    ∃ version actions, w.phase = .putting version actions ∧
      store.commits.get? version = none ∧
      w.step validate store nowMs modified =
        ({ w with phase := .committed ⟨version, actions, w.readSnapshot⟩ },
          { store with commits := store.commits.insert ⟨version, modified, actions⟩ }) := by
  unfold step
  split
  next hphase => exact .inr (.inl ⟨open_of_phase hphase (by simp), open_list _ _, rfl⟩)
  next hphase => exact .inr (.inl ⟨open_of_phase hphase (by simp), open_load _ _ _, rfl⟩)
  next hphase =>
    have hopen := open_of_phase hphase (by simp)
    exact .inr (.inl ⟨hopen, open_check hopen _ _ _, rfl⟩)
  next hphase =>
    have hopen := open_of_phase hphase (by simp)
    exact .inr (.inl ⟨hopen, open_refresh hopen _ _, rfl⟩)
  next hphase => exact .inr (.inl ⟨open_of_phase hphase (by simp), open_finalize _ _ _ _ _, rfl⟩)
  next version actions hphase =>
    unfold put
    cases hget : store.commits.get? version with
    | some f =>
      exact .inr (.inl ⟨open_of_phase hphase (by simp), open_of_phase rfl (by simp), rfl⟩)
    | none => exact .inr (.inr ⟨version, actions, hphase, hget, rfl⟩)
  · exact .inl rfl
  · exact .inl rfl

theorem extends_step
    (nowMs modified : Int64) : store.Extends (w.step validate store nowMs modified).2 := by
  rcases w.step_cases validate store nowMs modified with
    heq | ⟨-, -, heq⟩ | ⟨version, actions, -, hnone, heq⟩
  · rw [heq]
    exact fun _ _ h => h
  · rw [heq]
    exact fun _ _ h => h
  · rw [heq]
    exact LogStore.extends_insert hnone

end

theorem abort_cases (w : CommitRun) (error : String) :
    w.abort error = w ∨ w.Open ∧ (w.abort error).Open := by
  unfold abort
  split
  · exact .inl rfl
  · exact .inl rfl
  next hcommitted _ => exact .inr ⟨hcommitted, open_fail _ _⟩

end CommitRun

/-! ### Many writers -/

structure CommitSystem where
  store : LogStore
  writers : List CommitRun

inductive CommitEvent where
  | begin (commit : PreparedCommit)
  | step (index : Nat) (nowMs modified : Int64)
  | abort (index : Nat) (error : String)
  /-- Checkpoints, checksums and compactions are written. -/
  | files (store : LogStore)

namespace CommitSystem

def step (validate : CommitRun.Validation) (s : CommitSystem) : CommitEvent → CommitSystem
  | .begin commit => { s with writers := s.writers ++ [commit.start] }
  | .step index nowMs modified =>
    match s.writers[index]? with
    | none => s
    | some w =>
      let (w, store) := w.step validate s.store nowMs modified
      ⟨store, s.writers.set index w⟩
  | .abort index error =>
    match s.writers[index]? with
    | none => s
    | some w => { s with writers := s.writers.set index (w.abort error) }
  | .files store => { s with store := { store with commits := s.store.commits } }

variable {validate : CommitRun.Validation} {log : LogStore} {s : CommitSystem}

/-! ### What one step does to the system -/

/-- The writers after an event: one of them has made a step or been stopped, or a new one has
begun. -/
theorem step_cases (validate : CommitRun.Validation) (s : CommitSystem) (e : CommitEvent) :
    (∃ commit, e = .begin commit ∧
      s.step validate e = ⟨s.store, s.writers ++ [commit.start]⟩) ∨
    (∃ i nowMs modified w, e = .step i nowMs modified ∧ s.writers[i]? = some w ∧
      s.step validate e = ⟨(w.step validate s.store nowMs modified).2,
        s.writers.set i (w.step validate s.store nowMs modified).1⟩) ∨
    (∃ i error w, e = .abort i error ∧ s.writers[i]? = some w ∧
      s.step validate e = ⟨s.store, s.writers.set i (w.abort error)⟩) ∨
    (∃ files, e = .files files ∧
      s.step validate e = ⟨{ files with commits := s.store.commits }, s.writers⟩) ∨
    s.step validate e = s := by
  cases e with
  | begin commit => exact .inl ⟨commit, rfl, rfl⟩
  | step i nowMs modified =>
    cases hw : s.writers[i]? with
    | none => exact .inr (.inr (.inr (.inr (by simp only [step, hw]))))
    | some w => exact .inr (.inl ⟨i, nowMs, modified, w, rfl, hw, by simp only [step, hw]⟩)
  | abort i error =>
    cases hw : s.writers[i]? with
    | none => exact .inr (.inr (.inr (.inr (by simp only [step, hw]))))
    | some w => exact .inr (.inr (.inl ⟨i, error, w, rfl, hw, by simp only [step, hw]⟩))
  | files files => exact .inr (.inr (.inr (.inl ⟨files, rfl, rfl⟩)))

/-- `L` holds of the log and `W` of every writer, and events that satisfy `C` keep it so. -/
structure Kept (validate : CommitRun.Validation) (L : LogStore → Prop)
    (W : LogStore → Nat → CommitRun → Prop) (C : CommitSystem → CommitEvent → Prop) : Prop where
  begin : ∀ s commit, C s (.begin commit) → L s.store →
    W s.store s.writers.length commit.start
  step : ∀ s i nowMs modified w, C s (.step i nowMs modified) →
    s.writers[i]? = some w → L s.store → W s.store i w →
    L (w.step validate s.store nowMs modified).2 ∧
      W (w.step validate s.store nowMs modified).2 i (w.step validate s.store nowMs modified).1
  /-- A step of one writer as the others see it. -/
  other : ∀ store nowMs modified i w j w', L store → W store i w → W store j w' →
    W (w.step validate store nowMs modified).2 j w'
  abort : ∀ store i w error, W store i w → W store i (w.abort error)
  files : ∀ s files, C s (.files files) → L s.store →
    L { files with commits := s.store.commits } ∧
      ∀ i w, W s.store i w → W { files with commits := s.store.commits } i w

theorem Kept.run {L : LogStore → Prop} {W : LogStore → Nat → CommitRun → Prop}
    {C : CommitSystem → CommitEvent → Prop} (h : Kept validate L W C)
    {events : List CommitEvent} (hc : Along (CommitSystem.step validate) C s events)
    (hs : L s.store ∧ ∀ i w, s.writers[i]? = some w → W s.store i w) :
    L (Runs.run (CommitSystem.step validate) s events).store ∧
      ∀ i w, (Runs.run (CommitSystem.step validate) s events).writers[i]? = some w →
        W (Runs.run (CommitSystem.step validate) s events).store i w := by
  refine along_inv (CommitSystem.step validate) C
    (fun s => L s.store ∧ ∀ i w, s.writers[i]? = some w → W s.store i w) ?_ s events hc hs
  rintro s e hc ⟨hl, hw⟩
  rcases s.step_cases validate e with ⟨commit, rfl, heq⟩ | ⟨i, nowMs, modified, w, rfl, hget, heq⟩ |
    ⟨i, error, w, rfl, hget, heq⟩ | ⟨files, rfl, heq⟩ | heq
  · rw [heq]
    refine ⟨hl, fun j w hj => ?_⟩
    rcases getElem?_concat_eq_some hj with hj | ⟨rfl, rfl⟩
    · exact hw j w hj
    · exact h.begin s commit hc hl
  · rw [heq]
    have hww := hw i w hget
    obtain ⟨hl', hw'⟩ := h.step s i nowMs modified w hc hget hl hww
    refine ⟨hl', fun j w' hj => ?_⟩
    rcases getElem?_set_eq_some hj with ⟨rfl, rfl⟩ | ⟨-, hj⟩
    · exact hw'
    · exact h.other s.store nowMs modified i w j w' hl hww (hw j w' hj)
  · rw [heq]
    refine ⟨hl, fun j w' hj => ?_⟩
    rcases getElem?_set_eq_some hj with ⟨rfl, rfl⟩ | ⟨-, hj⟩
    · exact h.abort s.store j w error (hw j w hget)
    · exact hw j w' hj
  · rw [heq]
    obtain ⟨hl', hw'⟩ := h.files s files hc hl
    exact ⟨hl', fun j w hj => hw' j w (hw j w hj)⟩
  · rw [heq]
    exact ⟨hl, hw⟩

/-! ### Commits and writers -/

/-- The writer at an index has made a commit. -/
def Committed (s : CommitSystem) (i : Nat) (w : CommitRun) (post : PostCommit) : Prop :=
  s.writers[i]? = some w ∧ w.phase = .committed post

/-- The commits that are not of `log` are the writers', each of one of them and as it says. -/
structure Ledger (log : LogStore) (s : CommitSystem) : Prop where
  written : ∀ i w post, s.Committed i w post →
    s.store.readCommitEntry post.version = some post.actions
  made : ∀ v f, s.store.commits.get? v = some f → log.commits.get? v = some f ∨
    ∃ i w post, s.Committed i w post ∧ post.version = v ∧ post.actions = f.actions
  once : ∀ i j w w' post post', s.Committed i w post → s.Committed j w' post' →
    post.version = post'.version → i = j

theorem Ledger.congr {s' : CommitSystem} (h : Ledger log s)
    (hcommits : s'.store.commits = s.store.commits)
    (hwriters : ∀ i w post, s'.Committed i w post ↔ s.Committed i w post) : Ledger log s' := by
  constructor
  case written =>
    intro i w post hi
    rw [LogStore.readCommitEntry, hcommits]
    exact h.written i w post ((hwriters i w post).mp hi)
  case made =>
    intro v f hf
    rw [hcommits] at hf
    refine (h.made v f hf).imp_right ?_
    rintro ⟨i, w, post, hi, hpost⟩
    exact ⟨i, w, post, (hwriters i w post).mpr hi, hpost⟩
  case once =>
    intro i j w w' post post' hi hj
    exact h.once i j w w' post post' ((hwriters i w post).mp hi) ((hwriters j w' post').mp hj)

theorem committed_set {i : Nat} {w w' : CommitRun} (hget : s.writers[i]? = some w)
    (hw : w.Open) (hw' : w'.Open) (store : LogStore) (j : Nat) (v : CommitRun) (post : PostCommit) :
    (⟨store, s.writers.set i w'⟩ : CommitSystem).Committed j v post ↔ s.Committed j v post := by
  constructor
  · rintro ⟨hj, hphase⟩
    rcases getElem?_set_eq_some hj with ⟨rfl, rfl⟩ | ⟨-, hj⟩
    · exact absurd hphase (hw' post)
    · exact ⟨hj, hphase⟩
  · rintro ⟨hj, hphase⟩
    have hne : i ≠ j := by
      rintro rfl
      rw [hget] at hj
      cases hj
      exact hw post hphase
    exact ⟨(getElem?_set_ne hne).trans hj, hphase⟩

theorem Ledger.put (h : Ledger log s) {i version : Nat} {w : CommitRun} {actions : List Action}
    (hget : s.writers[i]? = some w) (hopen : w.Open)
    (hnone : s.store.commits.get? version = none) (modified : Int64) :
    Ledger log ⟨{ s.store with commits := s.store.commits.insert ⟨version, modified, actions⟩ },
      s.writers.set i { w with phase := .committed ⟨version, actions, w.readSnapshot⟩ }⟩ := by
  have hlt : i < s.writers.length := (List.getElem?_eq_some_iff.mp hget).1
  have hext : s.store.Extends { s.store with
      commits := s.store.commits.insert ⟨version, modified, actions⟩ } :=
    LogStore.extends_insert hnone
  -- a writer that has committed is this one or has committed another version before
  have hcases : ∀ j w' post, (⟨{ s.store with
        commits := s.store.commits.insert ⟨version, modified, actions⟩ },
        s.writers.set i { w with phase := .committed ⟨version, actions, w.readSnapshot⟩ }⟩ :
        CommitSystem).Committed j w' post →
      j = i ∧ post = ⟨version, actions, w.readSnapshot⟩ ∨
        j ≠ i ∧ s.Committed j w' post ∧ post.version ≠ version := by
    rintro j w' post ⟨hj, hphase⟩
    rcases getElem?_set_eq_some hj with ⟨rfl, rfl⟩ | ⟨hne, hold⟩
    · cases hphase
      exact .inl ⟨rfl, rfl⟩
    · refine .inr ⟨hne, ⟨hold, hphase⟩, ?_⟩
      rintro rfl
      have hread := h.written j w' post ⟨hold, hphase⟩
      rw [LogStore.readCommitEntry, hnone] at hread
      cases hread
  constructor
  case written =>
    intro j w' post hj
    rcases hcases j w' post hj with ⟨-, rfl⟩ | ⟨-, hj, -⟩
    · simp [LogStore.readCommitEntry]
    · exact hext.readCommitEntry (h.written j w' post hj)
  case made =>
    intro v f hf
    rw [KeyedMap.get?_insert] at hf
    split at hf
    next hv =>
      subst hv
      cases hf
      exact .inr ⟨i, _, _, ⟨getElem?_set_self hlt, rfl⟩, rfl, rfl⟩
    next =>
      refine (h.made v f hf).imp_right ?_
      rintro ⟨j, w', post, ⟨hj, hphase⟩, hpost⟩
      have hne : i ≠ j := by
        rintro rfl
        rw [hget] at hj
        cases hj
        exact hopen post hphase
      exact ⟨j, w', post, ⟨(getElem?_set_ne hne).trans hj, hphase⟩, hpost⟩
  case once =>
    intro j k w' w'' post post' hj hk heq
    rcases hcases j w' post hj with ⟨rfl, rfl⟩ | ⟨-, hj, hvj⟩ <;>
      rcases hcases k w'' post' hk with ⟨rfl, rfl⟩ | ⟨-, hk, hvk⟩
    · rfl
    · exact absurd heq.symm hvk
    · exact absurd heq hvj
    · exact h.once j k w' w'' post post' hj hk heq

theorem Ledger.step (h : Ledger log s) (e : CommitEvent) : Ledger log (s.step validate e) := by
  rcases s.step_cases validate e with ⟨commit, rfl, heq⟩ | ⟨i, nowMs, modified, w, rfl, hget, heq⟩ |
    ⟨i, error, w, rfl, hget, heq⟩ | ⟨files, rfl, heq⟩ | heq
  · rw [heq]
    refine h.congr rfl fun i w post => ⟨?_, ?_⟩
    · rintro ⟨hi, hphase⟩
      rcases getElem?_concat_eq_some hi with hi | ⟨-, rfl⟩
      · exact ⟨hi, hphase⟩
      · cases hphase
    · rintro ⟨hi, hphase⟩
      refine ⟨?_, hphase⟩
      rw [getElem?_append_left (List.getElem?_eq_some_iff.mp hi).1]
      exact hi
  · rw [heq]
    rcases w.step_cases validate s.store nowMs modified with
      hstep | ⟨hopen, hopen', hstep⟩ | ⟨version, actions, hphase, hnone, hstep⟩
    · rw [hstep, set_of_getElem? hget]
      exact h
    · rw [hstep]
      exact h.congr rfl (committed_set hget hopen hopen' s.store)
    · rw [hstep]
      exact h.put hget (CommitRun.open_of_phase hphase (by simp)) hnone modified
  · rw [heq]
    rcases w.abort_cases error with habort | ⟨hopen, hopen'⟩
    · rw [habort, set_of_getElem? hget]
      exact h
    · exact h.congr rfl (committed_set hget hopen hopen' s.store)
  · rw [heq]
    exact h.congr rfl fun _ _ _ => Iff.rfl
  · rw [heq]
    exact h

/-- No commit is lost, made twice, or made by no one. -/
theorem Ledger.run (h : Ledger log s) (validate : CommitRun.Validation)
    (events : List CommitEvent) :
    Ledger log (Runs.run (CommitSystem.step validate) s events) :=
  run_inv (CommitSystem.step validate) (Ledger log) (fun _ e h => h.step e) s events h

theorem ledger_start (log : LogStore) (commits : List PreparedCommit) :
    Ledger log ⟨log, commits.map PreparedCommit.start⟩ := by
  have hnone : ∀ i w post,
      ¬ (⟨log, commits.map PreparedCommit.start⟩ : CommitSystem).Committed i w post := by
    rintro i w post ⟨hi, hphase⟩
    rw [getElem?_map] at hi
    obtain ⟨c, -, rfl⟩ := Option.map_eq_some_iff.mp hi
    cases hphase
  exact ⟨fun i w post h => absurd h (hnone i w post), fun v f hf => .inl hf,
    fun i j w w' post post' h => absurd h (hnone i w post)⟩

end CommitSystem

end Zelox.Delta
