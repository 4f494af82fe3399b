import Zelox.Delta.Snapshot

/-!
# Conflicts with commits that came between

`conflict_checker.rs`: whether a transaction that read one version of the table may be
committed after a later commit, the winning one.  A transaction that changes neither
protocol nor metadata passes only if the winning commit does not change them either
and updates none of the application transactions it writes (`checkConflicts_ok`).
-/

namespace Zelox.Delta

open Results List

namespace Action

def protocol? : Action → Option Protocol
  | protocol p => some p
  | _ => none

def metadata? : Action → Option Metadata
  | metadata m => some m
  | _ => none

def add? : Action → Option Add
  | add a => some a
  | _ => none

def remove? : Action → Option Remove
  | remove r => some r
  | _ => none

def txn? : Action → Option Transaction
  | txn t => some t
  | _ => none

def domainMetadata? : Action → Option DomainMetadata
  | domainMetadata d => some d
  | _ => none

def commitInfo? : Action → Option CommitInfo
  | commitInfo info => some info
  | _ => none

end Action

/-- `DeltaOperation`, with the fields the commit code looks at. -/
inductive DeltaOperation where
  | create
  | write (predicate : Option String)
  | delete (predicate : Option String)
  | merge (predicate : Option String)
  | fileSystemCheck
  | restore
  | setTableProperties
  | unsetTableProperties
  | alterColumn
  | addColumns
  | dropColumns
  | renameColumn
deriving DecidableEq, Repr

namespace DeltaOperation

def changesData : DeltaOperation → Bool
  | fileSystemCheck => false
  | _ => true

def readWholeTable : DeltaOperation → Bool
  | merge none => true
  | _ => false

end DeltaOperation

inductive CommitConflictError where
  | concurrentAppend
  | concurrentDeleteRead
  | concurrentDeleteDelete
  | metadataChanged
  | concurrentDomainMetadata (domain : String)
  | concurrentTransaction
  | protocolChanged (message : String)
deriving DecidableEq, Repr

structure TransactionInfo where
  actions : List Action
  readSnapshot : DeltaSnapshot
  readWholeTable : Bool

namespace TransactionInfo

variable (txn : TransactionInfo)

/-- The application transactions that the transaction writes count as read. -/
def readAppIds : List String := (txn.actions.filterMap Action.txn?).map Transaction.appId

def metadataChanged : Bool := txn.actions.any fun a => a.metadata?.isSome

def protocolAction : Option Protocol := txn.actions.findSome? Action.protocol?

def metadataAction : Option Metadata := txn.actions.findSome? Action.metadata?

def domainMetadataDomains : List String :=
  (txn.actions.filterMap Action.domainMetadata?).map DomainMetadata.domain

end TransactionInfo

structure WinningCommitSummary where
  actions : List Action
  commitInfo : Option CommitInfo

namespace WinningCommitSummary

/-- `try_new`, of the actions that the winning commit's file has. -/
def new (actions : List Action) : WinningCommitSummary :=
  ⟨actions, actions.findSome? Action.commitInfo?⟩

variable (winning : WinningCommitSummary)

def metadataUpdates : List Metadata := winning.actions.filterMap Action.metadata?

def appLevelTransactions : List String :=
  (winning.actions.filterMap Action.txn?).map Transaction.appId

def protocol : List Protocol := winning.actions.filterMap Action.protocol?

def domainMetadataDomains : List String :=
  (winning.actions.filterMap Action.domainMetadata?).map DomainMetadata.domain

def removedFiles : List Remove := winning.actions.filterMap Action.remove?

def addedFiles : List Add := winning.actions.filterMap Action.add?

def isBlindAppend : Option Bool := winning.commitInfo.map fun info => info.isBlindAppend.getD false

def blindAppendAddedFiles : List Add :=
  if winning.isBlindAppend.getD false then winning.addedFiles else []

def changedDataAddedFiles : List Add :=
  if winning.isBlindAppend.getD false then [] else winning.addedFiles

end WinningCommitSummary

/-- `can_downgrade_to_snapshot_isolation`; a file action without data change counts as none. -/
def canDowngradeToSnapshotIsolation (actions : List Action) (operation : DeltaOperation)
    (isolationLevel : IsolationLevel) : Bool :=
  let dataChange : Action → Bool
    | .add a => a.dataChange
    | .remove r => r.dataChange
    | _ => false
  if actions.any fun a => !dataChange a then false
  else match isolationLevel with
    | .serializable => !actions.any dataChange
    | .writeSerializable => !actions.any dataChange && !operation.changesData
    | .snapshotIsolation => false

structure ConflictChecker where
  txnInfo : TransactionInfo
  winningCommitSummary : WinningCommitSummary
  isolationLevel : IsolationLevel

namespace ConflictChecker

def new (txnInfo : TransactionInfo) (winning : WinningCommitSummary) (operation : DeltaOperation) :
    ConflictChecker :=
  let isolationLevel :=
    txnInfo.readSnapshot.metadata.configuration.isolationLevel.getD .serializable
  ⟨txnInfo, winning,
    if canDowngradeToSnapshotIsolation winning.actions operation isolationLevel then
      .snapshotIsolation
    else isolationLevel⟩

variable (c : ConflictChecker)

def checkProtocolCompatibility : Except CommitConflictError Unit := do
  let wins := c.winningCommitSummary.protocol
  wins.forM fun p =>
    let winRead := p.minReaderVersion
    let currRead := c.txnInfo.readSnapshot.protocol.minReaderVersion
    let winWrite := p.minWriterVersion
    let currWrite := c.txnInfo.readSnapshot.protocol.minWriterVersion
    if currRead < winRead ∨ winWrite < currWrite then
      throw (.protocolChanged
        s!"required read/write {winRead}/{winWrite}, current read/write {currRead}/{currWrite}")
    else pure ()
  if wins.isEmpty then pure ()
  else match c.txnInfo.protocolAction with
    | some txnProtocol =>
      if wins.any (· ≠ txnProtocol) then throw (.protocolChanged "protocol changed") else pure ()
    | none => throw (.protocolChanged "protocol changed")

def checkNoMetadataUpdates : Except CommitConflictError Unit :=
  let wins := c.winningCommitSummary.metadataUpdates
  if wins.isEmpty then pure ()
  else match c.txnInfo.metadataAction with
    | some txnMetadata =>
      if wins.any (· ≠ txnMetadata) then throw .metadataChanged else pure ()
    | none => throw .metadataChanged

def checkNoDomainMetadataConflicts : Except CommitConflictError Unit :=
  match c.txnInfo.domainMetadataDomains.find?
      c.winningCommitSummary.domainMetadataDomains.contains with
  | some domain => throw (.concurrentDomainMetadata domain)
  | none => pure ()

def checkForAddedFilesThatShouldHaveBeenReadByCurrentTxn : Except CommitConflictError Unit :=
  let addedFilesToCheck :=
    match c.isolationLevel with
    | .snapshotIsolation => []
    | .writeSerializable =>
      if c.txnInfo.metadataChanged then
        c.winningCommitSummary.changedDataAddedFiles ++ c.winningCommitSummary.blindAppendAddedFiles
      else c.winningCommitSummary.changedDataAddedFiles
    | .serializable =>
      c.winningCommitSummary.changedDataAddedFiles ++ c.winningCommitSummary.blindAppendAddedFiles
  if c.txnInfo.readWholeTable && !addedFilesToCheck.isEmpty then throw .concurrentAppend
  else pure ()

def checkForDeletedFilesAgainstCurrentTxnReadFiles : Except CommitConflictError Unit :=
  let removed := c.winningCommitSummary.removedFiles
  if (removed.any fun r => (c.txnInfo.readSnapshot.adds.map Add.path).contains r.path) ||
      !removed.isEmpty && c.txnInfo.readWholeTable then throw .concurrentDeleteRead
  else pure ()

def checkForDeletedFilesAgainstCurrentTxnDeletedFiles : Except CommitConflictError Unit :=
  let txnDeletedFiles := (c.txnInfo.actions.filterMap Action.remove?).map Remove.path
  if c.winningCommitSummary.removedFiles.any fun r => txnDeletedFiles.contains r.path then
    throw .concurrentDeleteDelete
  else pure ()

/-- `check_for_updated_application_transaction_ids_that_current_txn_depends_on`. -/
def checkForUpdatedApplicationTransactionIds : Except CommitConflictError Unit :=
  if c.winningCommitSummary.appLevelTransactions.any c.txnInfo.readAppIds.contains then
    throw .concurrentTransaction
  else pure ()

def checkConflicts : Except CommitConflictError Unit := do
  c.checkProtocolCompatibility
  c.checkNoMetadataUpdates
  c.checkNoDomainMetadataConflicts
  c.checkForAddedFilesThatShouldHaveBeenReadByCurrentTxn
  c.checkForDeletedFilesAgainstCurrentTxnReadFiles
  c.checkForDeletedFilesAgainstCurrentTxnDeletedFiles
  c.checkForUpdatedApplicationTransactionIds

variable {c}

/-- What a winning commit does not do to a transaction that passes. -/
structure NoConflict (actions winning : List Action) : Prop where
  protocol : winning.filterMap Action.protocol? = []
  metadata : winning.filterMap Action.metadata? = []
  txns : ∀ t ∈ winning.filterMap Action.txn?, ∀ t' ∈ actions.filterMap Action.txn?,
    t.appId ≠ t'.appId

theorem protocol_of_check (h : c.checkProtocolCompatibility = .ok ())
    (hnone : c.txnInfo.protocolAction = none) : c.winningCommitSummary.protocol = [] := by
  obtain ⟨-, -, h⟩ := bind_eq_ok.mp h
  rw [hnone] at h
  split at h
  next hempty => exact List.isEmpty_iff.mp hempty
  next => cases h

theorem metadata_of_check (h : c.checkNoMetadataUpdates = .ok ())
    (hnone : c.txnInfo.metadataAction = none) : c.winningCommitSummary.metadataUpdates = [] := by
  unfold checkNoMetadataUpdates at h
  rw [hnone] at h
  simp only at h
  split at h
  next hempty => exact List.isEmpty_iff.mp hempty
  next => cases h

theorem txns_of_check (h : c.checkForUpdatedApplicationTransactionIds = .ok ()) :
    ∀ id ∈ c.winningCommitSummary.appLevelTransactions, id ∉ c.txnInfo.readAppIds := by
  unfold checkForUpdatedApplicationTransactionIds at h
  split at h
  next => cases h
  next hany =>
    intro id hid hmem
    apply hany
    rw [any_eq_true]
    exact ⟨id, hid, contains_iff_mem.mpr hmem⟩

theorem checkConflicts_ok {actions winning : List Action} {snapshot : DeltaSnapshot}
    {operation : DeltaOperation} (hprotocol : ∀ a ∈ actions, a.protocol? = none)
    (hmetadata : ∀ a ∈ actions, a.metadata? = none)
    (h : (new ⟨actions, snapshot, operation.readWholeTable⟩ (.new winning)
      operation).checkConflicts = .ok ()) : NoConflict actions winning := by
  obtain ⟨⟨⟩, hp, h⟩ := bind_eq_ok.mp h
  obtain ⟨⟨⟩, hm, h⟩ := bind_eq_ok.mp h
  obtain ⟨-, -, h⟩ := bind_eq_ok.mp h
  obtain ⟨-, -, h⟩ := bind_eq_ok.mp h
  obtain ⟨-, -, h⟩ := bind_eq_ok.mp h
  obtain ⟨-, -, h⟩ := bind_eq_ok.mp h
  refine ⟨protocol_of_check hp ?_, metadata_of_check hm ?_, fun t ht t' ht' heq => ?_⟩
  · exact findSome?_eq_none_iff.mpr hprotocol
  · exact findSome?_eq_none_iff.mpr hmetadata
  · apply txns_of_check h t.appId
    · exact mem_map_of_mem ht
    · rw [heq]
      exact mem_map_of_mem ht'

end ConflictChecker

end Zelox.Delta
