import Zelox.Delta.Actions
import Zelox.Lib.Int64
import Zelox.Lib.LastWrite
import Zelox.Lib.Results

/-!
# Reconciled table states

What replaying a log builds (`kernel/checkpoints.rs`): the current protocol and
metadata, one transaction for each application, one entry for each live domain, and
the files that are active or whose removal is remembered.  A state carries that no
file is both (`disjoint`) and that removed domains are gone (`live`).

Every part of the state is a register that an action overwrites or leaves alone, so a
replay leaves in it the last write (`protocol_applyAll` and its siblings).
-/

namespace Zelox.Delta

open LastWrite List

abbrev Domains := KeyedMap DomainMetadata.domain
abbrev Txns := KeyedMap Transaction.appId

/-- A removed domain is dropped, any other one replaces the entry of its name. -/
def Domains.apply (m : Domains) (d : DomainMetadata) : Domains :=
  if d.removed then m.erase d.domain else m.insert d

def Domains.Live (m : Domains) : Prop := ∀ k d, m.get? k = some d → d.removed = false

theorem Domains.get?_apply (m : Domains) (d : DomainMetadata) (k : String) :
    (m.apply d).get? k =
      if k = d.domain then (if d.removed then none else some d) else m.get? k := by
  unfold apply
  split
  next h => rw [KeyedMap.get?_erase]
  next h => rw [KeyedMap.get?_insert]

theorem Domains.Live.apply {m : Domains} (h : m.Live) (d : DomainMetadata) : (m.apply d).Live := by
  intro k d' hd'
  rw [Domains.get?_apply] at hd'
  split at hd'
  next hk =>
    cases hr : d.removed with
    | true => simp [hr] at hd'
    | false =>
      simp only [hr, Bool.false_eq_true, if_false, Option.some.injEq] at hd'
      rw [← hd', hr]
  next hk => exact h k d' hd'

structure ReconciledCheckpointState where
  protocol : Option Protocol
  metadata : Option Metadata
  txns : Txns
  domainMetadata : Domains
  adds : KeyedMap Add.key
  removes : KeyedMap Remove.key
  disjoint : ∀ k, adds.get? k = none ∨ removes.get? k = none
  live : domainMetadata.Live

namespace ReconciledCheckpointState
variable (s : ReconciledCheckpointState)

theorem disjoint_add (add : Add) (k : LogicalFileKey) :
    (s.adds.insert add).get? k = none ∨ (s.removes.erase add.key).get? k = none := by
  rw [KeyedMap.get?_insert, KeyedMap.get?_erase]
  split
  next h => exact .inr rfl
  next h => exact s.disjoint k

theorem disjoint_remove (remove : Remove) (k : LogicalFileKey) :
    (s.adds.erase remove.key).get? k = none ∨ (s.removes.insert remove).get? k = none := by
  rw [KeyedMap.get?_insert, KeyedMap.get?_erase]
  split
  next h => exact .inl rfl
  next h => exact s.disjoint k

theorem disjoint_filter (p : Remove → Bool) (k : LogicalFileKey) :
    s.adds.get? k = none ∨ (s.removes.filter p).get? k = none := by
  rcases s.disjoint k with h | h
  · exact .inl h
  · exact .inr (by simp [h])

theorem live_empty : Domains.Live .empty := fun _ _ h => nomatch h

theorem disjoint_empty (k : LogicalFileKey) :
    (KeyedMap.empty : KeyedMap Add.key).get? k = none ∨
      (KeyedMap.empty : KeyedMap Remove.key).get? k = none := .inl rfl

def default : ReconciledCheckpointState where
  protocol := none
  metadata := none
  txns := .empty
  domainMetadata := .empty
  adds := .empty
  removes := .empty
  disjoint := disjoint_empty
  live := live_empty

def applyAction (s : ReconciledCheckpointState) : Action → ReconciledCheckpointState
  | .protocol p => { s with protocol := some p }
  | .metadata m => { s with metadata := some m }
  | .txn t => { s with txns := s.txns.insert t }
  | .domainMetadata d =>
    { s with domainMetadata := s.domainMetadata.apply d, live := s.live.apply d }
  | .add a =>
    { s with
      removes := s.removes.erase a.key
      adds := s.adds.insert a
      disjoint := s.disjoint_add a }
  | .remove r =>
    { s with
      adds := s.adds.erase r.key
      removes := s.removes.insert r
      disjoint := s.disjoint_remove r }
  | .commitInfo _ | .cdc _ | .checkpointMetadata _ | .sidecar _ => s

def applyAll (s : ReconciledCheckpointState) (actions : List Action) : ReconciledCheckpointState :=
  actions.foldl applyAction s

@[simp] theorem applyAll_cons (a : Action) (as : List Action) :
    s.applyAll (a :: as) = (s.applyAction a).applyAll as := rfl

theorem applyAll_append (as bs : List Action) :
    s.applyAll (as ++ bs) = (s.applyAll as).applyAll bs := by
  simp [applyAll, foldl_append]

/-- The columns of a row one after the other; `readCheckpointRows` collects sidecar descriptors. -/
def applyCheckpointRow (s : ReconciledCheckpointState) (row : CheckpointActionRow) :
    ReconciledCheckpointState :=
  let s := row.protocol.elim s fun p => { s with protocol := some p }
  let s := row.metadata.elim s fun m => { s with metadata := some m }
  let s := row.txn.elim s fun t => { s with txns := s.txns.insert t }
  let s := row.domainMetadata.elim s fun d =>
    { s with domainMetadata := s.domainMetadata.apply d, live := s.live.apply d }
  let s := row.add.elim s fun a =>
    { s with
      removes := s.removes.erase a.key
      adds := s.adds.insert a
      disjoint := s.disjoint_add a }
  row.remove.elim s fun r =>
    { s with
      adds := s.adds.erase r.key
      removes := s.removes.insert r
      disjoint := s.disjoint_remove r }

theorem applyCheckpointRow_eq (row : CheckpointActionRow) :
    s.applyCheckpointRow row = s.applyAll row.actions := by
  obtain ⟨add, remove, metadata, protocol, txn, domainMetadata, -, -⟩ := row
  cases add <;> cases remove <;> cases metadata <;> cases protocol <;> cases txn <;>
    cases domainMetadata <;> rfl

def applyRows (s : ReconciledCheckpointState) (rows : List CheckpointActionRow) :
    ReconciledCheckpointState := rows.foldl applyCheckpointRow s

theorem applyRows_eq (rows : List CheckpointActionRow) :
    s.applyRows rows = s.applyAll (rows.flatMap CheckpointActionRow.actions) := by
  induction rows generalizing s with
  | nil => rfl
  | cons row rows ih =>
    rw [flatMap_cons, applyAll_append, ← applyCheckpointRow_eq, ← ih]
    rfl

end ReconciledCheckpointState

/-! ### Registers -/

namespace Action

def protocolWrite : Action → Option (Option Protocol)
  | .protocol p => some (some p)
  | _ => none

def metadataWrite : Action → Option (Option Metadata)
  | .metadata m => some (some m)
  | _ => none

def txnWrite (appId : String) : Action → Option (Option Transaction)
  | .txn t => if appId = t.appId then some (some t) else none
  | _ => none

def domainWrite (domain : String) : Action → Option (Option DomainMetadata)
  | .domainMetadata d =>
    if domain = d.domain then some (if d.removed then none else some d) else none
  | _ => none

/-- What an action says about a file being active. -/
def fileWrite (k : LogicalFileKey) : Action → Option (Option Add)
  | .add a => if k = a.key then some (some a) else none
  | .remove r => if k = r.key then some none else none
  | _ => none

/-- What an action says about a file's tombstone. -/
def removeWrite (k : LogicalFileKey) : Action → Option (Option Remove)
  | .add a => if k = a.key then some none else none
  | .remove r => if k = r.key then some (some r) else none
  | _ => none

end Action

namespace ReconciledCheckpointState

variable (s : ReconciledCheckpointState) (as : List Action)

theorem protocol_applyAction (a : Action) :
    (s.applyAction a).protocol = a.protocolWrite.getD s.protocol := by
  cases a <;> rfl

theorem metadata_applyAction (a : Action) :
    (s.applyAction a).metadata = a.metadataWrite.getD s.metadata := by
  cases a <;> rfl

theorem txns_applyAction (appId : String) (a : Action) :
    (s.applyAction a).txns.get? appId = (a.txnWrite appId).getD (s.txns.get? appId) := by
  cases a with
  | txn t =>
    simp only [applyAction, Action.txnWrite, KeyedMap.get?_insert]
    split <;> rfl
  | _ => rfl

theorem domainMetadata_applyAction (domain : String) (a : Action) :
    (s.applyAction a).domainMetadata.get? domain =
      (a.domainWrite domain).getD (s.domainMetadata.get? domain) := by
  cases a with
  | domainMetadata d =>
    simp only [applyAction, Action.domainWrite, Domains.get?_apply]
    split <;> rfl
  | _ => rfl

theorem adds_applyAction (k : LogicalFileKey) (a : Action) :
    (s.applyAction a).adds.get? k = (a.fileWrite k).getD (s.adds.get? k) := by
  cases a with
  | add a =>
    simp only [applyAction, Action.fileWrite, KeyedMap.get?_insert]
    split <;> rfl
  | remove r =>
    simp only [applyAction, Action.fileWrite, KeyedMap.get?_erase]
    split <;> rfl
  | _ => rfl

theorem removes_applyAction (k : LogicalFileKey) (a : Action) :
    (s.applyAction a).removes.get? k = (a.removeWrite k).getD (s.removes.get? k) := by
  cases a with
  | add a =>
    simp only [applyAction, Action.removeWrite, KeyedMap.get?_erase]
    split <;> rfl
  | remove r =>
    simp only [applyAction, Action.removeWrite, KeyedMap.get?_insert]
    split <;> rfl
  | _ => rfl

theorem protocol_applyAll :
    (s.applyAll as).protocol = (lastWrite Action.protocolWrite as).getD s.protocol :=
  foldl_eq_lastWrite _ applyAction protocol protocol_applyAction s as

theorem metadata_applyAll :
    (s.applyAll as).metadata = (lastWrite Action.metadataWrite as).getD s.metadata :=
  foldl_eq_lastWrite _ applyAction metadata metadata_applyAction s as

theorem txns_applyAll (appId : String) :
    (s.applyAll as).txns.get? appId =
      (lastWrite (Action.txnWrite appId) as).getD (s.txns.get? appId) :=
  foldl_eq_lastWrite _ applyAction (fun s => s.txns.get? appId)
    (fun s a => s.txns_applyAction appId a) s as

theorem domainMetadata_applyAll (domain : String) :
    (s.applyAll as).domainMetadata.get? domain =
      (lastWrite (Action.domainWrite domain) as).getD (s.domainMetadata.get? domain) :=
  foldl_eq_lastWrite _ applyAction (fun s => s.domainMetadata.get? domain)
    (fun s a => s.domainMetadata_applyAction domain a) s as

theorem adds_applyAll (k : LogicalFileKey) :
    (s.applyAll as).adds.get? k = (lastWrite (Action.fileWrite k) as).getD (s.adds.get? k) :=
  foldl_eq_lastWrite _ applyAction (fun s => s.adds.get? k)
    (fun s a => s.adds_applyAction k a) s as

theorem removes_applyAll (k : LogicalFileKey) :
    (s.applyAll as).removes.get? k =
      (lastWrite (Action.removeWrite k) as).getD (s.removes.get? k) :=
  foldl_eq_lastWrite _ applyAction (fun s => s.removes.get? k)
    (fun s a => s.removes_applyAction k a) s as

end ReconciledCheckpointState

/-! ### What a list of actions says last of a file -/

def Action.fileAction (k : LogicalFileKey) : Action → Option (Add ⊕ Remove)
  | .add a => if k = a.key then some (.inl a) else none
  | .remove r => if k = r.key then some (.inr r) else none
  | _ => none

theorem Action.fileWrite_eq (k : LogicalFileKey) (a : Action) :
    a.fileWrite k = (a.fileAction k).map Sum.getLeft? := by
  cases a <;> simp only [fileWrite, fileAction] <;> first | rfl | (split <;> rfl)

theorem Action.removeWrite_eq (k : LogicalFileKey) (a : Action) :
    a.removeWrite k = (a.fileAction k).map Sum.getRight? := by
  cases a <;> simp only [removeWrite, fileAction] <;> first | rfl | (split <;> rfl)

namespace ReconciledCheckpointState

variable (as : List Action)

theorem adds_default_applyAll (k : LogicalFileKey) :
    (default.applyAll as).adds.get? k =
      (lastWrite (Action.fileAction k) as).bind Sum.getLeft? := by
  rw [adds_applyAll, funext (Action.fileWrite_eq k), lastWrite_map]
  cases lastWrite (Action.fileAction k) as <;> rfl

theorem removes_default_applyAll (k : LogicalFileKey) :
    (default.applyAll as).removes.get? k =
      (lastWrite (Action.fileAction k) as).bind Sum.getRight? := by
  rw [removes_applyAll, funext (Action.removeWrite_eq k), lastWrite_map]
  cases lastWrite (Action.fileAction k) as <;> rfl

/-- Registers that are only ever set: the last write is what the empty state ends with. -/
theorem lastWrite_protocol_eq :
    lastWrite Action.protocolWrite as = (default.applyAll as).protocol.map some := by
  rw [protocol_applyAll]
  exact lastWrite_eq_map_some (by rintro ⟨⟩ <;> simp [Action.protocolWrite]) as

theorem lastWrite_metadata_eq :
    lastWrite Action.metadataWrite as = (default.applyAll as).metadata.map some := by
  rw [metadata_applyAll]
  exact lastWrite_eq_map_some (by rintro ⟨⟩ <;> simp [Action.metadataWrite]) as

theorem lastWrite_txn_eq (appId : String) :
    lastWrite (Action.txnWrite appId) as = ((default.applyAll as).txns.get? appId).map some := by
  rw [txns_applyAll]
  exact lastWrite_eq_map_some (by rintro ⟨⟩ <;> simp [Action.txnWrite]) as

end ReconciledCheckpointState

/-- Two states show the same table: its protocol and metadata, its live domains and its
active files. -/
structure SameTable (s t : ReconciledCheckpointState) : Prop where
  protocol : s.protocol = t.protocol
  metadata : s.metadata = t.metadata
  domainMetadata : ∀ d, s.domainMetadata.get? d = t.domainMetadata.get? d
  adds : ∀ k, s.adds.get? k = t.adds.get? k

namespace SameTable

variable {s t u : ReconciledCheckpointState}

theorem refl (s : ReconciledCheckpointState) : SameTable s s :=
  ⟨rfl, rfl, fun _ => rfl, fun _ => rfl⟩

theorem trans (h : SameTable s t) (h' : SameTable t u) : SameTable s u :=
  ⟨h.protocol.trans h'.protocol, h.metadata.trans h'.metadata,
    fun d => (h.domainMetadata d).trans (h'.domainMetadata d),
    fun k => (h.adds k).trans (h'.adds k)⟩

open ReconciledCheckpointState in
theorem applyAll (h : SameTable s t) (as : List Action) :
    SameTable (s.applyAll as) (t.applyAll as) where
  protocol := by
    rw [protocol_applyAll, protocol_applyAll, h.protocol]
  metadata := by
    rw [metadata_applyAll, metadata_applyAll, h.metadata]
  domainMetadata d := by
    rw [domainMetadata_applyAll, domainMetadata_applyAll, h.domainMetadata]
  adds k := by
    rw [adds_applyAll, adds_applyAll, h.adds]

end SameTable

/-! ### Header states -/

structure ReconciledHeaderState where
  protocol : Option Protocol
  metadata : Option Metadata
  txns : Txns
  domainMetadata : Domains

namespace ReconciledHeaderState

def default : ReconciledHeaderState := ⟨none, none, .empty, .empty⟩

def applyAction (s : ReconciledHeaderState) : Action → ReconciledHeaderState
  | .protocol p => { s with protocol := some p }
  | .metadata m => { s with metadata := some m }
  | .txn t => { s with txns := s.txns.insert t }
  | .domainMetadata d => { s with domainMetadata := s.domainMetadata.apply d }
  | .add _ | .remove _ | .commitInfo _ | .cdc _ | .checkpointMetadata _ | .sidecar _ => s

def applyCheckpointRow (s : ReconciledHeaderState) (row : CheckpointActionRow) :
    ReconciledHeaderState :=
  let s := row.protocol.elim s fun p => { s with protocol := some p }
  let s := row.metadata.elim s fun m => { s with metadata := some m }
  let s := row.txn.elim s fun t => { s with txns := s.txns.insert t }
  row.domainMetadata.elim s fun d => { s with domainMetadata := s.domainMetadata.apply d }

def applyRows (s : ReconciledHeaderState) (rows : List CheckpointActionRow) :
    ReconciledHeaderState := rows.foldl applyCheckpointRow s

end ReconciledHeaderState

namespace ReconciledCheckpointState

/-- The part of a state that the header replay keeps. -/
def header (s : ReconciledCheckpointState) : ReconciledHeaderState :=
  ⟨s.protocol, s.metadata, s.txns, s.domainMetadata⟩

/-! ### Pruning -/

def retentionCutoffTimestamp (reference : Int64) (retentionMillis : Nat) (property : String) :
    Except String Int64 :=
  if (retentionMillis : Int) ≤ Int64.maxValue.toInt then
    match reference.checkedSub (Int64.ofNat retentionMillis) with
    | some cutoff => .ok cutoff
    | none => .error s!"Failed to compute retention cutoff for {property}"
  else .error s!"{property} exceeds the supported millisecond range"

structure CheckpointRetentionTimestamps where
  deletedFileRetentionTimestamp : Int64
  transactionExpirationTimestamp : Int64

def CheckpointRetentionTimestamps.tryNew (metadata : Metadata) (reference : Int64) :
    Except String CheckpointRetentionTimestamps := do
  let deleted ← retentionCutoffTimestamp reference metadata.configuration.deletedFileRetention
    "delta.deletedFileRetentionDuration"
  let expired ← retentionCutoffTimestamp reference metadata.configuration.logRetention
    "delta.logRetentionDuration"
  return ⟨deleted, expired⟩

/-- A transaction that has not been updated since the cutoff. -/
def CheckpointRetentionTimestamps.expiredTxn (r : CheckpointRetentionTimestamps)
    (txn : Transaction) : Bool :=
  txn.lastUpdated.any fun lastUpdated => !decide (r.transactionExpirationTimestamp < lastUpdated)

/-- A tombstone from before the cutoff. -/
def CheckpointRetentionTimestamps.expiredRemove (r : CheckpointRetentionTimestamps)
    (remove : Remove) : Bool :=
  remove.deletionTimestamp.any fun deleted => !decide (r.deletedFileRetentionTimestamp < deleted)

/-- Drops what has expired. -/
def prune (s : ReconciledCheckpointState) (r : CheckpointRetentionTimestamps) :
    ReconciledCheckpointState :=
  { s with
    txns := s.txns.filter fun txn => !r.expiredTxn txn
    removes := s.removes.filter fun remove => !r.expiredRemove remove
    disjoint := s.disjoint_filter fun remove => !r.expiredRemove remove }

def pruneExpiredCheckpointActions (s : ReconciledCheckpointState) (reference : Int64) :
    Except String ReconciledCheckpointState :=
  match s.metadata with
  | none => .error "Cannot prune checkpoint actions without metadata action"
  | some metadata => do
    let retention ← CheckpointRetentionTimestamps.tryNew metadata reference
    return s.prune retention

theorem pruneExpired_ok {s state : ReconciledCheckpointState} {reference : Int64}
    (h : s.pruneExpiredCheckpointActions reference = .ok state) :
    ∃ metadata r, s.metadata = some metadata ∧
      CheckpointRetentionTimestamps.tryNew metadata reference = .ok r ∧ state = s.prune r := by
  unfold pruneExpiredCheckpointActions at h
  split at h
  · cases h
  next metadata hmetadata =>
    obtain ⟨r, hr, heq⟩ := Results.bind_eq_ok.mp h
    cases heq
    exact ⟨metadata, r, hmetadata, hr, rfl⟩

end ReconciledCheckpointState

end Zelox.Delta
