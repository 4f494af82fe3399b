import Zelox.Delta.State

/-!
# States written out

Compactions and checkpoints write a reconciled state out as actions: protocol,
metadata, transactions and domains (`headerActions`), and then the files in some order.
Each register then reads its value in the state off the list, and over the empty state
the list gives the state back (`sameState_written`).
-/

namespace Zelox.Delta

open LastWrite List Option

/-- Two headers that agree on every lookup. -/
structure SameHeader (s t : ReconciledHeaderState) : Prop where
  protocol : s.protocol = t.protocol
  metadata : s.metadata = t.metadata
  domainMetadata : ∀ d, s.domainMetadata.get? d = t.domainMetadata.get? d
  txns : ∀ appId, s.txns.get? appId = t.txns.get? appId

/-- Two states that agree on every lookup. -/
structure SameState (s t : ReconciledCheckpointState) : Prop extends SameTable s t where
  txns : ∀ appId, s.txns.get? appId = t.txns.get? appId
  removes : ∀ k, s.removes.get? k = t.removes.get? k

namespace ReconciledCheckpointState

/-- Everything but the files, written out. -/
def headerActions (s : ReconciledCheckpointState) : List Action :=
  s.protocol.toList.map Action.protocol ++ s.metadata.toList.map Action.metadata ++
    s.txns.entries.map Action.txn ++ s.domainMetadata.entries.map Action.domainMetadata

variable (s : ReconciledCheckpointState) (files : List (Add ⊕ Remove))

def fileToAction : Add ⊕ Remove → Action
  | .inl a => .add a
  | .inr r => .remove r

/-- A register that no file action touches reads off the header. -/
theorem lastWrite_header_append {V : Type} (w : Action → Option V)
    (hfiles : ∀ x, w (fileToAction x) = none) :
    lastWrite w (s.headerActions ++ files.map fileToAction) = lastWrite w s.headerActions := by
  have hnone : lastWrite w (files.map fileToAction) = none := by
    rw [lastWrite_map_list, funext hfiles, lastWrite_none]
  rw [lastWrite_append, hnone, none_or]

theorem lastWrite_protocol_written :
    lastWrite Action.protocolWrite (s.headerActions ++ files.map fileToAction) =
      s.protocol.map some := by
  rw [lastWrite_header_append s files _ (by rintro (_ | _) <;> rfl)]
  simp only [headerActions, lastWrite_append, lastWrite_map_list, Action.protocolWrite,
    lastWrite_none, none_or]
  cases s.protocol <;> rfl

theorem lastWrite_metadata_written :
    lastWrite Action.metadataWrite (s.headerActions ++ files.map fileToAction) =
      s.metadata.map some := by
  rw [lastWrite_header_append s files _ (by rintro (_ | _) <;> rfl)]
  simp only [headerActions, lastWrite_append, lastWrite_map_list, Action.metadataWrite,
    lastWrite_none, none_or, or_none]
  cases s.metadata <;> rfl

theorem lastWrite_txn_written (appId : String) :
    lastWrite (Action.txnWrite appId) (s.headerActions ++ files.map fileToAction) =
      (s.txns.get? appId).map some := by
  rw [lastWrite_header_append s files _ (by rintro (_ | _) <;> rfl)]
  simp only [headerActions, lastWrite_append, lastWrite_map_list, Action.txnWrite,
    lastWrite_none, none_or, or_none]
  exact lastWrite_entries s.txns some appId

theorem lastWrite_domain_written (domain : String) :
    lastWrite (Action.domainWrite domain) (s.headerActions ++ files.map fileToAction) =
      (s.domainMetadata.get? domain).map some := by
  rw [lastWrite_header_append s files _ (by rintro (_ | _) <;> rfl)]
  simp only [headerActions, lastWrite_append, lastWrite_map_list, Action.domainWrite,
    lastWrite_none, or_none]
  refine (lastWrite_entries s.domainMetadata (fun d => if d.removed then none else some d)
    domain).trans ?_
  cases h : s.domainMetadata.get? domain with
  | none => rfl
  | some d => simp [s.live domain d h]

theorem lastWrite_file_written (k : LogicalFileKey) :
    lastWrite (Action.fileAction k) (s.headerActions ++ files.map fileToAction) =
      lastWrite (Action.fileAction k) (files.map fileToAction) := by
  simp only [headerActions, lastWrite_append, lastWrite_map_list, Action.fileAction,
    lastWrite_none, or_none]

theorem lastWrite_adds_entries (m : KeyedMap Add.key) (k : LogicalFileKey) :
    lastWrite (Action.fileAction k) ((m.entries.map Sum.inl).map fileToAction) =
      (m.get? k).map Sum.inl := by
  rw [List.map_map, lastWrite_map_list]
  exact lastWrite_entries m Sum.inl k

theorem lastWrite_removes_entries (m : KeyedMap Remove.key) (k : LogicalFileKey) :
    lastWrite (Action.fileAction k) ((m.entries.map Sum.inr).map fileToAction) =
      (m.get? k).map Sum.inr := by
  rw [List.map_map, lastWrite_map_list]
  exact lastWrite_entries m Sum.inr k

theorem sameHeader_written :
    SameHeader (default.applyAll (s.headerActions ++ files.map fileToAction)).header s.header where
  protocol := by
    show (default.applyAll _).protocol = _
    rw [protocol_applyAll, lastWrite_protocol_written]
    cases hp : s.protocol <;> exact hp.symm
  metadata := by
    show (default.applyAll _).metadata = _
    rw [metadata_applyAll, lastWrite_metadata_written]
    cases hm : s.metadata <;> exact hm.symm
  txns appId := by
    show (default.applyAll _).txns.get? appId = _
    rw [txns_applyAll, lastWrite_txn_written]
    cases ht : s.txns.get? appId <;> exact ht.symm
  domainMetadata d := by
    show (default.applyAll _).domainMetadata.get? d = _
    rw [domainMetadata_applyAll, lastWrite_domain_written]
    cases hd : s.domainMetadata.get? d <;> exact hd.symm

/-- A state is read back as it was if of each file the written list says what the state has. -/
theorem sameState_written
    (hfiles : ∀ k, lastWrite (Action.fileAction k) (files.map fileToAction) =
      ((s.adds.get? k).map Sum.inl).or ((s.removes.get? k).map Sum.inr)) :
    SameState (default.applyAll (s.headerActions ++ files.map fileToAction)) s where
  protocol := (s.sameHeader_written files).protocol
  metadata := (s.sameHeader_written files).metadata
  txns := (s.sameHeader_written files).txns
  domainMetadata := (s.sameHeader_written files).domainMetadata
  adds k := by
    rw [adds_default_applyAll, lastWrite_file_written, hfiles]
    cases s.adds.get? k with
    | none => cases s.removes.get? k <;> rfl
    | some a => rfl
  removes k := by
    rw [removes_default_applyAll, lastWrite_file_written, hfiles]
    cases hr : s.removes.get? k with
    | none => cases s.adds.get? k <;> rfl
    | some r =>
      rw [(s.disjoint k).resolve_right (by simp [hr])]
      rfl

/-- Tombstones first, as in a compaction or a V1 checkpoint. -/
theorem lastWrite_removes_adds (removes : KeyedMap Remove.key) (adds : KeyedMap Add.key)
    (k : LogicalFileKey) :
    lastWrite (Action.fileAction k)
        ((removes.entries.map Sum.inr ++ adds.entries.map Sum.inl).map fileToAction) =
      ((adds.get? k).map Sum.inl).or ((removes.get? k).map Sum.inr) := by
  rw [map_append, lastWrite_append, lastWrite_adds_entries, lastWrite_removes_entries]

/-- Active files first, as in the sidecar of a V2 checkpoint: no file is in both lists. -/
theorem lastWrite_adds_removes (k : LogicalFileKey) :
    lastWrite (Action.fileAction k)
        ((s.adds.entries.map Sum.inl ++ s.removes.entries.map Sum.inr).map fileToAction) =
      ((s.adds.get? k).map Sum.inl).or ((s.removes.get? k).map Sum.inr) := by
  rw [map_append, lastWrite_append, lastWrite_adds_entries, lastWrite_removes_entries]
  rcases s.disjoint k with h | h
  · rw [h, map_none, or_none, none_or]
  · rw [h, map_none, or_none, none_or]

end ReconciledCheckpointState

end Zelox.Delta
