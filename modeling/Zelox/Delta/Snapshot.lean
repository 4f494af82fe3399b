import Zelox.Delta.Replay

/-!
# Table snapshots

`DeltaSnapshot`: a loaded version of the table, with its files or without them, and how
it is loaded and moved on.
-/

namespace Zelox.Delta

structure DeltaSnapshot where
  version : Nat
  /-- Of the load configuration only this is looked at. -/
  requireFiles : Bool
  protocol : Protocol
  metadata : Metadata
  adds : List Add
  removes : List Remove
  appTxns : Txns
  domainMetadata : Domains
  commitTimestamps : Timestamps

namespace DeltaSnapshot

/-- What a schema string that does not parse is answered with; the text is the parser's. -/
def invalidSchema : String := "invalid schema"

def fromReplayedHeader (requireFiles : Bool) (replayed : ReplayedTableHeader) :
    DeltaResult DeltaSnapshot :=
  if replayed.metadata.schema.isNone then .error invalidSchema
  else .ok { version := replayed.version, requireFiles, protocol := replayed.protocol
             metadata := replayed.metadata, adds := [], removes := [], appTxns := replayed.txns
             domainMetadata := replayed.domainMetadata
             commitTimestamps := replayed.commitTimestamps }

def fromReplayedState (requireFiles : Bool) (replayed : ReplayedTableState) :
    DeltaResult DeltaSnapshot :=
  if replayed.metadata.schema.isNone then .error invalidSchema
  else .ok { version := replayed.version, requireFiles, protocol := replayed.protocol
             metadata := replayed.metadata, adds := replayed.adds.entries
             removes := replayed.removes.entries, appTxns := replayed.txns
             domainMetadata := KeyedMap.empty.insertAll replayed.domainMetadata.entries
             commitTimestamps := replayed.commitTimestamps }

/-- Without files the header loader is tried first; if it has nothing or fails, the full
state is replayed. -/
def tryNew (store : LogStore) (requireFiles : Bool) (version : Nat)
    (replayHint : Option ReplayedTableHeader) : DeltaResult DeltaSnapshot :=
  let full := do
    let replayed ← store.loadReplayedTableState version
    fromReplayedState requireFiles replayed
  if requireFiles then full
  else match store.loadReplayedTableHeader version replayHint with
    | .ok (some replayed) => fromReplayedHeader requireFiles replayed
    | .ok none => full
    | .error _ => full

/-- The timestamp of the version, if the replay came past it. -/
def versionTimestamp (s : DeltaSnapshot) (version : Nat) : Option Int64 :=
  (s.commitTimestamps.get? version).map Prod.snd

def replayHint (s : DeltaSnapshot) : ReplayedTableHeader where
  version := s.version
  protocol := s.protocol
  metadata := s.metadata
  txns := s.appTxns
  domainMetadata := s.domainMetadata
  commitTimestamps := s.commitTimestamps

def update (s : DeltaSnapshot) (store : LogStore) (targetVersion : Nat) :
    DeltaResult DeltaSnapshot :=
  if targetVersion = s.version then .ok s
  else if targetVersion < s.version then .error "Cannot downgrade snapshot"
  else tryNew store s.requireFiles targetVersion
    (if s.requireFiles then none else some s.replayHint)

section

variable {store : LogStore} {version : Nat}

section

variable {requireFiles : Bool} {hint : Option ReplayedTableHeader} {s : DeltaSnapshot}
  (h : tryNew store requireFiles version hint = .ok s)
include h

theorem tryNew_cases :
    (∃ loaded, store.loadReplayedTableState version = .ok loaded ∧ s.replayHint = loaded.header) ∨
      ∃ header, store.loadReplayedTableHeader version hint = .ok (some header) ∧
        s.replayHint = header := by
  have hfull : (do
      let replayed ← store.loadReplayedTableState version
      fromReplayedState requireFiles replayed) = .ok s →
      ∃ loaded, store.loadReplayedTableState version = .ok loaded ∧
        s.replayHint = loaded.header := by
    intro h
    obtain ⟨loaded, hload, h⟩ := Results.bind_eq_ok.mp h
    refine ⟨loaded, hload, ?_⟩
    unfold fromReplayedState at h
    split at h
    · cases h
    · cases h
      simp only [replayHint, KeyedMap.insertAll_entries]
      rfl
  unfold tryNew at h
  split at h
  · exact .inl (hfull h)
  · split at h
    next header hload =>
      refine .inr ⟨header, hload, ?_⟩
      unfold fromReplayedHeader at h
      split at h
      · cases h
      · cases h
        rfl
    · exact .inl (hfull h)
    · exact .inl (hfull h)

theorem version_of_tryNew :
    s.version = version := by
  show s.replayHint.version = version
  rcases tryNew_cases h with ⟨loaded, hload, heq⟩ | ⟨header, hload, heq⟩
  · rw [heq]
    exact LogStore.version_of_load hload
  · rw [heq]
    exact LogStore.version_of_loadHeader hload

end

/-- A snapshot that is moved on is loaded anew, with the old one as the hint at most. -/
theorem update_cases {s s' : DeltaSnapshot} (h : s.update store version = .ok s') :
    version = s.version ∧ s' = s ∨ s.version < version ∧
      ∃ hint, (∀ base ∈ hint, base = s.replayHint) ∧
        tryNew store s.requireFiles version hint = .ok s' := by
  unfold update at h
  split at h
  next heq =>
    cases h
    exact .inl ⟨heq, rfl⟩
  next hne =>
    split at h
    · cases h
    next hlt =>
      refine .inr ⟨by omega, _, ?_, h⟩
      intro base hbase
      split at hbase
      · cases hbase
      · exact (Option.some.inj hbase).symm

theorem version_of_update {s s' : DeltaSnapshot} (h : s.update store version = .ok s') :
    s'.version = version := by
  rcases update_cases h with ⟨rfl, rfl⟩ | ⟨-, hint, -, h⟩
  · rfl
  · exact version_of_tryNew h

end

end DeltaSnapshot

/-- A written commit with the snapshot it was prepared against, if there was a table. -/
structure PostCommit where
  version : Nat
  actions : List Action
  tableData : Option DeltaSnapshot

end Zelox.Delta
