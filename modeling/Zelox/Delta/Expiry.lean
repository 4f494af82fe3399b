import Zelox.Delta.Written

/-!
# States up to expired entries

A checkpoint leaves out transactions and tombstones that have expired when it is
written.  `UpTo expired s t` says that `s` shows the same table as `t` and has the same
transactions and tombstones but for expired ones that are missing; replaying further
actions keeps this (`UpTo.applyAll`), and so does dropping more that has expired
(`UpTo.prune`).
-/

namespace Zelox.Delta

open LastWrite

/-- `x` is `y`, or has lost it, which only happens to values with `P`. -/
def OnlyMissing {α : Type} (P : α → Prop) (x y : Option α) : Prop :=
  x = y ∨ x = none ∧ ∃ a, y = some a ∧ P a

namespace OnlyMissing

variable {α : Type} {P : α → Prop} {x y : Option α}

theorem refl (P : α → Prop) (x : Option α) : OnlyMissing P x x := .inl rfl

theorem filter (h : OnlyMissing P x y) {keep : α → Bool} (hkeep : ∀ a, keep a = false → P a) :
    OnlyMissing P (x.filter keep) y := by
  rcases h with rfl | ⟨rfl, hmissing⟩
  · cases x with
    | none => exact .inl rfl
    | some a =>
      cases hk : keep a with
      | true => exact .inl (by simp [Option.filter, hk])
      | false => exact .inr ⟨by simp [Option.filter, hk], a, rfl, hkeep a hk⟩
  · exact .inr ⟨rfl, hmissing⟩

theorem getD (h : OnlyMissing P x y) (w : Option (Option α)) :
    OnlyMissing P (w.getD x) (w.getD y) := by
  cases w with
  | none => exact h
  | some v => exact .inl rfl

end OnlyMissing

/-- Which transactions and tombstones count as expired. -/
structure Expired where
  txn : Transaction → Prop
  remove : Remove → Prop

/-- The cutoffs drop nothing that does not count as expired. -/
structure Expired.Covers (expired : Expired) (r : ReconciledCheckpointState.CheckpointRetentionTimestamps) :
    Prop where
  txn : ∀ txn, r.expiredTxn txn = true → expired.txn txn
  remove : ∀ remove, r.expiredRemove remove = true → expired.remove remove

structure UpTo (expired : Expired) (s t : ReconciledCheckpointState) : Prop extends
    SameTable s t where
  txns : ∀ appId, OnlyMissing expired.txn (s.txns.get? appId) (t.txns.get? appId)
  removes : ∀ k, OnlyMissing expired.remove (s.removes.get? k) (t.removes.get? k)

namespace UpTo

variable {expired : Expired} {s t u : ReconciledCheckpointState}

theorem refl (expired : Expired) (s : ReconciledCheckpointState) : UpTo expired s s where
  toSameTable := .refl s
  txns _ := .refl _ _
  removes _ := .refl _ _

theorem applyAll (h : UpTo expired s t) (as : List Action) :
    UpTo expired (s.applyAll as) (t.applyAll as) where
  toSameTable := h.toSameTable.applyAll as
  txns appId := by
    rw [ReconciledCheckpointState.txns_applyAll, ReconciledCheckpointState.txns_applyAll]
    exact (h.txns appId).getD _
  removes k := by
    rw [ReconciledCheckpointState.removes_applyAll, ReconciledCheckpointState.removes_applyAll]
    exact (h.removes k).getD _

theorem prune (h : UpTo expired s t)
    {r : ReconciledCheckpointState.CheckpointRetentionTimestamps} (hr : expired.Covers r) :
    UpTo expired (s.prune r) t where
  protocol := h.protocol
  metadata := h.metadata
  domainMetadata := h.domainMetadata
  adds := h.adds
  txns appId := by
    show OnlyMissing _ ((s.txns.filter _).get? appId) _
    rw [KeyedMap.get?_filter]
    exact (h.txns appId).filter fun txn hkeep => hr.txn txn (by simpa using hkeep)
  removes k := by
    show OnlyMissing _ ((s.removes.filter _).get? k) _
    rw [KeyedMap.get?_filter]
    exact (h.removes k).filter fun remove hkeep => hr.remove remove (by simpa using hkeep)

theorem of_sameState (h : UpTo expired s t) (hs : SameState u s) : UpTo expired u t where
  toSameTable := hs.toSameTable.trans h.toSameTable
  txns appId := by
    rw [hs.txns]
    exact h.txns appId
  removes k := by
    rw [hs.removes]
    exact h.removes k

end UpTo

end Zelox.Delta
