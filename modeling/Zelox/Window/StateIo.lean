import Mathlib.Data.List.Basic

/-!
# Operator state in the checkpoint store

A stateful operator instance keeps its objects under its own prefix of the
checkpoint store: a staged and a committed snapshot (micro-batch runs), a
snapshot per epoch (continuous runs), numbered spill chunks, and for incremental
checkpoints a manifest and a residual per epoch.  The realtime sink writes the
commit record `realtime/committed`.  An object stands for what the reader's decoder
makes of its bytes; a `put` replaces it as a whole.
-/

namespace Zelox.StateIo

open List

/-- Store keys, under `state/{op}/` but for `realtime/committed`. -/
inductive Key where
  | staged
  | committed
  | epoch (e : Nat)
  | spill (index : Nat)
  | manifest (e : Nat)
  | residual (e : Nat)
  | realtimeCommitted
deriving DecidableEq

/-- State batches with their metadata (`encode_state`), a manifest, or the sink's commit record. -/
inductive Blob (B : Type) where
  | state (batches : List B) (info : List Int64)
  | manifest (info : List Int64) (chunks : List Nat)
  | committed (epoch : Nat)

/-- `CheckpointStore`: objects by key. -/
def Store (B : Type) := Key → Option (Blob B)

variable {B : Type}
variable (ck : Store B)

namespace Store

def empty : Store B := fun _ => none

def get (ck : Store B) (k : Key) : Option (Blob B) := ck k

def put (ck : Store B) (k : Key) (b : Blob B) : Store B := fun k' => if k' = k then some b else ck k'

def delete (ck : Store B) (k : Key) : Store B := fun k' => if k' = k then none else ck k'

@[simp] theorem get_put_self (k : Key) (b : Blob B) : (ck.put k b).get k = some b := by
  simp [get, put]

theorem get_put_of_ne (k k' : Key) (b : Blob B) (h : k' ≠ k) :
    (ck.put k b).get k' = ck.get k' := by
  simp [get, put, h]

theorem get_delete_of_ne (k k' : Key) (h : k' ≠ k) :
    (ck.delete k).get k' = ck.get k' := by
  simp [get, delete, h]

end Store

/-- `promote`: copy the staged object to the committed key, then remove it. -/
def promote (ck : Store B) (stagedKey committedKey : Key) : Store B :=
  match ck.get stagedKey with
  | some b => (ck.put committedKey b).delete stagedKey
  | none => ck

/-- `decode_state` of an object that may be absent or malformed. -/
def decodeState : Option (Blob B) → List B × List Int64
  | some (.state batches info) => (batches, info)
  | _ => ([], [])

/-! ## Whole snapshots -/

def stageState (ck : Store B) (batches : List B) (info : List Int64) : Store B :=
  ck.put .staged (.state batches info)

def restoreState (ck : Store B) : List B × List Int64 := decodeState (ck.get .committed)

def stageEpochState (ck : Store B) (epoch : Nat) (batches : List B) (info : List Int64) : Store B :=
  ck.put (.epoch epoch) (.state batches info)

def restoreEpochState (ck : Store B) (epoch : Nat) : List B × List Int64 :=
  decodeState (ck.get (.epoch epoch))

def gcEpochState (ck : Store B) (epoch : Nat) : Store B := ck.delete (.epoch epoch)

/-- `committed_epoch`: the epoch of the sink's commit record, if there is one. -/
def committedEpoch (ck : Store B) : Option Nat :=
  match ck.get .realtimeCommitted with
  | some (.committed epoch) => some epoch
  | _ => none

/-! ## Spilled chunks -/

/-- The flag says whether the store took the object; the caller keeps the batches
in memory otherwise. -/
def writeSpill (taken : Bool) (ck : Store B) (index : Nat) (batches : List B) : Store B × Bool :=
  if taken then (ck.put (.spill index) (.state batches []), true) else (ck, false)

def readSpill (ck : Store B) (index : Nat) : List B := (decodeState (ck.get (.spill index))).1

def deleteSpill (ck : Store B) (index : Nat) : Store B := ck.delete (.spill index)

/-! ## Incremental snapshots -/

def stageEpochIncremental (ck : Store B) (epoch : Nat) (residual : List B) (chunks : List Nat)
    (info : List Int64) : Store B :=
  (ck.put (.residual epoch) (.state residual [])).put (.manifest epoch) (.manifest info chunks)

/-- The residual and every chunk the manifest references; empty without a manifest. -/
def restoreEpochIncremental (ck : Store B) (epoch : Nat) : List B × List Int64 :=
  match ck.get (.manifest epoch) with
  | some (.manifest info chunks) =>
    ((decodeState (ck.get (.residual epoch))).1 ++ chunks.flatMap (readSpill ck), info)
  | _ => ([], [])

def gcEpochIncremental (ck : Store B) (epoch : Nat) : Store B :=
  (ck.delete (.manifest epoch)).delete (.residual epoch)

/-! ## Reading back -/

theorem readSpill_congr (ck ck' : Store B) (index : Nat)
    (h : ck'.get (.spill index) = ck.get (.spill index)) :
    readSpill ck' index = readSpill ck index := by
  unfold readSpill
  rw [h]

theorem readSpill_put_self (index : Nat) (batches : List B) :
    readSpill (ck.put (.spill index) (.state batches [])) index = batches := by
  simp [readSpill, decodeState]

theorem flatMap_readSpill_congr (ck ck' : Store B) (is : List Nat)
    (h : ∀ i ∈ is, ck'.get (.spill i) = ck.get (.spill i)) :
    is.flatMap (readSpill ck') = is.flatMap (readSpill ck) :=
  flatMap_congr fun i hi => readSpill_congr ck ck' i (h i hi)

theorem get_foldl_deleteSpill (is : List Nat) (k : Key) (h : ∀ i ∈ is, k ≠ .spill i) :
    (is.foldl deleteSpill ck).get k = ck.get k := by
  induction is generalizing ck with
  | nil => rfl
  | cons i is ih =>
    rw [foldl_cons, ih _ fun j hj => h j (mem_cons_of_mem _ hj)]
    exact Store.get_delete_of_ne _ _ _ (h i mem_cons_self)

theorem get_spill_foldl_deleteSpill (is : List Nat) (i : Nat) :
    (is.foldl deleteSpill ck).get (.spill i) = if i ∈ is then none else ck.get (.spill i) := by
  induction is generalizing ck with
  | nil => rfl
  | cons j is ih =>
    rw [foldl_cons, ih]
    by_cases hij : i = j
    · subst hij
      simp [deleteSpill, Store.delete, Store.get]
    · have hkeep : (deleteSpill ck j).get (.spill i) = ck.get (.spill i) := by
        refine Store.get_delete_of_ne _ _ _ fun h => hij ?_
        cases h
        rfl
      rw [hkeep]
      simp only [mem_cons, hij, false_or]

/-- An incremental snapshot reads the manifest, the residual and the referenced chunks only. -/
theorem restoreEpochIncremental_congr (ck ck' : Store B) (epoch : Nat)
    (hm : ck'.get (.manifest epoch) = ck.get (.manifest epoch))
    (hr : ck'.get (.residual epoch) = ck.get (.residual epoch))
    (hc : ∀ info chunks, ck.get (.manifest epoch) = some (.manifest info chunks) →
      ∀ i ∈ chunks, ck'.get (.spill i) = ck.get (.spill i)) :
    restoreEpochIncremental ck' epoch = restoreEpochIncremental ck epoch := by
  unfold restoreEpochIncremental
  rw [hm, hr]
  split
  · next info chunks h =>
    have key : chunks.flatMap (readSpill ck') = chunks.flatMap (readSpill ck) :=
      flatMap_congr fun i hi => readSpill_congr ck ck' i (hc info chunks h i hi)
    rw [key]
  · rfl

end Zelox.StateIo
