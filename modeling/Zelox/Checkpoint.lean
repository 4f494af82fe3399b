import Zelox.Lib.Lists
import Mathlib.Data.List.AList

/-!
# The checkpoint store

A directory of objects with atomic single-object `put` and no rename.  Keys are the
paths below the checkpoint's base, cut at the slashes; listings come in some order,
which is the order of the store's entries.  A commit of one artifact (`promote`) is a
`put` of the committed object and then a best-effort `delete` of the staged one.
-/

namespace Zelox

open List

namespace Checkpoint

/-- One segment of a path, by the names the streaming code uses. -/
inductive Seg where
  | sources
  | state
  | offsets
  | realtime
  | staged
  | committed
  | expected
  | num (n : Nat)
  | inst (i : Nat)
  | op (id : Nat)
  | stagedEpoch (e : Nat)
  | epoch (e : Nat)
  | done (task : Nat)
deriving DecidableEq

/-- A leaf name that parses as a number. -/
def Seg.num? : Seg → Option Nat
  | .num n => some n
  | _ => none

abbrev Path := List Seg

end Checkpoint

abbrev CheckpointStore (V : Type) := AList fun _ : Checkpoint.Path => V

namespace CheckpointStore

open Checkpoint

variable {V : Type}

def get (ck : CheckpointStore V) (rel : Path) : Option V := ck.lookup rel

def put (ck : CheckpointStore V) (rel : Path) (data : V) : CheckpointStore V := ck.insert rel data

/-- Deleting what is absent is not an error. -/
def delete (ck : CheckpointStore V) (rel : Path) : CheckpointStore V := ck.erase rel

/-- `list_rel`: the paths of all objects below a directory. -/
def listRel (ck : CheckpointStore V) (dir : Path) : List Path :=
  ck.keys.filter fun rel => dir <+: rel ∧ rel ≠ dir

/-- The leaf names below a directory. -/
def list (ck : CheckpointStore V) (dir : Path) : List Seg :=
  (ck.listRel dir).filterMap List.getLast?

/-- The commit point of `promote`: one put of the committed object. -/
def promotePut (ck : CheckpointStore V) (staged committed : Path) : CheckpointStore V :=
  match ck.get staged with
  | some data => ck.put committed data
  | none => ck

/-- The states that `promote` takes the store through; `fails`: the delete of the staged object
does. -/
def promote (ck : CheckpointStore V) (staged committed : Path) (fails : Bool) :
    List (CheckpointStore V) :=
  match ck.get staged with
  | some _ =>
    let ck' := ck.promotePut staged committed
    [ck', if fails then ck' else ck'.delete staged]
  | none => []

variable (ck : CheckpointStore V)

/-! ## Reading back -/

@[simp] theorem get_put (p : Path) (v : V) : (ck.put p v).get p = some v :=
  AList.lookup_insert ck

theorem get_put_ne {p q : Path} (v : V) (h : q ≠ p) :
    (ck.put p v).get q = ck.get q :=
  AList.lookup_insert_ne h

@[simp] theorem get_delete (p : Path) : (ck.delete p).get p = none :=
  AList.lookup_erase p ck

theorem get_delete_ne {p q : Path} (h : q ≠ p) :
    (ck.delete p).get q = ck.get q :=
  AList.lookup_erase_ne h

theorem mem_keys {ck : CheckpointStore V} {p : Path} : p ∈ ck.keys ↔ (ck.get p).isSome = true :=
  AList.mem_keys.symm.trans AList.lookup_isSome.symm

theorem mem_listRel {ck : CheckpointStore V} {dir p : Path} :
    p ∈ ck.listRel dir ↔ (ck.get p).isSome = true ∧ dir <+: p ∧ p ≠ dir := by
  unfold listRel
  rw [mem_filter, mem_keys, decide_eq_true_iff]

theorem nodup_listRel (dir : Path) : (ck.listRel dir).Nodup :=
  ck.keys_nodup.filter _

/-! ## What a write elsewhere leaves alone -/

theorem listRel_put_of_not_below {dir p : Path} (v : V) (h : ¬ dir <+: p) :
    (ck.put p v).listRel dir = ck.listRel dir := by
  unfold listRel put
  rw [AList.keys_insert, filter_cons_of_neg (by simp [h]),
    Lists.filter_erase_of_neg _ _ (by simp [h])]

theorem listRel_delete_of_not_below {dir p : Path} (h : ¬ dir <+: p) :
    (ck.delete p).listRel dir = ck.listRel dir := by
  unfold listRel delete
  rw [AList.keys_erase, Lists.filter_erase_of_neg _ _ (by simp [h])]

end CheckpointStore

end Zelox
