import Zelox.Checkpoint

/-!
# Committing a micro-batch

When the output of a micro-batch is durable, `commitSourceOffsets` promotes every
`sources/*/staged` and then every `state/*/staged` object, one after the other.  Its
value is the list of states the checkpoint store goes through, so that a crash leaves
the store in one of them (or as it was).

After `k` operations the first `(k + 1) / 2` artifacts are those of the new batch and
the others still those of the previous one (`get_committed_crashAt`): source offsets and
operator state belong together only if the crash came before the first put or after
the last one.
-/

namespace Zelox.MicroBatch

open Checkpoint CheckpointStore List

variable {V : Type}

/-- `rel.ends_with("/staged")` for a path below a directory. -/
def isStaged (rel : Path) : Bool := rel.getLast? = some .staged

/-- The committed object beside a staged one. -/
def committedPath (rel : Path) : Path := rel.dropLast ++ [.committed]

/-- The staged artifacts below `sources` or `state`, in the order they are listed. -/
def stagedUnder (ck : CheckpointStore V) (root : Seg) : List Path :=
  (ck.listRel [root]).filter isStaged

/-- The loop over the listed artifacts. -/
def promoteAll (fails : Path → Bool) (ck : CheckpointStore V) : List Path → List (CheckpointStore V)
  | [] => []
  | rel :: rest =>
    let states := ck.promote rel (committedPath rel) (fails rel)
    states ++ promoteAll fails (states.getLastD ck) rest

/-- `commit_source_offsets`: the states of the store, one for each operation. -/
def commitSourceOffsets (fails : Path → Bool) (ck : CheckpointStore V) : List (CheckpointStore V) :=
  let states := promoteAll fails ck (stagedUnder ck .sources)
  let ck' := states.getLastD ck
  states ++ promoteAll fails ck' (stagedUnder ck' .state)

/-- The store after a crash behind the first `k` of the operations that go through `states`. -/
def crash (ck : CheckpointStore V) : List (CheckpointStore V) → Nat → CheckpointStore V
  | _, 0 => ck
  | [], _ + 1 => ck
  | s :: states, k + 1 => crash s states k

/-- The artifacts that the micro-batch staged, in the order they are promoted. -/
def artifacts (ck : CheckpointStore V) : List Path :=
  stagedUnder ck .sources ++ stagedUnder ck .state

/-! ## Staged and committed paths -/

theorem committedPath_ne_staged {p q : Path} (hq : isStaged q = true) : committedPath p ≠ q := by
  intro h
  have hl := of_decide_eq_true hq
  rw [← h, committedPath, getLast?_concat] at hl
  cases hl

theorem committedPath_inj {p q : Path} (hp : isStaged p = true) (hq : isStaged q = true)
    (h : committedPath p = committedPath q) : p = q := by
  have hdrop : p.dropLast = q.dropLast := append_cancel_right h
  obtain ⟨p', rfl⟩ := getLast?_eq_some_iff.mp (of_decide_eq_true hp)
  obtain ⟨q', rfl⟩ := getLast?_eq_some_iff.mp (of_decide_eq_true hq)
  simpa using hdrop

variable {ck : CheckpointStore V} (fails : Path → Bool)

theorem mem_stagedUnder {root : Seg} {p : Path} :
    p ∈ stagedUnder ck root ↔
      ((ck.get p).isSome = true ∧ [root] <+: p ∧ p ≠ [root]) ∧ isStaged p = true := by
  unfold stagedUnder
  rw [mem_filter, mem_listRel]

theorem stagedUnder_congr {s ck : CheckpointStore V} {root : Seg}
    (h : s.listRel [root] = ck.listRel [root]) : stagedUnder s root = stagedUnder ck root := by
  unfold stagedUnder
  rw [h]

theorem below_root {root root' : Seg} {p : Path} (hp : p ∈ stagedUnder ck root)
    (hne : root' ≠ root) :
    ¬ [root'] <+: p ∧ ¬ [root'] <+: committedPath p := by
  obtain ⟨⟨-, ⟨t, rfl⟩, hroot⟩, -⟩ := mem_stagedUnder.mp hp
  cases t with
  | nil => exact absurd rfl hroot
  | cons x t => simp [committedPath, hne]

theorem of_mem_artifacts {p : Path} (hp : p ∈ artifacts ck) :
    isStaged p = true ∧ (ck.get p).isSome = true := by
  rcases mem_append.mp hp with hp | hp
  · exact ⟨(mem_stagedUnder.mp hp).2, (mem_stagedUnder.mp hp).1.1⟩
  · exact ⟨(mem_stagedUnder.mp hp).2, (mem_stagedUnder.mp hp).1.1⟩

theorem nodup_artifacts (ck : CheckpointStore V) : (artifacts ck).Nodup := by
  apply List.Nodup.append
  · exact (nodup_listRel ck _).filter _
  · exact (nodup_listRel ck _).filter _
  · intro p hp hp'
    exact (below_root hp (by decide : Seg.state ≠ .sources)).1 (mem_stagedUnder.mp hp').1.2.1

/-! ## The loop -/

/-- One promotion: nothing without a staged object, else a put and a delete that may fail. -/
theorem promote_some {p c : Path} {data : V} (h : ck.get p = some data) (fails : Bool) :
    ck.promote p c fails =
      [ck.put c data, if fails then ck.put c data else (ck.put c data).delete p] := by
  have hput : ck.promotePut p c = ck.put c data := by
    unfold promotePut
    rw [h]
  unfold promote
  rw [h, hput]

/-- The state that a promotion leaves. -/
def promoted (fails : Path → Bool) (ck : CheckpointStore V) (rel : Path) : CheckpointStore V :=
  (ck.promote rel (committedPath rel) (fails rel)).getLastD ck

theorem promoteAll_cons {rel : Path} {data : V} (h : ck.get rel = some data) (fails : Path → Bool)
    (rest : List Path) :
    promoteAll fails ck (rel :: rest) = ck.put (committedPath rel) data ::
      promoted fails ck rel :: promoteAll fails (promoted fails ck rel) rest := by
  rw [promoteAll]
  unfold promoted
  rw [promote_some h]
  rfl

/-- What each put and each delete keeps holds in every state that the loop goes through. -/
theorem promoteAll_inv (P : CheckpointStore V → Prop) (fails : Path → Bool) (rels : List Path)
    (hput : ∀ s, P s → ∀ rel ∈ rels, ∀ data, s.get rel = some data →
      P (s.put (committedPath rel) data))
    (hdelete : ∀ s, P s → ∀ rel ∈ rels, P (s.delete rel)) (ck : CheckpointStore V) (hck : P ck) :
    ∀ s ∈ ck :: promoteAll fails ck rels, P s := by
  induction rels generalizing ck with
  | nil => simpa [promoteAll] using hck
  | cons rel rest ih =>
    have hrest := ih (fun s hs r hr => hput s hs r (mem_cons_of_mem rel hr))
      (fun s hs r hr => hdelete s hs r (mem_cons_of_mem rel hr))
    cases hget : ck.get rel with
    | none =>
      have : promoteAll fails ck (rel :: rest) = promoteAll fails ck rest := by
        simp [promoteAll, promote, hget]
      rw [this]
      exact hrest ck hck
    | some data =>
      have h1 := hput ck hck rel mem_cons_self data hget
      have h2 : P (promoted fails ck rel) := by
        unfold promoted
        rw [promote_some hget]
        show P (if _ then _ else _)
        split
        · exact h1
        · exact hdelete _ h1 rel mem_cons_self
      rw [promoteAll_cons hget]
      exact forall_mem_cons.mpr ⟨hck, forall_mem_cons.mpr ⟨h1, hrest _ h2⟩⟩

theorem listRel_promoteAll (dir : Path) (rels : List Path)
    (h : ∀ rel ∈ rels, ¬ dir <+: rel ∧ ¬ dir <+: committedPath rel) (ck : CheckpointStore V) :
    ∀ s ∈ ck :: promoteAll fails ck rels, s.listRel dir = ck.listRel dir := by
  apply promoteAll_inv (fun s => s.listRel dir = ck.listRel dir)
  · intro s hs rel hrel data _
    rw [listRel_put_of_not_below _ _ (h rel hrel).2, hs]
  · intro s hs rel hrel
    rw [listRel_delete_of_not_below _ (h rel hrel).1, hs]
  · rfl

theorem get_promoteAll_of_ne (p : Path) (rels : List Path)
    (h : ∀ rel ∈ rels, p ≠ rel ∧ p ≠ committedPath rel) (ck : CheckpointStore V) :
    ∀ s ∈ ck :: promoteAll fails ck rels, s.get p = ck.get p := by
  apply promoteAll_inv (fun s => s.get p = ck.get p)
  · intro s hs rel hrel data _
    rw [get_put_ne _ _ (h rel hrel).2, hs]
  · intro s hs rel hrel
    rw [get_delete_ne _ (h rel hrel).1, hs]
  · rfl

section

variable (ck : CheckpointStore V)

theorem get_promoted_of_ne {rel p : Path} (h : p ≠ rel)
    (hc : p ≠ committedPath rel) : (promoted fails ck rel).get p = ck.get p := by
  refine get_promoteAll_of_ne fails p [rel] (by simp [h, hc]) ck _ ?_
  rw [promoteAll, promoteAll, append_nil]
  exact getLastD_mem_cons

theorem promoteAll_append (l m : List Path) :
    promoteAll fails ck (l ++ m) =
      promoteAll fails ck l ++ promoteAll fails ((promoteAll fails ck l).getLastD ck) m := by
  induction l generalizing ck with
  | nil => rfl
  | cons rel l ih =>
    rw [cons_append, promoteAll, promoteAll, ih, append_assoc, Lists.getLastD_append]

/-- Both listings can be taken at the start: promoting sources stages no state. -/
theorem commitSourceOffsets_eq :
    commitSourceOffsets fails ck = promoteAll fails ck (artifacts ck) := by
  have hstate : stagedUnder ((promoteAll fails ck (stagedUnder ck .sources)).getLastD ck) .state =
      stagedUnder ck .state := by
    apply stagedUnder_congr
    refine listRel_promoteAll fails [.state] _ ?_ ck _ getLastD_mem_cons
    intro rel hrel
    exact below_root hrel (by decide)
  unfold commitSourceOffsets artifacts
  rw [promoteAll_append]
  simp only [hstate]

/-! ## A crash in the loop -/

@[simp] theorem crash_zero (states : List (CheckpointStore V)) :
    crash ck states 0 = ck := by
  cases states <;> rfl

@[simp] theorem crash_nil (k : Nat) : crash ck [] k = ck := by
  cases k <;> rfl

end

@[simp] theorem crash_cons (ck s : CheckpointStore V) (states : List (CheckpointStore V)) (k : Nat) :
    crash ck (s :: states) (k + 1) = crash s states k := rfl

theorem crash_mem (ck : CheckpointStore V) (states : List (CheckpointStore V)) (k : Nat) :
    crash ck states k ∈ ck :: states := by
  induction states generalizing ck k with
  | nil => rw [crash_nil]; exact mem_cons_self
  | cons s states ih =>
    cases k with
    | zero => rw [crash_zero]; exact mem_cons_self
    | succ k => exact mem_cons_of_mem ck (ih s k)

/-- Behind `k` operations artifact `i` is the new one if its put is among them. -/
theorem get_committed_crash (rels : List Path) (hnd : rels.Nodup)
    (hst : ∀ rel ∈ rels, isStaged rel = true) (ck : CheckpointStore V)
    (hck : ∀ rel ∈ rels, (ck.get rel).isSome = true) (k i : Nat) (rel : Path)
    (hi : rels[i]? = some rel) :
    (crash ck (promoteAll fails ck rels) k).get (committedPath rel) =
      if 2 * i < k then ck.get rel else ck.get (committedPath rel) := by
  induction rels generalizing ck k i with
  | nil => simp at hi
  | cons r rest ih =>
    obtain ⟨hr, hnd⟩ := nodup_cons.mp hnd
    have hstr := hst r mem_cons_self
    have hstrest : ∀ q ∈ rest, isStaged q = true := fun q hq => hst q (mem_cons_of_mem r hq)
    -- the other artifacts have other staged and committed paths
    have hother : ∀ q ∈ rest, q ≠ r ∧ committedPath q ≠ committedPath r := by
      intro q hq
      have hqr : q ≠ r := fun e => hr (e ▸ hq)
      exact ⟨hqr, fun e => hqr (committedPath_inj (hstrest q hq) hstr e)⟩
    obtain ⟨data, hdata⟩ := Option.isSome_iff_exists.mp (hck r mem_cons_self)
    rw [promoteAll_cons hdata]
    match k, i with
    | 0, i => rw [crash_zero, if_neg (by omega)]
    | 1, 0 =>
      obtain rfl : r = rel := by simpa using hi
      rw [crash_cons, crash_zero, get_put, if_pos (by omega), hdata]
    | 1, i + 1 =>
      have hmem : rel ∈ rest := mem_of_getElem? (by simpa using hi)
      rw [crash_cons, crash_zero, get_put_ne _ _ (hother rel hmem).2, if_neg (by omega)]
    | k + 2, 0 =>
      obtain rfl : r = rel := by simpa using hi
      have hkeep : ∀ q ∈ rest, committedPath r ≠ q ∧ committedPath r ≠ committedPath q :=
        fun q hq => ⟨committedPath_ne_staged (hstrest q hq), (hother q hq).2.symm⟩
      have hput : (promoted fails ck r).get (committedPath r) = some data := by
        unfold promoted
        rw [promote_some hdata]
        show CheckpointStore.get (if _ then _ else _) _ = _
        split
        · rw [get_put]
        · rw [get_delete_ne _ (committedPath_ne_staged hstr), get_put]
      rw [crash_cons, crash_cons, get_promoteAll_of_ne fails _ rest hkeep _ _ (crash_mem _ _ _), hput,
        if_pos (by omega), hdata]
    | k + 2, i + 1 =>
      have hi' : rest[i]? = some rel := by simpa using hi
      have hmem : rel ∈ rest := mem_of_getElem? hi'
      have hsame : ∀ q ∈ rest, (promoted fails ck r).get q = ck.get q := fun q hq =>
        get_promoted_of_ne fails ck (hother q hq).1
          (committedPath_ne_staged (hstrest q hq)).symm
      have hcomm : (promoted fails ck r).get (committedPath rel) = ck.get (committedPath rel) :=
        get_promoted_of_ne fails ck (committedPath_ne_staged hstr) (hother rel hmem).2
      have hck' : ∀ q ∈ rest, ((promoted fails ck r).get q).isSome = true := by
        intro q hq
        rw [hsame q hq]
        exact hck q (mem_cons_of_mem r hq)
      rw [crash_cons, crash_cons, ih hnd hstrest _ hck' k i hi', hsame rel hmem, hcomm]
      congr 1
      rw [eq_iff_iff]
      omega

theorem get_committed_crashAt (ck : CheckpointStore V) (k i : Nat) (rel : Path)
    (hi : (artifacts ck)[i]? = some rel) :
    (crash ck (commitSourceOffsets fails ck) k).get (committedPath rel) =
      if 2 * i < k then ck.get rel else ck.get (committedPath rel) := by
  rw [commitSourceOffsets_eq]
  exact get_committed_crash fails _ (nodup_artifacts ck) (fun _ hp => (of_mem_artifacts hp).1) ck
    (fun _ hp => (of_mem_artifacts hp).2) k i rel hi

/-! ## Source position and operator state -/

/-- An artifact with the micro-batch that wrote it. -/
structure Written (C : Type) where
  batch : Nat
  content : C

variable {C : Type}

/-- The batch of the committed object beside `rel`, if there is one. -/
def committedBatch (ck : CheckpointStore (Written C)) (rel : Path) : Option Nat :=
  (ck.get (committedPath rel)).map (·.batch)

/-- All committed artifacts belong to one micro-batch, or none is there yet. -/
def SameBatch (rels : List Path) (ck : CheckpointStore (Written C)) : Prop :=
  ∃ b, ∀ rel ∈ rels, committedBatch ck rel = b

/-- A micro-batch `new` has staged its artifacts over those of batch `prev`. -/
structure StagedOver (ck : CheckpointStore (Written C)) (new : Nat) (prev : Option Nat) : Prop where
  staged : ∀ rel ∈ artifacts ck, (ck.get rel).map (·.batch) = some new
  committed : ∀ rel ∈ artifacts ck, committedBatch ck rel = prev
  ne : prev ≠ some new

theorem committedBatch_crash {ck : CheckpointStore (Written C)} {new : Nat} {prev : Option Nat}
    (h : StagedOver ck new prev) (k i : Nat) (rel : Path) (hi : (artifacts ck)[i]? = some rel) :
    committedBatch (crash ck (commitSourceOffsets fails ck) k) rel =
      if 2 * i < k then some new else prev := by
  have hmem := mem_of_getElem? hi
  unfold committedBatch
  rw [get_committed_crashAt fails ck k i rel hi]
  split
  · exact h.staged rel hmem
  · exact h.committed rel hmem

/-- After a crash behind `k` operations offsets and state are of one micro-batch if and only if no
put was done, or all of them. -/
theorem committed_together_iff (fails : Path → Bool) (ck : CheckpointStore (Written C)) (new : Nat)
    (prev : Option Nat) (h : StagedOver ck new prev) (k : Nat) :
    SameBatch (artifacts ck) (crash ck (commitSourceOffsets fails ck) k) ↔
      k = 0 ∨ 2 * (artifacts ck).length ≤ k + 1 := by
  have hbatch := committedBatch_crash fails h k
  constructor
  · rintro ⟨b, hb⟩
    by_contra hk
    have hget : ∀ i, i < (artifacts ck).length → (if 2 * i < k then some new else prev) = b := by
      intro i hi
      have he := getElem?_eq_getElem hi
      rw [← hbatch i _ he]
      exact hb _ (mem_of_getElem? he)
    -- the first put is done, the last is not
    have hfirst := hget 0 (by omega)
    have hlast := hget ((artifacts ck).length - 1) (by omega)
    rw [if_pos (by omega)] at hfirst
    rw [if_neg (by omega), ← hfirst] at hlast
    exact h.ne hlast
  · rintro (rfl | hk)
    · refine ⟨prev, ?_⟩
      rw [crash_zero]
      exact h.committed
    · refine ⟨some new, ?_⟩
      intro rel hrel
      obtain ⟨i, hi⟩ := mem_iff_getElem?.mp hrel
      have hlt : i < (artifacts ck).length := (List.getElem?_eq_some_iff.mp hi).1
      rw [hbatch i rel hi, if_pos (by omega)]

/-- Batch 1 has staged the source's offsets and one operator's state over those of batch 0. -/
def secondBatch : CheckpointStore (Written Unit) :=
  ((((∅ : CheckpointStore (Written Unit)).put [.sources, .num 0, .committed] ⟨0, ()⟩).put
    [.state, .op 0, .committed] ⟨0, ()⟩).put
      [.sources, .num 0, .staged] ⟨1, ()⟩).put [.state, .op 0, .staged] ⟨1, ()⟩

/-- With the whole commit done, both are of batch 1. -/
theorem committed_together_secondBatch :
    StagedOver secondBatch 1 (some 0) ∧
      SameBatch (artifacts secondBatch)
        (crash secondBatch (commitSourceOffsets (fun _ => false) secondBatch) 4) := by
  have h : StagedOver secondBatch 1 (some 0) := ⟨by decide, by decide, by decide⟩
  exact ⟨h, (committed_together_iff _ _ 1 (some 0) h 4).mpr (.inr (by decide))⟩

/-- A crash between the two promotions: the source is at batch 1, the state at batch 0. -/
theorem secondBatch_torn :
    committedBatch (crash secondBatch (commitSourceOffsets (fun _ => false) secondBatch) 2)
        [.sources, .num 0, .staged] = some 1 ∧
      committedBatch (crash secondBatch (commitSourceOffsets (fun _ => false) secondBatch) 2)
        [.state, .op 0, .staged] = some 0 ∧
      ¬ SameBatch (artifacts secondBatch)
        (crash secondBatch (commitSourceOffsets (fun _ => false) secondBatch) 2) := by
  refine ⟨by decide, by decide, ?_⟩
  rintro ⟨b, hb⟩
  have hsource := hb [.sources, .num 0, .staged] (by decide)
  have hstate := hb [.state, .op 0, .staged] (by decide)
  rw [← hsource] at hstate
  exact absurd hstate (by decide)

end Zelox.MicroBatch
