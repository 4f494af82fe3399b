import Zelox.Iceberg.CommitLog
import Zelox.Iceberg.Evolution

/-!
# First writes to a table

A commit that finds no table, or a table without a snapshot, puts its metadata without a condition.
Two such commits at the same time overwrite each other (`not_serializable_first_writes`).  If
every such put finds the store as the commit has read it, and no commit redefines a schema, then
the commits are serializable (`serializable_of_fits`).
-/

namespace Zelox.Iceberg

open Runs List Option

variable {L : Type} [PartitionLiteral L] {w : Writers L}

/-- The commit defines no schema id anew that `m` has. -/
def CommitInfo.KeepsSchemas (c : CommitInfo L) (m : TableMetadata L) : Prop :=
  ∀ s, c.schema = some s → ∀ b, bound Schema.schemaId m.schemas s.schemaId = some b → b = s

/-- What a commit needs before it puts its metadata: what it has loaded is still the latest and
unchanged, or there is no table, and it keeps the schemas. -/
def Phase.Fits (c : CommitInfo L) (σ : CommitState L) : Phase L → Prop
  | .creating _ => σ.store.files = []
  | .replacing _ n m => (∃ e, σ.latest = some e ∧ e.name = n ∧ e.metadata = m) ∧ c.KeepsSchemas m
  | .putting _ _ m => c.KeepsSchemas m
  | _ => True

omit [PartitionLiteral L] in
theorem Phase.Fits.onTop {c : CommitInfo L} {σ : CommitState L} {p : Phase L} (h : p.Fits c σ) :
    p.OnTop σ := by
  cases p with
  | replacing a n m => exact h.1
  | creating a => exact h
  | _ => trivial

/-- The commits have taken effect one after the other. -/
structure Serializable (w : Writers L) (m₀ : Option (TableMetadata L)) (σ : CommitState L) :
    Prop where
  serial : Serial w m₀ σ.log (σ.latest.map (·.metadata))
  once : ∀ r, σ.phase r = .done .committed → Once σ.log r
  rows : ∀ pre p post, σ.log = pre ++ p :: post →
    (∀ q ∈ post, (w.info q.run).operation = .append) →
    ∀ f ∈ (w.info p.run).dataFiles, ∃ e t, σ.latest = some e ∧
      e.metadata.currentSnapshot = some t ∧ f.filePath ∈ t.livePaths
  schemas : ∀ p ∈ σ.log, ∀ i s, bound Schema.schemaId p.after.schemas i = some s →
    ∀ e, σ.latest = some e → bound Schema.schemaId e.metadata.schemas i = some s

/-! ### What a step puts -/

/-- A step puts at most one file, and the commit has just what `Fits` is about. -/
theorem step_log {v₀ : Int} {m₀ : Option (TableMetadata L)} {σ : CommitState L} {r : Nat}
    (h : Inv w v₀ m₀ σ) (hf : (σ.phase r).Fits (w.info r) σ) :
    (σ.step w { run := r }).log = σ.log ∨ ∃ p, (σ.step w { run := r }).log = σ.log ++ [p] ∧
      p.run = r ∧ ∀ m, p.before = some m → (w.info r).KeepsSchemas m := by
  unfold CommitState.step
  cases hphase : σ.phase r with
  | creating a =>
    rw [hphase] at hf
    simp only [perform]
    cases (w.info r).newTable (w.snapshotId r a) with
    | none => exact .inl rfl
    | some m' =>
      refine .inr ⟨_, rfl, rfl, fun m hm => ?_⟩
      have hnone : σ.latest = none := by
        unfold CommitState.latest
        rw [show σ.store.files = [] from hf]
        cases σ.store.hint <;> rfl
      simp [hnone] at hm
  | replacing a n m =>
    rw [hphase] at hf
    obtain ⟨⟨e, he, rfl, rfl⟩, hk⟩ := hf
    simp only [perform]
    cases (w.info r).commit (w.snapshotId r a) e.metadata with
    | none => exact .inl rfl
    | some m' =>
      refine .inr ⟨_, rfl, rfl, fun m hm => ?_⟩
      obtain rfl : e.metadata = m := by simpa [he] using hm
      exact hk
  | putting a n m =>
    have hp := h.phases r
    rw [hphase] at hf hp
    simp only [perform]
    split
    · exact .inl rfl
    · next hfree =>
      obtain ⟨e, he, rfl, -⟩ := h.extends_putting hp.2.1 hp.2.2 hfree
      cases (w.info r).commit (w.snapshotId r a) e.metadata with
      | none => exact .inl rfl
      | some m' =>
        refine .inr ⟨_, rfl, rfl, fun m hm => ?_⟩
        obtain rfl : e.metadata = m := by simpa [he] using hm
        exact hf
  | _ => exact .inl rfl

theorem bound_commit {c : CommitInfo L} {id : Int} {m m' : TableMetadata L}
    (h : c.commit id m = some m') (hk : c.KeepsSchemas m) {i : Int} {s : Schema}
    (hs : bound Schema.schemaId m.schemas i = some s) :
    bound Schema.schemaId m'.schemas i = some s := by
  have hd := congrArg Prod.fst (CommitInfo.commit_updates h).2
  have happ : (c.applyUpdates m).schemas =
      c.schema.elim m.schemas (replaceOrPush Schema.schemaId · m.schemas) := by
    unfold CommitInfo.applyUpdates
    cases c.schema <;> cases c.partitionSpec <;> rfl
  rw [show m'.schemas = _ from hd.trans happ]
  cases hc : c.schema with
  | none => exact hs
  | some s' =>
    rw [elim_some, bound_replaceOrPush]
    split
    · next hi =>
      subst hi
      rw [hk s' hc s hs]
    · exact hs

/-! ### What a log keeps -/

theorem Serial.bound {m m' : TableMetadata L} {log : List (Put L)}
    (h : Serial w (some m) log (some m'))
    (hk : ∀ p ∈ log, ∀ x, p.before = some x → (w.info p.run).KeepsSchemas x) {i : Int} {s : Schema}
    (hs : bound Schema.schemaId m.schemas i = some s) :
    Iceberg.bound Schema.schemaId m'.schemas i = some s := by
  induction log generalizing m with
  | nil => rwa [show m' = m from some.inj h]
  | cons q log ih =>
    obtain ⟨hb, hc, h⟩ := h
    unfold Writers.Commits at hc
    rw [hb] at hc
    refine ih h (fun p hp => hk p (mem_cons_of_mem q hp)) ?_
    exact bound_commit hc (hk q mem_cons_self m hb) hs

theorem Serial.livePaths {m : TableMetadata L} {m' : Option (TableMetadata L)} {log : List (Put L)}
    (h : Serial w (some m) log m') (hw : ∀ p ∈ log, ∃ s, w.Wrote p s)
    (happ : ∀ p ∈ log, (w.info p.run).operation = .append) {t : Snapshot L}
    (ht : m.currentSnapshot = some t) {f : String} (hf : f ∈ t.livePaths) :
    ∃ x t', m' = some x ∧ x.currentSnapshot = some t' ∧ f ∈ t'.livePaths := by
  induction log generalizing m t with
  | nil => exact ⟨m, t, h, ht, hf⟩
  | cons q log ih =>
    obtain ⟨hb, -, h⟩ := h
    obtain ⟨s, -, hs⟩ := hw q mem_cons_self
    have hkeep := hs.keeps (happ q mem_cons_self) t (by rw [hb]; exact ht) f hf
    exact ih h (fun p hp => hw p (mem_cons_of_mem q hp))
      (fun p hp => happ p (mem_cons_of_mem q hp)) hs.adds.current hkeep

theorem Inv.serializable {v₀ : Int} {m₀ : Option (TableMetadata L)} {σ : CommitState L}
    (h : Inv w v₀ m₀ σ) (hw : ∀ p ∈ σ.log, ∃ s, w.Wrote p s)
    (hk : ∀ p ∈ σ.log, ∀ x, p.before = some x → (w.info p.run).KeepsSchemas x) :
    Serializable w m₀ σ := by
  refine ⟨h.serial, fun r hr => ?_, fun pre p post hlog happ f hf => ?_, fun p hp i s hs e he => ?_⟩
  · have hp := h.phases r
    rw [hr] at hp
    exact hp
  · have hser := h.serial
    rw [hlog] at hser hw
    obtain ⟨s, -, hs⟩ := hw p (mem_append_right _ mem_cons_self)
    obtain ⟨x, t, hx, ht, hft⟩ := hser.split.livePaths
      (fun q hq => hw q (mem_append_right _ (mem_cons_of_mem p hq))) happ
      hs.adds.current (hs.files f hf)
    obtain ⟨e, he, rfl⟩ := map_eq_some_iff.mp hx
    exact ⟨e, t, he, ht, hft⟩
  · have hser := h.serial
    obtain ⟨pre, post, hlog⟩ := append_of_mem hp
    rw [hlog, he] at hser
    rw [hlog] at hk
    exact hser.split.bound
      (fun q hq => hk q (mem_append_right _ (mem_cons_of_mem p hq))) hs

/-- Commits are serializable if each finds the store as it has read it when it puts its metadata. -/
theorem serializable_of_fits (w : Writers L) (s : Store L) (hs : s.Valid)
    (hrefs : ∀ e, findLatest s.hint s.files = some e → e.metadata.RefsValid)
    (hd : w.Distinct ((findLatest s.hint s.files).map (·.metadata))) (schedule : List Nat)
    (hfits : Along (fun σ r => σ.step w { run := r }) (fun σ r => (σ.phase r).Fits (w.info r) σ)
      (CommitState.init w s) schedule) :
    ∀ pre post, schedule = pre ++ post →
      Serializable w ((findLatest s.hint s.files).map (·.metadata)) (afterSchedule w s pre) := by
  rintro pre post rfl
  have hpre := ((along_append _ _ _ pre post).mp hfits).1
  obtain ⟨v₀, hinv₀, hv₁⟩ := exists_inv_init w s hs
  obtain ⟨hinv, hk⟩ := along_inv _ _ (fun σ =>
    Inv w v₀ ((findLatest s.hint s.files).map (·.metadata)) σ ∧
      ∀ p ∈ σ.log, ∀ x, p.before = some x → (w.info p.run).KeepsSchemas x)
    (fun σ r hf hσ => by
      refine ⟨hσ.1.step hv₁ (i := { run := r }) rfl hf.onTop, ?_⟩
      obtain hlog | ⟨q, hlog, rfl, hq⟩ := step_log hσ.1 hf
      · rw [hlog]
        exact hσ.2
      · rw [hlog]
        exact Lists.forall_mem_concat.mpr ⟨hσ.2, hq⟩)
    (CommitState.init w s) pre hpre
    ⟨hinv₀, fun p hp => absurd hp not_mem_nil⟩
  refine hinv.serializable (hinv.writes hd fun m hm => ?_) hk
  obtain ⟨e, he, rfl⟩ := map_eq_some_iff.mp hm
  exact hrefs e he

/-! ### Two first writes -/

/-- Appends of one file each to a table that does not exist. -/
def firstWrites : Writers Int where
  info r := { dataFiles := [{ filePath := if r = 0 then "a" else "b" }]
              schema := some { schemaId := 0, fields := [{ id := 1, name := "x" }] } }
  snapshotId r _ := r + 1

/-- Both find no table and create it; both report success, and the file of the first is lost. -/
theorem not_serializable_first_writes :
    (afterSchedule firstWrites {} [0, 1, 0, 1, 0, 1, 0, 1]).phase 0 = .done .committed ∧
    (afterSchedule firstWrites {} [0, 1, 0, 1, 0, 1, 0, 1]).phase 1 = .done .committed ∧
    ¬ Serializable firstWrites none (afterSchedule firstWrites {} [0, 1, 0, 1, 0, 1, 0, 1]) := by
  refine ⟨by decide +kernel, by decide +kernel, fun h => ?_⟩
  have hlive : ((afterSchedule firstWrites {} [0, 1, 0, 1, 0, 1, 0, 1]).latest.bind
      (·.metadata.currentSnapshot)).map (·.livePaths) = some ["b"] := by decide +kernel
  have hfirst : (afterSchedule firstWrites {} [0, 1, 0, 1, 0, 1, 0, 1]).log.map (·.run) =
      [0, 1] := by
    decide +kernel
  obtain ⟨p, log, hlog, hp, hrest⟩ := map_eq_cons_iff.mp hfirst
  obtain ⟨e, t, he, ht, hf⟩ := h.rows [] p log hlog (fun q _ => rfl) { filePath := "a" }
    (by rw [hp]; exact mem_singleton_self _)
  rw [he, bind_some, ht, map_some, some.injEq] at hlive
  rw [hlive] at hf
  revert hf
  decide +kernel

/-- One after the other, the second on the table of the first. -/
theorem serializable_one_by_one :
    (∀ e, findLatest (L := Int) none [] = some e → e.metadata.RefsValid) ∧
    Along (fun σ r => σ.step firstWrites { run := r })
      (fun σ r => (σ.phase r).Fits (firstWrites.info r) σ) (CommitState.init firstWrites {})
      [0, 0, 0, 0, 1, 1, 1, 1, 1] ∧
    Serializable firstWrites none (afterSchedule firstWrites {} [0, 0, 0, 0, 1, 1, 1, 1, 1]) := by
  have hkeeps : firstWrites.info 1 |>.KeepsSchemas
      { schemas := [{ schemaId := 0, fields := [{ id := 1, name := "x" }] }] } := by
    intro s hs b hb
    rw [← some.inj hs] at hb ⊢
    exact (some.inj hb).symm
  have hrefs : ∀ e, findLatest (L := Int) none [] = some e → e.metadata.RefsValid := fun e he =>
    absurd he (some_ne_none e).symm
  have hd : firstWrites.Distinct none := by
    refine ⟨fun r a s hs => absurd hs not_mem_nil, fun r a r' a' h => ?_⟩
    have : (r : Int) + 1 = r' + 1 := h
    omega
  have hfits : Along (fun σ r => σ.step firstWrites { run := r })
      (fun σ r => (σ.phase r).Fits (firstWrites.info r) σ) (CommitState.init firstWrites {})
      [0, 0, 0, 0, 1, 1, 1, 1, 1] := by
    refine ⟨trivial, trivial, rfl, trivial, trivial, trivial, trivial, trivial, ?_, trivial⟩
    exact hkeeps
  exact ⟨hrefs, hfits, serializable_of_fits firstWrites {} ⟨nodup_nil, fun f hf =>
    absurd hf not_mem_nil⟩ hrefs hd _ hfits _ [] (append_nil _).symm⟩

end Zelox.Iceberg
