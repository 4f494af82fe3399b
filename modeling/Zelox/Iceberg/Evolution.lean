import Zelox.Iceberg.Commit
import Zelox.Lib.Runs

/-!
# Schemas and partition specs along commits

The writer (`physical_plan/writer_exec.rs`, `schema_evolution.rs`) numbers a new schema after the
metadata it has read, and requires that the metadata it is committed to still has the same current
schema; a new partition spec takes the number of the table's default spec.  So schema ids keep
their meaning, and a spec id does if no overwrite of the schema brings other partition columns.
A write that was planned before the table existed has no requirements.
-/

namespace Zelox.Iceberg

open List Option

variable {L : Type}

/-! ### What an id is bound to -/

section bindings

variable {α : Type} (key : α → Int)

/-- The element that readers find under the id `i`. -/
def bound (as : List α) (i : Int) : Option α := as.find? (key · = i)

theorem bound_cons (a : α) (as : List α) (i : Int) :
    bound key (a :: as) i = if key a = i then some a else bound key as i := by
  by_cases h : key a = i <;> simp [bound, h]

theorem bound_replaceOrPush (a : α) (as : List α) (i : Int) :
    bound key (replaceOrPush key a as) i = if key a = i then some a else bound key as i := by
  induction as with
  | nil => exact bound_cons key a [] i
  | cons b bs ih =>
    unfold replaceOrPush
    by_cases hb : key b = key a
    · rw [if_pos hb, bound_cons, bound_cons, hb]
      split <;> rfl
    · rw [if_neg hb, bound_cons, bound_cons, ih]
      by_cases hi : key b = i
      · rw [if_pos hi, if_pos hi, if_neg fun h => hb (hi.trans h.symm)]
      · rw [if_neg hi, if_neg hi]

theorem replaceOrPush_eq_self {a : α} {as : List α} (h : bound key as (key a) = some a) :
    replaceOrPush key a as = as := by
  induction as with
  | nil => cases h
  | cons b bs ih =>
    unfold replaceOrPush
    rw [bound_cons] at h
    by_cases hb : key b = key a
    · rw [if_pos hb] at h ⊢
      rw [some.inj h]
    · rw [if_neg hb] at h ⊢
      rw [ih h]

theorem key_of_bound {as : List α} {i : Int} {a : α} (h : bound key as i = some a) :
    key a = i ∧ a ∈ as := by
  unfold bound at h
  exact ⟨by simpa using find?_some h, mem_of_find?_eq_some h⟩

end bindings

/-- Every schema id and every spec id of `m` is bound to the same in `m'`. -/
structure KeepsBindings (m m' : TableMetadata L) : Prop where
  schema : ∀ i s, bound Schema.schemaId m.schemas i = some s →
    bound Schema.schemaId m'.schemas i = some s
  spec : ∀ i s, bound PartitionSpec.specId m.partitionSpecs i = some s →
    bound PartitionSpec.specId m'.partitionSpecs i = some s

theorem KeepsBindings.refl (m : TableMetadata L) : KeepsBindings m m :=
  ⟨fun _ _ h => h, fun _ _ h => h⟩

theorem KeepsBindings.trans {m₁ m₂ m₃ : TableMetadata L} (h₁ : KeepsBindings m₁ m₂)
    (h₂ : KeepsBindings m₂ m₃) : KeepsBindings m₁ m₃ :=
  ⟨fun i s h => h₂.schema i s (h₁.schema i s h), fun i s h => h₂.spec i s (h₁.spec i s h)⟩

/-! ### The writer -/

inductive SchemaMode where
  | merge | overwrite
deriving DecidableEq, Repr

/-- A column or transform of `partitionBy`, with the name its field gets. -/
structure PartitionColumn where
  column : String
  name : String
  transform : Transform
deriving DecidableEq, Repr

/-- A write; `fields` are the columns that the writer has come to. -/
structure Write (L : Type) where
  operation : Operation := .append
  schemaMode : Option SchemaMode := none
  fields : List NestedField
  partitionColumns : List PartitionColumn := []
  dataFiles : List (DataFile L) := []
deriving DecidableEq, Repr

def nextSchemaId (m : TableMetadata L) : Int := (m.schemas.map (·.schemaId)).max?.getD 0 + 1

/-- The fields of the spec that the columns of `partitionBy` make. -/
def partitionFields (s : Schema) (columns : List PartitionColumn) : Option (List PartitionField) :=
  columns.zipIdx.mapM fun c => (s.fieldIdByName c.1.column).map fun id =>
    { sourceId := id, fieldId := 1000 + c.2, name := c.1.name, transform := c.1.transform }

namespace Write

variable (w : Write L)

def specFields : Option (List PartitionField) :=
  partitionFields { schemaId := 0, fields := w.fields } w.partitionColumns

/-- `SchemaEvolver::evolve`: the new schema, if the write changes it. -/
def evolve (m : TableMetadata L) (current : Schema) : Option Schema :=
  match w.schemaMode with
  | none => none
  | some .merge =>
    if w.fields = current.fields then none
    else some { schemaId := nextSchemaId m, fields := w.fields }
  | some .overwrite => some { schemaId := nextSchemaId m, fields := w.fields }

/-- `validate_partition_spec_sources` on a new schema. -/
def keepsSources (m : TableMetadata L) (s : Schema) : Bool :=
  m.defaultPartitionSpec.all fun spec =>
    spec.fields.all fun f => s.fields.any (·.id = f.sourceId)

/-- The spec of a write that overwrites the schema. -/
def overwriteSpec (m : TableMetadata L) : Option (Option PartitionSpec) :=
  if w.partitionColumns = [] then some m.defaultPartitionSpec
  else w.specFields.map fun fields =>
    some { specId := m.defaultPartitionSpec.elim 0 (·.specId), fields := fields }

/-- The commit of a write to a table that it has read as `m`. -/
def planExisting (m : TableMetadata L) : Option (CommitInfo L) :=
  m.currentSchema.bind fun current =>
    if (w.evolve m current).all (keepsSources m) then
      (if w.schemaMode = some .overwrite then w.overwriteSpec m else some none).map fun spec =>
        { operation := w.operation
          dataFiles := w.dataFiles
          requirements := [.lastAssignedFieldIdMatch m.lastColumnId,
            .currentSchemaIdMatch m.currentSchemaId]
          schema := w.evolve m current
          partitionSpec := spec }
    else none

def newSchema : Schema := { schemaId := 0, fields := w.fields }

/-- The commit of a write that was planned when there was no table. -/
def planNew : Option (CommitInfo L) :=
  w.specFields.map fun fields =>
    { operation := w.operation
      dataFiles := w.dataFiles
      schema := some w.newSchema
      partitionSpec := some { fields := fields } }

end Write

/-! ### Versions of the table -/

/-- The current metadata and the versions before it. -/
structure Versions (L : Type) where
  earlier : List (TableMetadata L) := []
  current : TableMetadata L

/-- A write committed with the snapshot id `id`; `read` is the version that the writer has read. -/
structure WriteStep (L : Type) where
  write : Write L
  id : Int
  read : Option Nat

def WriteStep.plan (i : WriteStep L) (v : Versions L) : Option (CommitInfo L) :=
  i.read.elim i.write.planNew fun n => (v.earlier ++ [v.current])[n]?.bind i.write.planExisting

/-- The next version, if the write is committed. -/
def Versions.step [PartitionLiteral L] (v : Versions L) (i : WriteStep L) : Versions L :=
  ((i.plan v).bind fun c => c.commit i.id v.current).elim v fun m =>
    { earlier := v.earlier ++ [v.current], current := m }

/-- A write planned without a table brings the table's current schema, and partition columns in
place of the table's make its default spec. -/
def WriteStep.Fits (v : Versions L) (i : WriteStep L) : Prop :=
  (i.read = none → v.current.currentSchema = some i.write.newSchema) ∧
    (i.read = none ∨ i.write.schemaMode = some .overwrite ∧ i.write.partitionColumns ≠ [] →
      ∀ spec, v.current.defaultPartitionSpec = some spec →
        ∀ fields, i.write.specFields = some fields → fields = spec.fields)

/-! ### One commit -/

/-- What a commit may do to the schemas and specs of the table. -/
structure Evolves (m m' : TableMetadata L) : Prop where
  keeps : KeepsBindings m m'
  schema : m'.schemas = m.schemas ∧ m'.currentSchemaId = m.currentSchemaId ∨
    m.currentSchemaId < m'.currentSchemaId
  specId : m'.defaultSpecId = m.defaultSpecId

/-- The schema of a commit is the current one, or its id is new and above the current one. -/
def NewSchema (m : TableMetadata L) (s : Schema) : Prop :=
  m.currentSchema = some s ∨
    bound Schema.schemaId m.schemas s.schemaId = none ∧ m.currentSchemaId < s.schemaId

/-- The spec of a commit has the fields of the default spec, if there is one, and its id or none. -/
def SameSpec (m : TableMetadata L) (s : PartitionSpec) : Prop :=
  (s.specId = 0 ∨ s.specId = m.defaultSpecId) ∧
    ∀ spec, m.defaultPartitionSpec = some spec → s.fields = spec.fields

variable {m : TableMetadata L}

theorem specFor_eq {s : PartitionSpec} (h : SameSpec m s) :
    CommitInfo.specFor m s = { s with specId := m.defaultSpecId } := by
  unfold CommitInfo.specFor
  split
  · rfl
  · next hn =>
    have : s.specId = m.defaultSpecId := by
      obtain h0 | hd := h.1
      · by_contra hne
        exact hn ⟨h0, fun hd => hne (h0.trans hd.symm)⟩
      · exact hd
    rw [← this]

theorem evolves_applySchemaUpdate {s : Schema} (h : NewSchema m s) :
    Evolves m (m.applySchemaUpdate s) := by
  obtain hs | ⟨hnone, hlt⟩ := h
  · have hid := (key_of_bound Schema.schemaId hs).1
    have hself : replaceOrPush Schema.schemaId s m.schemas = m.schemas :=
      replaceOrPush_eq_self _ (hid.symm ▸ hs)
    refine ⟨⟨fun i s' h => ?_, fun _ _ h => h⟩, .inl ⟨hself, hid⟩, rfl⟩
    simp only [TableMetadata.applySchemaUpdate, hself]
    exact h
  · refine ⟨⟨fun i s' h => ?_, fun _ _ h => h⟩, .inr hlt, rfl⟩
    simp only [TableMetadata.applySchemaUpdate, bound_replaceOrPush]
    rw [if_neg, h]
    rintro rfl
    rw [hnone] at h
    cases h

theorem evolves_applyPartitionSpecUpdate {s : PartitionSpec} (h : SameSpec m s) :
    Evolves m (m.applyPartitionSpecUpdate (CommitInfo.specFor m s)) := by
  rw [specFor_eq h]
  refine ⟨⟨fun _ _ h => h, fun i spec hi => ?_⟩, .inl ⟨rfl, rfl⟩, rfl⟩
  simp only [TableMetadata.applyPartitionSpecUpdate, bound_replaceOrPush]
  by_cases hd : m.defaultSpecId = i
  · subst hd
    rw [if_pos rfl, h.2 spec hi]
    have := (key_of_bound PartitionSpec.specId hi).1
    rw [← this]
  · rw [if_neg hd, hi]

theorem Evolves.trans {m₁ m₂ m₃ : TableMetadata L} (h₁ : Evolves m₁ m₂) (h₂ : Evolves m₂ m₃) :
    Evolves m₁ m₃ := by
  refine ⟨h₁.keeps.trans h₂.keeps, ?_, h₂.specId.trans h₁.specId⟩
  obtain ⟨hs, hc⟩ | hlt := h₁.schema
  · rw [← hs, ← hc]
    exact h₂.schema
  · refine .inr ?_
    obtain ⟨-, hc⟩ | hlt' := h₂.schema <;> omega

theorem Evolves.refl (m : TableMetadata L) : Evolves m m :=
  ⟨KeepsBindings.refl m, .inl ⟨rfl, rfl⟩, rfl⟩

theorem evolves_commit [PartitionLiteral L] {c : CommitInfo L} {id : Int} {m m' : TableMetadata L}
    (h : c.commit id m = some m') (hs : ∀ s, c.schema = some s → NewSchema m s)
    (hp : ∀ s, c.partitionSpec = some s → SameSpec m s) : Evolves m m' := by
  have hm' := (CommitInfo.commit_updates h).2
  have happ : Evolves m (c.applyUpdates m) := by
    unfold CommitInfo.applyUpdates
    have hschema : Evolves m (c.schema.elim m m.applySchemaUpdate) := by
      cases hc : c.schema with
      | none => exact Evolves.refl m
      | some s => exact evolves_applySchemaUpdate (hs s hc)
    refine hschema.trans ?_
    cases hc : c.partitionSpec with
    | none => exact Evolves.refl _
    | some s =>
      refine evolves_applyPartitionSpecUpdate ?_
      have hspecs : (c.schema.elim m m.applySchemaUpdate).defaultPartitionSpec =
          m.defaultPartitionSpec ∧
          (c.schema.elim m m.applySchemaUpdate).defaultSpecId = m.defaultSpecId := by
        cases c.schema <;> exact ⟨rfl, rfl⟩
      simpa only [SameSpec, hspecs] using hp s hc
  simp only [TableMetadata.definitions, Prod.mk.injEq] at hm'
  obtain ⟨h1, h2, h3, h4, -⟩ := hm'
  obtain ⟨⟨k1, k2⟩, k3, k4⟩ := happ
  exact ⟨⟨h1 ▸ k1, h3 ▸ k2⟩, by rw [h1, h2]; exact k3, h4.trans k4⟩

/-! ### Runs -/

/-- What is known of the versions before the current one. -/
structure Versions.Inv (v : Versions L) : Prop where
  keeps : ∀ e ∈ v.earlier, KeepsBindings e v.current
  schemaId : ∀ e ∈ v.earlier, e.currentSchemaId ≤ v.current.currentSchemaId
  schemas : ∀ e ∈ v.earlier, e.currentSchemaId = v.current.currentSchemaId →
    e.schemas = v.current.schemas
  specId : ∀ e ∈ v.earlier, e.defaultSpecId = v.current.defaultSpecId

theorem Versions.Inv.all {v : Versions L} (h : v.Inv) {e : TableMetadata L}
    (he : e ∈ v.earlier ++ [v.current]) : KeepsBindings e v.current ∧
      e.currentSchemaId ≤ v.current.currentSchemaId ∧
      (e.currentSchemaId = v.current.currentSchemaId → e.schemas = v.current.schemas) ∧
      e.defaultSpecId = v.current.defaultSpecId := by
  obtain he | he := mem_append.mp he
  · exact ⟨h.keeps e he, h.schemaId e he, h.schemas e he, h.specId e he⟩
  · obtain rfl := mem_singleton.mp he
    exact ⟨KeepsBindings.refl _, Int.le_refl _, fun _ => rfl, rfl⟩

theorem Versions.Inv.evolve {v : Versions L} (h : v.Inv) (hm : Evolves v.current m) :
    Versions.Inv { earlier := v.earlier ++ [v.current], current := m } := by
  have hle : v.current.currentSchemaId ≤ m.currentSchemaId := by
    obtain ⟨-, hc⟩ | hlt := hm.schema <;> omega
  refine ⟨fun e he => (h.all he).1.trans hm.keeps, fun e he => Int.le_trans (h.all he).2.1 hle,
    fun e he heq => ?_, fun e he => (h.all he).2.2.2.trans hm.specId.symm⟩
  obtain ⟨-, hid, hsch, -⟩ := h.all he
  obtain ⟨hs, hc⟩ | hlt := hm.schema
  · exact (hsch (heq.trans hc)).trans hs.symm
  · have heq : e.currentSchemaId = m.currentSchemaId := heq
    omega

theorem lt_nextSchemaId {s : Schema} (h : s ∈ m.schemas) :
    s.schemaId < nextSchemaId m := by
  unfold nextSchemaId
  have hmem : s.schemaId ∈ m.schemas.map (·.schemaId) := List.mem_map_of_mem h
  cases hmax : (m.schemas.map (·.schemaId)).max? with
  | none =>
    rw [max?_eq_none_iff.mp hmax] at hmem
    exact absurd hmem not_mem_nil
  | some n =>
    have := (max?_eq_some_iff.mp hmax).2 _ hmem
    simp only [getD_some]
    omega

section

variable {w : Write L} {e m : TableMetadata L} {c : CommitInfo L} (hc : w.planExisting e = some c)
include hc

theorem newSchema_of_planExisting (hv : validateRequirements (some m) c.requirements)
    (hsch : e.currentSchemaId = m.currentSchemaId → e.schemas = m.schemas) (s : Schema)
    (hs : c.schema = some s) : NewSchema m s := by
  obtain ⟨current, hcur, hc⟩ := bind_eq_some_iff.mp hc
  split at hc
  · obtain ⟨spec, -, rfl⟩ := map_eq_some_iff.mp hc
    simp only [validateRequirements, all_cons, TableRequirement.holds, any_some,
      all_nil, Bool.and_true, Bool.and_eq_true, decide_eq_true_eq] at hv
    have hid : s.schemaId = nextSchemaId e := by
      simp only [Write.evolve] at hs
      split at hs
      · cases hs
      · split at hs
        · cases hs
        · rw [← some.inj hs]
      · rw [← some.inj hs]
    obtain ⟨hkey, hmem⟩ := key_of_bound Schema.schemaId hcur
    refine .inr ⟨?_, by rw [hid, hv.2, ← hkey]; exact lt_nextSchemaId hmem⟩
    refine find?_eq_none.mpr fun s' hs' h => ?_
    rw [← hsch hv.2.symm] at hs'
    have := lt_nextSchemaId hs'
    have := of_decide_eq_true h
    omega
  · cases hc

theorem sameSpec_of_planExisting (hkeeps : KeepsBindings e m)
    (hid : e.defaultSpecId = m.defaultSpecId)
    (hfits : w.schemaMode = some .overwrite ∧ w.partitionColumns ≠ [] →
      ∀ spec, m.defaultPartitionSpec = some spec →
        ∀ fields, w.specFields = some fields → fields = spec.fields) (s : PartitionSpec)
    (hs : c.partitionSpec = some s) : SameSpec m s := by
  obtain ⟨current, -, hc⟩ := bind_eq_some_iff.mp hc
  split at hc
  · obtain ⟨spec, hspec, rfl⟩ := map_eq_some_iff.mp hc
    obtain rfl : spec = some s := hs
    split at hspec
    · next hmode =>
      unfold Write.overwriteSpec at hspec
      split at hspec
      · -- the default spec that was read is still the default spec
        have hdef := some.inj hspec
        have hkey := (key_of_bound PartitionSpec.specId hdef).1
        have hm := hkeeps.spec _ _ hdef
        rw [hid] at hm
        refine ⟨.inr (hkey.trans hid), fun spec h => ?_⟩
        exact congrArg PartitionSpec.fields (some.inj (hm.symm.trans h))
      · next hcols =>
        obtain ⟨fields, hfields, heq⟩ := map_eq_some_iff.mp hspec
        rw [← some.inj heq]
        refine ⟨?_, fun spec h => hfits ⟨hmode, hcols⟩ spec h fields hfields⟩
        cases hd : e.defaultPartitionSpec with
        | none => exact .inl rfl
        | some d =>
          have hkey := (key_of_bound PartitionSpec.specId hd).1
          exact .inr (hkey.trans hid)
    · cases hspec
  · cases hc

end

variable [PartitionLiteral L]

theorem Versions.Inv.step {v : Versions L} {i : WriteStep L} (hi : i.Fits v) (h : v.Inv) :
    (v.step i).Inv := by
  unfold Versions.step
  cases hc : (i.plan v).bind fun c => c.commit i.id v.current with
  | none => exact h
  | some m =>
    obtain ⟨c, hplan, hcommit⟩ := bind_eq_some_iff.mp hc
    refine h.evolve ?_
    unfold WriteStep.plan at hplan
    cases hr : i.read with
    | none =>
      rw [hr] at hplan
      obtain ⟨fields, hfields, rfl⟩ := map_eq_some_iff.mp hplan
      refine evolves_commit hcommit (fun s hs => ?_) fun s hs => ?_
      · rw [← some.inj hs]
        exact .inl (hi.1 hr)
      · rw [← some.inj hs]
        exact ⟨.inl rfl, fun spec h => hi.2 (.inl hr) spec h fields hfields⟩
    | some n =>
      rw [hr] at hplan
      obtain ⟨e, he, hplan⟩ := bind_eq_some_iff.mp hplan
      obtain ⟨hkeeps, -, hsch, hid⟩ := h.all (mem_of_getElem? he)
      have hv := (CommitInfo.commit_updates hcommit).1
      exact evolves_commit hcommit (newSchema_of_planExisting hplan hv hsch)
        (sameSpec_of_planExisting hplan hkeeps hid fun h => hi.2 (.inr h))

open Runs in
/-- Schema and spec ids keep their meaning along every sequence of commits of which none brings
other definitions for them. -/
theorem keepsBindings_run (m₀ : TableMetadata L) (steps : List (WriteStep L))
    (hfits : Along Versions.step (fun v i => i.Fits v) { current := m₀ } steps) :
    ∀ pre post, steps = pre ++ post →
      ∀ e ∈ (run Versions.step { current := m₀ } pre).earlier,
        KeepsBindings e (run Versions.step { current := m₀ } pre).current := by
  rintro pre post rfl
  have hpre := ((along_append _ _ _ pre post).mp hfits).1
  have hinit : Versions.Inv ({ current := m₀ } : Versions L) :=
    ⟨fun e he => absurd he not_mem_nil, fun e he => absurd he not_mem_nil,
      fun e he => absurd he not_mem_nil, fun e he => absurd he not_mem_nil⟩
  have hinv := along_inv Versions.step _ Versions.Inv (fun v i hi hv => hv.step hi) _ pre hpre hinit
  exact hinv.keeps

/-! ### Overwriting the partition columns -/

/-- A table with two columns, partitioned by the first, and files in two partitions. -/
def partitionedTable : TableMetadata Int where
  lastColumnId := 2
  schemas := [{ schemaId := 0, fields := [{ id := 1, name := "a" }, { id := 2, name := "b" }] }]
  partitionSpecs := [{ fields := [
    { sourceId := 1, fieldId := 1000, name := "a", transform := .identity }] }]
  lastPartitionId := 1000
  currentSnapshotId := some 1
  mainRef := some 1
  snapshots := [twoPartitions]

/-- An overwrite with `overwriteSchema` and `partitionBy` of one column. -/
def overwriteBy (column : String) : WriteStep Int where
  write := {
    operation := .overwrite
    schemaMode := some .overwrite
    fields := [{ id := 1, name := "a" }, { id := 2, name := "b" }]
    partitionColumns := [{ column := column, name := column, transform := .identity }] }
  id := 7
  read := some 0

/-- Spec 0, by which the files of older snapshots are partitioned, becomes another one. -/
theorem not_keepsBindings_overwriteBy : partitionedTable ∈
      (Versions.step { current := partitionedTable } (overwriteBy "b")).earlier ∧
    ¬ KeepsBindings partitionedTable
      (Versions.step { current := partitionedTable } (overwriteBy "b")).current := by
  refine ⟨by decide +kernel, fun h => ?_⟩
  have h0 := h.spec 0 { fields := [
    { sourceId := 1, fieldId := 1000, name := "a", transform := .identity }] } (by decide +kernel)
  revert h0
  decide +kernel

theorem keepsBindings_overwriteBy_same :
    Runs.Along Versions.step (fun v i => i.Fits v) { current := partitionedTable }
      [overwriteBy "a"] ∧
    ∀ e ∈ (Runs.run Versions.step { current := partitionedTable } [overwriteBy "a"]).earlier,
      KeepsBindings e
        (Runs.run Versions.step { current := partitionedTable } [overwriteBy "a"]).current := by
  have h : Runs.Along Versions.step (fun v i => i.Fits v) { current := partitionedTable }
      [overwriteBy "a"] := by
    refine ⟨⟨fun h => absurd h (some_ne_none 0), ?_⟩, trivial⟩
    intro _ spec hspec fields hfields
    have h1 : partitionedTable.defaultPartitionSpec = some { fields := [
      { sourceId := 1, fieldId := 1000, name := "a", transform := .identity }] } := by
      decide +kernel
    have h2 : (overwriteBy "a").write.specFields = some [
      { sourceId := 1, fieldId := 1000, name := "a", transform := .identity }] := by
      decide +kernel
    rw [some.inj (h2.symm.trans hfields).symm, some.inj (h1.symm.trans hspec).symm]
  exact ⟨h, keepsBindings_run partitionedTable [overwriteBy "a"] h [overwriteBy "a"] [] rfl⟩

end Zelox.Iceberg
