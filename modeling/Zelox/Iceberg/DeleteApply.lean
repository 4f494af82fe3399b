import Zelox.Iceberg.DeleteIndex
import Zelox.Lib.Lists
import Zelox.Lib.Results
import Mathlib.Data.List.Sort

/-!
# Applying delete files to the rows of a data file

`physical_plan/delete_apply_exec.rs`: the positions that the position deletes name for the file are
sorted and looked up window by window, and each equality delete file is a set of keys that is
probed with every row.  `deletesApplied_iff` says when exactly the rows come out that no applicable
delete names: whenever the columns that the equality deletes need are found by name and type, and
the columns of these names tell of a row what the columns of the fields' ids tell.
-/

namespace Zelox.Iceberg

open Results DeleteFileIndex List Option

variable {L T V : Type}

/-! ### Rows and keys -/

abbrev Row (V : Type) := List (Option V)

/-- A column of a batch, with the id of its field and its Arrow type. -/
structure Column (T : Type) where
  id : Int
  name : String
  dataType : T
deriving DecidableEq, Repr

abbrev Columns (T : Type) := List (Column T)

/-- `column_by_name`, then the check of its type. -/
def columnByName [DecidableEq T] (columns : Columns T) (k : String × T) : Option Nat :=
  (columns.findIdx? (·.name = k.1)).filter fun i => columns[i]?.any (·.dataType = k.2)

def projectColumns [DecidableEq T] (columns : Columns T) (spec : List (String × T)) :
    Option (List Nat) :=
  spec.mapM (columnByName columns)

def keyRows [DecidableEq T] (columns : Columns T) (spec : List (String × T)) (rows : List (Row V)) :
    Option (List (Row V)) :=
  (projectColumns columns spec).map fun is => rows.map fun row => is.map (row.getD · none)

/-- The value of a row in the first column that is one of these. -/
def valueOf (columns : Columns T) (row : Row V) (p : Column T → Bool) : Option V :=
  (columns.findIdx? p).elim none (row.getD · none)

def keyOf (columns : Columns T) (spec : List (String × T)) (row : Row V) : Row V :=
  spec.map fun k => valueOf columns row (·.name = k.1)

section keys

variable [DecidableEq T]

theorem projectColumns_eq {columns : Columns T} {spec : List (String × T)} {is : List Nat}
    (h : projectColumns columns spec = some is) (row : Row V) :
    is.map (row.getD · none) = keyOf columns spec row := by
  unfold projectColumns at h
  induction spec generalizing is with
  | nil =>
    cases h
    rfl
  | cons k spec ih =>
    rw [mapM_cons] at h
    obtain ⟨i, hi, h⟩ := bind_eq_some_iff.mp h
    obtain ⟨is', his', h⟩ := bind_eq_some_iff.mp h
    obtain rfl := some.inj h
    obtain ⟨hfind, -⟩ := filter_eq_some_iff.mp hi
    simp only [map_cons, keyOf, valueOf, hfind, elim_some]
    exact congrArg _ (ih his')

theorem keyRows_eq_some_iff {columns : Columns T} {spec : List (String × T)}
    {rows keys : List (Row V)} : keyRows columns spec rows = some keys ↔
      (projectColumns columns spec).isSome ∧ keys = rows.map (keyOf columns spec) := by
  unfold keyRows
  cases h : projectColumns columns spec with
  | none => simp
  | some is =>
    have hkey : (fun row : Row V => is.map (row.getD · none)) = keyOf columns spec :=
      funext fun row => projectColumns_eq h row
    simp only [map_some, hkey, some.injEq, isSome_some, true_and]
    exact eq_comm

end keys

/-! ### Loading the delete files -/

/-- What the delete files hold; `none` is a batch without the columns `file_path` and `pos`. -/
structure DeleteFiles (T V : Type) where
  positions : String → List (Option (List (Option String × Option Int)))
  columns : String → Columns T
  batches : String → List (List (Row V))

/-- The position that a row of a position delete file deletes from the data file. -/
def deletedPosition (path : String) (row : Option String × Option Int) : Option Nat :=
  if row.1 = some path then row.2.bind fun p => if 0 ≤ p then some p.toNat else none else none

def dedupSorted : List Nat → List Nat
  | [] => []
  | [p] => [p]
  | p :: q :: ps => if p = q then dedupSorted (q :: ps) else p :: dedupSorted (q :: ps)

def loadPositions (d : DeleteFiles T V) (refs : List (DeleteFileRef L)) (path : String) :
    Option (List Nat) :=
  (refs.mapM fun r => (d.positions r.dataFile.filePath).mapM id).map fun files =>
    dedupSorted ((files.flatten.flatten.filterMap (deletedPosition path)).insertionSort (· ≤ ·))

structure EqualityDeleteSet (T V : Type) where
  keySpec : List (String × T)
  rows : List (Row V)

/-- A field of the table schema; `none` if its type has no Arrow type. -/
structure KeyField (T : Type) where
  id : Int
  name : String
  arrowType : Option T

def keyField (schema : List (KeyField T)) (id : Int) : Option (String × T) :=
  (schema.find? (·.id = id)).bind fun f => f.arrowType.map (f.name, ·)

def resolveEqualityKeySpec (schema : List (KeyField T)) (equalityIds : List Int) :
    Option (List (String × T)) :=
  equalityIds.mapM (keyField schema)

def loadEqualitySet [DecidableEq T] (d : DeleteFiles T V) (schema : List (KeyField T))
    (r : DeleteFileRef L) : Option (EqualityDeleteSet T V) :=
  if r.dataFile.equalityIds = [] then none
  else (resolveEqualityKeySpec schema r.dataFile.equalityIds).bind fun spec =>
    ((d.batches r.dataFile.filePath).mapM (keyRows (d.columns r.dataFile.filePath) spec)).map
      fun keys => { keySpec := spec, rows := keys.flatten }

def loadEqualitySets [DecidableEq T] (d : DeleteFiles T V) (schema : List (KeyField T))
    (refs : List (DeleteFileRef L)) : Option (List (EqualityDeleteSet T V)) :=
  refs.mapM (loadEqualitySet d schema)

/-! ### Filtering the batches -/

/-- `partition_point` of a sorted vector. -/
def partitionPoint (ps : List Nat) (bound : Nat) : Nat := (ps.takeWhile (· < bound)).length

/-- The positions in the window of a batch are set to false. -/
def positionMask (positions : List Nat) (offset n : Nat) : List Bool :=
  ((positions.take (partitionPoint positions (offset + n))).drop
    (partitionPoint positions offset)).foldl (fun keep p => keep.set (p - offset) false)
      (List.replicate n true)

def computeDeleteMask [DecidableEq T] [DecidableEq V] (columns : Columns T) (rows : List (Row V))
    (offset : Nat) (positions : List Nat) (sets : List (EqualityDeleteSet T V)) :
    Option (List Bool) :=
  sets.foldlM (fun keep eq => (keyRows columns eq.keySpec rows).map fun keys =>
    List.zipWith (fun k key => k && !eq.rows.contains key) keep keys)
      (positionMask positions offset rows.length)

/-- The batches that are emitted; `offset` rows of the file came before. -/
def filterBatches [DecidableEq T] [DecidableEq V] (columns : Columns T) (positions : List Nat)
    (sets : List (EqualityDeleteSet T V)) : Nat → List (List (Row V)) → Option (List (List (Row V)))
  | _, [] => some []
  | offset, rows :: batches =>
    (computeDeleteMask columns rows offset positions sets).bind fun keep =>
      (filterBatches columns positions sets (offset + rows.length) batches).map fun out =>
        let kept := ((rows.zip keep).filter (·.2)).map (·.1)
        if kept = [] then out else kept :: out

/-- `IcebergDeleteApplyExec` for a data file, from the delete files that the index has found. -/
def applyDeletes [DecidableEq T] [DecidableEq V] (d : DeleteFiles T V) (schema : List (KeyField T))
    (path : String) (matched : MatchedDeletes L) (columns : Columns T)
    (batches : List (List (Row V))) : Option (List (List (Row V))) :=
  (loadPositions d matched.positional path).bind fun positions =>
    (loadEqualitySets d schema matched.equality).bind fun sets =>
      filterBatches columns positions sets 0 batches

/-! ### Positions -/

theorem mem_dedupSorted {ps : List Nat} {p : Nat} : p ∈ dedupSorted ps ↔ p ∈ ps := by
  fun_induction dedupSorted ps with
  | case1 => rfl
  | case2 q => rfl
  | case3 q ps ih => simp [ih]
  | case4 q r ps h ih => simp [ih]

theorem pairwise_dedupSorted {ps : List Nat} (h : ps.Pairwise (· ≤ ·)) :
    (dedupSorted ps).Pairwise (· ≤ ·) := by
  fun_induction dedupSorted ps with
  | case1 => exact h
  | case2 q => exact h
  | case3 q ps ih => exact ih (pairwise_cons.mp h).2
  | case4 q r ps hne ih =>
    obtain ⟨hq, h⟩ := pairwise_cons.mp h
    exact pairwise_cons.mpr ⟨fun p hp => hq p (mem_dedupSorted.mp hp), ih h⟩

theorem deletedPosition_eq_some_iff {path : String} {row : Option String × Option Int} {p : Nat} :
    deletedPosition path row = some p ↔ row = (some path, some (p : Int)) := by
  obtain ⟨f, q⟩ := row
  unfold deletedPosition
  by_cases hf : f = some path
  · cases q with
    | none => simp
    | some q =>
      by_cases hq : 0 ≤ q
      · simp [hf, hq]
        omega
      · simp [hf, hq]
        omega
  · simp [hf]

section

variable {d : DeleteFiles T V} {refs : List (DeleteFileRef L)} {path : String}

theorem loadPositions_spec
    {ps : List Nat} (h : loadPositions d refs path = some ps) : ps.Pairwise (· ≤ ·) ∧
      ∀ p, p ∈ ps ↔ ∃ r ∈ refs, ∃ rows, some rows ∈ d.positions r.dataFile.filePath ∧
        (some path, some (p : Int)) ∈ rows := by
  obtain ⟨files, hfiles, rfl⟩ := map_eq_some_iff.mp h
  refine ⟨pairwise_dedupSorted (pairwise_insertionSort _ _), fun p => ?_⟩
  rw [mem_dedupSorted, mem_insertionSort, mem_filterMap]
  simp only [deletedPosition_eq_some_iff, mem_flatten]
  constructor
  · rintro ⟨row, ⟨rows, ⟨file, hfile, hrows⟩, hrow⟩, rfl⟩
    obtain ⟨r, hr, hfile⟩ := exists_of_mapM_eq_some hfiles hfile
    obtain ⟨batch, hbatch, rfl⟩ := exists_of_mapM_eq_some hfile hrows
    exact ⟨r, hr, rows, hbatch, hrow⟩
  · rintro ⟨r, hr, rows, hrows, hrow⟩
    obtain ⟨file, hfile, hmap⟩ := mem_of_mapM_eq_some hfiles hr
    obtain ⟨rows', hrows', heq⟩ := mem_of_mapM_eq_some hmap hrows
    obtain rfl := some.inj heq
    exact ⟨_, ⟨rows, ⟨file, hfile, hrows'⟩, hrow⟩, rfl⟩

theorem loadPositions_isSome_iff : (loadPositions d refs path).isSome ↔
      ∀ r ∈ refs, ∀ batch ∈ d.positions r.dataFile.filePath, batch.isSome := by
  simp [loadPositions, mapM_isSome_iff]

end

theorem mem_take_partitionPoint {ps : List Nat} (h : ps.Pairwise (· ≤ ·)) {hi p : Nat} :
    p ∈ ps.take (partitionPoint ps hi) ↔ p ∈ ps ∧ p < hi := by
  induction ps with
  | nil => simp
  | cons q ps ih =>
    obtain ⟨hq, h⟩ := pairwise_cons.mp h
    unfold partitionPoint at ih ⊢
    by_cases hhi : q < hi
    · simp [hhi, ih h, or_and_right]
      grind
    · simp [hhi]
      grind

theorem mem_window {ps : List Nat} (h : ps.Pairwise (· ≤ ·)) {lo hi : Nat} (hle : lo ≤ hi)
    {p : Nat} : p ∈ (ps.take (partitionPoint ps hi)).drop (partitionPoint ps lo) ↔
      p ∈ ps ∧ lo ≤ p ∧ p < hi := by
  induction ps with
  | nil => simp [partitionPoint]
  | cons q ps ih =>
    obtain ⟨hq, hps⟩ := pairwise_cons.mp h
    by_cases hlo : q < lo
    · unfold partitionPoint at ih ⊢
      simp [hlo, hlo.trans_le hle, ih hps]
      omega
    · have hzero : partitionPoint (q :: ps) lo = 0 := by simp [partitionPoint, hlo]
      rw [hzero, drop_zero, mem_take_partitionPoint h]
      grind

theorem getElem?_foldl_set {ps : List Nat} {offset : Nat} (h : ∀ p ∈ ps, offset ≤ p)
    (keep : List Bool) (i : Nat) :
    (ps.foldl (fun keep p => keep.set (p - offset) false) keep)[i]? =
      keep[i]?.map fun b => b && !decide (offset + i ∈ ps) := by
  induction ps generalizing keep with
  | nil => simp
  | cons p ps ih =>
    obtain ⟨hp, h⟩ := forall_mem_cons.mp h
    rw [foldl_cons, ih h, getElem?_set]
    by_cases hi : p - offset = i
    · have hmem : offset + i = p := by omega
      by_cases hlt : i < keep.length
      · simp [hi, hmem, hlt]
      · simp [hi, hlt]
    · have hne : offset + i ≠ p := by omega
      simp [hi, hne]

theorem positionMask_eq {positions : List Nat} (h : positions.Pairwise (· ≤ ·)) (offset : Nat)
    (rows : List (Row V)) : positionMask positions offset rows.length =
      (rows.zipIdx offset).map fun x => !decide (x.2 ∈ positions) := by
  refine ext_getElem? fun i => ?_
  unfold positionMask
  rw [getElem?_foldl_set fun p hp => ((mem_window h (by omega)).mp hp).2.1]
  simp only [mem_window h (Nat.le_add_right offset rows.length), getElem?_replicate,
    getElem?_map, getElem?_zipIdx]
  by_cases hi : i < rows.length
  · simp [hi]
  · simp [hi]

/-! ### Batches -/

/-- The loaded positions and sets leave the row at this position. -/
def keepsRow [DecidableEq V] (columns : Columns T) (positions : List Nat)
    (sets : List (EqualityDeleteSet T V)) (x : Row V × Nat) : Bool :=
  !decide (x.2 ∈ positions) && sets.all fun eq => !eq.rows.contains (keyOf columns eq.keySpec x.1)

section batches

variable [DecidableEq T] [DecidableEq V] {columns : Columns T} {positions : List Nat}
variable {sets : List (EqualityDeleteSet T V)}

theorem computeDeleteMask_eq_some_iff (h : positions.Pairwise (· ≤ ·)) {rows : List (Row V)}
    {offset : Nat} {keep : List Bool} :
    computeDeleteMask columns rows offset positions sets = some keep ↔
      (∀ eq ∈ sets, (projectColumns columns eq.keySpec).isSome) ∧
        keep = (rows.zipIdx offset).map (keepsRow columns positions sets) := by
  -- over the sets, from any mask
  suffices hall : ∀ f : Row V × Nat → Bool,
      sets.foldlM (fun keep eq => (keyRows columns eq.keySpec rows).map fun keys =>
        List.zipWith (fun k key => k && !eq.rows.contains key) keep keys)
          ((rows.zipIdx offset).map f) = some keep ↔
      (∀ eq ∈ sets, (projectColumns columns eq.keySpec).isSome) ∧
        keep = (rows.zipIdx offset).map fun x =>
          f x && sets.all fun eq => !eq.rows.contains (keyOf columns eq.keySpec x.1) by
    unfold computeDeleteMask
    rw [positionMask_eq h]
    exact hall _
  intro f
  induction sets generalizing f with
  | nil =>
    simp only [foldlM_nil, not_mem_nil, false_implies, implies_true, true_and,
      all_nil, Bool.and_true]
    exact ⟨fun hs => (some.inj hs).symm, fun hs => congrArg some hs.symm⟩
  | cons eq sets ih =>
    rw [foldlM_cons, forall_mem_cons]
    have hkeys : rows.map (keyOf columns eq.keySpec) =
        (rows.zipIdx offset).map fun x => keyOf columns eq.keySpec x.1 := by
      conv_lhs => rw [← zipIdx_map_fst offset rows]
      exact List.map_map
    cases hk : keyRows columns eq.keySpec rows with
    | none =>
      have hnone : ¬ (projectColumns columns eq.keySpec).isSome := fun hs => by
        rw [keyRows_eq_some_iff.mpr ⟨hs, rfl⟩] at hk
        cases hk
      simp [hnone]
    | some keys =>
      obtain ⟨hsome, rfl⟩ := keyRows_eq_some_iff.mp hk
      have hstep : List.zipWith (fun k key => k && !eq.rows.contains key)
          ((rows.zipIdx offset).map f) (rows.map (keyOf columns eq.keySpec)) =
          (rows.zipIdx offset).map fun x =>
            f x && !eq.rows.contains (keyOf columns eq.keySpec x.1) := by
        rw [hkeys, zipWith_map, zipWith_self]
      simp only [map_some, bind_eq_bind, bind_some, hstep, ih, hsome,
        true_and, all_cons, Bool.and_assoc]

omit [DecidableEq V] in
theorem kept_eq (rows : List (Row V)) (offset : Nat) (f : Row V × Nat → Bool) :
    ((rows.zip ((rows.zipIdx offset).map f)).filter (·.2)).map (·.1) =
      ((rows.zipIdx offset).filter f).map (·.1) := by
  induction rows generalizing offset with
  | nil => rfl
  | cons row rows ih =>
    simp only [zipIdx_cons, map_cons, zip_cons_cons, filter_cons]
    cases hf : f (row, offset) with
    | true | false => simp [ih]

theorem filterBatches_spec (h : positions.Pairwise (· ≤ ·)) {offset : Nat}
    {batches out : List (List (Row V))}
    (hout : filterBatches columns positions sets offset batches = some out) :
    out.flatten = ((batches.flatten.zipIdx offset).filter
      (keepsRow columns positions sets)).map (·.1) := by
  induction batches generalizing offset out with
  | nil =>
    obtain rfl := some.inj hout
    rfl
  | cons rows batches ih =>
    obtain ⟨keep, hkeep, hout⟩ := bind_eq_some_iff.mp hout
    obtain ⟨out', hout', rfl⟩ := map_eq_some_iff.mp hout
    obtain ⟨-, rfl⟩ := (computeDeleteMask_eq_some_iff h).mp hkeep
    simp only [kept_eq, flatten_cons, zipIdx_append, filter_append, map_append, ← ih hout']
    split
    · next hnil => rw [hnil, nil_append]
    · rw [flatten_cons]

theorem filterBatches_isSome_iff (h : positions.Pairwise (· ≤ ·)) {offset : Nat}
    {batches : List (List (Row V))} :
    (filterBatches columns positions sets offset batches).isSome ↔
      (batches ≠ [] → ∀ eq ∈ sets, (projectColumns columns eq.keySpec).isSome) := by
  induction batches generalizing offset with
  | nil => simp [filterBatches]
  | cons rows batches ih =>
    unfold filterBatches
    constructor
    · intro hs _
      obtain ⟨out, hout⟩ := isSome_iff_exists.mp hs
      obtain ⟨keep, hkeep, -⟩ := bind_eq_some_iff.mp hout
      exact ((computeDeleteMask_eq_some_iff h).mp hkeep).1
    · intro hs
      have hs := hs (cons_ne_nil _ _)
      rw [(computeDeleteMask_eq_some_iff h).mpr ⟨hs, rfl⟩, bind_some, isSome_map]
      exact ih.mpr fun _ => hs

end batches

/-! ### What the delete files mean -/

section meaning

variable [DecidableEq L]

/-- A position delete that is not older than the file and names it or shares its partition. -/
def DeleteFileRef.DeletesPositions (r : DeleteFileRef L) (f : DataFile L) (seq : Int) : Prop :=
  r.dataFile.content = .positionDeletes ∧ seq ≤ r.dataSequenceNumber ∧
    (r.dataFile.referencedDataFile = some f.filePath ∨ r.key = f.key)

/-- An equality delete that is newer than the file and unpartitioned or shares its partition. -/
def DeleteFileRef.DeletesKeys (r : DeleteFileRef L) (f : DataFile L) (seq : Int) : Prop :=
  r.dataFile.content = .equalityDeletes ∧ seq < r.dataSequenceNumber ∧
    (r.isUnpartitionedSpec ∨ r.key = f.key)

/-- An applicable position delete names the position. -/
def PositionDeleted (d : DeleteFiles T V) (refs : List (DeleteFileRef L)) (f : DataFile L)
    (seq : Int) (position : Nat) : Prop :=
  ∃ r ∈ refs, r.DeletesPositions f seq ∧ ∃ rows, some rows ∈ d.positions r.dataFile.filePath ∧
    (some f.filePath, some (position : Int)) ∈ rows

/-- The values of a row that are compared for a list of equality ids. -/
abbrev KeyColumns (T V : Type) := Columns T → List Int → Row V → Row V

/-- The columns with these ids, as the format has it. -/
def keyById : KeyColumns T V := fun columns ids row =>
  ids.map fun id => valueOf columns row (·.id = id)

/-- The columns that have the current names of these fields, as the operator has it. -/
def keyByName (schema : List (KeyField T)) : KeyColumns T V := fun columns ids row =>
  ids.map fun id => (keyField schema id).elim none fun k => valueOf columns row (·.name = k.1)

/-- An applicable equality delete has a row with the same key; NULL is equal to NULL. -/
def KeyDeleted (key : KeyColumns T V) (d : DeleteFiles T V) (refs : List (DeleteFileRef L))
    (f : DataFile L) (seq : Int) (columns : Columns T) (row : Row V) : Prop :=
  ∃ r ∈ refs, r.DeletesKeys f seq ∧ ∃ batch ∈ d.batches r.dataFile.filePath, ∃ del ∈ batch,
    key (d.columns r.dataFile.filePath) r.dataFile.equalityIds del =
      key columns r.dataFile.equalityIds row

open Classical in
/-- The rows of the file, delivered in batches, that are not deleted. -/
noncomputable def survivors (key : KeyColumns T V) (d : DeleteFiles T V)
    (refs : List (DeleteFileRef L)) (f : DataFile L) (seq : Int) (columns : Columns T)
    (batches : List (List (Row V))) : List (Row V) :=
  (batches.flatten.zipIdx.filter fun x =>
    ¬ PositionDeleted d refs f seq x.2 ∧ ¬ KeyDeleted key d refs f seq columns x.1).map (·.1)

/-- Exactly the surviving rows are emitted. -/
def DeletesApplied [DecidableEq T] [DecidableEq V] (d : DeleteFiles T V)
    (schema : List (KeyField T)) (refs : List (DeleteFileRef L)) (index : DeleteFileIndex L)
    (f : DataFile L) (seq : Int) (columns : Columns T) (batches : List (List (Row V))) : Prop :=
  ∃ out, applyDeletes d schema f.filePath (index.forDataFile f seq) columns batches = some out ∧
    out.flatten = survivors keyById d refs f seq columns batches

/-- The current names of the key fields find the deleted rows, as far as no position delete does. -/
def NamesFindKeys (d : DeleteFiles T V) (schema : List (KeyField T)) (refs : List (DeleteFileRef L))
    (f : DataFile L) (seq : Int) (columns : Columns T) (batches : List (List (Row V))) : Prop :=
  ∀ x ∈ batches.flatten.zipIdx, ¬ PositionDeleted d refs f seq x.2 →
    (KeyDeleted (keyByName schema) d refs f seq columns x.1 ↔
      KeyDeleted keyById d refs f seq columns x.1)

/-- The key fields are in the schema, and columns of their names and types in the delete file and
the data. -/
def DeleteFileRef.Resolves [DecidableEq T] (d : DeleteFiles T V) (schema : List (KeyField T))
    (columns : Columns T) (batches : List (List (Row V))) (r : DeleteFileRef L) : Prop :=
  r.dataFile.equalityIds ≠ [] ∧ ∃ spec,
    resolveEqualityKeySpec schema r.dataFile.equalityIds = some spec ∧
    (d.batches r.dataFile.filePath ≠ [] →
      (projectColumns (d.columns r.dataFile.filePath) spec).isSome) ∧
    (batches ≠ [] → (projectColumns columns spec).isSome)

/-- The delete files that apply can be read as the table is now. -/
def DeletesReadable [DecidableEq T] (d : DeleteFiles T V) (schema : List (KeyField T))
    (refs : List (DeleteFileRef L)) (f : DataFile L) (seq : Int) (columns : Columns T)
    (batches : List (List (Row V))) : Prop :=
  (∀ r ∈ refs, r.dataFile.content = .positionDeletes ∧ seq ≤ r.dataSequenceNumber ∧
      (r.dataFile.referencedDataFile = some f.filePath ∨
        r.dataFile.referencedDataFile = none ∧ r.key = f.key) →
    ∀ batch ∈ d.positions r.dataFile.filePath, batch.isSome) ∧
  ∀ r ∈ refs, r.DeletesKeys f seq → r.Resolves d schema columns batches

end meaning

section load

variable [DecidableEq T] {d : DeleteFiles T V} {schema : List (KeyField T)} {r : DeleteFileRef L}

theorem loadEqualitySet_isSome_iff : (loadEqualitySet d schema r).isSome ↔
    r.dataFile.equalityIds ≠ [] ∧ ∃ spec,
      resolveEqualityKeySpec schema r.dataFile.equalityIds = some spec ∧
      (d.batches r.dataFile.filePath ≠ [] →
        (projectColumns (d.columns r.dataFile.filePath) spec).isSome) := by
  unfold loadEqualitySet
  by_cases hids : r.dataFile.equalityIds = []
  · simp [hids]
  cases hspec : resolveEqualityKeySpec schema r.dataFile.equalityIds with
  | none => simp [hids]
  | some spec =>
    have hrows (rows : List (Row V)) :
        (keyRows (d.columns r.dataFile.filePath) spec rows).isSome ↔
          (projectColumns (d.columns r.dataFile.filePath) spec).isSome := by
      rw [keyRows, isSome_map]
    simp only [hids, if_false, bind_some, isSome_map, mapM_isSome_iff, hrows, ne_eq,
      not_false_eq_true, true_and, some.injEq, exists_eq_left']
    constructor
    · intro h hne
      obtain ⟨rows, hrows⟩ := exists_mem_of_ne_nil _ hne
      exact h rows hrows
    · intro h rows hrows
      exact h (ne_nil_of_mem hrows)

theorem loadEqualitySet_spec {eq : EqualityDeleteSet T V}
    (h : loadEqualitySet d schema r = some eq) :
    resolveEqualityKeySpec schema r.dataFile.equalityIds = some eq.keySpec ∧
      ∀ key, key ∈ eq.rows ↔ ∃ batch ∈ d.batches r.dataFile.filePath, ∃ del ∈ batch,
        keyOf (d.columns r.dataFile.filePath) eq.keySpec del = key := by
  unfold loadEqualitySet at h
  split at h
  · cases h
  obtain ⟨spec, hspec, h⟩ := bind_eq_some_iff.mp h
  obtain ⟨keys, hkeys, rfl⟩ := map_eq_some_iff.mp h
  refine ⟨hspec, fun key => ?_⟩
  rw [mem_flatten]
  constructor
  · rintro ⟨ks, hks, hkey⟩
    obtain ⟨batch, hbatch, hks⟩ := exists_of_mapM_eq_some hkeys hks
    obtain ⟨-, rfl⟩ := keyRows_eq_some_iff.mp hks
    obtain ⟨del, hdel, rfl⟩ := List.mem_map.mp hkey
    exact ⟨batch, hbatch, del, hdel, rfl⟩
  · rintro ⟨batch, hbatch, del, hdel, rfl⟩
    obtain ⟨ks, hks, hmap⟩ := mem_of_mapM_eq_some hkeys hbatch
    obtain ⟨-, rfl⟩ := keyRows_eq_some_iff.mp hmap
    exact ⟨_, hks, List.mem_map_of_mem hdel⟩

omit [DecidableEq T] in
theorem keyByName_eq {ids : List Int} {spec : List (String × T)}
    (h : resolveEqualityKeySpec schema ids = some spec) (columns : Columns T) (row : Row V) :
    keyByName schema columns ids row = keyOf columns spec row := by
  have hspec := congrArg (List.map fun k : Option (String × T) =>
    k.elim none fun k => valueOf columns row (·.name = k.1)) (map_eq_of_mapM_eq_some h)
  rwa [List.map_map, List.map_map] at hspec

end load

section apply

variable [DecidableEq L] {d : DeleteFiles T V} {schema : List (KeyField T)}
variable {refs : List (DeleteFileRef L)} {index : DeleteFileIndex L} {f : DataFile L} {seq : Int}

/-- Delete files that are made for one data file name no other. -/
def DeleteFiles.Targeted (d : DeleteFiles T V) (refs : List (DeleteFileRef L)) : Prop :=
  ∀ r ∈ refs, ∀ p, r.dataFile.referencedDataFile = some p →
    ∀ rows, some rows ∈ d.positions r.dataFile.filePath → ∀ row ∈ rows, row.1 = some p

theorem mem_positions_iff (hh : index.Holds refs) (htargets : d.Targeted refs)
    {positions : List Nat}
    (h : loadPositions d (index.forDataFile f seq).positional f.filePath = some positions)
    (p : Nat) : p ∈ positions ↔ PositionDeleted d refs f seq p := by
  rw [(loadPositions_spec h).2]
  constructor
  · rintro ⟨r, hr, rows, hrows, hrow⟩
    obtain ⟨hr, hc, hs, hn⟩ := (positional_iff hh f seq r).mp hr
    exact ⟨r, hr, ⟨hc, hs, hn.imp_right And.right⟩, rows, hrows, hrow⟩
  · rintro ⟨r, hr, ⟨hc, hs, hn⟩, rows, hrows, hrow⟩
    refine ⟨r, (positional_iff hh f seq r).mpr ⟨hr, hc, hs, ?_⟩, rows, hrows, hrow⟩
    cases href : r.dataFile.referencedDataFile with
    | none =>
      rw [href] at hn
      exact .inr ⟨rfl, hn.resolve_left (some_ne_none _).symm⟩
    | some p => exact .inl (htargets r hr p href rows hrows _ hrow).symm

variable [DecidableEq T]

theorem mem_sets_iff (hh : index.Holds refs) {sets : List (EqualityDeleteSet T V)}
    (h : loadEqualitySets d schema (index.forDataFile f seq).equality = some sets)
    (columns : Columns T) (row : Row V) : (∃ eq ∈ sets, keyOf columns eq.keySpec row ∈ eq.rows) ↔
      KeyDeleted (keyByName schema) d refs f seq columns row := by
  constructor
  · rintro ⟨eq, heq, hin⟩
    obtain ⟨r, hr, hload⟩ := exists_of_mapM_eq_some h heq
    obtain ⟨hspec, hrows⟩ := loadEqualitySet_spec hload
    obtain ⟨batch, hbatch, del, hdel, hkey⟩ := (hrows _).mp hin
    obtain ⟨hr, happlies⟩ := (equality_iff hh f seq r).mp hr
    refine ⟨r, hr, happlies, batch, hbatch, del, hdel, ?_⟩
    rwa [keyByName_eq hspec, keyByName_eq hspec]
  · rintro ⟨r, hr, happlies, batch, hbatch, del, hdel, hkey⟩
    obtain ⟨eq, heq, hload⟩ := mem_of_mapM_eq_some h
      ((equality_iff hh f seq r).mpr ⟨hr, happlies⟩)
    obtain ⟨hspec, hrows⟩ := loadEqualitySet_spec hload
    rw [keyByName_eq hspec, keyByName_eq hspec] at hkey
    exact ⟨eq, heq, (hrows _).mpr ⟨batch, hbatch, del, hdel, hkey⟩⟩

variable [DecidableEq V]

theorem applyDeletes_isSome_iff (hh : index.Holds refs) {columns : Columns T}
    {batches : List (List (Row V))} :
    (applyDeletes d schema f.filePath (index.forDataFile f seq) columns batches).isSome ↔
      DeletesReadable d schema refs f seq columns batches := by
  constructor
  · intro h
    obtain ⟨out, hout⟩ := isSome_iff_exists.mp h
    obtain ⟨positions, hpositions, hout⟩ := bind_eq_some_iff.mp hout
    obtain ⟨sets, hsets, hout⟩ := bind_eq_some_iff.mp hout
    have hsorted := (loadPositions_spec hpositions).1
    refine ⟨fun r hr hpos => ?_, fun r hr hkeys => ?_⟩
    · refine loadPositions_isSome_iff.mp (by rw [hpositions]; rfl) r ?_
      exact (positional_iff hh f seq r).mpr ⟨hr, hpos⟩
    · obtain ⟨eq, heq, hload⟩ := mem_of_mapM_eq_some hsets
        ((equality_iff hh f seq r).mpr ⟨hr, hkeys⟩)
      obtain ⟨hne, spec, hspec, hfile⟩ :=
        loadEqualitySet_isSome_iff.mp (isSome_iff_exists.mpr ⟨eq, hload⟩)
      obtain rfl := some.inj (hspec.symm.trans (loadEqualitySet_spec hload).1)
      refine ⟨hne, eq.keySpec, hspec, hfile, fun hb => ?_⟩
      exact (filterBatches_isSome_iff hsorted).mp (by rw [hout]; rfl) hb eq heq
  · rintro ⟨hpos, hkeys⟩
    have hresolves (r : DeleteFileRef L) (hr : r ∈ (index.forDataFile f seq).equality) :
        r.Resolves d schema columns batches := by
      obtain ⟨hr, hkey⟩ := (equality_iff hh f seq r).mp hr
      exact hkeys r hr hkey
    have hpositions : (loadPositions d (index.forDataFile f seq).positional f.filePath).isSome := by
      refine loadPositions_isSome_iff.mpr fun r hr => ?_
      obtain ⟨hr, happlies⟩ := (positional_iff hh f seq r).mp hr
      exact hpos r hr happlies
    have hsets : (loadEqualitySets d schema (index.forDataFile f seq).equality).isSome := by
      refine mapM_isSome_iff.mpr fun r hr => ?_
      obtain ⟨hne, spec, hspec, hfile, -⟩ := hresolves r hr
      exact loadEqualitySet_isSome_iff.mpr ⟨hne, spec, hspec, hfile⟩
    obtain ⟨positions, hpositions⟩ := isSome_iff_exists.mp hpositions
    obtain ⟨sets, hsets⟩ := isSome_iff_exists.mp hsets
    unfold applyDeletes
    rw [hpositions, bind_some, hsets, bind_some]
    refine (filterBatches_isSome_iff (loadPositions_spec hpositions).1).mpr fun hb eq heq => ?_
    obtain ⟨r, hr, hload⟩ := exists_of_mapM_eq_some hsets heq
    obtain ⟨-, spec, hspec, -, hcols⟩ := hresolves r hr
    obtain rfl := some.inj (hspec.symm.trans (loadEqualitySet_spec hload).1)
    exact hcols hb

theorem flatten_applyDeletes (hh : index.Holds refs) (htargets : d.Targeted refs)
    {columns : Columns T} {batches out : List (List (Row V))}
    (h : applyDeletes d schema f.filePath (index.forDataFile f seq) columns batches = some out) :
    out.flatten = survivors (keyByName schema) d refs f seq columns batches := by
  obtain ⟨positions, hpositions, h⟩ := bind_eq_some_iff.mp h
  obtain ⟨sets, hsets, h⟩ := bind_eq_some_iff.mp h
  rw [filterBatches_spec (loadPositions_spec hpositions).1 h, survivors]
  congr 1
  refine filter_congr fun x _ => Bool.eq_iff_iff.mpr ?_
  simp only [keepsRow, Bool.and_eq_true, Bool.not_eq_true', contains_eq_mem,
    decide_eq_false_iff_not, List.all_eq_true, decide_eq_true_eq,
    ← mem_positions_iff hh htargets hpositions, ← mem_sets_iff hh hsets, not_exists, not_and]

end apply

/-- Exactly the rows that no applicable delete names are emitted, if and only if the applicable
delete files can be read as the table is now and the names of the key fields find the rows. -/
theorem deletesApplied_iff [DecidableEq L] [DecidableEq T] [DecidableEq V] (d : DeleteFiles T V)
    (schema : List (KeyField T)) (refs : List (DeleteFileRef L)) (index : DeleteFileIndex L)
    (hindex : DeleteFileIndex.build refs = some index) (htargets : d.Targeted refs)
    (f : DataFile L) (seq : Int) (columns : Columns T) (batches : List (List (Row V))) :
    DeletesApplied d schema refs index f seq columns batches ↔
      DeletesReadable d schema refs f seq columns batches ∧
        NamesFindKeys d schema refs f seq columns batches := by
  have hh := holds_build hindex
  have hsurvivors : survivors (keyByName schema) d refs f seq columns batches =
      survivors keyById d refs f seq columns batches ↔
        NamesFindKeys d schema refs f seq columns batches := by
    classical
    refine (Lists.map_filter_and_eq_iff (f := Prod.fst)
      (q := fun row => ¬ KeyDeleted (keyByName schema) d refs f seq columns row)
      (r := fun row => ¬ KeyDeleted keyById d refs f seq columns row)).trans ?_
    simp only [NamesFindKeys, not_iff_not]
  rw [← applyDeletes_isSome_iff hh]
  constructor
  · rintro ⟨out, hout, heq⟩
    rw [flatten_applyDeletes hh htargets hout] at heq
    exact ⟨isSome_iff_exists.mpr ⟨out, hout⟩, hsurvivors.mp heq⟩
  · rintro ⟨h, hkeys⟩
    obtain ⟨out, hout⟩ := isSome_iff_exists.mp h
    exact ⟨out, hout, (flatten_applyDeletes hh htargets hout).trans (hsurvivors.mpr hkeys)⟩

/-- Two equality deletes on the field `1`, which was called `a` when the second was written. -/
def renamedDeletes : DeleteFiles String Nat where
  positions _ := []
  columns path := [⟨1, if path = "new" then "b" else "a", "int"⟩]
  batches _ := [[[some 7]]]

def renamedSchema : List (KeyField String) := [{ id := 1, name := "b", arrowType := some "int" }]

def equalityDelete (path : String) : DeleteFileRef Int where
  dataFile := { content := .equalityDeletes, filePath := path, equalityIds := [1] }
  dataSequenceNumber := 2
  partitionSpecId := 0
  isUnpartitionedSpec := true

/-- An equality delete whose key column has been renamed is an error. -/
theorem renamed_delete_fails :
    applyDeletes renamedDeletes renamedSchema "f"
      (DeleteFileIndex.forDataFile { globalEq := [equalityDelete "old"] } { filePath := "f" } 1)
      [⟨1, "b", "int"⟩] [[[some 7]], [[some 8]]] = none ∧
    DeleteFileIndex.build [equalityDelete "old"] = some { globalEq := [equalityDelete "old"] } := by
  decide +kernel

/-- With the current name the row with its key is deleted. -/
theorem deletesApplied_current :
    DeleteFileIndex.build [equalityDelete "new"] = some { globalEq := [equalityDelete "new"] } ∧
    renamedDeletes.Targeted [equalityDelete "new"] ∧
    DeletesApplied renamedDeletes renamedSchema [equalityDelete "new"]
      { globalEq := [equalityDelete "new"] } { filePath := "f" } 1
      [⟨1, "b", "int"⟩] [[[some 7]], [[some 8]]] := by
  have hindex : build [equalityDelete "new"] =
      some { globalEq := [equalityDelete "new"] } := by decide +kernel
  have htargets : renamedDeletes.Targeted [equalityDelete "new"] := fun _ _ _ _ _ hrows =>
    absurd hrows not_mem_nil
  have hreadable : DeletesReadable renamedDeletes renamedSchema [equalityDelete "new"]
      { filePath := "f" } 1 [⟨1, "b", "int"⟩] [[[some 7]], [[some 8]]] := by
    refine ⟨fun _ _ _ _ hb => absurd hb not_mem_nil, fun r hr _ => ?_⟩
    obtain rfl := mem_singleton.mp hr
    exact ⟨by decide +kernel, [("b", "int")], by decide +kernel, fun _ => by decide +kernel,
      fun _ => by decide +kernel⟩
  have hkeys : NamesFindKeys renamedDeletes renamedSchema [equalityDelete "new"]
      { filePath := "f" } 1 [⟨1, "b", "int"⟩] [[[some 7]], [[some 8]]] := by
    -- the column of the name is the column of the id
    intro x _ _
    unfold KeyDeleted
    simp only [mem_singleton, exists_eq_left]
    rfl
  exact ⟨hindex, htargets, (deletesApplied_iff renamedDeletes renamedSchema _ _ hindex
    htargets _ 1 _ _).mpr ⟨hreadable, hkeys⟩⟩

end Zelox.Iceberg
