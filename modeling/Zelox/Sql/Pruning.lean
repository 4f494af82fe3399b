import Zelox.Sql.Expr

/-!
# Pruning containers by their statistics

A `PruningPredicate` of the query engine decides which containers (files, row groups) of a
table can hold a row on which a condition is TRUE.  It sees a container only through
arrays of minima, maxima, null counts and row counts, and is assumed to be sound whenever
the entries that are there are valid bounds for the rows of the container.

Bounds are valid for a list of rows only if they admit each row alone, so soundness is a
statement about single rows (`PruningPredicate.keeps_of_admits`).  `tightest` drops all it
may: what it keeps is what every sound predicate keeps.
-/

namespace Zelox.Sql

open List

/-- What is known about a column of a container; `none` is not known. -/
structure ColumnBounds where
  min : Scalar := none
  max : Scalar := none
  nullCount : Option Nat := none
  rowCount : Option Nat := none
deriving DecidableEq, Repr

namespace ColumnBounds

/-- The bounds hold for the values of the column. -/
structure Valid (b : ColumnBounds) (values : List Scalar) : Prop where
  min_le : ∀ m ∈ b.min, ∀ x, some x ∈ values → m ≤ x
  le_max : ∀ m ∈ b.max, ∀ x, some x ∈ values → x ≤ m
  nulls : ∀ k ∈ b.nullCount, values.count none ≤ k
  nonNulls : ∀ k ∈ b.nullCount, ∀ n ∈ b.rowCount, values.countP (·.isSome) + k ≤ n
  rows : ∀ n ∈ b.rowCount, values.length ≤ n

/-- The bounds hold for a column with a single value. -/
def Admits (b : ColumnBounds) (v : Scalar) : Prop := b.Valid [v]

variable {b : ColumnBounds}

theorem Valid.admits {values : List Scalar} (h : b.Valid values) {v : Scalar}
    (hv : v ∈ values) : b.Admits v where
  min_le m hm x hx := h.min_le m hm x (mem_singleton.mp hx ▸ hv)
  le_max m hm x hx := h.le_max m hm x (mem_singleton.mp hx ▸ hv)
  nulls k hk := ((singleton_sublist.mpr hv).count_le none).trans (h.nulls k hk)
  nonNulls k hk n hn := by
    have hle := (singleton_sublist.mpr hv).countP_le (p := fun x : Scalar => x.isSome)
    have hvalid := h.nonNulls k hk n hn
    omega
  rows n hn := (singleton_sublist.mpr hv).length_le.trans (h.rows n hn)

theorem admits_none_iff :
    b.Admits none ↔ (∀ k ∈ b.nullCount, 1 ≤ k ∧ ∀ n ∈ b.rowCount, k ≤ n) ∧
      ∀ n ∈ b.rowCount, 1 ≤ n := by
  constructor
  · intro h
    refine ⟨fun k hk => ⟨by simpa using h.nulls k hk, fun n hn => ?_⟩, fun n hn => ?_⟩
    · simpa using h.nonNulls k hk n hn
    · simpa using h.rows n hn
  · intro ⟨hcount, hrows⟩
    exact
      { min_le := by simp
        le_max := by simp
        nulls := fun k hk => by simpa using (hcount k hk).1
        nonNulls := fun k hk n hn => by simpa using (hcount k hk).2 n hn
        rows := fun n hn => by simpa using hrows n hn }

theorem admits_some_iff {x : ScalarValue} :
    b.Admits (some x) ↔ (∀ m ∈ b.min, m ≤ x) ∧ (∀ m ∈ b.max, x ≤ m) ∧
      (∀ k ∈ b.nullCount, ∀ n ∈ b.rowCount, k < n) ∧ ∀ n ∈ b.rowCount, 1 ≤ n := by
  constructor
  · intro h
    refine ⟨fun m hm => h.min_le m hm x (by simp), fun m hm => h.le_max m hm x (by simp),
      fun k hk n hn => ?_, fun n hn => by simpa using h.rows n hn⟩
    have hle := h.nonNulls k hk n hn
    simp only [countP_singleton, Option.isSome_some, if_true] at hle
    omega
  · intro ⟨hmin, hmax, hcount, hrows⟩
    refine
      { min_le := fun m hm y hy => ?_
        le_max := fun m hm y hy => ?_
        nulls := by simp
        nonNulls := fun k hk n hn => ?_
        rows := fun n hn => by simpa using hrows n hn }
    · obtain rfl : y = x := by simpa using hy
      exact hmin m hm
    · obtain rfl : y = x := by simpa using hy
      exact hmax m hm
    · have hlt := hcount k hk n hn
      simp only [countP_singleton, Option.isSome_some, if_true]
      omega

/-- A value that the bounds do not admit is told from those admitted by a condition on the column.
-/
theorem exists_separating (E : Engine) {v : Scalar} (h : ¬b.Admits v) (column : String) :
    ∃ pred : Expr String, pred.columnRefs = [column] ∧
      (∀ row : String → Scalar, row column = v → pred.truth E row = some true) ∧
      ∀ row : String → Scalar, b.Admits (row column) → pred.truth E row ≠ some true := by
  cases v with
  | none =>
    refine ⟨.isNull (.column column), rfl, fun row hrow => ?_, fun row hrow htrue => ?_⟩
    · rwa [Expr.truth_isNull, Truth.ofProp_eq_true]
    · rw [Expr.truth_isNull, Truth.ofProp_eq_true] at htrue
      exact h (htrue ▸ hrow)
  | some x =>
    by_cases hmin : ∀ m ∈ b.min, m ≤ x
    · by_cases hmax : ∀ m ∈ b.max, x ≤ m
      · -- only the counts are left, and they exclude every value that is not null
        refine ⟨.isNotNull (.column column), rfl, fun row hrow => ?_, fun row hrow htrue => ?_⟩
        · rw [Expr.truth_isNotNull, Truth.ofProp_eq_true, Expr.eval, hrow]
          exact Option.some_ne_none x
        · rw [Expr.truth_isNotNull, Truth.ofProp_eq_true] at htrue
          obtain ⟨y, hy⟩ := Option.ne_none_iff_exists'.mp htrue
          have hadm : b.Admits (some y) := hy ▸ hrow
          exact h (admits_some_iff.mpr ⟨hmin, hmax, (admits_some_iff.mp hadm).2.2⟩)
      · push Not at hmax
        obtain ⟨m, hm, hlt⟩ := hmax
        refine ⟨.binary (.column column) (.compare .gt) (.literal (some m)), rfl, ?_, ?_⟩
        · intro row hrow
          rw [Expr.truth_compare, Comparison.apply_eq_true]
          exact ⟨x, m, hrow, rfl, hlt⟩
        · intro row hrow htrue
          rw [Expr.truth_compare, Comparison.apply_eq_true] at htrue
          obtain ⟨y, z, hy, hz, hgt⟩ := htrue
          obtain rfl : m = z := Option.some.inj hz
          have hadm : b.Admits (some y) := hy ▸ hrow
          exact absurd ((admits_some_iff.mp hadm).2.1 m hm) (not_le.mpr hgt)
    · push Not at hmin
      obtain ⟨m, hm, hlt⟩ := hmin
      refine ⟨.binary (.column column) (.compare .lt) (.literal (some m)), rfl, ?_, ?_⟩
      · intro row hrow
        rw [Expr.truth_compare, Comparison.apply_eq_true]
        exact ⟨x, m, hrow, rfl, hlt⟩
      · intro row hrow htrue
        rw [Expr.truth_compare, Comparison.apply_eq_true] at htrue
        obtain ⟨y, z, hy, hz, hlt⟩ := htrue
        obtain rfl : m = z := Option.some.inj hz
        have hadm : b.Admits (some y) := hy ▸ hrow
        exact absurd ((admits_some_iff.mp hadm).1 m hm) (not_le.mpr hlt)

end ColumnBounds

/-- The arrays that a pruning predicate asks for, with one entry per container. -/
structure PruningStatistics where
  numContainers : Nat
  minValues : String → Option (List Scalar)
  maxValues : String → Option (List Scalar)
  nullCounts : String → Option (List (Option Nat))
  rowCounts : Option (List (Option Nat))

/-- The entry of a container in an array that may be absent. -/
def entry {α : Type} (array : Option (List (Option α))) (i : Nat) : Option α :=
  array.bind fun values => values[i]?.join

namespace PruningStatistics

def column (st : PruningStatistics) (i : Nat) (name : String) : ColumnBounds where
  min := entry (st.minValues name) i
  max := entry (st.maxValues name) i
  nullCount := entry (st.nullCounts name) i
  rowCount := entry st.rowCounts i

def ValidFor (st : PruningStatistics) (i : Nat) (rows : List (String → Scalar)) : Prop :=
  ∀ name, (st.column i name).Valid (rows.map (· name))

end PruningStatistics

/-- `PruningPredicate`, with what is assumed of it. -/
structure PruningPredicate (E : Engine) where
  prune : Expr String → PruningStatistics → List Bool
  sound : ∀ {pred st i} rows {row}, i < st.numContainers → st.ValidFor i rows → row ∈ rows →
    pred.truth E row = some true → (prune pred st)[i]? = some true

namespace PruningPredicate

variable {E : Engine} {st : PruningStatistics} {i : Nat}

theorem keeps_of_admits (P : PruningPredicate E) {pred : Expr String} {row : String → Scalar}
    (hi : i < st.numContainers) (hadmits : ∀ name, (st.column i name).Admits (row name))
    (htrue : pred.truth E row = some true) : (P.prune pred st)[i]? = some true :=
  P.sound [row] hi (fun name => hadmits name) (mem_singleton_self row) htrue

open Classical in
/-- Keeps a container only if some row that its entries admit makes the condition TRUE. -/
noncomputable def tightest (E : Engine) : PruningPredicate E where
  prune pred st := (List.range st.numContainers).map fun i =>
    decide (∃ row, (∀ name, (st.column i name).Admits (row name)) ∧ pred.truth E row = some true)
  sound := by
    intro pred st i rows row hi hvalid hrow htrue
    rw [List.getElem?_map, List.getElem?_range hi, Option.map_some, Option.some.injEq,
      decide_eq_true_eq]
    exact ⟨row, fun name => (hvalid name).admits (List.mem_map_of_mem hrow), htrue⟩

open Classical in
theorem tightest_drops {pred : Expr String}
    (h : ∀ row, (∀ name, (st.column i name).Admits (row name)) → pred.truth E row ≠ some true) :
    ((tightest E).prune pred st)[i]? ≠ some true := by
  intro hkeep
  rw [tightest, getElem?_map, Option.map_eq_some_iff] at hkeep
  obtain ⟨j, hj, hdec⟩ := hkeep
  obtain ⟨hlt, rfl⟩ := List.getElem?_eq_some_iff.mp hj
  rw [getElem_range] at hdec
  obtain ⟨row, hadmits, htrue⟩ := of_decide_eq_true hdec
  exact h row hadmits htrue

/-- `column = literal` keeps a container by its bounds, `column IS NULL` by its null count. -/
def simpleKeeps (bounds : String → ColumnBounds) : Expr String → Bool
  | .binary (.column c) (.compare .eq) (.literal (some v)) =>
    (bounds c).min.all (· ≤ v) && (bounds c).max.all (v ≤ ·)
  | .isNull (.column c) => (bounds c).nullCount ≠ some 0
  | _ => true

def simple (E : Engine) : PruningPredicate E where
  prune pred st := (List.range st.numContainers).map fun i => simpleKeeps (st.column i) pred
  sound := by
    intro pred st i rows row hi hvalid hrow htrue
    have hadm (c : String) := (hvalid c).admits (List.mem_map_of_mem hrow)
    rw [List.getElem?_map, List.getElem?_range hi, Option.map_some, Option.some.injEq]
    unfold simpleKeeps
    split
    · rename_i c v
      rw [Expr.truth_compare, Comparison.apply_eq_true] at htrue
      obtain ⟨x, y, hx, hy, hxy⟩ := htrue
      obtain rfl : v = y := Option.some.inj hy
      obtain rfl : x = v := hxy
      have hsome : (st.column i c).Admits (some x) := hx ▸ hadm c
      have hbounds := ColumnBounds.admits_some_iff.mp hsome
      simpa [Option.all_eq_true] using ⟨hbounds.1, hbounds.2.1⟩
    · rename_i c
      rw [Expr.truth_isNull, Truth.ofProp_eq_true] at htrue
      have hnone : (st.column i c).Admits none := htrue ▸ hadm c
      have hcount := (ColumnBounds.admits_none_iff.mp hnone).1
      rw [decide_eq_true_eq]
      intro hzero
      exact absurd (hcount 0 hzero).1 (by decide)
    · rfl

end PruningPredicate

end Zelox.Sql
