import Zelox.Sql.Expr

/-!
# Conditions over file metadata

DELETE, UPDATE and conditional overwrites first look for the files that can hold a row of
interest (`planner/metadata_predicate.rs`).  The condition on rows is rewritten into one
on the partition values and statistics of a file: a test of a partition column stays as
it is, a test of another column becomes a test of its bounds, and everything that has no
such form becomes TRUE.

On partition columns alone the rewriting is the condition with the tests of an unsupported
shape taken as TRUE (`rewrite_eq_onPartition`).
-/

namespace Zelox.Delta

open Sql List

/-- A leaf of the `stats_parsed` struct. -/
inductive StatsField where
  | numRecords
  | nullCount (name : String)
  | minValues (name : String)
  | maxValues (name : String)
deriving DecidableEq, Repr

/-- A column of the table of active files. -/
inductive MetaColumn where
  | partition (name : String)
  | stats (field : StatsField)
deriving DecidableEq, Repr

def predicateRequiresStats (e : Expr String) (partitionColumns : List String) : Bool :=
  e.columnRefs.any fun c => !partitionColumns.contains c

/-- A column, or a cast of one. -/
inductive ExprTemplate where
  | raw (column : String)
  | cast (column : String) (dataType : DataType)
deriving DecidableEq, Repr

namespace ExprTemplate

def columnName : ExprTemplate → String
  | raw column => column
  | cast column _ => column

def apply {C : Type} : ExprTemplate → Expr C → Expr C
  | raw _, e => e
  | cast _ dataType, e => .cast e dataType

end ExprTemplate

def extractTemplate : Expr String → Option ExprTemplate
  | .column c => some (.raw c)
  | .cast (.column c) dataType => some (.cast c dataType)
  | _ => none

/-- An expression whose columns are partition columns, over the metadata. -/
def onPartition (e : Expr String) : Expr MetaColumn := e.map .partition

def columnExpr (name : String) : Expr MetaColumn := .column (.partition name)
def statsNumRecordsExpr : Expr MetaColumn := .column (.stats .numRecords)
def statsNullCountExpr (name : String) : Expr MetaColumn := .column (.stats (.nullCount name))

def statsBoundExpr (name : String) (isMin : Bool) : Expr MetaColumn :=
  .column (.stats (if isMin then .minValues name else .maxValues name))

def compareExpr (l : Expr MetaColumn) (c : Comparison) (r : Expr MetaColumn) : Expr MetaColumn :=
  .binary l (.compare c) r

def anyNull (es : List (Expr MetaColumn)) : Expr MetaColumn :=
  (Expr.disjunction (es.map .isNull)).getD .literalTrue

section Rewriter

variable (partitionColumns : List String)

def rewriteTemplateComparison (t : ExprTemplate) (c : Comparison) (value : Expr String) :
    Expr MetaColumn :=
  let value := onPartition value
  if partitionColumns.contains t.columnName then
    compareExpr (t.apply (columnExpr t.columnName)) c value
  else
    let minExpr := t.apply (statsBoundExpr t.columnName true)
    let maxExpr := t.apply (statsBoundExpr t.columnName false)
    match c with
    | .eq =>
      .binary (anyNull [minExpr, maxExpr]) .or
        (.binary (compareExpr minExpr .ltEq value) .and (compareExpr maxExpr .gtEq value))
    | .notEq =>
      .binary (anyNull [minExpr, maxExpr]) .or
        ((Expr.disjunction
          [compareExpr minExpr .lt value, compareExpr maxExpr .gt value]).getD .literalTrue)
    | .lt => .binary (.isNull minExpr) .or (compareExpr minExpr .lt value)
    | .ltEq => .binary (.isNull minExpr) .or (compareExpr minExpr .ltEq value)
    | .gt => .binary (.isNull maxExpr) .or (compareExpr maxExpr .gt value)
    | .gtEq => .binary (.isNull maxExpr) .or (compareExpr maxExpr .gtEq value)

def rewriteComparison (left : Expr String) (c : Comparison) (right : Expr String) :
    Option (Expr MetaColumn) :=
  if left.columnRefs.isEmpty && right.columnRefs.isEmpty then
    some (compareExpr (onPartition left) c (onPartition right))
  else
    match extractTemplate left with
    | some t =>
      if right.columnRefs.isEmpty then some (rewriteTemplateComparison partitionColumns t c right)
      else none
    | none =>
      match extractTemplate right with
      | some t =>
        if left.columnRefs.isEmpty then
          some (rewriteTemplateComparison partitionColumns t c.reverse left)
        else none
      | none => none

def rewriteBetween (e : Expr String) (negated : Bool) (low high : Expr String) :
    Option (Expr MetaColumn) :=
  if !low.columnRefs.isEmpty || !high.columnRefs.isEmpty then none
  else
    (extractTemplate e).map fun t =>
      if partitionColumns.contains t.columnName then
        .between (onPartition e) negated (onPartition low) (onPartition high)
      else
        let minExpr := t.apply (statsBoundExpr t.columnName true)
        let maxExpr := t.apply (statsBoundExpr t.columnName false)
        let actual :=
          if negated then
            (Expr.disjunction [compareExpr minExpr .lt (onPartition low),
              compareExpr maxExpr .gt (onPartition high)]).getD .literalTrue
          else
            (Expr.conjunction [compareExpr maxExpr .gtEq (onPartition low),
              compareExpr minExpr .ltEq (onPartition high)]).getD .literalTrue
        .binary (anyNull [minExpr, maxExpr]) .or actual

def rewriteInList (e : Expr String) (list : List (Expr String)) (negated : Bool) :
    Option (Expr MetaColumn) :=
  (extractTemplate e).bind fun t =>
    if list.any fun v => !v.columnRefs.isEmpty then none
    else if partitionColumns.contains t.columnName then
      some (.inList (onPartition e) (list.map onPartition) negated)
    else if negated then
      some ((Expr.conjunction
        (list.map (rewriteTemplateComparison partitionColumns t .notEq))).getD .literalTrue)
    else
      some ((Expr.disjunction
        (list.map (rewriteTemplateComparison partitionColumns t .eq))).getD .literalTrue)

def rewriteNullCheck (e : Expr String) (isNotNull : Bool) : Option (Expr MetaColumn) :=
  (extractTemplate e).map fun t =>
    if partitionColumns.contains t.columnName then
      if isNotNull then .isNotNull (onPartition e) else .isNull (onPartition e)
    else
      let nullCount := t.apply (statsNullCountExpr t.columnName)
      if isNotNull then
        (Expr.disjunction [.isNull nullCount, .isNull statsNumRecordsExpr,
          compareExpr nullCount .lt statsNumRecordsExpr]).getD .literalTrue
      else
        (Expr.disjunction [.isNull nullCount,
          compareExpr nullCount .gt (.literal (some (.int 0)))]).getD .literalTrue

/-- `MetadataPredicateRewriter::rewrite`. -/
def rewrite : Expr String → Expr MetaColumn
  | .binary left .and right => .binary (rewrite left) .and (rewrite right)
  | .binary left .or right => .binary (rewrite left) .or (rewrite right)
  | .binary left (.compare c) right =>
    (rewriteComparison partitionColumns left c right).getD .literalTrue
  | .binary _ (.other _) _ => .literalTrue
  | .between e negated low high =>
    (rewriteBetween partitionColumns e negated low high).getD .literalTrue
  | .inList e list negated => (rewriteInList partitionColumns e list negated).getD .literalTrue
  | .isNull e => (rewriteNullCheck partitionColumns e false).getD .literalTrue
  | .isNotNull e => (rewriteNullCheck partitionColumns e true).getD .literalTrue
  | .not (.isNull e) => (rewriteNullCheck partitionColumns e true).getD .literalTrue
  | .not (.isNotNull e) => (rewriteNullCheck partitionColumns e false).getD .literalTrue
  | .aliased e _ => rewrite e
  | .literal v => .literal v
  | _ => .literalTrue

end Rewriter

/-- What a session adds to the engine: `simplify_expr`, which simplifies a condition over the
metadata and coerces its types. -/
structure Session extends Engine where
  simplifyExpr : Expr MetaColumn → Expr MetaColumn

instance : Coe Session Engine := ⟨Session.toEngine⟩

/-- A session that has nothing to simplify or coerce. -/
def Session.plain : Session where
  toEngine := .plain
  simplifyExpr e := e

/-! ### Conditions on partition columns -/

def isConstant (e : Expr String) : Bool := e.columnRefs.isEmpty

theorem isEmpty_columnRefs (e : Expr String) : e.columnRefs.isEmpty = isConstant e := rfl

/-- A test if it has a form over the metadata, and TRUE otherwise. -/
def testIf (supported : Bool) (test : Expr String) : Expr String :=
  if supported then test else .literalTrue

def weakenComparison (left : Expr String) (c : Comparison) (right : Expr String) : Expr String :=
  if (extractTemplate right).isSome && isConstant left then .binary right (.compare c.reverse) left
  else
    testIf (isConstant right && (isConstant left || (extractTemplate left).isSome))
      (.binary left (.compare c) right)

/-- The condition with every test of an unsupported shape taken as TRUE. -/
def weaken : Expr String → Expr String
  | .binary left .and right => .binary (weaken left) .and (weaken right)
  | .binary left .or right => .binary (weaken left) .or (weaken right)
  | .binary left (.compare c) right => weakenComparison left c right
  | .between e negated low high =>
    testIf ((extractTemplate e).isSome && isConstant low && isConstant high)
      (.between e negated low high)
  | .inList e list negated =>
    testIf ((extractTemplate e).isSome && list.all isConstant) (.inList e list negated)
  | .isNull e => testIf (extractTemplate e).isSome (.isNull e)
  | .isNotNull e => testIf (extractTemplate e).isSome (.isNotNull e)
  | .not (.isNull e) => testIf (extractTemplate e).isSome (.isNotNull e)
  | .not (.isNotNull e) => testIf (extractTemplate e).isSome (.isNull e)
  | .aliased e _ => weaken e
  | .literal v => .literal v
  | _ => .literalTrue

section Partition

variable {partitionColumns : List String}

section

variable {e : Expr String} {t : ExprTemplate} (h : extractTemplate e = some t)
include h

theorem extractTemplate_eq :
    e = t.apply (.column t.columnName) := by
  unfold extractTemplate at h
  split at h
  · cases h
    rfl
  · cases h
    rfl
  · cases h

theorem extractTemplate_refs :
    e.columnRefs = [t.columnName] := by
  rw [extractTemplate_eq h]
  cases t <;> rfl

theorem columnName_mem {columns : List String} (hcols : ∀ p ∈ e.columnRefs, p ∈ columns) :
    t.columnName ∈ columns := by
  rw [extractTemplate_refs h] at hcols
  exact hcols _ mem_cons_self

theorem rewriteTemplateComparison_eq (hcols : ∀ p ∈ e.columnRefs, p ∈ partitionColumns)
    (c : Comparison) (value : Expr String) :
    rewriteTemplateComparison partitionColumns t c value =
      onPartition (.binary e (.compare c) value) := by
  rw [rewriteTemplateComparison, if_pos (by simpa using columnName_mem h hcols),
    extractTemplate_eq h]
  cases t <;> rfl

/-- A constant is no template. -/
theorem not_isConstant : isConstant e = false := by
  simp [isConstant, extractTemplate_refs h]

end

theorem rewriteComparison_eq {left right : Expr String} {c : Comparison}
    (hcols : ∀ p ∈ left.columnRefs ++ right.columnRefs, p ∈ partitionColumns) :
    (rewriteComparison partitionColumns left c right).getD .literalTrue =
      onPartition (weakenComparison left c right) := by
  obtain ⟨hleft, hright⟩ := forall_mem_append.mp hcols
  unfold rewriteComparison weakenComparison
  simp only [isEmpty_columnRefs]
  cases htl : extractTemplate left with
  | some t =>
    simp only [not_isConstant htl, rewriteTemplateComparison_eq htl hleft]
    cases isConstant right <;> simp [testIf]
    rfl
  | none =>
    cases htr : extractTemplate right with
    | some t =>
      simp only [not_isConstant htr, rewriteTemplateComparison_eq htr hright]
      cases isConstant left <;> simp [testIf]
      rfl
    | none =>
      by_cases hl : isConstant left <;> by_cases hr : isConstant right <;>
        simp [testIf, hl, hr] <;> rfl

theorem rewriteBetween_eq {e low high : Expr String} {negated : Bool}
    (hcols : ∀ p ∈ e.columnRefs, p ∈ partitionColumns) :
    (rewriteBetween partitionColumns e negated low high).getD .literalTrue =
      onPartition (weaken (.between e negated low high)) := by
  unfold rewriteBetween weaken
  simp only [isEmpty_columnRefs]
  cases ht : extractTemplate e with
  | none => cases isConstant low <;> cases isConstant high <;> rfl
  | some t =>
    have hmem := columnName_mem ht hcols
    cases isConstant low <;> cases isConstant high <;> simp [testIf, hmem] <;> rfl

theorem rewriteInList_eq {e : Expr String} {list : List (Expr String)} {negated : Bool}
    (hcols : ∀ p ∈ e.columnRefs, p ∈ partitionColumns) :
    (rewriteInList partitionColumns e list negated).getD .literalTrue =
      onPartition (weaken (.inList e list negated)) := by
  unfold rewriteInList weaken
  cases ht : extractTemplate e with
  | none => rfl
  | some t =>
    have hmem := columnName_mem ht hcols
    have hany : (list.any fun v => !v.columnRefs.isEmpty) = !list.all isConstant := by
      simp [isConstant, not_all_eq_any_not]
    rw [Option.bind_some, hany]
    cases list.all isConstant with
    | false => rfl
    | true => simp [testIf, hmem, onPartition, Expr.map, Expr.mapList_eq]

theorem rewriteNullCheck_eq {e : Expr String} (hcols : ∀ p ∈ e.columnRefs, p ∈ partitionColumns)
    (isNotNull : Bool) :
    (rewriteNullCheck partitionColumns e isNotNull).getD .literalTrue =
      onPartition (testIf (extractTemplate e).isSome
        (if isNotNull then .isNotNull e else .isNull e)) := by
  unfold rewriteNullCheck
  cases ht : extractTemplate e with
  | none => rfl
  | some t =>
    have hmem := columnName_mem ht hcols
    cases isNotNull <;> simp [testIf, hmem] <;> rfl

/-- On partition columns the rewriter falls back to TRUE only at tests of an unsupported shape. -/
theorem rewrite_eq_onPartition (e : Expr String)
    (hcols : ∀ p ∈ e.columnRefs, p ∈ partitionColumns) :
    rewrite partitionColumns e = onPartition (weaken e) := by
  fun_induction rewrite partitionColumns e with
  | case1 left right ihl ihr | case2 left right ihl ihr =>
    rw [Expr.columnRefs, forall_mem_append] at hcols
    rw [ihl hcols.1, ihr hcols.2]
    rfl
  | case3 left c right => exact rewriteComparison_eq hcols
  | case4 => rfl
  | case5 e negated low high =>
    exact rewriteBetween_eq fun p hp => hcols p (by simp [Expr.columnRefs, hp])
  | case6 e list negated =>
    exact rewriteInList_eq fun p hp => hcols p (by simp [Expr.columnRefs, hp])
  | case7 e | case10 e => exact rewriteNullCheck_eq (e := e) hcols false
  | case8 e | case9 e => exact rewriteNullCheck_eq (e := e) hcols true
  | case11 e name ih => exact ih hcols
  | case12 v => rfl
  | case13 e h1 h2 h3 h4 h5 h6 h7 =>
    cases e with
    | between e negated low high => exact (h5 e negated low high rfl).elim
    | not e => cases e <;> simp_all [weaken] <;> rfl
    | _ => simp_all [weaken] <;> rfl

/-- The rewriting of a condition on partition columns reads no statistics. -/
theorem exists_partition_of_mem_rewrite {e : Expr String}
    (hcols : ∀ p ∈ e.columnRefs, p ∈ partitionColumns) :
    ∀ c ∈ (rewrite partitionColumns e).columnRefs, ∃ name, c = .partition name := by
  rw [rewrite_eq_onPartition e hcols, onPartition, Expr.columnRefs_map]
  intro c hc
  obtain ⟨name, -, rfl⟩ := mem_map.mp hc
  exact ⟨name, rfl⟩

end Partition

end Zelox.Delta
