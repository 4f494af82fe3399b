import Zelox.Lib.ThreeValued
import Mathlib.Data.Sum.Order
import Mathlib.Data.String.Basic

/-!
# SQL expressions over nullable values

The logical expressions that conditions of row-level statements are written in, with
their values under SQL's three-valued logic.  Expressions are over an arbitrary type of
columns, so that a condition on table columns and the condition on file metadata that is
made of it are different types.  What the query engine does with casts, functions and
the remaining operators is a parameter (`Engine`).

An expression only reads its `columnRefs` (`eval_congr`).
-/

namespace Zelox.Sql

open List

/-- A value that is not null; dates and timestamps are counted in their unit. -/
inductive ScalarValue where
  | boolean (b : Bool)
  | int (i : Int)
  | utf8 (s : String)
deriving DecidableEq, Repr

namespace ScalarValue

/-- Values of one type are ordered as usual; values of two types are never compared. -/
def toLex : ScalarValue → Bool ⊕ₗ Int ⊕ₗ String
  | boolean b => Sum.inlₗ b
  | int i => Sum.inrₗ (Sum.inlₗ i)
  | utf8 s => Sum.inrₗ (Sum.inrₗ s)

theorem toLex_injective : Function.Injective toLex := by
  intro a b h
  cases a <;> cases b <;> simp_all [toLex]

instance : LinearOrder ScalarValue := LinearOrder.lift' toLex toLex_injective

end ScalarValue

/-- A nullable value. -/
abbrev Scalar := Option ScalarValue

def Scalar.truth : Scalar → Truth
  | some (.boolean b) => some b
  | _ => none

def Scalar.ofTruth (t : Truth) : Scalar := t.map .boolean

@[simp] theorem Scalar.truth_ofTruth (t : Truth) : (Scalar.ofTruth t).truth = t := by
  cases t <;> rfl

inductive DataType where
  | boolean
  | int32
  | int64
  | utf8
  | date32
  | timestampMicrosecond
deriving DecidableEq, Repr

inductive Comparison where
  | eq
  | notEq
  | lt
  | ltEq
  | gt
  | gtEq
deriving DecidableEq, Repr

namespace Comparison

def Holds : Comparison → ScalarValue → ScalarValue → Prop
  | eq, a, b => a = b
  | notEq, a, b => a ≠ b
  | lt, a, b => a < b
  | ltEq, a, b => a ≤ b
  | gt, a, b => b < a
  | gtEq, a, b => b ≤ a

instance : (c : Comparison) → (a b : ScalarValue) → Decidable (c.Holds a b)
  | eq, a, b => inferInstanceAs (Decidable (a = b))
  | notEq, a, b => inferInstanceAs (Decidable (a ≠ b))
  | lt, a, b => inferInstanceAs (Decidable (a < b))
  | ltEq, a, b => inferInstanceAs (Decidable (a ≤ b))
  | gt, a, b => inferInstanceAs (Decidable (b < a))
  | gtEq, a, b => inferInstanceAs (Decidable (b ≤ a))

/-- A comparison with a null is unknown. -/
def apply (c : Comparison) : Scalar → Scalar → Truth
  | some a, some b => .ofProp (c.Holds a b)
  | _, _ => none

theorem apply_eq_true {c : Comparison} {a b : Scalar} :
    c.apply a b = some true ↔ ∃ x y, a = some x ∧ b = some y ∧ c.Holds x y := by
  cases a <;> cases b <;> simp [apply]

/-- `reverse_comparison`: the comparison with its sides exchanged. -/
def reverse : Comparison → Comparison
  | eq => eq
  | notEq => notEq
  | lt => gt
  | ltEq => gtEq
  | gt => lt
  | gtEq => ltEq

theorem holds_reverse (c : Comparison) (a b : ScalarValue) :
    c.reverse.Holds a b ↔ c.Holds b a := by
  cases c <;> simp [reverse, Holds, eq_comm]

theorem apply_reverse (c : Comparison) (a b : Scalar) : c.reverse.apply a b = c.apply b a := by
  cases a <;> cases b <;> simp [apply, Truth.ofProp, holds_reverse]

end Comparison

/-- Operators that are neither connectives nor comparisons go by their name. -/
inductive Operator where
  | and
  | or
  | compare (c : Comparison)
  | other (name : String)
deriving DecidableEq, Repr

/-- What the query engine computes for casts, functions and other operators. -/
structure Engine where
  cast : DataType → Scalar → Scalar
  call : String → List Scalar → Scalar

/-- Casts that keep the value and functions that return null. -/
def Engine.plain : Engine where
  cast _ v := v
  call _ _ := none

def Operator.apply (E : Engine) : Operator → Scalar → Scalar → Scalar
  | and, a, b => .ofTruth (a.truth.and b.truth)
  | or, a, b => .ofTruth (a.truth.or b.truth)
  | compare c, a, b => .ofTruth (c.apply a b)
  | other name, a, b => E.call name [a, b]

/-- `function` stands for everything that is applied to the values of its arguments, as `LIKE`,
`CASE`. -/
inductive Expr (C : Type) where
  | column (column : C)
  | literal (value : Scalar)
  | binary (left : Expr C) (op : Operator) (right : Expr C)
  | not (expr : Expr C)
  | isNull (expr : Expr C)
  | isNotNull (expr : Expr C)
  | between (expr : Expr C) (negated : Bool) (low high : Expr C)
  | inList (expr : Expr C) (list : List (Expr C)) (negated : Bool)
  | cast (expr : Expr C) (dataType : DataType)
  | aliased (expr : Expr C) (name : String)
  | function (name : String) (args : List (Expr C))

/-- `NOT` in front of a value if `negated`. -/
def negateIf (negated : Bool) (t : Truth) : Truth := if negated then t.not else t

namespace Expr

variable {C D : Type}

mutual

def eval (E : Engine) (env : C → Scalar) : Expr C → Scalar
  | column c => env c
  | literal v => v
  | binary l op r => op.apply E (l.eval E env) (r.eval E env)
  | not e => .ofTruth (e.eval E env).truth.not
  | isNull e => .ofTruth (.ofProp (e.eval E env = none))
  | isNotNull e => .ofTruth (.ofProp (e.eval E env ≠ none))
  | between e negated low high =>
    .ofTruth (negateIf negated
      ((Comparison.gtEq.apply (e.eval E env) (low.eval E env)).and
        (Comparison.ltEq.apply (e.eval E env) (high.eval E env))))
  | inList e list negated =>
    .ofTruth (negateIf negated
      (.any ((evalList E env list).map (Comparison.eq.apply (e.eval E env)))))
  | cast e dataType => E.cast dataType (e.eval E env)
  | aliased e _ => e.eval E env
  | function name args => E.call name (evalList E env args)

def evalList (E : Engine) (env : C → Scalar) : List (Expr C) → List Scalar
  | [] => []
  | e :: es => e.eval E env :: evalList E env es

end

mutual

def columnRefs : Expr C → List C
  | column c => [c]
  | literal _ => []
  | binary l _ r => l.columnRefs ++ r.columnRefs
  | not e => e.columnRefs
  | isNull e => e.columnRefs
  | isNotNull e => e.columnRefs
  | between e _ low high => e.columnRefs ++ low.columnRefs ++ high.columnRefs
  | inList e list _ => e.columnRefs ++ columnRefsList list
  | cast e _ => e.columnRefs
  | aliased e _ => e.columnRefs
  | function _ args => columnRefsList args

def columnRefsList : List (Expr C) → List C
  | [] => []
  | e :: es => e.columnRefs ++ columnRefsList es

end

mutual

/-- The expression with its columns renamed. -/
def map (f : C → D) : Expr C → Expr D
  | column c => column (f c)
  | literal v => literal v
  | binary l op r => binary (l.map f) op (r.map f)
  | not e => not (e.map f)
  | isNull e => isNull (e.map f)
  | isNotNull e => isNotNull (e.map f)
  | between e negated low high => between (e.map f) negated (low.map f) (high.map f)
  | inList e list negated => inList (e.map f) (mapList f list) negated
  | cast e dataType => cast (e.map f) dataType
  | aliased e name => aliased (e.map f) name
  | function name args => function name (mapList f args)

def mapList (f : C → D) : List (Expr C) → List (Expr D)
  | [] => []
  | e :: es => e.map f :: mapList f es

end

variable {E : Engine}

theorem evalList_eq (env : C → Scalar) (es : List (Expr C)) :
    evalList E env es = es.map (eval E env) := by
  induction es with
  | nil => rfl
  | cons e es ih => rw [evalList, map_cons, ih]

theorem mapList_eq (f : C → D) (es : List (Expr C)) : mapList f es = es.map (map f) := by
  induction es with
  | nil => rfl
  | cons e es ih => rw [mapList, map_cons, ih]

theorem mem_columnRefsList {es : List (Expr C)} {c : C} :
    c ∈ columnRefsList es ↔ ∃ e ∈ es, c ∈ e.columnRefs := by
  induction es with
  | nil => simp [columnRefsList]
  | cons e es ih => simp [columnRefsList, ih]

/-- Induction over an expression and the members of its lists. -/
@[elab_as_elim]
theorem ind {P : Expr C → Prop} (column : ∀ c, P (column c)) (literal : ∀ v, P (literal v))
    (binary : ∀ l op r, P l → P r → P (binary l op r)) (not : ∀ e, P e → P (not e))
    (isNull : ∀ e, P e → P (isNull e)) (isNotNull : ∀ e, P e → P (isNotNull e))
    (between : ∀ e negated low high, P e → P low → P high → P (between e negated low high))
    (inList : ∀ e list negated, P e → (∀ v ∈ list, P v) → P (inList e list negated))
    (cast : ∀ e dataType, P e → P (cast e dataType)) (aliased : ∀ e name, P e → P (aliased e name))
    (function : ∀ name args, (∀ v ∈ args, P v) → P (function name args)) (e : Expr C) : P e :=
  @Expr.rec C P (fun es => ∀ v ∈ es, P v) column literal binary not isNull isNotNull
    between (fun e list negated he hl => inList e list negated he hl) cast aliased function
    (fun _ h => (not_mem_nil h).elim) (fun _ _ he hes => forall_mem_cons.mpr ⟨he, hes⟩) e

theorem eval_congr {env env' : C → Scalar} (e : Expr C) (h : ∀ c ∈ e.columnRefs, env c = env' c) :
    e.eval E env = e.eval E env' := by
  induction e using ind with
  | column c => exact h c (by simp [columnRefs])
  | inList e list negated he hlist =>
    rw [columnRefs, forall_mem_append] at h
    rw [eval, eval, he h.1, evalList_eq, evalList_eq, map_congr_left fun v hv =>
      hlist v hv fun c hc => h.2 c (mem_columnRefsList.mpr ⟨v, hv, hc⟩)]
  | function name args hargs =>
    rw [eval, eval, evalList_eq, evalList_eq, map_congr_left fun v hv =>
      hargs v hv fun c hc => h c (mem_columnRefsList.mpr ⟨v, hv, hc⟩)]
  | _ => simp_all [columnRefs, eval]

theorem columnRefs_map (f : C → D) (e : Expr C) : (e.map f).columnRefs = e.columnRefs.map f := by
  have hlist {es : List (Expr C)} (h : ∀ v ∈ es, (v.map f).columnRefs = v.columnRefs.map f) :
      columnRefsList (mapList f es) = (columnRefsList es).map f := by
    induction es with
    | nil => rfl
    | cons e es ih => simp_all [mapList, columnRefsList]
  induction e using ind <;> simp_all [map, columnRefs]

/-- The truth value of a condition. -/
def truth (E : Engine) (env : C → Scalar) (e : Expr C) : Truth := (e.eval E env).truth

section

variable (env : C → Scalar)

@[simp] theorem truth_and (l r : Expr C) :
    (binary l .and r).truth E env = (l.truth E env).and (r.truth E env) := by
  rw [truth, eval, Operator.apply, Scalar.truth_ofTruth]
  rfl

@[simp] theorem truth_compare (l r : Expr C) (c : Comparison) :
    (binary l (.compare c) r).truth E env = c.apply (l.eval E env) (r.eval E env) := by
  rw [truth, eval, Operator.apply, Scalar.truth_ofTruth]

@[simp] theorem truth_isNull (e : Expr C) :
    (isNull e).truth E env = .ofProp (e.eval E env = none) := by
  rw [truth, eval, Scalar.truth_ofTruth]

@[simp] theorem truth_isNotNull (e : Expr C) :
    (isNotNull e).truth E env = .ofProp (e.eval E env ≠ none) := by
  rw [truth, eval, Scalar.truth_ofTruth]

end

/-- `disjunction`: the `OR` of a list that is not empty. -/
def disjunction : List (Expr C) → Option (Expr C)
  | [] => none
  | e :: es => some (es.foldl (fun l r => binary l .or r) e)

/-- `conjunction`: the `AND` of a list that is not empty. -/
def conjunction : List (Expr C) → Option (Expr C)
  | [] => none
  | e :: es => some (es.foldl (fun l r => binary l .and r) e)

def literalTrue : Expr C := literal (some (.boolean true))

end Expr

end Zelox.Sql
