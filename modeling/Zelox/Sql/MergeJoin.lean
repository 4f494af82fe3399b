import Zelox.Sql.Expr

/-!
# Splitting the condition of a MERGE

`analyze_merge_join` (`resolver/command/merge.rs`) takes the equalities between the two sides
out of the `ON` condition as keys of the join; what is left is the filter of the join.  A key
is evaluated on the rows of its own side, with its names looked up among the fields of that
side.

Keys and filter together are TRUE exactly where the condition is (`analyzeMergeJoin_iff`): in
the merged schema a name that both sides have is the target's.
-/

namespace Zelox.Sql

open List

variable {C Q : Type}

/-- `split_conjunction` looks through aliases. -/
def splitConjunction : Expr C → List (Expr C)
  | .binary l .and r => splitConjunction l ++ splitConjunction r
  | .aliased e _ => splitConjunction e
  | e => [e]

theorem truth_splitConjunction (E : Engine) (env : C → Scalar) (e : Expr C) :
    e.truth E env = some true ↔ ∀ p ∈ splitConjunction e, p.truth E env = some true := by
  fun_induction splitConjunction e with
  | case1 l r ihl ihr => rw [Expr.truth_and, Truth.and_eq_true, forall_mem_append, ihl, ihr]
  | case2 e name ih => exact ih
  | case3 e => rw [forall_mem_singleton]

inductive ExprColumnDomain where
  | none
  | targetOnly
  | sourceOnly
  | mixed
deriving DecidableEq, Repr

structure MergeJoin (C : Type) where
  joinKeyPairs : List (Expr C × Expr C) := []
  residualPredicates : List (Expr C) := []
  targetOnlyPredicates : List (Expr C) := []

section Analyze

variable (indexOf : C → Option Nat) (targetLen : Nat)

def classifyExprDomain (e : Expr C) : ExprColumnDomain :=
  if e.columnRefs.any fun c => (indexOf c).isNone then .mixed
  else
    match e.columnRefs.any fun c => (indexOf c).any (· < targetLen),
      e.columnRefs.any fun c => (indexOf c).any (targetLen ≤ ·) with
    | false, false => .none
    | true, false => .targetOnly
    | false, true => .sourceOnly
    | true, true => .mixed

/-- An equality between the two sides, the target's first. -/
def joinKeyPair : Expr C → Option (Expr C × Expr C)
  | .binary l (.compare .eq) r =>
    match classifyExprDomain indexOf targetLen l, classifyExprDomain indexOf targetLen r with
    | .targetOnly, .sourceOnly => some (l, r)
    | .sourceOnly, .targetOnly => some (r, l)
    | _, _ => none
  | _ => none

/-- The body of the loop. -/
def MergeJoin.add (m : MergeJoin C) (p : Expr C) : MergeJoin C :=
  match joinKeyPair indexOf targetLen p with
  | some pair => { m with joinKeyPairs := m.joinKeyPairs ++ [pair] }
  | none =>
    { m with
      residualPredicates := m.residualPredicates ++ [p]
      targetOnlyPredicates :=
        if classifyExprDomain indexOf targetLen p = .targetOnly then m.targetOnlyPredicates ++ [p]
        else m.targetOnlyPredicates }

def analyzeMergeJoin (on : Expr C) : MergeJoin C :=
  (splitConjunction on).foldl (MergeJoin.add indexOf targetLen) {}

variable {indexOf targetLen}

theorem classifyExprDomain_spec {e : Expr C} {d : ExprColumnDomain}
    (h : classifyExprDomain indexOf targetLen e = d) (hd : d = .targetOnly ∨ d = .sourceOnly) :
    ∀ c ∈ e.columnRefs, ∃ i, indexOf c = some i ∧ (i < targetLen ↔ d = .targetOnly) := by
  intro c hc
  unfold classifyExprDomain at h
  split at h
  next => simp [← h] at hd
  next hsome =>
    cases hi : indexOf c with
    | none => exact (hsome (any_eq_true.mpr ⟨c, hc, by rw [hi]; rfl⟩)).elim
    | some i =>
      refine ⟨i, rfl, ?_⟩
      split at h <;> subst h
      next => simp at hd
      next hsource => simpa [hi] using any_eq_false.mp hsource c hc
      next htarget _ => simpa [hi] using any_eq_false.mp htarget c hc
      next => simp at hd

theorem foldl_add (ps : List (Expr C)) (m : MergeJoin C) :
    (ps.foldl (MergeJoin.add indexOf targetLen) m).joinKeyPairs =
        m.joinKeyPairs ++ ps.filterMap (joinKeyPair indexOf targetLen) ∧
      (ps.foldl (MergeJoin.add indexOf targetLen) m).residualPredicates =
        m.residualPredicates ++ ps.filter fun p => (joinKeyPair indexOf targetLen p).isNone := by
  induction ps generalizing m with
  | nil => simp
  | cons p ps ih =>
    rw [foldl_cons, (ih _).1, (ih _).2, MergeJoin.add]
    cases h : joinKeyPair indexOf targetLen p <;> simp [h]

end Analyze

/-! ### Names on both sides -/

class TableReference (Q : Type) where
  resolvedEq : Q → Q → Bool

/-- A column, or a field of a schema. -/
structure QualifiedName (Q : Type) where
  relation : Option Q := none
  name : String

/-- A row with the fields of its schema. -/
abbrev SchemaRow (Q : Type) := List (QualifiedName Q × Scalar)

variable [TableReference Q]

def QualifiedName.matchesField (c field : QualifiedName Q) : Bool :=
  match c.relation, field.relation with
  | some q, some q' => TableReference.resolvedEq q q' && c.name == field.name
  | some _, none => false
  | none, _ => c.name == field.name

namespace SchemaRow

/-- `DFSchema::index_of_column`: the first field that matches. -/
def indexOfColumn (row : SchemaRow Q) (c : QualifiedName Q) : Option Nat :=
  row.findIdx? fun field => c.matchesField field.1

def get (row : SchemaRow Q) (c : QualifiedName Q) : Scalar :=
  (row.indexOfColumn c).bind fun i => row[i]?.bind (·.2)

/-- The expression reads nothing but columns of the row. -/
def Resolves (row : SchemaRow Q) (e : Expr (QualifiedName Q)) : Prop :=
  ∀ c ∈ e.columnRefs, (row.indexOfColumn c).isSome

variable {target source : SchemaRow Q}

theorem get_append {c : QualifiedName Q} {i : Nat}
    (h : indexOfColumn (target ++ source) c = some i) :
    if i < target.length then
      get (target ++ source) c = target.get c ∧ (target.indexOfColumn c).isSome
    else get (target ++ source) c = source.get c ∧ (source.indexOfColumn c).isSome := by
  rw [get, get, get, h]
  rw [indexOfColumn, findIdx?_append] at h
  cases ht : target.indexOfColumn c with
  | some j =>
    rw [indexOfColumn] at ht
    obtain rfl : j = i := by simpa [ht] using h
    have hj : j < target.length := (findIdx?_eq_some_iff_findIdx_eq.mp ht).1
    simp [hj, getElem?_append_left]
  | none =>
    rw [indexOfColumn] at ht
    rw [ht, Option.none_or] at h
    obtain ⟨j, hj, rfl⟩ := Option.map_eq_some_iff.mp h
    simp [indexOfColumn, hj, getElem?_append_right]

theorem eval_append (E : Engine) {e : Expr (QualifiedName Q)} {d : ExprColumnDomain}
    (h : classifyExprDomain (indexOfColumn (target ++ source)) target.length e = d)
    (hd : d = .targetOnly ∨ d = .sourceOnly) :
    e.eval E (get (target ++ source)) =
        e.eval E (get (if d = .targetOnly then target else source)) ∧
      Resolves (if d = .targetOnly then target else source) e := by
  have hrow (c) (hc : c ∈ e.columnRefs) : get (target ++ source) c =
        get (if d = .targetOnly then target else source) c ∧
      (indexOfColumn (if d = .targetOnly then target else source) c).isSome := by
    obtain ⟨i, hi, hside⟩ := classifyExprDomain_spec h hd c hc
    have hget := get_append hi
    split at hget <;> simp_all
  exact ⟨Expr.eval_congr e fun c hc => (hrow c hc).1, fun c hc => (hrow c hc).2⟩

/-- A key pair is the conjunct it comes from, with each side on its own row. -/
theorem joinKeyPair_spec (E : Engine) {p : Expr (QualifiedName Q)}
    {pair : Expr (QualifiedName Q) × Expr (QualifiedName Q)}
    (h : joinKeyPair (indexOfColumn (target ++ source)) target.length p = some pair) :
    p.truth E (get (target ++ source)) =
        Comparison.eq.apply (pair.1.eval E target.get) (pair.2.eval E source.get) ∧
      target.Resolves pair.1 ∧ source.Resolves pair.2 := by
  unfold joinKeyPair at h
  split at h
  next l r =>
    rw [Expr.truth_compare]
    split at h <;> cases h
    next hl hr =>
      have hl := eval_append E hl (.inl rfl)
      have hr := eval_append E hr (.inr rfl)
      exact ⟨by rw [hl.1, hr.1]; rfl, hl.2, hr.2⟩
    next hl hr =>
      have hl := eval_append E hl (.inr rfl)
      have hr := eval_append E hr (.inl rfl)
      exact ⟨by rw [hl.1, hr.1, ← Comparison.apply_reverse]; rfl, hr.2, hl.2⟩
  next => cases h

end SchemaRow

/-- The condition is TRUE for two rows if and only if every key is equal and not null and every
residual predicate is TRUE. -/
theorem analyzeMergeJoin_iff (E : Engine) (target source : SchemaRow Q)
    (on : Expr (QualifiedName Q)) :
    let join := analyzeMergeJoin (SchemaRow.indexOfColumn (target ++ source)) target.length on
    (on.truth E (SchemaRow.get (target ++ source)) = some true ↔
      (∀ pair ∈ join.joinKeyPairs,
        Comparison.eq.apply (pair.1.eval E target.get) (pair.2.eval E source.get) = some true) ∧
      ∀ p ∈ join.residualPredicates, p.truth E (SchemaRow.get (target ++ source)) = some true) ∧
    ∀ pair ∈ join.joinKeyPairs, target.Resolves pair.1 ∧ source.Resolves pair.2 := by
  intro join
  obtain ⟨hpairs, hrest⟩ := @foldl_add _ (SchemaRow.indexOfColumn (target ++ source))
    target.length (splitConjunction on) {}
  rw [← analyzeMergeJoin, nil_append] at hpairs hrest
  rw [truth_splitConjunction, hpairs, hrest]
  simp only [mem_filterMap, mem_filter, forall_exists_index, and_imp]
  refine ⟨⟨fun h => ⟨fun pair p hp hkey => ?_, fun p hp _ => h p hp⟩,
    fun ⟨hkeys, hrest⟩ p hp => ?_⟩, fun pair p _ hkey => (SchemaRow.joinKeyPair_spec E hkey).2⟩
  · rw [← (SchemaRow.joinKeyPair_spec E hkey).1]
    exact h p hp
  · cases hkey : joinKeyPair (SchemaRow.indexOfColumn (target ++ source)) target.length p with
    | none => exact hrest p hp (by rw [hkey]; rfl)
    | some pair =>
      rw [(SchemaRow.joinKeyPair_spec E hkey).1]
      exact hkeys pair p hp hkey

end Zelox.Sql
