import Zelox.Event
import Mathlib.Data.List.Induction

/-!
# Interval bounds from a join filter

`extract_interval_bounds` looks for conjuncts `right_ts CMP left_ts ± duration` in the filter of a
stream–stream join.  The join evicts its state by the bounds that it returns, so every pair of rows
that passes the filter has to obey them.

The loop keeps the last lower bound, the last upper bound and the last two columns, each
overwritten on its own.  Filters in which the last two bounds compare the same two columns are
safe, and no others (`sound_iff`, `mixed_columns_unsound`).

The columns are timestamps in whole microseconds, expressions are without qualifiers, and the ids
that stand for column names are unique.  Timestamps and durations add up exactly, a day being
24 hours; what the loop does not look into is left to an interpretation.
-/

namespace Zelox.Join

open List Option

/-! ## Expressions -/

/-- `ScalarValue`, as far as it is looked at. -/
inductive Scalar where
  | duration (unit : TimeUnit) (value : Option Int64)
  | intervalDayTime (value : Option (Int32 × Int32))
  | other (id : Nat)

inductive Operator where
  | and
  | gtEq
  | gt
  | ltEq
  | lt
  | plus
  | minus
  | other (id : Nat)

inductive Expr where
  | column (name : String)
  | literal (value : Scalar)
  | binary (op : Operator) (left right : Expr)
  | other (id : Nat)

/-! ## The extraction -/

def collectConjuncts : Expr → List Expr
  | .binary .and left right => collectConjuncts left ++ collectConjuncts right
  | e => [e]

/-- Microseconds of a literal; the sum of days and milliseconds is not checked. -/
def durationLiteralMicros : Scalar → Option Int64
  | .duration .microsecond value => value
  | .duration .millisecond value => value.bind fun v => Int64.checked (v.toInt * 1000)
  | .duration .second value => value.bind fun v => Int64.checked (v.toInt * 1000000)
  | .duration .nanosecond value => value.map (· / 1000)
  | .intervalDayTime value => value.bind fun i =>
      (Int64.checked (i.1.toInt * 86400000000)).map fun days => days + Int64.ofInt (i.2.toInt * 1000)
  | .other _ => none

/-- `col` or `col ± duration`: the column and the offset. -/
def parseColOffset : Expr → Option (String × Int64)
  | .column name => some (name, 0)
  | .binary .plus (.column name) (.literal value) =>
    (durationLiteralMicros value).map fun micros => (name, micros)
  | .binary .minus (.column name) (.literal value) =>
    (durationLiteralMicros value).map fun micros => (name, -micros)
  | _ => none

/-- A conjunct that the loop takes for a bound. -/
structure Bound where
  upper : Bool
  right : String
  left : String
  offset : Int64

/-- Whether the operator makes an upper bound, if it makes one at all. -/
def Operator.isUpper : Operator → Option Bool
  | .gtEq => some false
  | .gt => some false
  | .ltEq => some true
  | .lt => some true
  | _ => none

section

variable (leftSchema rightSchema : List String)

/-- The canonical form, `right_ts CMP left_ts ± duration`. -/
def boundOf : Expr → Option Bound
  | .binary op (.column cmp) rhs => do
    let upper ← op.isUpper
    let (other, offset) ← parseColOffset rhs
    if rightSchema.contains cmp && leftSchema.contains other then
      some ⟨upper, cmp, other, offset⟩
    else none
  | _ => none

/-- The variables of the loop. -/
structure Extraction where
  lower : Option Int64 := none
  upper : Option Int64 := none
  leftTs : Option String := none
  rightTs : Option String := none

def Extraction.record (s : Extraction) (b : Bound) : Extraction :=
  let s := { s with rightTs := some b.right, leftTs := some b.left }
  if b.upper then { s with upper := some b.offset } else { s with lower := some b.offset }

/-- The body of the loop. -/
def Extraction.conjunct (s : Extraction) (e : Expr) : Extraction :=
  (boundOf leftSchema rightSchema e).elim s s.record

def extractIntervalBounds (filter : Expr) : Option (String × String × Int64 × Int64) := do
  let s := (collectConjuncts filter).foldl (Extraction.conjunct leftSchema rightSchema) {}
  let l ← s.leftTs
  let r ← s.rightTs
  let lo ← s.lower
  let hi ← s.upper
  some (l, r, lo, hi)

end

/-! ## What a filter means -/

/-- The exact length of a literal in nanoseconds. -/
def Scalar.nanos : Scalar → Option Int
  | .duration .microsecond value => value.map (·.toInt * 1000)
  | .duration .millisecond value => value.map (·.toInt * 1000000)
  | .duration .second value => value.map (·.toInt * 1000000000)
  | .duration .nanosecond value => value.map (·.toInt)
  | .intervalDayTime value => value.map fun i => i.1.toInt * 86400000000000 + i.2.toInt * 1000000
  | .other _ => none

/-- A pair of rows, by its timestamps, and the meaning of what the loop does not look into. -/
structure Interp where
  column : String → Option Int
  value : Expr → Option Int
  truth : Expr → Bool

namespace Interp

variable (I : Interp)

/-- Nanoseconds; `none` is null. -/
def nanos : Expr → Option Int
  | .column name => (I.column name).map (· * 1000)
  | .literal (.other id) => I.value (.literal (.other id))
  | .literal value => value.nanos
  | .binary .plus left right => (nanos left).bind fun a => (nanos right).map (a + ·)
  | .binary .minus left right => (nanos left).bind fun a => (nanos right).map (a - ·)
  | e => I.value e

def compare (test : Int → Int → Bool) (left right : Expr) : Bool :=
  (I.nanos left).any fun a => (I.nanos right).any fun b => test a b

/-- The expression is true of the pair of rows. -/
def satisfies : Expr → Bool
  | .binary .and left right => satisfies left && satisfies right
  | .binary .gtEq left right => I.compare (fun a b => b ≤ a) left right
  | .binary .gt left right => I.compare (fun a b => b < a) left right
  | .binary .ltEq left right => I.compare (fun a b => a ≤ b) left right
  | .binary .lt left right => I.compare (fun a b => a < b) left right
  | e => I.truth e

end Interp

/-- The pair of rows has timestamps that are within the bounds. -/
def Interp.Within (I : Interp) (bounds : String × String × Int64 × Int64) : Prop :=
  ∃ x y, I.column bounds.1 = some x ∧ I.column bounds.2.1 = some y ∧
    x + bounds.2.2.1.toInt ≤ y ∧ y ≤ x + bounds.2.2.2.toInt

/-- What is extracted from the filter holds of every pair of rows that passes it. -/
def Sound (leftSchema rightSchema : List String) (filter : Expr) : Prop :=
  ∀ bounds ∈ extractIntervalBounds leftSchema rightSchema filter,
    ∀ I : Interp, I.satisfies filter = true → I.Within bounds

/-! ## Offsets -/

/-- The exact offset of a conjunct in nanoseconds. -/
def exactOffset : Expr → Option Int
  | .binary _ _ (.column _) => some 0
  | .binary _ _ (.binary .plus _ (.literal value)) => value.nanos
  | .binary _ _ (.binary .minus _ (.literal value)) => value.nanos.map (- ·)
  | _ => none

/-- The offset of the conjunct is in the range of 64-bit microseconds. -/
def Fits (e : Expr) : Prop :=
  ∀ n ∈ exactOffset e, -9223372036854775808 ≤ n.tdiv 1000 ∧ n.tdiv 1000 ≤ 9223372036854775807

theorem tdiv_thousand (n : Int) : ∃ m, n = 1000 * n.tdiv 1000 + m ∧ -1000 < m ∧ m < 1000 := by
  refine ⟨n.tmod 1000, (Int.mul_tdiv_add_tmod n 1000).symm, ?_, ?_⟩
  · exact Int.lt_tmod_of_pos n (by omega)
  · exact Int.tmod_lt_of_pos n (by omega)

theorem checked_eq_some {x : Int} {v : Int64} (h : Int64.checked x = some v) : v = Int64.ofInt x := by
  unfold Int64.checked at h
  split at h
  · exact (some.inj h).symm
  · cases h

theorem tdiv_thousand_of_eq {n m : Int} (h : n = m * 1000) : n.tdiv 1000 = m := by
  rw [h]
  exact Int.mul_tdiv_cancel m (by omega)

/-- What the source computes is the exact length in whole microseconds, modulo 2^64. -/
theorem durationLiteralMicros_exact {value : Scalar} {micros : Int64}
    (h : durationLiteralMicros value = some micros) :
    ∃ n, value.nanos = some n ∧ micros = Int64.ofInt (n.tdiv 1000) := by
  cases value with
  | duration unit value =>
    cases value with
    | none => cases unit <;> cases h
    | some v =>
      cases unit with
      | second =>
        refine ⟨v.toInt * 1000000000, rfl, ?_⟩
        rw [checked_eq_some h, tdiv_thousand_of_eq (m := v.toInt * 1000000) (by omega)]
      | millisecond =>
        refine ⟨v.toInt * 1000000, rfl, ?_⟩
        rw [checked_eq_some h, tdiv_thousand_of_eq (m := v.toInt * 1000) (by omega)]
      | microsecond =>
        obtain rfl := some.inj h
        refine ⟨v.toInt * 1000, rfl, ?_⟩
        rw [tdiv_thousand_of_eq rfl, Int64.ofInt_toInt]
      | nanosecond =>
        obtain rfl := some.inj h
        refine ⟨v.toInt, rfl, Int64.toInt_inj.mp ?_⟩
        rw [Int64.toInt_div, Int64.toInt_ofInt]
        rfl
  | intervalDayTime value =>
    cases value with
    | none => cases h
    | some i =>
      obtain ⟨days, hdays, hsum⟩ := map_eq_some_iff.mp h
      refine ⟨i.1.toInt * 86400000000000 + i.2.toInt * 1000000, rfl, ?_⟩
      rw [← hsum, checked_eq_some hdays, ← Int64.ofInt_add, tdiv_thousand_of_eq
        (m := i.1.toInt * 86400000000 + i.2.toInt * 1000) (by omega)]
  | other id => cases h

theorem Interp.nanos_literal (I : Interp) {value : Scalar} {n : Int} (h : value.nanos = some n) :
    I.nanos (.literal value) = some n := by
  cases value with
  | duration _ _ | intervalDayTime _ => exact h
  | other id => cases h

/-- The right-hand side of a bound is the left column and an offset, of which the source takes
micros. -/
theorem parseColOffset_spec {rhs : Expr} {other : String} {offset : Int64}
    (h : parseColOffset rhs = some (other, offset)) :
    ∃ n, (∀ op left, exactOffset (.binary op left rhs) = some n) ∧
      offset = Int64.ofInt (n.tdiv 1000) ∧
      ∀ I : Interp, I.nanos rhs = (I.column other).map (· * 1000 + n) := by
  unfold parseColOffset at h
  split at h
  · next name =>
    cases h
    refine ⟨0, fun op left => rfl, rfl, fun I => ?_⟩
    simp only [Interp.nanos, Int.add_zero]
  · next name value =>
    obtain ⟨micros, hmicros, hpair⟩ := map_eq_some_iff.mp h
    obtain ⟨n, hn, hexact⟩ := durationLiteralMicros_exact hmicros
    cases hpair
    refine ⟨n, fun op left => hn, hexact, fun I => ?_⟩
    show ((I.column other).map (· * 1000)).bind (fun a => (I.nanos (.literal value)).map (a + ·)) = _
    rw [I.nanos_literal hn]
    cases I.column other <;> rfl
  · next name value =>
    obtain ⟨micros, hmicros, hpair⟩ := map_eq_some_iff.mp h
    obtain ⟨n, hn, hexact⟩ := durationLiteralMicros_exact hmicros
    cases hpair
    refine ⟨-n, fun op left => ?_, ?_, fun I => ?_⟩
    · show value.nanos.map (- ·) = some (-n)
      rw [hn]
      rfl
    · rw [hexact, Int.neg_tdiv, Int64.ofInt_neg]
    · show ((I.column other).map (· * 1000)).bind (fun a => (I.nanos (.literal value)).map (a - ·)) = _
      rw [I.nanos_literal hn]
      cases I.column other <;> rfl
  · cases h

/-- How far `a` is inside a bound at `b`. -/
def room (upper : Bool) (a b : Int) : Int := if upper then b - a else a - b

/-- The comparisons, strict or not, between their two extremes. -/
theorem Operator.isUpper_spec {op : Operator} {upper : Bool} (h : op.isUpper = some upper) :
    ∃ test : Int → Int → Bool,
      (∀ (I : Interp) left right, I.satisfies (.binary op left right) = I.compare test left right) ∧
      (∀ a b, test a b = true → 0 ≤ room upper a b) ∧ ∀ a b, 0 < room upper a b → test a b = true := by
  cases op with
  | gtEq =>
    cases h
    refine ⟨fun a b => b ≤ a, fun I left right => rfl, ?_, ?_⟩
    all_goals simp [room] <;> omega
  | gt =>
    cases h
    refine ⟨fun a b => b < a, fun I left right => rfl, ?_, ?_⟩
    all_goals simp [room] <;> omega
  | ltEq =>
    cases h
    refine ⟨fun a b => a ≤ b, fun I left right => rfl, ?_, ?_⟩
    all_goals simp [room] <;> omega
  | lt =>
    cases h
    refine ⟨fun a b => a < b, fun I left right => rfl, ?_, ?_⟩
    all_goals simp [room] <;> omega
  | and | plus | minus | other id => cases h

/-- A bound holds only of timestamps that it leaves no less than no room, and of all that it leaves
some. -/
theorem boundOf_spec {leftSchema rightSchema : List String} {e : Expr} {b : Bound}
    (h : boundOf leftSchema rightSchema e = some b) :
    b.right ∈ rightSchema ∧ b.left ∈ leftSchema ∧ collectConjuncts e = [e] ∧
    ∃ n, exactOffset e = some n ∧ b.offset = Int64.ofInt (n.tdiv 1000) ∧
      ∀ I : Interp,
        (I.satisfies e = true → ∃ x y, I.column b.left = some x ∧ I.column b.right = some y ∧
          0 ≤ room b.upper (y * 1000) (x * 1000 + n)) ∧
        ∀ x y, I.column b.left = some x → I.column b.right = some y →
          0 < room b.upper (y * 1000) (x * 1000 + n) → I.satisfies e = true := by
  unfold boundOf at h
  split at h
  · next op cmp rhs =>
    obtain ⟨upper, hupper, h⟩ := bind_eq_some_iff.mp h
    obtain ⟨⟨other, offset⟩, hparse, h⟩ := bind_eq_some_iff.mp h
    obtain ⟨n, hexact, hoffset, hvalue⟩ := parseColOffset_spec hparse
    have hcmp : ∀ I : Interp, ∀ test : Int → Int → Bool,
        I.compare test (.column cmp) rhs = true ↔ ∃ x y, I.column other = some x ∧
          I.column cmp = some y ∧ test (y * 1000) (x * 1000 + n) = true := by
      intro I test
      unfold Interp.compare
      rw [hvalue I]
      cases hx : I.column other <;> cases hy : I.column cmp <;> simp [Interp.nanos, hy]
    have hb : (if (rightSchema.contains cmp && leftSchema.contains other) = true then
        some (Bound.mk upper cmp other offset) else none) = some b := h
    split at hb
    next hschemas =>
      cases hb
      rw [Bool.and_eq_true, contains_iff_mem, contains_iff_mem] at hschemas
      refine ⟨hschemas.1, hschemas.2, ?_, n, hexact op (.column cmp), hoffset, fun I => ?_⟩
      · cases op <;> first | rfl | cases hupper
      · obtain ⟨test, hsat, hweak, hstrong⟩ := Operator.isUpper_spec hupper
        rw [hsat I, hcmp I test]
        constructor
        · rintro ⟨x, y, hx, hy, ht⟩
          exact ⟨x, y, hx, hy, hweak _ _ ht⟩
        · intro x y hx hy hroom
          exact ⟨x, y, hx, hy, hstrong _ _ hroom⟩
    next => cases hb
  · cases h

/-! ## The last bounds -/

section

variable (leftSchema rightSchema : List String)

/-- The last conjunct that is a bound of the kind. -/
def lastBound (upper : Bool) (conjuncts : List Expr) : Option Expr :=
  (conjuncts.filter fun e => (boundOf leftSchema rightSchema e).any (·.upper == upper)).getLast?

end

section

variable {leftSchema rightSchema : List String}

theorem lastBound_concat (conjuncts : List Expr) (e : Expr) (upper : Bool) :
    lastBound leftSchema rightSchema upper (conjuncts ++ [e]) =
      if (boundOf leftSchema rightSchema e).any (·.upper == upper) then some e
      else lastBound leftSchema rightSchema upper conjuncts := by
  unfold lastBound
  rw [filter_append, filter_cons, filter_nil]
  split
  · exact getLast?_concat
  · rw [append_nil]

/-- What the last bound of a kind says. -/
def lastOf (leftSchema rightSchema : List String) (conjuncts : List Expr) (upper : Bool) :
    Option Bound :=
  (lastBound leftSchema rightSchema upper conjuncts).bind (boundOf leftSchema rightSchema)

variable (leftSchema rightSchema) in
/-- The offsets are those of the last two bounds, and the columns are those of one of them. -/
theorem foldl_conjunct (conjuncts : List Expr) :
    ∃ upper, conjuncts.foldl (Extraction.conjunct leftSchema rightSchema) {} =
      { lower := (lastOf leftSchema rightSchema conjuncts false).map (·.offset)
        upper := (lastOf leftSchema rightSchema conjuncts true).map (·.offset)
        leftTs := (lastOf leftSchema rightSchema conjuncts upper).map (·.left)
        rightTs := (lastOf leftSchema rightSchema conjuncts upper).map (·.right) } := by
  induction conjuncts using List.reverseRecOn with
  | nil => exact ⟨false, rfl⟩
  | append_singleton conjuncts e ih =>
    obtain ⟨upper, hstate⟩ := ih
    rw [foldl_append, hstate]
    simp only [lastOf, lastBound_concat, foldl_cons, foldl_nil, Extraction.conjunct]
    cases hb : boundOf leftSchema rightSchema e with
    | none => exact ⟨upper, by simp⟩
    | some b =>
      refine ⟨b.upper, ?_⟩
      cases hu : b.upper with
      | false | true => simp [Extraction.record, hb, hu]

theorem satisfies_of_mem_collectConjuncts (I : Interp) {filter : Expr}
    (h : I.satisfies filter = true) : ∀ e ∈ collectConjuncts filter, I.satisfies e = true := by
  fun_induction collectConjuncts filter with
  | case1 left right ihl ihr =>
    obtain ⟨hl, hr⟩ := (Bool.and_eq_true _ _).mp h
    exact forall_mem_append.mpr ⟨ihl hl, ihr hr⟩
  | case2 filter _ => exact forall_mem_singleton.mpr h

theorem mem_of_lastBound {upper : Bool} {conjuncts : List Expr} {e : Expr}
    (h : lastBound leftSchema rightSchema upper conjuncts = some e) : e ∈ conjuncts :=
  mem_of_mem_filter (mem_of_getLast? h)

theorem within_of_satisfies {e : Expr} {b : Bound} (hb : boundOf leftSchema rightSchema e = some b)
    (hfits : Fits e) {I : Interp} (h : I.satisfies e = true) :
    ∃ x y, I.column b.left = some x ∧ I.column b.right = some y ∧
      0 ≤ room b.upper y (x + b.offset.toInt) := by
  obtain ⟨-, -, -, n, hn, hoffset, hsat⟩ := boundOf_spec hb
  obtain ⟨x, y, hx, hy, hroom⟩ := (hsat I).1 h
  obtain ⟨hlo, hhi⟩ := hfits n hn
  obtain ⟨m, hm, hmlo, hmhi⟩ := tdiv_thousand n
  refine ⟨x, y, hx, hy, ?_⟩
  rw [hoffset, Int64.toInt_ofInt_of_le (by omega) (by omega)]
  unfold room at hroom ⊢
  cases hu : b.upper with
  | false =>
    simp only [hu, Bool.false_eq_true, if_false] at hroom ⊢
    omega
  | true =>
    simp only [hu, if_true] at hroom ⊢
    omega

theorem extractIntervalBounds_of_last (filter : Expr) {b b' : Bound}
    (hlower : lastOf leftSchema rightSchema (collectConjuncts filter) false = some b)
    (hupper : lastOf leftSchema rightSchema (collectConjuncts filter) true = some b') :
    ∃ c, (c = b ∨ c = b') ∧ extractIntervalBounds leftSchema rightSchema filter =
      some (c.left, c.right, b.offset, b'.offset) := by
  obtain ⟨upper, hstate⟩ := foldl_conjunct leftSchema rightSchema (collectConjuncts filter)
  unfold extractIntervalBounds
  rw [hstate, hlower, hupper]
  cases upper with
  | false => exact ⟨b, .inl rfl, by rw [hlower]; rfl⟩
  | true => exact ⟨b', .inr rfl, by rw [hupper]; rfl⟩

/-- Timestamps within both bounds, with the upper bound's right column far behind its left one. -/
def apart (b b' : Bound) (M N K : Int) : Interp where
  column name :=
    if name = b'.right then some 0
    else if name = b'.left then some M
    else if name = b.right then some N
    else some (-K)
  value _ := none
  truth _ := false

theorem not_sound_of_ne {e e' : Expr} {b b' : Bound}
    (hunique : ∀ name ∈ rightSchema, name ∉ leftSchema)
    (hb : boundOf leftSchema rightSchema e = some b)
    (hb' : boundOf leftSchema rightSchema e' = some b')
    (hlower : b.upper = false) (hupper : b'.upper = true)
    (hne : ¬ (b.left = b'.left ∧ b.right = b'.right)) :
    ¬ Sound leftSchema rightSchema (.binary .and e e') := by
  obtain ⟨hr, hl, hself, n, -, -, hsat⟩ := boundOf_spec hb
  obtain ⟨hr', hl', hself', n', -, -, hsat'⟩ := boundOf_spec hb'
  have h1 : b.left ≠ b'.right := fun h => hunique _ hr' (h ▸ hl)
  have h2 : b'.left ≠ b'.right := fun h => hunique _ hr' (h ▸ hl')
  have h3 : b.left ≠ b.right := fun h => hunique _ hr (h ▸ hl)
  have h4 : b.right ≠ b'.left := fun h => hunique _ hr (h ▸ hl')
  have hextract : extractIntervalBounds leftSchema rightSchema (.binary .and e e') =
      some (b'.left, b'.right, b.offset, b'.offset) := by
    unfold extractIntervalBounds
    rw [collectConjuncts, hself, hself']
    simp [Extraction.conjunct, Extraction.record, hb, hb', hlower, hupper]
  obtain ⟨M, hM⟩ : ∃ M : Int, M = n'.natAbs + b.offset.toInt.natAbs + 1 := ⟨_, rfl⟩
  obtain ⟨K, hK⟩ : ∃ K : Int, K = n.natAbs + 1 := ⟨_, rfl⟩
  obtain ⟨N, hN⟩ : ∃ N : Int, N = M + n.natAbs + 1 := ⟨_, rfl⟩
  have hcol : (apart b b' M N K).column b'.right = some 0 := if_pos rfl
  have hcol' : (apart b b' M N K).column b'.left = some M := by simp [apart, h2]
  have htrue' : (apart b b' M N K).satisfies e' = true := by
    refine (hsat' _).2 M 0 hcol' hcol ?_
    rw [hupper]
    show 0 < M * 1000 + n' - 0 * 1000
    omega
  have htrue : (apart b b' M N K).satisfies e = true := by
    refine (hsat _).2 (if b.left = b'.left then M else -K) (if b.right = b'.right then 0 else N)
      ?_ ?_ ?_
    · simp only [apart, h1, h3, if_false]
      split <;> rfl
    · simp only [apart, h4, if_false, if_true]
      split <;> rfl
    · rw [hlower]
      show 0 < _ * 1000 - (_ * 1000 + n)
      split <;> split <;> first | omega | exact (hne ⟨‹_›, ‹_›⟩).elim
  intro hsound
  have hboth : (apart b b' M N K).satisfies (.binary .and e e') = true :=
    (Bool.and_eq_true _ _).mpr ⟨htrue, htrue'⟩
  obtain ⟨x, y, hx, hy, hge, -⟩ := hsound _ hextract _ hboth
  obtain rfl : M = x := some.inj (hcol'.symm.trans hx)
  obtain rfl : 0 = y := some.inj (hcol.symm.trans hy)
  have hfar : M + b.offset.toInt ≤ 0 := hge
  omega

/-- The filters whose last bounds are `e` and `e'` are all safe exactly if these have the same
columns. -/
theorem sound_iff {e e' : Expr} {b b' : Bound}
    (hunique : ∀ name ∈ rightSchema, name ∉ leftSchema)
    (hb : boundOf leftSchema rightSchema e = some b)
    (hb' : boundOf leftSchema rightSchema e' = some b')
    (hlower : b.upper = false) (hupper : b'.upper = true) (hfits : Fits e) (hfits' : Fits e') :
    (∀ filter, lastBound leftSchema rightSchema false (collectConjuncts filter) = some e →
        lastBound leftSchema rightSchema true (collectConjuncts filter) = some e' →
          Sound leftSchema rightSchema filter) ↔
      b.left = b'.left ∧ b.right = b'.right := by
  constructor
  · intro h
    by_contra hne
    obtain ⟨-, -, hself, -⟩ := boundOf_spec hb
    obtain ⟨-, -, hself', -⟩ := boundOf_spec hb'
    have hboth : collectConjuncts (.binary .and e e') = [e] ++ [e'] := by
      rw [collectConjuncts, hself, hself']
    refine not_sound_of_ne hunique hb hb' hlower hupper hne (h _ ?_ ?_)
    all_goals rw [hboth, lastBound_concat, hb', any_some, hupper]
    · exact (lastBound_concat [] e false).trans (by rw [hb, any_some, hlower]; rfl)
    · rfl
  · rintro ⟨hleft, hright⟩ filter hlast hlast' bounds hbounds I hI
    have hbounds' : bounds = (b'.left, b'.right, b.offset, b'.offset) := by
      obtain ⟨c, hc, hex⟩ := extractIntervalBounds_of_last filter
        (by rw [lastOf, hlast, bind_some, hb]) (by rw [lastOf, hlast', bind_some, hb'])
      rw [mem_def, hex] at hbounds
      rcases hc with rfl | rfl <;> simp [← some.inj hbounds, hleft, hright]
    have hall := satisfies_of_mem_collectConjuncts I hI
    obtain ⟨x, y, hx, hy, hroom⟩ := within_of_satisfies hb hfits (hall e (mem_of_lastBound hlast))
    obtain ⟨x', y', hx', hy', hroom'⟩ :=
      within_of_satisfies hb' hfits' (hall e' (mem_of_lastBound hlast'))
    rw [hleft] at hx
    rw [hright] at hy
    obtain rfl : x = x' := some.inj (hx.symm.trans hx')
    obtain rfl : y = y' := some.inj (hy.symm.trans hy')
    unfold room at hroom hroom'
    rw [hlower] at hroom
    rw [hupper] at hroom'
    simp only [Bool.false_eq_true, if_false] at hroom
    simp only [if_true] at hroom'
    rw [hbounds']
    refine ⟨x, y, hx, hy, ?_, ?_⟩
    · show x + b.offset.toInt ≤ y
      omega
    · show y ≤ x + b'.offset.toInt
      omega

end

/-- `click >= show + 5s AND click < show + 1 day`. -/
theorem sound_click_after_show :
    let lower : Expr := .binary .gtEq (.column "click")
      (.binary .plus (.column "show") (.literal (.duration .second (some 5))))
    let upper : Expr := .binary .lt (.column "click")
      (.binary .plus (.column "show") (.literal (.intervalDayTime (some (1, 0)))))
    ∀ filter, lastBound ["show"] ["click"] false (collectConjuncts filter) = some lower →
      lastBound ["show"] ["click"] true (collectConjuncts filter) = some upper →
        Sound ["show"] ["click"] filter := by
  intro lower upper
  have hfits : ∀ e ∈ [lower, upper], Fits e := by
    intro e he n hn
    rcases mem_pair.mp he with rfl | rfl
    · obtain rfl := some.inj hn
      decide
    · obtain rfl := some.inj hn
      decide
  have hlower : boundOf ["show"] ["click"] lower = some ⟨false, "click", "show", 5000000⟩ := rfl
  have hupper : boundOf ["show"] ["click"] upper = some ⟨true, "click", "show", 86400000000⟩ := rfl
  refine (sound_iff ?_ hlower hupper rfl rfl (hfits lower ?_) (hfits upper ?_)).mpr ⟨rfl, rfl⟩
  · decide
  · exact mem_cons_self
  · exact mem_cons_of_mem _ (mem_singleton_self _)

/-- The columns of the second bound come with the offset of the first; `r2` may be before `l2`. -/
theorem mixed_columns_unsound :
    ¬ Sound ["l1", "l2"] ["r1", "r2"] (.binary .and
      (.binary .gtEq (.column "r1")
        (.binary .plus (.column "l1") (.literal (.duration .second (some 5)))))
      (.binary .ltEq (.column "r2")
        (.binary .plus (.column "l2") (.literal (.duration .second (some 10)))))) := by
  intro h
  obtain ⟨x, y, hx, hy, hge, -⟩ := h ("l2", "r2", 5000000, 10000000) rfl
    ⟨fun name => if name = "r1" then some 5000000 else some 0, fun _ => none, fun _ => false⟩ rfl
  obtain rfl := some.inj hx
  obtain rfl := some.inj hy
  exact absurd hge (by decide)

end Zelox.Join
