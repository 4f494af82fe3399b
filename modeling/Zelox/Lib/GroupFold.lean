import Mathlib.Algebra.BigOperators.Group.List.Basic
import Mathlib.Data.List.Nodup

/-!
# Grouped folds

A list of pairs `(g, m)` is read as rows of groups `g` with values `m` of a
commutative monoid; `total g` folds the values of group `g`.  Two lists `Agree` if
they have the same groups with the same totals: what a fold by groups can see.
Appending, permuting and dropping whole groups keep agreement.  `IsTable` is the
result of the fold, one row per group in any order, and depends on the rows only
up to agreement.
-/

namespace GroupFold

open List

variable {G M R : Type}

def keys (rows : List (G × M)) : List G := rows.map (·.1)

@[simp] theorem keys_append (xs ys : List (G × M)) : keys (xs ++ ys) = keys xs ++ keys ys :=
  map_append

theorem mem_keys_of_mem {r : G × M} {rows : List (G × M)} (h : r ∈ rows) : r.1 ∈ keys rows :=
  mem_map.mpr ⟨r, h, rfl⟩

theorem mem_keys_filter (p : G → Bool) (g : G) (xs : List (G × M)) :
    g ∈ keys (xs.filter fun r => p r.1) ↔ g ∈ keys xs ∧ p g = true := by
  constructor
  · intro h
    obtain ⟨r, hr, rfl⟩ := mem_map.mp h
    rw [mem_filter] at hr
    exact ⟨mem_map.mpr ⟨r, hr.1, rfl⟩, hr.2⟩
  · rintro ⟨h, hp⟩
    obtain ⟨r, hr, rfl⟩ := mem_map.mp h
    exact mem_map.mpr ⟨r, mem_filter.mpr ⟨hr, hp⟩, rfl⟩

variable [DecidableEq G] [AddCommMonoid M]

/-- The fold of the values of group `g`. -/
def total (g : G) (rows : List (G × M)) : M := ((rows.filter fun r => r.1 = g).map (·.2)).sum

theorem total_append (g : G) (xs ys : List (G × M)) :
    total g (xs ++ ys) = total g xs + total g ys := by
  simp [total, filter_append]

theorem total_of_not_mem (g : G) (xs : List (G × M)) (h : g ∉ keys xs) : total g xs = 0 := by
  unfold total
  rw [filter_eq_nil_iff.mpr]
  · rfl
  · intro r hr he
    exact h (mem_map.mpr ⟨r, hr, of_decide_eq_true he⟩)

variable {xs ys : List (G × M)}

theorem total_perm {g : G} (h : xs.Perm ys) : total g xs = total g ys :=
  ((h.filter _).map _).sum_eq

theorem total_filter (p : G → Bool) (g : G) (xs : List (G × M)) :
    total g (xs.filter fun r => p r.1) = if p g then total g xs else 0 := by
  cases hg : p g with
  | true =>
    unfold total
    rw [filter_filter]
    congr 2
    refine filter_congr fun r _ => ?_
    by_cases hr : r.1 = g
    · simp [hr, hg]
    · simp [hr]
  | false =>
    refine total_of_not_mem g _ fun hmem => ?_
    obtain ⟨r, hr, rfl⟩ := mem_map.mp hmem
    rw [mem_filter, hg] at hr
    cases hr.2

/-! ## Agreement -/

/-- The same groups, with the same totals. -/
def Agree (xs ys : List (G × M)) : Prop :=
  ∀ g, (g ∈ keys xs ↔ g ∈ keys ys) ∧ total g xs = total g ys

theorem Agree.refl (xs : List (G × M)) : Agree xs xs := fun _ => ⟨Iff.rfl, rfl⟩

theorem Agree.trans {xs ys zs : List (G × M)} (h1 : Agree xs ys) (h2 : Agree ys zs) : Agree xs zs :=
  fun g => ⟨(h1 g).1.trans (h2 g).1, (h1 g).2.trans (h2 g).2⟩

theorem Agree.of_perm (h : xs.Perm ys) : Agree xs ys :=
  fun _ => ⟨(h.map _).mem_iff, total_perm h⟩

theorem Agree.append {xs ys xs' ys' : List (G × M)} (h1 : Agree xs ys) (h2 : Agree xs' ys') :
    Agree (xs ++ xs') (ys ++ ys') := by
  intro g
  refine ⟨?_, ?_⟩
  · rw [keys_append, keys_append, mem_append, mem_append, (h1 g).1, (h2 g).1]
  · rw [total_append, total_append, (h1 g).2, (h2 g).2]

theorem Agree.filter (h : Agree xs ys) (p : G → Bool) :
    Agree (xs.filter fun r => p r.1) (ys.filter fun r => p r.1) := by
  intro g
  refine ⟨?_, ?_⟩
  · rw [mem_keys_filter, mem_keys_filter, (h g).1]
  · rw [total_filter, total_filter, (h g).2]

/-! ## Tables -/

/-- `out` lists the finished fold of `rows`: one row per group. -/
def IsTable (rows : List (G × M)) (finish : M → R) (out : List (G × R)) : Prop :=
  (keys out).Nodup ∧ ∀ g r, (g, r) ∈ out ↔ g ∈ keys rows ∧ r = finish (total g rows)

theorem IsTable.agree {finish : M → R} {out : List (G × R)} (h : IsTable xs finish out)
    (ha : Agree xs ys) : IsTable ys finish out :=
  ⟨h.1, fun g r => by rw [h.2 g r, (ha g).1, (ha g).2]⟩

theorem IsTable.filter_eq {xs : List (G × M)} {finish : M → R} {out : List (G × R)}
    (h : IsTable xs finish out) (g : G) :
    (out.filter fun r => r.1 = g) = if g ∈ keys xs then [(g, finish (total g xs))] else [] := by
  split
  · next hg =>
    have hmem : (g, finish (total g xs)) ∈ out := (h.2 g _).mpr ⟨hg, rfl⟩
    have hall : ∀ r ∈ out.filter (fun r => r.1 = g), r = (g, finish (total g xs)) := by
      intro r hr
      rw [mem_filter, decide_eq_true_eq] at hr
      obtain ⟨hr, rfl⟩ := hr
      rw [← ((h.2 r.1 r.2).mp hr).2]
    have hnd : (out.filter fun r => r.1 = g).Nodup := (List.Nodup.of_map _ h.1).filter _
    have hin : (g, finish (total g xs)) ∈ out.filter fun r => r.1 = g :=
      mem_filter.mpr ⟨hmem, by simp⟩
    cases hl : out.filter (fun r => r.1 = g) with
    | nil => rw [hl] at hin; cases hin
    | cons a l =>
      rw [hl] at hall hnd
      have ha := hall a mem_cons_self
      cases l with
      | nil => rw [ha]
      | cons b l =>
        have hb := hall b (mem_cons_of_mem _ mem_cons_self)
        rw [ha, hb] at hnd
        exact absurd hnd (by simp)
  · next hg =>
    rw [filter_eq_nil_iff]
    intro r hr he
    rw [decide_eq_true_eq] at he
    exact hg (he ▸ ((h.2 r.1 r.2).mp hr).1)

end GroupFold
