import Mathlib.Data.List.Perm.Basic

/-!
# Positions in a list and in a part of it

`filterIdx q l` keeps the elements of `l` at the positions that satisfy `q`.  If `l` is
itself what a filter `p` has left of a longer list, a position in `l` is not a position in
the longer list but a rank: the number of elements before it that `p` keeps
(`filterIdx_filter`).  `filterBatches` does the same to a list that comes in pieces, with
the position carried from one piece to the next.
-/

namespace Ranks

open List

variable {α : Type}

/-- The elements at the positions from `start` on that satisfy `q`. -/
def filterIdxFrom (q : Nat → Bool) (start : Nat) (l : List α) : List α :=
  ((l.zipIdx start).filter fun x => q x.2).map Prod.fst

def filterIdx (q : Nat → Bool) (l : List α) : List α := filterIdxFrom q 0 l

theorem filterIdxFrom_append (q : Nat → Bool) (start : Nat) (l l' : List α) :
    filterIdxFrom q start (l ++ l') =
      filterIdxFrom q start l ++ filterIdxFrom q (start + l.length) l' := by
  simp [filterIdxFrom, zipIdx_append]

/-- The pieces of a list, each filtered at its positions in the whole. -/
def filterBatches (q : Nat → Bool) : Nat → List (List α) → List (List α)
  | _, [] => []
  | start, b :: bs => filterIdxFrom q start b :: filterBatches q (start + b.length) bs

theorem flatten_filterBatches (q : Nat → Bool) (start : Nat) (bs : List (List α)) :
    (filterBatches q start bs).flatten = filterIdxFrom q start bs.flatten := by
  induction bs generalizing start with
  | nil => rfl
  | cons b bs ih =>
    rw [filterBatches, flatten_cons, flatten_cons, filterIdxFrom_append, ih]

theorem filterIdxFrom_take (q : Nat → Bool) (start n : Nat) (l : List α) :
    filterIdxFrom q start (l.take n) =
      filterIdxFrom (fun i => decide (i < start + n) && q i) start l := by
  induction l generalizing start n with
  | nil => simp [filterIdxFrom]
  | cons a l ih =>
    cases n with
    | zero =>
      rw [take_zero, filterIdxFrom, filterIdxFrom, eq_comm, zipIdx_nil, filter_nil,
        map_nil, map_eq_nil_iff, filter_eq_nil_iff]
      intro x hx
      have := le_snd_of_mem_zipIdx hx
      simp
      omega
    | succ n =>
      have hidx : (fun i => decide (i < start + (n + 1)) && q i) =
          fun i => decide (i < start + 1 + n) && q i := by
        funext i
        rw [Nat.add_assoc start 1 n, Nat.add_comm 1 n]
      have hcons (q' : Nat → Bool) (m : List α) : filterIdxFrom q' start (a :: m) =
          (if q' start then [a] else []) ++ filterIdxFrom q' (start + 1) m := by
        cases h : q' start <;> simp [filterIdxFrom, zipIdx_cons, h]
      rw [take_succ_cons, hcons, hcons, ih (start + 1) n, hidx]
      simp

theorem filterIdx_take (q : Nat → Bool) (n : Nat) (l : List α) :
    filterIdx q (l.take n) = filterIdx (fun i => decide (i < n) && q i) l := by
  simpa [filterIdx] using filterIdxFrom_take q 0 n l

/-- Filtering by position is filtering by a function that gives the position. -/
theorem filterIdx_eq_filter {l : List α} {g : α → Nat} (hg : ∀ x ∈ l.zipIdx, g x.1 = x.2)
    (q : Nat → Bool) : filterIdx q l = l.filter fun a => q (g a) := by
  have hcongr : (l.zipIdx.filter fun x => q x.2) = l.zipIdx.filter fun x => q (g x.1) :=
    filter_congr fun x hx => by rw [hg x hx]
  have hmap : l = l.zipIdx.map Prod.fst := by simp
  rw [filterIdx, filterIdxFrom, hcongr]
  conv_rhs => rw [hmap, filter_map]
  rfl

/-- The position of an element in a filtered list is its rank. -/
theorem zipIdx_filter (p : α → Bool) (l : List α) (start : Nat) :
    ∀ x ∈ (l.filter p).zipIdx start,
      ∃ i, l[i]? = some x.1 ∧ x.2 = start + (l.take i).countP p := by
  induction l generalizing start with
  | nil => simp
  | cons a l ih =>
    intro x hx
    by_cases ha : p a
    · rw [filter_cons_of_pos ha, zipIdx_cons] at hx
      rcases mem_cons.mp hx with rfl | hx
      · exact ⟨0, rfl, by simp⟩
      · obtain ⟨i, hi, hrank⟩ := ih (start + 1) x hx
        refine ⟨i + 1, hi, ?_⟩
        rw [take_succ_cons, countP_cons_of_pos ha, hrank]
        omega
    · rw [filter_cons_of_neg ha] at hx
      obtain ⟨i, hi, hrank⟩ := ih start x hx
      refine ⟨i + 1, hi, ?_⟩
      rw [take_succ_cons, countP_cons_of_neg ha, hrank]

/-- Filtering what `p` has left by position is filtering by rank. -/
theorem filterIdx_filter {l : List α} {pos : α → Nat} (hpos : ∀ i a, l[i]? = some a → pos a = i)
    (p : α → Bool) (q : Nat → Bool) :
    filterIdx q (l.filter p) =
      (l.filter p).filter fun a => q ((l.take (pos a)).countP p) := by
  refine filterIdx_eq_filter (fun x hx => ?_) q
  obtain ⟨i, hi, hrank⟩ := zipIdx_filter p l 0 x hx
  rw [hpos i x.1 hi, hrank, Nat.zero_add]

end Ranks
