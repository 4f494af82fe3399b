import Mathlib.Data.List.Sort

/-!
# Sorting by a numeric key

`List.insertionSort` is a stable sort.  By a key in `Nat` the result is in order
(`pairwise_sortBy`), and if the keys are distinct it is strictly so (`pairwise_sortBy_lt`).
`Tiles` says of ranges in order that they cover an interval without gap or overlap.
-/

namespace SortBy

open List

variable {α : Type}

theorem pairwise_sortBy (f : α → Nat) (l : List α) :
    (l.insertionSort fun a b => f a ≤ f b).Pairwise fun a b => f a ≤ f b := by
  exact pairwise_insertionSort _ l

theorem pairwise_lt_of_nodup (f : α → Nat) {l : List α} (hle : l.Pairwise fun a b => f a ≤ f b)
    (hnd : (l.map f).Nodup) : l.Pairwise fun a b => f a < f b := by
  have hne : l.Pairwise fun a b => f a ≠ f b := pairwise_map.mp hnd
  exact (hle.and hne).imp fun h => Nat.lt_of_le_of_ne h.1 h.2

theorem pairwise_sortBy_lt (f : α → Nat) (l : List α) (hl : (l.map f).Nodup) :
    (l.insertionSort fun a b => f a ≤ f b).Pairwise fun a b => f a < f b := by
  apply pairwise_lt_of_nodup f (pairwise_sortBy f l)
  exact ((perm_insertionSort _ l).map f).nodup_iff.mpr hl

theorem rel_of_head? {r : α → α → Prop} {l : List α} {a b : α} (hs : l.Pairwise r)
    (ha : l.head? = some a) (hb : b ∈ l) : b = a ∨ r a b := by
  cases l with
  | nil => cases ha
  | cons c l =>
    cases ha
    exact (mem_cons.mp hb).imp_right ((pairwise_cons.mp hs).1 b)

theorem exists_head?_le {f : α → Nat} {l : List α} {b : α} (hs : l.Pairwise fun a b => f a ≤ f b)
    (hb : b ∈ l) : ∃ a, l.head? = some a ∧ f a ≤ f b := by
  have hne := ne_nil_of_mem hb
  refine ⟨l.head hne, head?_eq_some_head hne, ?_⟩
  rcases rel_of_head? hs (head?_eq_some_head hne) hb with h | hle
  · exact le_of_eq (congrArg f h.symm)
  · exact hle

/-- The sort is stable: it ends with the last of the elements with the greatest key. -/
theorem getLast?_sortBy {f : α → Nat} {l : List α} {c : Nat} {a : α} (hle : ∀ b ∈ l, f b ≤ c)
    (hlast : (l.filter fun b => f b = c).getLast? = some a) :
    (l.insertionSort fun a b => f a ≤ f b).getLast? = some a := by
  have hperm := perm_insertionSort (fun a b => f a ≤ f b) l
  -- the elements with the greatest key stay in their order
  have hfilter : (l.insertionSort fun a b => f a ≤ f b).filter (fun b => f b = c) =
      l.filter fun b => f b = c := by
    have hsub : (l.filter fun b => f b = c).Sublist (l.insertionSort fun a b => f a ≤ f b) := by
      apply sublist_insertionSort _ filter_sublist
      rw [pairwise_filter]
      exact pairwise_of_forall fun b d hb hd => by simp at hb hd; omega
    have hsub' := hsub.filter fun b => f b = c
    simp only [filter_filter, Bool.and_self] at hsub'
    exact (hsub'.eq_of_length (hperm.filter _).length_eq.symm).symm
  have hmem : a ∈ l.filter fun b => f b = c := mem_of_getLast? hlast
  obtain ⟨ha, hac⟩ := mem_filter.mp hmem
  obtain ⟨init, b, hsorted⟩ : ∃ init b, l.insertionSort (fun a b => f a ≤ f b) = init ++ [b] := by
    have hne : l.insertionSort (fun a b => f a ≤ f b) ≠ [] :=
      ne_nil_of_mem (hperm.mem_iff.mpr ha)
    exact ⟨_, _, (dropLast_append_getLast hne).symm⟩
  have hbc : f b = c := by
    have hb : b ∈ l := hperm.mem_iff.mp (by simp [hsorted])
    have hpair := pairwise_sortBy f l
    rw [hsorted, pairwise_append] at hpair
    have ha' : a ∈ init ++ [b] := hsorted ▸ hperm.mem_iff.mpr ha
    have hac : f a = c := of_decide_eq_true hac
    rcases mem_append.mp ha' with h | h
    · have := hpair.2.2 a h b mem_cons_self
      have := hle b hb
      omega
    · rw [← mem_singleton.mp h, hac]
  rw [hsorted, filter_append, filter_cons_of_pos (by simpa using hbc), filter_nil] at hfilter
  rw [← hfilter, getLast?_concat] at hlast
  rw [hsorted, getLast?_concat, hlast]

/-- The ranges follow each other from `first` up to `last`. -/
def Tiles (last : Nat) : Nat → List (Nat × Nat) → Prop
  | first, [] => first = last + 1
  | first, (s, e) :: rs => s = first ∧ Tiles last (e + 1) rs

variable {last first : Nat}

section

variable {rs : List (Nat × Nat)} (h : Tiles last first rs) (hle : ∀ r ∈ rs, r.1 ≤ r.2)
include h hle

theorem Tiles.le_of_mem : ∀ r ∈ rs, first ≤ r.1 := by
  induction rs generalizing first with
  | nil => exact forall_mem_nil _
  | cons r rs ih =>
    obtain ⟨rfl, hrs⟩ := h
    obtain ⟨hr, hle⟩ := forall_mem_cons.mp hle
    refine forall_mem_cons.mpr ⟨le_rfl, fun x hx => ?_⟩
    have := ih hrs hle x hx
    omega

theorem Tiles.pairwise : rs.Pairwise fun a b => a.2 < b.1 := by
  induction rs generalizing first with
  | nil => exact List.Pairwise.nil
  | cons r rs ih =>
    obtain ⟨rfl, hrs⟩ := h
    have hle' := (forall_mem_cons.mp hle).2
    refine pairwise_cons.mpr ⟨fun x hx => ?_, ih hrs hle'⟩
    exact hrs.le_of_mem hle' x hx

theorem Tiles.le :
    first ≤ last + 1 := by
  induction rs generalizing first with
  | nil => exact le_of_eq h
  | cons r rs ih =>
    obtain ⟨rfl, hrs⟩ := h
    obtain ⟨hr, hle⟩ := forall_mem_cons.mp hle
    have := ih hrs hle
    omega

/-- The numbers in the tiles, in order, are those of the interval. -/
theorem Tiles.flatMap_range' :
    (rs.flatMap fun r => List.range' r.1 (r.2 + 1 - r.1)) =
      List.range' first (last + 1 - first) := by
  induction rs generalizing first with
  | nil =>
    cases h
    simp
  | cons r rs ih =>
    obtain ⟨rfl, hrs⟩ := h
    obtain ⟨hr, hle'⟩ := forall_mem_cons.mp hle
    have hlast := hrs.le hle'
    rw [flatMap_cons, ih hrs hle']
    have hnext : r.2 + 1 = r.1 + 1 * (r.2 + 1 - r.1) := by omega
    have hlen : last + 1 - r.1 = (r.2 + 1 - r.1) + (last + 1 - (r.2 + 1)) := by omega
    rw [hlen, ← List.range'_append]
    congr 2

theorem Tiles.countP_eq_one {v : Nat} (hfirst : first ≤ v) (hlast : v ≤ last) :
    rs.countP (fun r => r.1 ≤ v ∧ v ≤ r.2) = 1 := by
  induction rs generalizing first with
  | nil =>
    have : first = last + 1 := h
    omega
  | cons r rs ih =>
    obtain ⟨rfl, hrs⟩ := h
    have hle' := (forall_mem_cons.mp hle).2
    by_cases hv : v ≤ r.2
    · -- the tiles after the one that holds `v` start above it
      have hrest : rs.countP (fun r => r.1 ≤ v ∧ v ≤ r.2) = 0 := by
        apply countP_eq_zero.mpr
        intro x hx
        have := hrs.le_of_mem hle' x hx
        simp only [decide_eq_true_eq]
        omega
      rw [countP_cons_of_pos (by simpa using ⟨hfirst, hv⟩), hrest]
    · rw [countP_cons_of_neg (by simp [hv])]
      exact ih hrs hle' (by omega)

end

/-- Ranges in order that lie in the interval, share no number and leave none out are tiles. -/
theorem tiles_of_cover {rs : List (Nat × Nat)} (hfirst : first ≤ last + 1)
    (hsorted : rs.Pairwise fun a b => a.1 ≤ b.1)
    (hdisjoint : rs.Pairwise fun a b => a.2 < b.1 ∨ b.2 < a.1)
    (hmem : ∀ r ∈ rs, first ≤ r.1 ∧ r.1 ≤ r.2 ∧ r.2 ≤ last)
    (hcover : ∀ v, first ≤ v → v ≤ last → ∃ r ∈ rs, r.1 ≤ v ∧ v ≤ r.2) :
    Tiles last first rs := by
  induction rs generalizing first with
  | nil =>
    show first = last + 1
    by_cases hle : first ≤ last
    · obtain ⟨r, hr, -⟩ := hcover first (le_rfl) hle
      cases hr
    · omega
  | cons r rs ih =>
    obtain ⟨hr1, hr2, hr3⟩ := hmem r mem_cons_self
    obtain ⟨hhead, hsorted⟩ := pairwise_cons.mp hsorted
    obtain ⟨hapart, hdisjoint⟩ := pairwise_cons.mp hdisjoint
    -- the range that holds `first` starts there, and none starts before `r`
    have hstart : r.1 = first := by
      obtain ⟨x, hx, hx1, -⟩ := hcover first (le_rfl) (by omega)
      rcases mem_cons.mp hx with rfl | hx
      · omega
      · have := hhead x hx
        omega
    have habove : ∀ x ∈ rs, r.2 < x.1 := by
      intro x hx
      have hx' := hmem x (mem_cons_of_mem _ hx)
      have := hhead x hx
      rcases hapart x hx with h | h <;> omega
    refine ⟨hstart, ih (by omega) hsorted hdisjoint (fun x hx => ?_) fun v hv hlast => ?_⟩
    · have := hmem x (mem_cons_of_mem _ hx)
      exact ⟨habove x hx, this.2⟩
    · obtain ⟨x, hx, hin⟩ := hcover v (by omega) hlast
      rcases mem_cons.mp hx with rfl | hx
      · omega
      · exact ⟨x, hx, hin⟩

end SortBy
