import Mathlib.Data.List.Basic

/-!
# Prefixes and cuts of lists

A relation holds along `l ++ [a]` if it does along `l` and up to `a` (`pairwise_concat`), and a
cut of `l ++ [a]` is a cut of `l` or the one at `a` (`concat_eq_append_cons`).  A list sorted into
bins is a permutation of itself (`perm_flatMap_filter`).  What is found in a list with
one element added or replaced is that element or was there before
(`getElem?_concat_eq_some`, `getElem?_set_eq_some`).
-/

namespace Lists

open List

variable {α : Type}

theorem forall_mem_concat {p : α → Prop} {l : List α} {a : α} :
    (∀ x ∈ l ++ [a], p x) ↔ (∀ x ∈ l, p x) ∧ p a := by
  rw [forall_mem_append, forall_mem_singleton]

theorem pairwise_concat {r : α → α → Prop} {l : List α} {a : α} :
    (l ++ [a]).Pairwise r ↔ l.Pairwise r ∧ ∀ x ∈ l, r x a := by
  simp [pairwise_append]

theorem concat_eq_append_cons {l o1 o2 : List α} {a y : α} (h : l ++ [a] = o1 ++ y :: o2) :
    (o1 = l ∧ y = a ∧ o2 = []) ∨ ∃ o3, l = o1 ++ y :: o3 ∧ o2 = o3 ++ [a] := by
  rcases eq_nil_or_concat o2 with rfl | ⟨o3, b, rfl⟩
  · have := append_inj' h rfl
    refine .inl ⟨this.1.symm, ?_, rfl⟩
    have h2 := this.2
    simp only [List.cons.injEq, and_true] at h2
    exact h2.symm
  · have h' : l ++ [a] = (o1 ++ y :: o3) ++ [b] := by simpa using h
    have := append_inj' h' rfl
    refine .inr ⟨o3, this.1, ?_⟩
    have h2 := this.2
    rw [h2, concat_eq_append]

/-- A list sorted into bins by `f`. -/
theorem perm_flatMap_filter_of_nodup {β : Type} [DecidableEq β] (f : α → β) {bins : List β}
    (hbins : bins.Nodup) (l : List α) (h : ∀ a ∈ l, f a ∈ bins) :
    (bins.flatMap fun b => l.filter fun a => f a = b).Perm l := by
  induction bins generalizing l with
  | nil =>
    have hnil : l = [] := eq_nil_iff_forall_not_mem.mpr fun a ha => not_mem_nil (h a ha)
    rw [hnil]
    exact List.Perm.refl _
  | cons b bins ih =>
    obtain ⟨hb, hbins⟩ := nodup_cons.mp hbins
    -- the other bins only see the elements that are not in this one
    have hrest : (bins.flatMap fun c => l.filter fun a => f a = c) =
        bins.flatMap fun c => (l.filter fun a => !decide (f a = b)).filter fun a => f a = c := by
      apply flatMap_congr
      intro c hc
      rw [filter_filter]
      apply filter_congr
      intro a _
      by_cases ha : f a = c
      · have hne : c ≠ b := fun heq => hb (heq ▸ hc)
        simp [ha, hne]
      · simp [ha]
    rw [flatMap_cons, hrest]
    refine (List.Perm.append_left _ (ih hbins _ ?_)).trans (filter_append_perm _ l)
    intro a ha
    obtain ⟨ha, hne⟩ := mem_filter.mp ha
    rcases mem_cons.mp (h a ha) with heq | hmem
    · simp [heq] at hne
    · exact hmem

theorem perm_flatMap_filter (f : α → Nat) (n : Nat) (l : List α) (h : ∀ a ∈ l, f a < n) :
    ((List.range n).flatMap fun i => l.filter fun a => f a = i).Perm l :=
  perm_flatMap_filter_of_nodup f nodup_range l fun a ha => mem_range.mpr (h a ha)

theorem nodup_eraseDups [BEq α] [LawfulBEq α] (l : List α) : l.eraseDups.Nodup := by
  induction hn : l.length using Nat.strongRecOn generalizing l with
  | ind n ih =>
    cases l with
    | nil => exact nodup_nil
    | cons a l =>
      rw [eraseDups_cons]
      have hlt : (l.filter fun b => !b == a).length < n := by
        rw [← hn, length_cons]
        exact Nat.lt_succ_of_le (length_filter_le _ _)
      refine nodup_cons.mpr ⟨fun hmem => ?_, ih _ hlt _ rfl⟩
      have := (mem_filter.mp (mem_eraseDups.mp hmem)).2
      simp at this

theorem filter_erase_of_neg [DecidableEq α] (f : α → Bool) (l : List α) {a : α}
    (ha : f a = false) : (l.erase a).filter f = l.filter f := by
  induction l with
  | nil => rfl
  | cons b l ih =>
    by_cases hb : b = a
    · subst hb
      rw [erase_cons_head, filter_cons_of_neg (by simp [ha])]
    · rw [erase_cons_tail (by simpa using hb)]
      simp only [filter_cons, ih]

theorem getLastD_append (l m : List α) (a : α) :
    (l ++ m).getLastD a = m.getLastD (l.getLastD a) := by
  cases m.getLast? <;> simp

theorem getElem?_concat_eq_some {l : List α} {a b : α} {i : Nat} (h : (l ++ [a])[i]? = some b) :
    l[i]? = some b ∨ i = l.length ∧ b = a := by
  rcases Nat.lt_trichotomy i l.length with hlt | rfl | hgt
  · rw [getElem?_append_left hlt] at h
    exact .inl h
  · rw [getElem?_concat_length] at h
    exact .inr ⟨rfl, (Option.some.inj h).symm⟩
  · rw [getElem?_eq_none (by rw [length_append, length_singleton]; omega)] at h
    cases h

theorem getElem?_set_eq_some {l : List α} {a b : α} {i j : Nat} (h : (l.set i a)[j]? = some b) :
    j = i ∧ b = a ∨ j ≠ i ∧ l[j]? = some b := by
  rcases eq_or_ne j i with rfl | hne
  · obtain ⟨hlt, -⟩ := List.getElem?_eq_some_iff.mp h
    rw [length_set] at hlt
    rw [getElem?_set_self hlt] at h
    exact .inl ⟨rfl, (Option.some.inj h).symm⟩
  · rw [getElem?_set_ne hne.symm] at h
    exact .inr ⟨hne, h⟩

theorem set_of_getElem? {l : List α} {a : α} {i : Nat} (h : l[i]? = some a) : l.set i a = l := by
  obtain ⟨hlt, rfl⟩ := List.getElem?_eq_some_iff.mp h
  exact set_getElem_self hlt

/-- Filtered by the images, besides a common condition, two lists of images are equal only if the
filters agree. -/
theorem map_filter_and_eq_iff {β : Type} {f : α → β} {p : α → Prop} {q r : β → Prop}
    [DecidablePred fun a => p a ∧ q (f a)] [DecidablePred fun a => p a ∧ r (f a)] {l : List α} :
    (l.filter fun a => p a ∧ q (f a)).map f = (l.filter fun a => p a ∧ r (f a)).map f ↔
      ∀ a ∈ l, p a → (q (f a) ↔ r (f a)) := by
  constructor
  · intro h a ha hp
    have hmem := Iff.of_eq (congrArg (f a ∈ ·) h)
    simp only [mem_map, mem_filter, decide_eq_true_eq] at hmem
    constructor
    · intro hq
      obtain ⟨b, ⟨-, -, hb⟩, heq⟩ := hmem.mp ⟨a, ⟨ha, hp, hq⟩, rfl⟩
      exact heq ▸ hb
    · intro hq
      obtain ⟨b, ⟨-, -, hb⟩, heq⟩ := hmem.mpr ⟨a, ⟨ha, hp, hq⟩, rfl⟩
      exact heq ▸ hb
  · intro h
    congr 1
    exact filter_congr fun a ha => decide_eq_decide.mpr (and_congr_right (h a ha))

end Lists
