import Mathlib.Data.Multiset.Bind

/-!
# Joins of multisets

`pairs m s t` collects what `m` makes of every pair of an element of `s` and an element
of `t`.  It is additive on both sides, so a join can be computed piece by piece and in
any order.  A new piece need only be joined with the part of the other side that is
still held, if nothing of the part that is gone matches it (`arrive_left`,
`arrive_right`).
-/

namespace PairJoin

variable {α β γ : Type} {m : α → β → Multiset γ}

def pairs (m : α → β → Multiset γ) (s : Multiset α) (t : Multiset β) : Multiset γ :=
  s.bind fun a => t.bind (m a)

@[simp] theorem add_pairs (s s' : Multiset α) (t : Multiset β) :
    pairs m (s + s') t = pairs m s t + pairs m s' t := Multiset.add_bind ..

@[simp] theorem pairs_add (s : Multiset α) (t t' : Multiset β) :
    pairs m s (t + t') = pairs m s t + pairs m s t' := by
  unfold pairs
  simp only [Multiset.add_bind, Multiset.bind_add]

@[simp] theorem zero_pairs (t : Multiset β) : pairs m 0 t = 0 := Multiset.zero_bind _

theorem pairs_swap (s : Multiset α) (t : Multiset β) :
    pairs m s t = pairs (fun b a => m a b) t s := Multiset.bind_bind ..

theorem pairs_eq_zero_iff {s : Multiset α} {t : Multiset β} :
    pairs m s t = 0 ↔ ∀ a ∈ s, ∀ b ∈ t, m a b = 0 := by
  unfold pairs
  simp only [Multiset.eq_zero_iff_forall_notMem, Multiset.mem_bind]
  constructor
  · intro h a ha b hb c hc
    exact h c ⟨a, ha, b, hb, hc⟩
  · rintro h c ⟨a, ha, b, hb, hc⟩
    exact h a ha b hb c hc

/-- The join of two lists by nested loops. -/
theorem coe_flatMap_flatMap (m : α → β → List γ) (xs : List α) (ys : List β) :
    ((xs.flatMap fun a => ys.flatMap (m a) : List γ) : Multiset γ) =
      pairs (fun a b => (m a b : Multiset γ)) xs ys := by
  unfold pairs
  simp only [Multiset.coe_bind]

/-! ## Arrivals -/

variable {s : Multiset α} {t : Multiset β} {out : Multiset γ}

theorem arrive_left (hout : out = pairs m s t) {held gone : Multiset β} (ht : t = held + gone)
    {new : Multiset α} (hgone : ∀ a ∈ new, ∀ b ∈ gone, m a b = 0) :
    out + pairs m new held = pairs m (s + new) t := by
  have hnew : pairs m new t = pairs m new held := by
    rw [ht, pairs_add, pairs_eq_zero_iff.mpr hgone, add_zero]
  rw [hout, add_pairs, hnew]

theorem arrive_right (hout : out = pairs m s t) {held gone : Multiset α} (hs : s = held + gone)
    {new : Multiset β} (hgone : ∀ a ∈ gone, ∀ b ∈ new, m a b = 0) :
    out + pairs m held new = pairs m s (t + new) := by
  rw [pairs_swap, pairs_swap s]
  refine arrive_left (hout.trans (pairs_swap s t)) hs ?_
  intro b hb a ha
  exact hgone a ha b hb

end PairJoin
