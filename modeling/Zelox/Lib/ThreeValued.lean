/-!
# Three-valued logic

Truth values of conditions that may be unknown: `some true`, `some false` and `none`.
A filter keeps what is TRUE, so what is needed of a connective is when its value is
`some true`, and for negation when it is `some false`.

`perm_filter_not_iff` is about a list of which a part is filtered by the negation of a
condition and the rest is not looked at.
-/

/-- A truth value, `none` if unknown. -/
abbrev Truth := Option Bool

namespace Truth

open List

def and : Truth → Truth → Truth
  | some false, _ => some false
  | _, some false => some false
  | some true, some true => some true
  | _, _ => none

def or : Truth → Truth → Truth
  | some true, _ => some true
  | _, some true => some true
  | some false, some false => some false
  | _, _ => none

def not (a : Truth) : Truth := a.map Bool.not

/-- The disjunction of a list, FALSE for the empty one. -/
def any (l : List Truth) : Truth := l.foldr or (some false)

/-- `if cond then some true else some false`, for a comparison that is known. -/
def ofProp (p : Prop) [Decidable p] : Truth := some (decide p)

@[simp] theorem and_eq_true {a b : Truth} :
    and a b = some true ↔ a = some true ∧ b = some true := by
  rcases a with _ | _ | _ <;> rcases b with _ | _ | _ <;> simp [and]

@[simp] theorem not_eq_true {a : Truth} : not a = some true ↔ a = some false := by
  rcases a with _ | _ | _ <;> simp [not]

@[simp] theorem ofProp_eq_true {p : Prop} [Decidable p] : ofProp p = some true ↔ p := by
  simp [ofProp]

/-- Filtering one part by `NOT p` leaves what is not TRUE if nothing is unknown in that part and
nothing TRUE in the other. -/
theorem perm_filter_not_iff {α : Type} [DecidableEq α] (p : α → Truth) (part rest : List α) :
    (rest ++ part.filter fun a => (p a).not = some true).Perm
        ((part ++ rest).filter fun a => p a ≠ some true) ↔
      (∀ a ∈ part, p a ≠ none) ∧ ∀ a ∈ rest, p a ≠ some true := by
  constructor
  · intro h
    refine ⟨fun a ha hp => ?_, fun a ha hp => ?_⟩
    · -- every copy of `a` in the first part is dropped, and none of them should be
      have hzero : (part.filter fun a => (p a).not = some true).count a = 0 :=
        count_eq_zero.mpr (by simp [hp, not])
      have hcount := h.count_eq a
      rw [count_append, hzero, count_filter (by simp [hp]), count_append] at hcount
      have := count_pos_iff.mpr ha
      omega
    · have hmem := h.subset (mem_append_left _ ha)
      simp [hp] at hmem
  · rintro ⟨hpart, hrest⟩
    have hpart : (part.filter fun a => (p a).not = some true) =
        part.filter fun a => p a ≠ some true := by
      refine filter_congr fun a ha => ?_
      have := hpart a ha
      rcases h : p a with _ | _ | _ <;> simp_all
    have hrest : (rest.filter fun a => p a ≠ some true) = rest :=
      filter_eq_self.mpr fun a ha => by simpa using hrest a ha
    rw [filter_append, hrest, hpart]
    exact perm_append_comm

end Truth
