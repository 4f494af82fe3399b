/-!
# Association lists

What `List.lookup` finds in a list of pairs that was mapped from keys.
-/

namespace Assoc

open List

variable {α κ β : Type} [DecidableEq κ]

theorem lookup_map (l : List α) (key : α → κ) (value : α → β) (k : κ) :
    (l.map fun a => (key a, value a)).lookup k = (l.find? fun a => key a = k).map value := by
  induction l with
  | nil => rfl
  | cons a l ih =>
    rw [map_cons, lookup_cons, find?_cons]
    by_cases h : key a = k
    · simp [h]
    · have hne : (k == key a) = false := beq_false_of_ne (Ne.symm h)
      simp only [hne, h, decide_false]
      exact ih

end Assoc
