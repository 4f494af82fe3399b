import Mathlib.Algebra.Order.Floor.Div

/-!
# Even splits of an interval

The interval `[0, g)` is cut into `m` contiguous parts; part `i` is
`[⌊i * g / m⌋, ⌊(i + 1) * g / m⌋)`.  The parts tile the interval for every `m`,
also where `m` does not divide `g` and where `m > g` leaves parts empty.  The part
of a point `k` is `⌈(k + 1) * m / g⌉ - 1` (`mem_part_iff`): rounding `k * m / g` down
instead misses the boundaries.
-/

namespace EvenSplit

/-- The first point of part `i`. -/
def lo (g m i : Nat) : Nat := i * g / m

/-- The part that holds the point `k`. -/
def owner (g m k : Nat) : Nat := (k + 1) * m ⌈/⌉ g - 1

variable {g m k i : Nat}

theorem lo_le_iff (hm : 0 < m) : lo g m i ≤ k ↔ i * g < (k + 1) * m := by
  rw [← Nat.lt_succ_iff]
  exact Nat.div_lt_iff_lt_mul hm

/-- Part `i` holds `k` exactly if `i` is the owner of `k`. -/
theorem mem_part_iff (hm : 0 < m) (hg : 0 < g) :
    lo g m i ≤ k ∧ k < lo g m (i + 1) ↔ owner g m k = i := by
  have hpos : ¬ (k + 1) * m ⌈/⌉ g ≤ 0 := by
    rw [ceilDiv_le_iff_le_mul hg, Nat.mul_zero]
    have : 0 < (k + 1) * m := Nat.mul_pos (Nat.succ_pos k) hm
    omega
  have hlo : lo g m i ≤ k ↔ ¬ (k + 1) * m ⌈/⌉ g ≤ i := by
    rw [lo_le_iff hm, ceilDiv_le_iff_le_mul hg, Nat.mul_comm g i]
    omega
  have hhi : k < lo g m (i + 1) ↔ (k + 1) * m ⌈/⌉ g ≤ i + 1 := by
    rw [ceilDiv_le_iff_le_mul hg, ← not_le, lo_le_iff hm, Nat.mul_comm g (i + 1)]
    omega
  unfold owner
  omega

theorem owner_lt (hm : 0 < m) (hk : k < g) : owner g m k < m := by
  have h : (k + 1) * m ⌈/⌉ g ≤ m := by
    rw [ceilDiv_le_iff_le_mul (by omega)]
    exact Nat.mul_le_mul_right m hk
  unfold owner
  omega

theorem lo_le (hi : i ≤ m) : lo g m i ≤ g := by
  apply Nat.div_le_of_le_mul
  exact Nat.mul_le_mul_right g hi

end EvenSplit
