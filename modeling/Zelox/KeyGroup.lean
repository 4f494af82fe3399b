import Zelox.Lib.EvenSplit

/-!
# Key groups

Keys are hashed into `g` key groups, and each of the `m` instances of a keyed
operator owns a contiguous range of them.  The exchange routes a row to the
instance that owns its key group, and a rescaled restore reads the rows of the
instance's range; the two agree at every parallelism (`mem_range_iff_owner`).
`usize` is `Nat` here: a parallelism counts live instances, and `(i + 1) * g`
with `g < 2^16` stays far below `2^64`.
-/

namespace Zelox.StateIo

def defaultKeyGroups : UInt16 := 128

/-- `key_group`: the key group of a key's hash. -/
def keyGroup (keyHash : UInt64) (g : UInt16) : UInt16 :=
  if g = 0 then 0 else (keyHash % g.toUInt64).toUInt16

/-- `instance_key_group_range`: instance `i` of `m` owns `[lo, hi)`. -/
def instanceKeyGroupRange (i m : Nat) (g : UInt16) : UInt16 × UInt16 :=
  if m = 0 then (0, g)
  else (UInt16.ofNat (i * g.toNat / m), UInt16.ofNat ((i + 1) * g.toNat / m))

/-- `key_group_owner`: the instance of `m` that owns the key group `kg`. -/
def keyGroupOwner (kg : UInt16) (m : Nat) (g : UInt16) : Nat :=
  if m = 0 ∨ g = 0 then 0
  else min ((kg.toNat + 1) * m ⌈/⌉ g.toNat - 1) (m - 1)

theorem toNat_pos {g : UInt16} (hg : g ≠ 0) : 0 < g.toNat := by
  have : g.toNat ≠ 0 := fun h => hg (UInt16.toNat_inj.mp h)
  omega

theorem keyGroup_lt (keyHash : UInt64) {g : UInt16} (hg : g ≠ 0) :
    (keyGroup keyHash g).toNat < g.toNat := by
  have hmod : keyHash.toNat % g.toNat < g.toNat := Nat.mod_lt _ (toNat_pos hg)
  unfold keyGroup
  rw [if_neg hg]
  simp only [UInt64.toNat_toUInt16, UInt64.toNat_mod, UInt16.toNat_toUInt64]
  omega

section

variable {kg g : UInt16} {m : Nat} (hm : 0 < m) (hkg : kg.toNat < g.toNat)
include hm hkg

theorem keyGroupOwner_eq :
    keyGroupOwner kg m g = EvenSplit.owner g.toNat m kg.toNat := by
  have hg : g ≠ 0 := by
    rintro rfl
    exact absurd hkg (by simp)
  have hlt := EvenSplit.owner_lt hm hkg
  unfold keyGroupOwner
  rw [if_neg (by simp [hg]; omega)]
  unfold EvenSplit.owner at hlt ⊢
  omega

theorem keyGroupOwner_lt :
    keyGroupOwner kg m g < m := by
  rw [keyGroupOwner_eq hm hkg]
  exact EvenSplit.owner_lt hm hkg

end

/-- The casts of `instance_key_group_range` to `u16` lose nothing. -/
theorem instanceKeyGroupRange_toNat {i m : Nat} (g : UInt16) (hi : i < m) :
    (instanceKeyGroupRange i m g).1.toNat = EvenSplit.lo g.toNat m i ∧
      (instanceKeyGroupRange i m g).2.toNat = EvenSplit.lo g.toNat m (i + 1) := by
  have hsize := g.toNat_lt
  have hlo := EvenSplit.lo_le (g := g.toNat) (m := m) (i := i) (by omega)
  have hhi := EvenSplit.lo_le (g := g.toNat) (m := m) (i := i + 1) (by omega)
  unfold instanceKeyGroupRange
  rw [if_neg (by omega)]
  unfold EvenSplit.lo at hlo hhi ⊢
  constructor
  · exact UInt16.toNat_ofNat_of_lt (by simp [UInt16.size]; omega)
  · exact UInt16.toNat_ofNat_of_lt (by simp [UInt16.size]; omega)

/-- An instance's range holds a key group exactly if the instance is its owner. -/
theorem mem_range_iff_owner {kg g : UInt16} {i m : Nat} (hi : i < m) (hkg : kg.toNat < g.toNat) :
    (instanceKeyGroupRange i m g).1 ≤ kg ∧ kg < (instanceKeyGroupRange i m g).2 ↔
      keyGroupOwner kg m g = i := by
  obtain ⟨hlo, hhi⟩ := instanceKeyGroupRange_toNat g hi
  rw [UInt16.le_iff_toNat_le, UInt16.lt_iff_toNat_lt, hlo, hhi, keyGroupOwner_eq (by omega) hkg]
  exact EvenSplit.mem_part_iff (by omega) (by omega)

-- three instances over eight key groups: boundaries at 2 and 5
example : (List.range 8).map (fun k => keyGroupOwner (UInt16.ofNat k) 3 8) =
    [0, 0, 1, 1, 1, 2, 2, 2] := by decide

end Zelox.StateIo
