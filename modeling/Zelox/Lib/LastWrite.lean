import Zelox.Lib.KeyedMap

/-!
# Registers under a list of actions

`lastWrite w as` is the value the last of the actions `as` wrote to a register, where
`w a` is what `a` writes to it, or `none` if `a` does not touch it.  A state component
that every action either overwrites or leaves alone holds its last write after a
replay (`foldl_eq_lastWrite`), whatever the rest of the state does.
-/

namespace LastWrite

open List

variable {A V S : Type}

def lastWrite (w : A → Option V) (as : List A) : Option V := as.reverse.findSome? w

variable (w : A → Option V)

theorem lastWrite_append (as bs : List A) :
    lastWrite w (as ++ bs) = (lastWrite w bs).or (lastWrite w as) := by
  simp [lastWrite, findSome?_append]

theorem lastWrite_cons (a : A) (as : List A) :
    lastWrite w (a :: as) = (lastWrite w as).or (w a) := by
  simp [lastWrite, findSome?_append]

theorem lastWrite_eq_none_iff {as : List A} : lastWrite w as = none ↔ ∀ a ∈ as, w a = none := by
  simp [lastWrite, findSome?_eq_none_iff]

theorem exists_of_lastWrite {as : List A} {v : V} (h : lastWrite w as = some v) :
    ∃ a ∈ as, w a = some v := by
  obtain ⟨a, ha, hw⟩ := exists_of_findSome?_eq_some h
  exact ⟨a, mem_reverse.mp ha, hw⟩

theorem lastWrite_isSome_iff {as : List A} :
    (lastWrite w as).isSome ↔ ∃ a ∈ as, (w a).isSome := by
  rw [lastWrite, findSome?_isSome_iff]
  simp

/-- If all writes to the register agree, any of them is the last one. -/
theorem lastWrite_eq_of_mem {as : List A} {a : A} {v : V} (ha : a ∈ as) (hw : w a = some v)
    (huniq : ∀ b ∈ as, ∀ u, w b = some u → u = v) : lastWrite w as = some v := by
  cases h : lastWrite w as with
  | none => simp [(lastWrite_eq_none_iff w).mp h a ha] at hw
  | some u =>
    obtain ⟨b, hb, hbu⟩ := exists_of_lastWrite w h
    rw [huniq b hb u hbu]

@[simp] theorem lastWrite_none (as : List A) : lastWrite (fun _ => (none : Option V)) as = none :=
  (lastWrite_eq_none_iff _).mpr fun _ _ => rfl

/-- Actions made from a list are written as the elements of the list. -/
theorem lastWrite_map_list {B : Type} (f : B → A) (bs : List B) :
    lastWrite w (bs.map f) = lastWrite (fun b => w (f b)) bs := by
  rw [lastWrite, lastWrite, ← map_reverse, findSome?_map]
  rfl

theorem lastWrite_map {U : Type} (g : V → U) (as : List A) :
    lastWrite (fun a => (w a).map g) as = (lastWrite w as).map g := by
  induction as with
  | nil => rfl
  | cons a as ih =>
    rw [lastWrite_cons, lastWrite_cons, ih]
    cases lastWrite w as <;> rfl

/-- A register that is only ever set holds its last write from the first one on. -/
theorem lastWrite_eq_map_some {w : A → Option (Option V)} (h : ∀ a, w a ≠ some none)
    (as : List A) : lastWrite w as = ((lastWrite w as).getD none).map some := by
  cases hlast : lastWrite w as with
  | none => rfl
  | some v =>
    obtain ⟨a, -, ha⟩ := exists_of_lastWrite w hlast
    cases v with
    | none => exact absurd ha (h a)
    | some v => rfl

/-- The entries of a keyed map, each written to the register of its key. -/
theorem lastWrite_entries {α κ : Type} [DecidableEq κ] {key : α → κ} (m : KeyedMap key)
    (v : α → V) (k : κ) :
    lastWrite (fun a => if k = key a then some (v a) else none) m.entries = (m.get? k).map v := by
  cases h : m.get? k with
  | none =>
    rw [Option.map_none, lastWrite_eq_none_iff]
    intro a ha
    rw [if_neg (Ne.symm (KeyedMap.get?_eq_none_iff.mp h a ha))]
  | some a =>
    obtain ⟨ha, hk⟩ := KeyedMap.get?_eq_some_iff.mp h
    apply lastWrite_eq_of_mem _ ha (if_pos hk.symm)
    intro b hb u hu
    split at hu
    next hk' =>
      have : b = a := inj_on_of_nodup_map m.nodup hb ha (hk'.symm.trans hk.symm)
      rw [← this]
      exact (Option.some.inj hu).symm
    next => cases hu

/-- A component that each step overwrites or keeps holds its last write. -/
theorem foldl_eq_lastWrite (step : S → A → S) (get : S → V)
    (hstep : ∀ s a, get (step s a) = (w a).getD (get s)) (s : S) (as : List A) :
    get (as.foldl step s) = (lastWrite w as).getD (get s) := by
  induction as generalizing s with
  | nil => rfl
  | cons a as ih =>
    rw [foldl_cons, ih, hstep, lastWrite_cons]
    cases lastWrite w as <;> rfl

end LastWrite
