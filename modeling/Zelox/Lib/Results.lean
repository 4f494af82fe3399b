import Mathlib.Tactic.Common

/-!
# Computations that can fail

Rules for `Except` and `Option`: a sequence succeeds if both parts do (`bind_eq_ok`), and a
traversal succeeds with the results of its elements (`exists_of_mapM_eq_some`,
`mem_of_mapM_eq_some`).  A loop keeps what each of its steps keeps (`foldlM_inv`).
-/

namespace Results

open List

variable {ε α β : Type}

theorem bind_eq_ok {x : Except ε α} {f : α → Except ε β} {b : β} :
    (x >>= f) = .ok b ↔ ∃ a, x = .ok a ∧ f a = .ok b := by
  cases x with
  | error e | ok a => simp [bind, Except.bind]

theorem mapM_eq_ok {f : α → Except ε β} {g : α → β} {l : List α}
    (h : ∀ a ∈ l, f a = .ok (g a)) : l.mapM f = .ok (l.map g) := by
  induction l with
  | nil => rfl
  | cons a l ih =>
    rw [mapM_cons, h a mem_cons_self, ih fun b hb => h b (mem_cons_of_mem a hb)]
    rfl

/-- A traversal goes the same way with a function that succeeds wherever the first one does. -/
theorem mapM_mono {f g : α → Except ε β} {l : List α} {bs : List β}
    (h : ∀ a ∈ l, ∀ b, f a = .ok b → g a = .ok b) (hf : l.mapM f = .ok bs) :
    l.mapM g = .ok bs := by
  induction l generalizing bs with
  | nil => exact hf
  | cons a l ih =>
    rw [mapM_cons] at hf ⊢
    obtain ⟨b, hb, hf⟩ := bind_eq_ok.mp hf
    obtain ⟨bs', hbs, heq⟩ := bind_eq_ok.mp hf
    refine bind_eq_ok.mpr ⟨b, h a mem_cons_self b hb, bind_eq_ok.mpr ⟨bs', ?_, heq⟩⟩
    exact ih (fun a' ha' => h a' (mem_cons_of_mem a ha')) hbs

theorem forall₂_of_mapM_eq_ok {f : α → Except ε β} {l : List α} {bs : List β}
    (h : l.mapM f = .ok bs) : List.Forall₂ (fun a b => f a = .ok b) l bs := by
  induction l generalizing bs with
  | nil =>
    cases h
    exact .nil
  | cons a l ih =>
    rw [mapM_cons] at h
    obtain ⟨b, hb, h⟩ := bind_eq_ok.mp h
    obtain ⟨bs', hbs, h⟩ := bind_eq_ok.mp h
    cases h
    exact .cons hb (ih hbs)

section

variable {f : α → Option β} {l : List α} {bs : List β} (h : l.mapM f = some bs)
include h

theorem map_eq_of_mapM_eq_some : l.map f = bs.map some := by
  induction l generalizing bs with
  | nil =>
    cases h
    rfl
  | cons a l ih =>
    rw [mapM_cons] at h
    obtain ⟨b, hb, h⟩ := Option.bind_eq_some_iff.mp h
    obtain ⟨bs', hbs, h⟩ := Option.bind_eq_some_iff.mp h
    obtain rfl := Option.some.inj h
    rw [map_cons, map_cons, hb, ih hbs]

theorem exists_of_mapM_eq_some {b : β} (hb : b ∈ bs) : ∃ a ∈ l, f a = some b := by
  rw [← mem_map, map_eq_of_mapM_eq_some h]
  exact mem_map_of_mem hb

theorem mem_of_mapM_eq_some {a : α} (ha : a ∈ l) : ∃ b ∈ bs, f a = some b := by
  have hmem := mem_map_of_mem (f := f) ha
  rw [map_eq_of_mapM_eq_some h] at hmem
  obtain ⟨b, hb, heq⟩ := mem_map.mp hmem
  exact ⟨b, hb, heq.symm⟩

end

theorem mapM_isSome_iff {f : α → Option β} {l : List α} :
    (l.mapM f).isSome ↔ ∀ a ∈ l, (f a).isSome := by
  induction l with
  | nil => simp
  | cons a l ih =>
    rw [forall_mem_cons, ← ih, mapM_cons]
    cases f a with
    | none => simp
    | some b =>
      cases l.mapM f with
      | none => simp
      | some bs => simp

/-- What every step of a loop that succeeds keeps holds at its end. -/
theorem foldlM_inv {f : β → α → Except ε β} {P : β → Prop} {l : List α}
    (hstep : ∀ b, P b → ∀ a ∈ l, ∀ b', f b a = .ok b' → P b') {b b' : β} (hb : P b)
    (h : l.foldlM f b = .ok b') : P b' := by
  induction l generalizing b with
  | nil =>
    cases h
    exact hb
  | cons a l ih =>
    obtain ⟨c, hc, h⟩ := bind_eq_ok.mp h
    refine ih (fun b hb a ha => hstep b hb a (mem_cons_of_mem _ ha)) ?_ h
    exact hstep b hb a mem_cons_self c hc

end Results
