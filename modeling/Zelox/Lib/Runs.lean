import Mathlib.Data.Nat.Find

/-!
# Runs of a machine under a list of inputs

A machine is a step function `S → I → S`; a nondeterministic one takes its
choices as inputs.  `run` folds the step over the inputs, `Along` says that a
condition on the state before each step holds at every step of a run, and the
invariant rules (`run_inv`, `run_inv_mem`, `along_inv`) carry a property from one step to whole
runs.  `Reach` is reachability by some inputs.  Under an infinite input sequence a
rank that drops whenever the state changes makes the machine finish if it can never
stay put for good (`exists_done`).
-/

namespace Runs

open List

variable {S I : Type} (step : S → I → S)

/-- The state after the inputs `is`. -/
def run (s : S) (is : List I) : S := is.foldl step s

@[simp] theorem run_nil (s : S) : run step s [] = s := rfl

@[simp] theorem run_cons (s : S) (i : I) (is : List I) :
    run step s (i :: is) = run step (step s i) is := rfl

theorem run_append (s : S) (is js : List I) :
    run step s (is ++ js) = run step (run step s is) js := by
  simp [run, foldl_append]

/-- What one step preserves, a whole run preserves. -/
theorem run_inv (P : S → Prop) (hstep : ∀ s i, P s → P (step s i)) (s : S) (is : List I)
    (hs : P s) : P (run step s is) := by
  induction is generalizing s with
  | nil => exact hs
  | cons i is ih => exact ih (step s i) (hstep s i hs)

theorem run_inv_mem (P : S → Prop) (is : List I) (hstep : ∀ s, ∀ i ∈ is, P s → P (step s i)) (s : S)
    (hs : P s) : P (run step s is) := by
  induction is generalizing s with
  | nil => exact hs
  | cons i is ih =>
    exact ih (fun s j hj => hstep s j (mem_cons_of_mem i hj)) (step s i)
      (hstep s i mem_cons_self hs)

variable {step} in
/-- A view that does not see the inputs outside of `keep` is that of a run without them. -/
theorem run_filter {keep : I → Bool} {view : S → S}
    (h : ∀ s i, view (step s i) = if keep i then step (view s) i else view s) (s : S)
    (is : List I) : run step (view s) (is.filter keep) = view (run step s is) := by
  induction is generalizing s with
  | nil => rfl
  | cons i is ih =>
    rw [run_cons, ← ih, h]
    cases hi : keep i <;> simp [hi]

/-- `C` holds of the state and the input before every step of the run. -/
def Along (C : S → I → Prop) : S → List I → Prop
  | _, [] => True
  | s, i :: is => C s i ∧ Along C (step s i) is

instance Along.decidable (C : S → I → Prop) [∀ s i, Decidable (C s i)] :
    ∀ s is, Decidable (Along step C s is)
  | _, [] => inferInstanceAs (Decidable True)
  | s, i :: is =>
    have := Along.decidable C (step s i) is
    inferInstanceAs (Decidable (C s i ∧ Along step C (step s i) is))

theorem along_append (C : S → I → Prop) (s : S) (is js : List I) :
    Along step C s (is ++ js) ↔ Along step C s is ∧ Along step C (run step s is) js := by
  induction is generalizing s with
  | nil => simp [Along]
  | cons i is ih => simp [Along, ih, and_assoc]

theorem along_and {C D : S → I → Prop} {s : S} {is : List I} (hc : Along step C s is)
    (hd : Along step D s is) : Along step (fun s i => C s i ∧ D s i) s is := by
  induction is generalizing s with
  | nil => trivial
  | cons i is ih => exact ⟨⟨hc.1, hd.1⟩, ih hc.2 hd.2⟩

/-- A condition along a run, point by point. -/
theorem along_iff (C : S → I → Prop) (s : S) (is : List I) :
    Along step C s is ↔ ∀ is1 i is2, is = is1 ++ i :: is2 → C (run step s is1) i := by
  constructor
  · rintro h is1 i is2 rfl
    exact ((along_append step C s is1 (i :: is2)).mp h).2.1
  · intro h
    induction is generalizing s with
    | nil => trivial
    | cons i is ih =>
      refine ⟨h [] i is rfl, ih (step s i) fun is1 i' is2 heq => ?_⟩
      exact h (i :: is1) i' is2 (by rw [heq, cons_append])

/-- The invariant rule with a side condition on the steps taken. -/
theorem along_inv (C : S → I → Prop) (P : S → Prop)
    (hstep : ∀ s i, C s i → P s → P (step s i)) (s : S) (is : List I)
    (hc : Along step C s is) (hs : P s) : P (run step s is) := by
  induction is generalizing s with
  | nil => exact hs
  | cons i is ih => exact ih (step s i) hc.2 (hstep s i hc.1 hs)

/-- `P` holds in every state of a run exactly if the condition that keeps it holds along the run;
`L` is what the run obeys. -/
theorem forall_states_iff_along (L C : S → I → Prop) (Inv P : S → Prop)
    (hinv : ∀ s i, L s i → Inv s → Inv (step s i))
    (hstep : ∀ s i, L s i → Inv s → P s → (P (step s i) ↔ C s i)) (s : S) (is : List I)
    (hl : Along step L s is) (hs : Inv s) (hp : P s) :
    (∀ is1 is2, is = is1 ++ is2 → P (run step s is1)) ↔ Along step C s is := by
  induction is generalizing s with
  | nil =>
    refine iff_of_true ?_ trivial
    intro is1 is2 h
    obtain ⟨rfl, -⟩ := append_eq_nil_iff.mp h.symm
    exact hp
  | cons i is ih =>
    have hone := hstep s i hl.1 hs hp
    constructor
    · intro h
      have hp' : P (step s i) := h [i] is rfl
      refine ⟨hone.mp hp', (ih (step s i) hl.2 (hinv s i hl.1 hs) hp').mp ?_⟩
      intro is1 is2 e
      exact h (i :: is1) is2 (by rw [e, cons_append])
    · rintro ⟨hc, hcs⟩ is1 is2 e
      have hp' := hone.mpr hc
      cases is1 with
      | nil => exact hp
      | cons j is1 =>
        rw [cons_append, List.cons.injEq] at e
        obtain ⟨rfl, e⟩ := e
        exact (ih (step s i) hl.2 (hinv s i hl.1 hs) hp').mpr hcs is1 is2 e

/-- Some inputs lead from `s` to `t`. -/
def Reach (s t : S) : Prop := ∃ is, run step s is = t

theorem Reach.refl (s : S) : Reach step s s := ⟨[], rfl⟩

theorem Reach.single (s : S) (i : I) : Reach step s (step s i) := ⟨[i], rfl⟩

variable {step} in
theorem Reach.trans {s t u : S} (h1 : Reach step s t) (h2 : Reach step t u) :
    Reach step s u := by
  obtain ⟨is, rfl⟩ := h1
  obtain ⟨js, rfl⟩ := h2
  exact ⟨is ++ js, run_append step s is js⟩

/-- Where some allowed input brings the rank down until done, some allowed inputs get it done. -/
theorem exists_run_of_rank (C : S → I → Prop) (P done : S → Prop) (rank : S → Nat)
    (h : ∀ s, P s → ¬ done s → ∃ i, C s i ∧ P (step s i) ∧ rank (step s i) < rank s)
    (s : S) (hs : P s) : ∃ is, Along step C s is ∧ P (run step s is) ∧ done (run step s is) := by
  induction hr : rank s using Nat.strongRecOn generalizing s with
  | ind r ih =>
    by_cases hd : done s
    · exact ⟨[], trivial, hs, hd⟩
    obtain ⟨i, hc, hp, hlt⟩ := h s hs hd
    obtain ⟨is, hcs, hrun⟩ := ih _ (hr ▸ hlt) (step s i) hp rfl
    exact ⟨i :: is, ⟨hc, hcs⟩, hrun⟩

/-! ## Infinite input sequences -/

theorem run_fixed (s : S) (is : List I) (h : ∀ i ∈ is, step s i = s) : run step s is = s := by
  induction is with
  | nil => rfl
  | cons i is ih =>
    rw [run_cons, h i mem_cons_self]
    exact ih fun j hj => h j (mem_cons_of_mem i hj)

/-- A machine that loses rank with every change, and is changed until it is done, gets done. -/
theorem exists_done (P done : S → Prop) (rank : S → Nat) (sched : Nat → I)
    (hstep : ∀ s i, P s → P (step s i))
    (hrank : ∀ s i, P s → step s i ≠ s → rank (step s i) < rank s)
    (hprog : ∀ s, P s → ¬ done s → ∀ m, ∃ k, m ≤ k ∧ step s (sched k) ≠ s)
    (s : S) (hs : P s) (m : Nat) :
    ∃ N, done (run step s ((List.range' m N).map sched)) := by
  -- induction on the rank: wait for the next input that changes the state
  induction hr : rank s using Nat.strongRecOn generalizing s m with
  | ind r ih =>
    by_cases hd : done s
    · exact ⟨0, hd⟩
    classical
    have hex := hprog s hs hd m
    obtain ⟨hmk, hne⟩ := Nat.find_spec hex
    have hwait : run step s ((List.range' m (Nat.find hex - m)).map sched) = s := by
      refine run_fixed step s _ fun i hi => ?_
      obtain ⟨k, hk, rfl⟩ := mem_map.mp hi
      rw [mem_range'_1] at hk
      by_contra hc
      exact Nat.find_min hex (by omega) ⟨hk.1, hc⟩
    obtain ⟨N, hN⟩ := ih _ (hr ▸ hrank s _ hs hne) (step s (sched (Nat.find hex)))
      (hstep s _ hs) (Nat.find hex + 1) rfl
    refine ⟨(Nat.find hex - m) + (1 + N), ?_⟩
    have hsplit : List.range' m ((Nat.find hex - m) + (1 + N)) =
        List.range' m (Nat.find hex - m) ++ Nat.find hex :: List.range' (Nat.find hex + 1) N := by
      rw [← List.range'_append_1, Nat.add_sub_cancel' hmk, Nat.add_comm 1 N, List.range'_succ]
    rw [hsplit, map_append, map_cons, run_append, hwait, run_cons]
    exact hN

end Runs
