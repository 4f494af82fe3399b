import Mathlib.Tactic.NormNum.Pow

/-!
# Codes that can be told apart at the front of a longer word

An encoding into bytes that is read from the front must not only give different codes: no code may
be the beginning of another.  `Cancels` says so of two values, and is passed on to pairs and lists.
-/

namespace PrefixCode

open List

variable {α β : Type} {enc : α → List UInt8} {enc' : β → List UInt8}

/-- If words begin with the codes of `a` and of `b`, they are equal only if `a` and `b` are. -/
def Cancels (enc : α → List UInt8) (a b : α) : Prop :=
  ∀ u v, enc a ++ u = enc b ++ v → a = b ∧ u = v

/-- Behind the same beginning `w`. -/
theorem Cancels.map {f : β → α} {w : List UInt8} {a b : β} (h : Cancels enc' a b)
    (hf : ∀ b, enc (f b) = w ++ enc' b) : Cancels enc (f a) (f b) := by
  intro u v huv
  rw [hf, hf, append_assoc, append_assoc] at huv
  obtain ⟨rfl, rfl⟩ := h u v (append_cancel_left huv)
  exact ⟨rfl, rfl⟩

theorem Cancels.pair {a b : α} {a' b' : β} (h : Cancels enc a b) (h' : Cancels enc' a' b') :
    Cancels (fun p : α × β => enc p.1 ++ enc' p.2) (a, a') (b, b') := by
  intro u v huv
  simp only [append_assoc] at huv
  obtain ⟨rfl, hrest⟩ := h _ _ huv
  obtain ⟨rfl, rfl⟩ := h' _ _ hrest
  exact ⟨rfl, rfl⟩

/-- Lists whose elements are told apart at each place, if they are of one length or nothing follows
them. -/
theorem cancel_flatMap {as bs : List α} {u v : List UInt8}
    (h : ∀ (i : ℕ) a b, as[i]? = some a → bs[i]? = some b → Cancels enc a b)
    (hend : as.length = bs.length ∨ u = [] ∧ v = [] ∧ ∀ a, enc a ≠ [])
    (huv : as.flatMap enc ++ u = bs.flatMap enc ++ v) : as = bs ∧ u = v := by
  induction as generalizing bs with
  | nil =>
    cases bs with
    | nil => exact ⟨rfl, huv⟩
    | cons b bs => simp_all
  | cons a as ih =>
    cases bs with
    | nil => simp_all
    | cons b bs =>
      simp only [flatMap_cons, append_assoc] at huv
      obtain ⟨rfl, hrest⟩ := h 0 a b rfl rfl _ _ huv
      obtain ⟨rfl, rfl⟩ := ih (fun i => h (i + 1)) (hend.imp_left Nat.succ.inj) hrest
      exact ⟨rfl, rfl⟩

/-- The `k` lowest bytes of a number, the lowest first. -/
def leBytes : ℕ → ℕ → List UInt8
  | 0, _ => []
  | k + 1, n => UInt8.ofNat n :: leBytes k (n / 256)

theorem cancel_leBytes {k m n : ℕ} (hm : m < 256 ^ k) (hn : n < 256 ^ k) {u v : List UInt8}
    (h : leBytes k m ++ u = leBytes k n ++ v) : m = n ∧ u = v := by
  induction k generalizing m n with
  | zero =>
    exact ⟨by omega, h⟩
  | succ k ih =>
    obtain ⟨h0, hrest⟩ := List.cons.inj h
    have hmod : m % 256 = n % 256 := congrArg UInt8.toNat h0
    obtain ⟨hdiv, huv⟩ := ih (by omega) (by omega) hrest
    exact ⟨by omega, huv⟩

end PrefixCode
