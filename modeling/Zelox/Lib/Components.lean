import Mathlib.Data.List.Perm.Subperm

/-!
# Components of a graph by breadth-first search

The vertices are the numbers below `n`, and `adj` lists the neighbours of each.  From
every vertex that has not been visited a search is started; what it reaches is the next
component.  A vertex is marked when it enters the queue, so it enters only once, and `n`
rounds empty the queue (`search_spec`).  The components together list every vertex once
(`components_perm`).
-/

namespace Components

open List

variable (adj : Nat → List Nat)

/-- Mark and queue the vertices that are not yet visited. -/
def enqueue (visited queue : List Nat) (vs : List Nat) : List Nat × List Nat :=
  vs.foldl (fun s v => if v ∈ s.1 then s else (v :: s.1, s.2 ++ [v])) (visited, queue)

/-- Take vertices from the queue into the component.  The first argument bounds the rounds. -/
def search : Nat → List Nat → List Nat → List Nat → List Nat × List Nat
  | 0, visited, _, component => (visited, component)
  | _ + 1, visited, [], component => (visited, component)
  | rounds + 1, visited, u :: queue, component =>
    let (visited, queue) := enqueue visited queue (adj u)
    search rounds visited queue (component ++ [u])

/-- The search from one vertex, unless it has been visited. -/
def visit (n : Nat) (s : List Nat × List (List Nat)) (v : Nat) : List Nat × List (List Nat) :=
  if v ∈ s.1 then s
  else
    let (visited, component) := search adj n (v :: s.1) [v] []
    (visited, s.2 ++ [component])

def components (n : Nat) : List (List Nat) := ((List.range n).foldl (visit adj n) ([], [])).2

/-- The visited vertices are those of `placed`, each once, and all are below `n`. -/
structure Placed (n : Nat) (visited placed : List Nat) : Prop where
  perm : visited.Perm placed
  nodup : visited.Nodup
  below : ∀ v ∈ visited, v < n

variable {adj} {n : Nat}

theorem Placed.length_le {visited placed : List Nat} (h : Placed n visited placed) :
    placed.length ≤ n := by
  have hsub : visited ⊆ List.range n := fun v hv => mem_range.mpr (h.below v hv)
  have hle := (h.nodup.subperm hsub).length_le
  rwa [length_range, h.perm.length_eq] at hle

theorem enqueue_spec {visited queue front : List Nat} (h : Placed n visited (front ++ queue))
    (vs : List Nat) (hvs : ∀ v ∈ vs, v < n) :
    Placed n (enqueue visited queue vs).1 (front ++ (enqueue visited queue vs).2) ∧
      visited ⊆ (enqueue visited queue vs).1 := by
  induction vs generalizing visited queue with
  | nil => exact ⟨h, List.Subset.refl _⟩
  | cons v vs ih =>
    rw [forall_mem_cons] at hvs
    unfold enqueue
    rw [foldl_cons]
    by_cases hv : v ∈ visited
    · simp only [hv, if_true]
      exact ih h hvs.2
    · simp only [hv, if_false]
      have hnew : Placed n (v :: visited) (front ++ (queue ++ [v])) := by
        refine ⟨?_, nodup_cons.mpr ⟨hv, h.nodup⟩, forall_mem_cons.mpr ⟨hvs.1, h.below⟩⟩
        rw [← append_assoc]
        exact (h.perm.cons v).trans (perm_append_singleton v _).symm
      obtain ⟨hplaced, hsub⟩ := ih hnew hvs.2
      exact ⟨hplaced, fun u hu => hsub (mem_cons_of_mem v hu)⟩

section

variable (hadj : ∀ u, ∀ v ∈ adj u, v < n)
include hadj

/-- With enough rounds the search empties its queue into the component. -/
theorem search_spec (rounds : Nat)
    {visited queue component placed : List Nat} (hrounds : n ≤ rounds + component.length)
    (h : Placed n visited (placed ++ component ++ queue)) :
    Placed n (search adj rounds visited queue component).1
        (placed ++ (search adj rounds visited queue component).2) ∧
      visited ⊆ (search adj rounds visited queue component).1 := by
  induction rounds generalizing visited queue component with
  | zero =>
    -- the component holds `n` vertices already
    have hle := h.length_le
    simp only [length_append] at hle
    have hqueue : queue = [] := eq_nil_of_length_eq_zero (by omega)
    rw [hqueue, append_nil] at h
    exact ⟨h, List.Subset.refl _⟩
  | succ rounds ih =>
    cases queue with
    | nil =>
      rw [append_nil] at h
      exact ⟨h, List.Subset.refl _⟩
    | cons u queue =>
      have hmove : Placed n visited (placed ++ (component ++ [u]) ++ queue) := by
        simpa [append_assoc] using h
      obtain ⟨hplaced, hsub⟩ := enqueue_spec hmove (adj u) (hadj u)
      have hlen : n ≤ rounds + (component ++ [u]).length := by
        rw [length_append, length_singleton]
        omega
      obtain ⟨hrest, hsub'⟩ := ih hlen hplaced
      exact ⟨hrest, fun v hv => hsub' (hsub hv)⟩

theorem visit_spec {s : List Nat × List (List Nat)}
    (h : Placed n s.1 s.2.flatten) {v : Nat} (hv : v < n) :
    Placed n (visit adj n s v).1 (visit adj n s v).2.flatten ∧ s.1 ⊆ (visit adj n s v).1 ∧
      v ∈ (visit adj n s v).1 := by
  unfold visit
  split
  case isTrue hin => exact ⟨h, List.Subset.refl _, hin⟩
  case isFalse hnot =>
    have hstart : Placed n (v :: s.1) (s.2.flatten ++ [] ++ [v]) := by
      refine ⟨?_, nodup_cons.mpr ⟨hnot, h.nodup⟩, forall_mem_cons.mpr ⟨hv, h.below⟩⟩
      rw [append_nil]
      exact (h.perm.cons v).trans (perm_append_singleton v _).symm
    obtain ⟨hplaced, hsub⟩ := search_spec hadj n (by simp) hstart
    refine ⟨?_, fun u hu => hsub (mem_cons_of_mem v hu), hsub mem_cons_self⟩
    rwa [flatten_append, flatten_singleton]

theorem foldl_visit_spec (vs : List Nat) (hvs : ∀ v ∈ vs, v < n)
    {s : List Nat × List (List Nat)} (h : Placed n s.1 s.2.flatten) :
    Placed n (vs.foldl (visit adj n) s).1 (vs.foldl (visit adj n) s).2.flatten ∧
      s.1 ⊆ (vs.foldl (visit adj n) s).1 ∧ ∀ v ∈ vs, v ∈ (vs.foldl (visit adj n) s).1 := by
  induction vs generalizing s with
  | nil => exact ⟨h, List.Subset.refl _, forall_mem_nil _⟩
  | cons v vs ih =>
    rw [forall_mem_cons] at hvs
    obtain ⟨hplaced, hsub, hv⟩ := visit_spec hadj h hvs.1
    obtain ⟨hrest, hsub', hall⟩ := ih hvs.2 hplaced
    exact ⟨hrest, fun v hv => hsub' (hsub hv), forall_mem_cons.mpr ⟨hsub' hv, hall⟩⟩

theorem components_perm :
    (components adj n).flatten.Perm (List.range n) := by
  obtain ⟨hplaced, -, hall⟩ := foldl_visit_spec hadj (List.range n)
    (fun v hv => mem_range.mp hv) (s := ([], []))
    ⟨List.Perm.nil, nodup_nil, forall_mem_nil _⟩
  refine hplaced.perm.symm.trans ?_
  refine (perm_ext_iff_of_nodup hplaced.nodup nodup_range).mpr fun v => ⟨?_, hall v⟩
  intro hv
  exact mem_range.mpr (hplaced.below v hv)

end

end Components
