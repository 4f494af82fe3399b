import Mathlib.Data.List.Nodup

/-!
# Maps whose entries carry their own key

`KeyedMap key` is a finite map from `κ` in which the key of an entry is `key` of the
entry itself.  Its entries have distinct keys by construction, so a lookup (`get?`)
determines membership (`mem_entries_iff`).
-/

/-- A finite map, as the list of its entries in the order they came in. -/
structure KeyedMap {α κ : Type} (key : α → κ) where
  entries : List α
  nodup : (entries.map key).Nodup

namespace KeyedMap

open List

variable {α κ : Type} {key : α → κ}

@[ext] theorem ext_entries {m n : KeyedMap key} (h : m.entries = n.entries) : m = n := by
  cases m
  cases n
  cases h
  rfl

def empty : KeyedMap key := ⟨[], List.nodup_nil⟩

variable (m : KeyedMap key)

theorem nodup_filter (p : α → Bool) : ((m.entries.filter p).map key).Nodup :=
  m.nodup.sublist (filter_sublist.map key)

/-- Keeps the entries that satisfy `p`. -/
def filter (m : KeyedMap key) (p : α → Bool) : KeyedMap key :=
  ⟨m.entries.filter p, m.nodup_filter p⟩

variable {m : KeyedMap key}

/-- Keys are distinct, so an entry with the key of a selected one is selected. -/
theorem key_mem_map_filter_iff {a : α} (ha : a ∈ m.entries) (p : α → Bool) :
    key a ∈ (m.entries.filter p).map key ↔ p a := by
  rw [mem_map]
  constructor
  · rintro ⟨b, hb, hkey⟩
    obtain ⟨hb, hp⟩ := mem_filter.mp hb
    rwa [← inj_on_of_nodup_map m.nodup hb ha hkey]
  · exact fun hp => ⟨a, mem_filter.mpr ⟨ha, hp⟩, rfl⟩

variable [DecidableEq κ]

def get? (m : KeyedMap key) (k : κ) : Option α := m.entries.find? fun a => key a = k

def erase (m : KeyedMap key) (k : κ) : KeyedMap key := m.filter fun a => key a ≠ k

theorem nodup_insert (a : α) :
    (((m.erase (key a)).entries ++ [a]).map key).Nodup := by
  rw [map_append, nodup_append]
  refine ⟨(m.erase (key a)).nodup, by simp, ?_⟩
  rintro k hk k' hk' rfl
  obtain ⟨b, hb, rfl⟩ := mem_map.mp hk
  have hne := (mem_filter.mp hb).2
  simp only [map_cons, map_nil, mem_singleton] at hk'
  simp [hk'] at hne

/-- Replaces the entry with the key of `a`. -/
def insert (m : KeyedMap key) (a : α) : KeyedMap key :=
  ⟨(m.erase (key a)).entries ++ [a], m.nodup_insert a⟩

/-- Inserts the elements of a list in order; the last one with a key stays. -/
def insertAll (m : KeyedMap key) (l : List α) : KeyedMap key := l.foldl insert m

@[simp] theorem insertAll_nil : m.insertAll [] = m := rfl

@[simp] theorem insertAll_cons (a : α) (l : List α) :
    m.insertAll (a :: l) = (m.insert a).insertAll l := rfl

@[simp] theorem get?_empty (k : κ) : (empty : KeyedMap key).get? k = none := rfl

theorem key_of_get? {k : κ} {a : α} (h : m.get? k = some a) : key a = k := by
  simpa using find?_some h

theorem mem_of_get? {k : κ} {a : α} (h : m.get? k = some a) : a ∈ m.entries :=
  mem_of_find?_eq_some h

theorem mem_entries_iff {a : α} : a ∈ m.entries ↔ m.get? (key a) = some a := by
  refine ⟨fun h => ?_, mem_of_get?⟩
  cases hf : m.get? (key a) with
  | none =>
    have := find?_eq_none.mp hf a h
    simp at this
  | some b =>
    have hkey := key_of_get? hf
    rw [inj_on_of_nodup_map m.nodup (mem_of_get? hf) h hkey]

theorem get?_eq_none_iff {k : κ} :
    m.get? k = none ↔ ∀ a ∈ m.entries, key a ≠ k := by
  simp [get?, find?_eq_none]

theorem get?_eq_some_iff {k : κ} {a : α} :
    m.get? k = some a ↔ a ∈ m.entries ∧ key a = k := by
  refine ⟨fun h => ⟨mem_of_get? h, key_of_get? h⟩, ?_⟩
  rintro ⟨h, rfl⟩
  exact mem_entries_iff.mp h

@[simp] theorem get?_filter (p : α → Bool) (k : κ) :
    (m.filter p).get? k = (m.get? k).filter p := by
  apply Option.ext
  intro a
  rw [get?_eq_some_iff, Option.filter_eq_some_iff, get?_eq_some_iff]
  simp only [filter, mem_filter]
  tauto

@[simp] theorem get?_erase (k k' : κ) :
    (m.erase k).get? k' = if k' = k then none else m.get? k' := by
  rw [erase, get?_filter]
  apply Option.ext
  intro a
  rw [Option.filter_eq_some_iff]
  split
  next h =>
    subst h
    simpa using fun ha => key_of_get? ha
  next h =>
    refine ⟨fun ha => ha.1, fun ha => ⟨ha, ?_⟩⟩
    simpa [key_of_get? ha] using h

@[simp] theorem get?_insert (a : α) (k : κ) :
    (m.insert a).get? k = if k = key a then some a else m.get? k := by
  have hfind : (m.insert a).get? k = ((m.erase (key a)).get? k).or ([a].find? fun b => key b = k) :=
    find?_append
  rw [hfind, get?_erase]
  split
  next h => simp [h]
  next h =>
    have : ¬ key a = k := fun e => h e.symm
    simp [this]

theorem mem_insert {a b : α} :
    b ∈ (m.insert a).entries ↔ b = a ∨ b ∈ m.entries ∧ key b ≠ key a := by
  rw [mem_entries_iff, get?_insert, mem_entries_iff]
  split
  next h =>
    refine ⟨fun e => .inl (Option.some.inj e).symm, ?_⟩
    rintro (rfl | ⟨-, hne⟩)
    · rfl
    · exact absurd h hne
  next h =>
    refine ⟨fun e => .inr ⟨e, h⟩, ?_⟩
    rintro (rfl | ⟨hb, -⟩)
    · exact absurd rfl h
    · exact hb

theorem erase_of_get?_eq_none {k : κ} (h : m.get? k = none) : m.erase k = m := by
  apply ext_entries
  apply filter_eq_self.mpr
  intro a ha
  simpa using get?_eq_none_iff.mp h a ha

theorem insert_of_get?_eq_none {a : α} (h : m.get? (key a) = none) :
    (m.insert a).entries = m.entries ++ [a] := by
  show (m.erase (key a)).entries ++ [a] = m.entries ++ [a]
  rw [erase_of_get?_eq_none h]

/-- Elements with new and distinct keys are appended as they are. -/
theorem entries_insertAll (l : List α) (hl : ((m.entries ++ l).map key).Nodup) :
    (m.insertAll l).entries = m.entries ++ l := by
  induction l generalizing m with
  | nil => simp
  | cons a l ih =>
    have hnone : m.get? (key a) = none := by
      apply get?_eq_none_iff.mpr
      intro b hb
      rw [map_append, nodup_append] at hl
      exact hl.2.2 _ (mem_map_of_mem hb) _ (by simp)
    have hins := insert_of_get?_eq_none hnone
    rw [insertAll_cons, ih, hins, append_assoc, singleton_append]
    simpa [hins] using hl

@[simp] theorem insertAll_entries : empty.insertAll m.entries = m := by
  apply ext_entries
  rw [entries_insertAll]
  · rfl
  · simpa [empty] using m.nodup

theorem get?_insertAll (l : List α) (k : κ) :
    (m.insertAll l).get? k = (l.reverse.find? fun a => key a = k).or (m.get? k) := by
  induction l generalizing m with
  | nil => simp
  | cons a l ih =>
    rw [insertAll_cons, ih, reverse_cons, find?_append, get?_insert]
    by_cases h : k = key a
    · simp [h]
    · have : ¬ key a = k := fun e => h e.symm
      simp [h, this]

theorem mem_insertAll {l : List α} {a : α} (h : a ∈ (m.insertAll l).entries) :
    a ∈ l ∨ a ∈ m.entries := by
  rw [mem_entries_iff, get?_insertAll, Option.or_eq_some_iff] at h
  rcases h with h | ⟨-, h⟩
  · exact .inl (mem_reverse.mp (mem_of_find?_eq_some h))
  · exact .inr (mem_of_get? h)

end KeyedMap
