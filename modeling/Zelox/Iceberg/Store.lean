import Zelox.Iceberg.Commit
import Mathlib.Data.List.MinMax
import Mathlib.Data.List.Nodup
import Mathlib.Data.Prod.Lex
import Mathlib.Data.String.Basic

/-!
# The metadata files of a table in the object store

`table/metadata_loader.rs`: the latest metadata file is found from a listing and from the hint.
`IsLatest` says which file that is: the greatest by version, by whether the hint names it, by time
and by name.  A file that is put above all others is the latest for every hint,
and one that is replaced stays the latest.
-/

namespace Zelox.Iceberg

open List

variable {L : Type}

/-- The name of a metadata file, with the version that is parsed from it. -/
@[ext] structure MetadataName where
  version : Int
  fileName : String
deriving DecidableEq, Repr

def MetadataFileCodec.fileExtension : MetadataFileCodec → String
  | none => ".metadata.json"
  | gzip => ".gz.metadata.json"

/-- The name `v{version}{extension}`. -/
def hadoopName (version : Int) (codec : MetadataFileCodec) : MetadataName :=
  { version := version, fileName := "v" ++ toString version ++ codec.fileExtension }

structure MetadataFile (L : Type) where
  name : MetadataName
  lastModified : Nat
  metadata : TableMetadata L
deriving DecidableEq, Repr

/-- The content of `version-hint.text`. -/
inductive VersionHint where
  | number (version : Int)
  | fileName (name : String)
deriving DecidableEq, Repr

/-- `lastModified` is taken from a clock that every put advances. -/
structure Store (L : Type) where
  files : List (MetadataFile L) := []
  hint : Option VersionHint := none
  clock : Nat := 0
deriving DecidableEq, Repr

namespace Store

variable (s : Store L)

/-- The file that is put next. -/
def newFile (n : MetadataName) (m : TableMetadata L) : MetadataFile L :=
  { name := n, lastModified := s.clock + 1, metadata := m }

@[simp] theorem newFile_name (n : MetadataName) (m : TableMetadata L) : (s.newFile n m).name = n :=
  rfl

/-- A put without conditions: replaces a file of the same name. -/
def put (n : MetadataName) (m : TableMetadata L) : Store L :=
  { s with
    files := s.files.filter (·.name ≠ n) ++ [s.newFile n m]
    clock := s.clock + 1 }

def get (n : MetadataName) : Option (MetadataFile L) := s.files.find? (·.name = n)

def delete (n : MetadataName) : Store L := { s with files := s.files.filter (·.name ≠ n) }

/-- What every store in use is: names are unique, and no file is newer than the clock. -/
structure Valid : Prop where
  unique : (s.files.map (·.name)).Nodup
  clock : ∀ f ∈ s.files, f.lastModified ≤ s.clock

end Store

/-! ### The latest file -/

def VersionHint.selects (f : MetadataFile L) : VersionHint → Bool
  | number v => f.name.version = v
  | fileName name => name.toList <:+ f.name.fileName.toList

/-- What the listed files are sorted by: version, time and name. -/
def SortKey : Type := Int ×ₗ Nat ×ₗ String

-- the orders of the parts are given by name: the order that is found for `Int` may not be computable
instance : LinearOrder SortKey :=
  @Prod.Lex.instLinearOrder Int (Nat ×ₗ String) Int.instLinearOrder
    (@Prod.Lex.instLinearOrder Nat String Nat.instLinearOrder inferInstance)

def MetadataFile.key (f : MetadataFile L) : SortKey :=
  toLex (f.name.version, toLex (f.lastModified, f.name.fileName))

/-- The last of the sorted files. -/
def newest (files : List (MetadataFile L)) : Option (MetadataFile L) :=
  files.argmax MetadataFile.key

/-- The last of the sorted files that the hint names, if it is not older than the newest. -/
def hinted (hint : VersionHint) (files : List (MetadataFile L)) : Option (MetadataFile L) :=
  (newest (files.filter (hint.selects ·))).filter fun f =>
    (newest files).all (·.name.version ≤ f.name.version)

def findLatest (hint : Option VersionHint) (files : List (MetadataFile L)) :
    Option (MetadataFile L) :=
  hint.bind (hinted · files) <|> newest files

def hintSelects (hint : Option VersionHint) (f : MetadataFile L) : Bool :=
  hint.any (·.selects f)

/-- `f` comes after `g` in what the reader with this hint takes for the latest file. -/
def Before (hint : Option VersionHint) (f g : MetadataFile L) : Prop :=
  f.name.version < g.name.version ∨ f.name.version = g.name.version ∧
    (hintSelects hint f = false ∧ hintSelects hint g = true ∨
      hintSelects hint f = hintSelects hint g ∧ (f.lastModified < g.lastModified ∨
        f.lastModified = g.lastModified ∧ f.name.fileName < g.name.fileName))

/-- The file that a reader with this hint finds. -/
structure IsLatest (hint : Option VersionHint) (files : List (MetadataFile L))
    (e : MetadataFile L) : Prop where
  mem : e ∈ files
  before : ∀ f ∈ files, f ≠ e → Before hint f e

theorem MetadataFile.key_lt_key {f g : MetadataFile L} : f.key < g.key ↔
    f.name.version < g.name.version ∨ f.name.version = g.name.version ∧
      (f.lastModified < g.lastModified ∨
        f.lastModified = g.lastModified ∧ f.name.fileName < g.name.fileName) := by
  show toLex (f.name.version, toLex (f.lastModified, f.name.fileName)) <
    toLex (g.name.version, toLex (g.lastModified, g.name.fileName)) ↔ _
  simp only [Prod.Lex.toLex_lt_toLex]

variable {e : MetadataFile L}

theorem newest_eq_some {files : List (MetadataFile L)} (he : e ∈ files)
    (h : ∀ f ∈ files, f ≠ e → f.key < e.key) : newest files = some e := by
  unfold newest
  cases hn : files.argmax MetadataFile.key with
  | none =>
    rw [argmax_eq_none.mp hn] at he
    exact absurd he not_mem_nil
  | some g =>
    by_contra hne
    have hge : g ≠ e := fun h => hne (congrArg some h)
    exact absurd (h g (argmax_mem hn) hge) (not_lt.mpr (le_of_mem_argmax he hn))

variable {hint : Option VersionHint}

theorem IsLatest.version_le {files : List (MetadataFile L)} {e f : MetadataFile L}
    (h : IsLatest hint files e) (hf : f ∈ files) :
    f.name.version ≤ e.name.version := by
  by_cases hfe : f = e
  · rw [hfe]
  · obtain hlt | ⟨heq, -⟩ := h.before f hf hfe
    · exact hlt.le
    · exact heq.le

theorem IsLatest.findLatest_eq {files : List (MetadataFile L)} (h : IsLatest hint files e) :
    findLatest hint files = some e := by
  unfold findLatest
  by_cases hs : hintSelects hint e = true
  · -- the hint names the file: it is the last of those it names, and no file has a higher version
    obtain ⟨hi, rfl, hsel⟩ : ∃ hi : VersionHint, hint = some hi ∧ hi.selects e = true := by
      cases hint with
      | none => cases hs
      | some hi => exact ⟨hi, rfl, hs⟩
    have hnew : newest (files.filter (hi.selects ·)) = some e := by
      refine newest_eq_some (mem_filter.mpr ⟨h.mem, hsel⟩) fun f hf hfe => ?_
      obtain ⟨hf, hfs⟩ := mem_filter.mp hf
      refine MetadataFile.key_lt_key.mpr ((h.before f hf hfe).imp_right ?_)
      rintro ⟨heq, ⟨hno, -⟩ | ⟨-, hlt⟩⟩
      · simp [hintSelects, hfs] at hno
      · exact ⟨heq, hlt⟩
    have hall : (newest files).all (·.name.version ≤ e.name.version) = true := by
      cases hn : newest files with
      | none => rfl
      | some g => simpa using h.version_le (argmax_mem hn)
    simp [hinted, hnew, hall]
  · -- no file of the highest version is named
    have hnew : newest files = some e := by
      refine newest_eq_some h.mem fun f hf hfe => ?_
      refine MetadataFile.key_lt_key.mpr ((h.before f hf hfe).imp_right ?_)
      rintro ⟨heq, ⟨-, hyes⟩ | ⟨-, hlt⟩⟩
      · exact absurd hyes hs
      · exact ⟨heq, hlt⟩
    have hnone : hint.bind (hinted · files) = none := by
      refine Option.bind_eq_none_iff.mpr fun hi hhi => ?_
      refine Option.filter_eq_none_iff.mpr fun g hg => ?_
      obtain ⟨hgm, hgs⟩ := mem_filter.mp (argmax_mem hg)
      have hge : g ≠ e := by
        rintro rfl
        exact hs (by simpa [hintSelects, hhi] using hgs)
      have hlt : g.name.version < e.name.version := by
        obtain hlt | ⟨-, ⟨hno, -⟩ | ⟨heq, -⟩⟩ := h.before g hgm hge
        · exact hlt
        · simp [hintSelects, hhi, hgs] at hno
        · rw [Bool.not_eq_true] at hs
          rw [hs] at heq
          simp [hintSelects, hhi, hgs] at heq
      simpa [hnew] using hlt
    rw [hnone, hnew]
    rfl

/-! ### Stores -/

namespace Store

variable {s : Store L}

theorem Valid.eq_of_name (hv : s.Valid) {f g : MetadataFile L} (hf : f ∈ s.files)
    (hg : g ∈ s.files) (h : f.name = g.name) : f = g :=
  inj_on_of_nodup_map hv.unique hf hg h

theorem Valid.get_eq (hv : s.Valid) {f : MetadataFile L} (hf : f ∈ s.files) :
    s.get f.name = some f := by
  unfold get
  cases h : s.files.find? (·.name = f.name) with
  | none => exact absurd (decide_eq_true rfl) (find?_eq_none.mp h f hf)
  | some g =>
    have hname : g.name = f.name := by simpa using find?_some h
    rw [hv.eq_of_name (mem_of_find?_eq_some h) hf hname]

theorem Valid.exists_isLatest (hv : s.Valid) (hne : s.files ≠ []) (hint : Option VersionHint) :
    ∃ e, IsLatest hint s.files e := by
  -- by what `Before` compares, as one key
  let key (f : MetadataFile L) : Int ×ₗ Bool ×ₗ Nat ×ₗ String :=
    toLex (f.name.version, toLex (hintSelects hint f, toLex (f.lastModified, f.name.fileName)))
  cases he : s.files.argmax key with
  | none => exact absurd (argmax_eq_none.mp he) hne
  | some e =>
    have hmem := argmax_mem he
    refine ⟨e, hmem, fun f hf hfe => ?_⟩
    have hle : key f ≤ key e := le_of_mem_argmax hf he
    have hlt : key f < key e := by
      refine lt_of_le_of_ne hle fun heq => hfe (hv.eq_of_name hf hmem ?_)
      have h1 := congrArg (fun k => (ofLex k).1) heq
      have h2 := congrArg (fun k => (ofLex (ofLex (ofLex k).2).2).2) heq
      exact MetadataName.ext h1 h2
    simpa [key, Before, Prod.Lex.toLex_lt_toLex, Bool.lt_iff] using hlt

theorem mem_put {n : MetadataName} {m : TableMetadata L} {f : MetadataFile L} :
    f ∈ (s.put n m).files ↔ f ∈ s.files ∧ f.name ≠ n ∨
      f = s.newFile n m := by
  simp [put]

theorem Valid.put (hv : s.Valid) (n : MetadataName) (m : TableMetadata L) : (s.put n m).Valid := by
  refine ⟨?_, fun f hf => ?_⟩
  · have hnew : ((s.files.filter (·.name ≠ n)).map (·.name)).Nodup :=
      hv.unique.sublist (filter_sublist.map _)
    simp only [Store.put, map_append, map_cons, map_nil]
    refine List.Nodup.append hnew (nodup_singleton _) fun x hx hx' => ?_
    obtain ⟨f, hf, rfl⟩ := mem_map.mp hx
    exact absurd (mem_singleton.mp hx') (of_decide_eq_true (mem_filter.mp hf).2)
  · obtain ⟨hf, -⟩ | rfl := mem_put.mp hf
    · exact (hv.clock f hf).trans (Nat.le_succ _)
    · exact le_rfl

/-- A file with a version above all others is the latest, whatever the hint. -/
theorem isLatest_put_above {n : MetadataName} (m : TableMetadata L) (hint : Option VersionHint)
    (h : ∀ f ∈ s.files, f.name.version < n.version) : IsLatest hint (s.put n m).files
      (s.newFile n m) := by
  refine ⟨mem_put.mpr (.inr rfl), fun f hf hne => ?_⟩
  obtain ⟨hf, -⟩ | hf := mem_put.mp hf
  · exact .inl (h f hf)
  · exact absurd hf hne

theorem Valid.isLatest_put (hv : s.Valid) (h : IsLatest hint s.files e) (m : TableMetadata L) :
    IsLatest hint (s.put e.name m).files
      (s.newFile e.name m) := by
  have hsel : hintSelects hint (s.newFile e.name m) = hintSelects hint e := by
    cases hint with
    | none => rfl
    | some hi =>
      cases hi with
      | number v => rfl
      | fileName name => rfl
  refine ⟨mem_put.mpr (.inr rfl), fun f hf hne => ?_⟩
  obtain ⟨hf, hname⟩ | hf := mem_put.mp hf
  · have hclock := hv.clock f hf
    refine (h.before f hf fun hfe => hname (congrArg _ hfe)).imp_right ?_
    rintro ⟨heq, ⟨hno, hyes⟩ | ⟨hs, -⟩⟩
    · exact ⟨heq, .inl ⟨hno, hsel.trans hyes⟩⟩
    · exact ⟨heq, .inr ⟨hs.trans hsel.symm, .inl (Nat.lt_succ_of_le hclock)⟩⟩
  · exact absurd hf hne

/-- A latest file that is replaced stays the latest, also for every hint to no other of its version.
-/
theorem Valid.isLatest_put_of (hv : s.Valid) {hint hint' : Option VersionHint}
    (h : IsLatest hint s.files e) (m : TableMetadata L)
    (hs : ∀ f : MetadataFile L, f.name.version = e.name.version → hintSelects hint' f = true →
      hintSelects hint' (s.newFile e.name m) = true) :
    IsLatest hint' (s.put e.name m).files
      (s.newFile e.name m) := by
  refine ⟨mem_put.mpr (.inr rfl), fun f hf hne => ?_⟩
  obtain ⟨hf, -⟩ | hf := mem_put.mp hf
  · have hclock := Nat.lt_succ_of_le (hv.clock f hf)
    obtain hlt | heq := (h.version_le hf).lt_or_eq
    · exact .inl hlt
    · refine .inr ⟨heq, ?_⟩
      cases hf : hintSelects hint' f with
      | true => exact .inr ⟨(hs f heq hf).symm, .inl hclock⟩
      | false =>
        cases he : hintSelects hint'
            (s.newFile e.name m) with
        | true => exact .inl ⟨rfl, rfl⟩
        | false => exact .inr ⟨rfl, .inl hclock⟩
  · exact absurd hf hne

theorem Valid.isLatest_of_findLatest (hv : s.Valid) (h : findLatest hint s.files = some e) :
    IsLatest hint s.files e := by
  have hne : s.files ≠ [] := by
    intro hnil
    rw [hnil] at h
    cases hint <;> cases h
  obtain ⟨e', he'⟩ := hv.exists_isLatest hne hint
  rw [he'.findLatest_eq] at h
  exact Option.some.inj h ▸ he'

theorem Valid.files_eq_nil (hv : s.Valid) (h : findLatest hint s.files = none) : s.files = [] := by
  by_contra hne
  obtain ⟨e, he⟩ := hv.exists_isLatest hne hint
  rw [he.findLatest_eq] at h
  cases h

end Store

end Zelox.Iceberg
