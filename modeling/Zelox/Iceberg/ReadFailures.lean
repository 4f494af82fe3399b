import Zelox.Iceberg.CommitLoop

/-!
# Commits whose reads fail

One commit that runs alone on an existing table, while gets and listings may fail.  A failed
listing is taken for a table that does not exist, and a failed get of the hint for a missing hint.
`OnFile` and `Created` follow the commit on the two paths that it can take from there.
-/

namespace Zelox.Iceberg

open Runs List Option

variable {L : Type} {c : CommitInfo L} {id : Nat → Int} {s : Store L}

/-! ### The latest file and its live data files -/

/-- The paths of the live data files. -/
def MetadataFile.live (e : MetadataFile L) : List String :=
  e.metadata.currentSnapshot.elim [] (·.livePaths)

def CommitInfo.paths (c : CommitInfo L) : List String := c.dataFiles.map (·.filePath)

theorem CommitInfo.Writes.live {m : Option (TableMetadata L)} {t : Snapshot L}
    {m' : TableMetadata L} (h : c.Writes m t m') {e : MetadataFile L} (he : e.metadata = m') :
    c.paths ⊆ e.live ∧ (c.operation = .append → ∀ p, p ∈ e.live ↔
      p ∈ c.paths ∨ ∃ t, m.bind (·.currentSnapshot) = some t ∧ p ∈ t.livePaths) := by
  have hlive : e.live = t.livePaths := by
    rw [MetadataFile.live, he, h.adds.current]
    rfl
  have hfiles : c.paths ⊆ t.livePaths := by
    intro p hp
    obtain ⟨f, hf, rfl⟩ := List.mem_map.mp hp
    exact h.files f hf
  rw [hlive]
  refine ⟨hfiles, fun ha p => ⟨h.paths ha p, ?_⟩⟩
  rintro (hp | ⟨u, hu, hp⟩)
  · exact hfiles hp
  · exact h.keeps ha u hu p hp

section

variable (hs : s.Valid) {h : Option VersionHint} {e : MetadataFile L}
  (he : findLatest h s.files = some e)
include hs he

theorem Store.Valid.get_latest : s.get e.name = some e :=
  hs.get_eq (hs.isLatest_of_findLatest he).mem

theorem Store.Valid.any_above {q : MetadataFile L → Bool}
    (hq : ∀ f, q f = true → f.name.version = e.name.version + 1) : s.files.any q = false := by
  refine List.any_eq_false.mpr fun f hf hqf => ?_
  have hle := (hs.isLatest_of_findLatest he).version_le hf
  have := hq f hqf
  omega

theorem Store.Valid.any_next :
    s.files.any (fun f => f.name = nextName e.name e.metadata) = false :=
  hs.any_above he fun _ hf => congrArg MetadataName.version (of_decide_eq_true hf)

theorem any_above_put (m : TableMetadata L) :
    (s.put (nextName e.name e.metadata) m).files.any (fun f =>
      f.name.version = (nextName e.name e.metadata).version ∧
        f.name ≠ nextName e.name e.metadata) = false := by
  refine List.any_eq_false.mpr fun f hf hq => ?_
  obtain ⟨hver, hne⟩ := of_decide_eq_true hq
  obtain ⟨hf, -⟩ | rfl := Store.mem_put.mp hf
  · have hle := (hs.isLatest_of_findLatest he).version_le hf
    have : f.name.version = e.name.version + 1 := hver
    omega
  · exact hne rfl

end

/-- The file that the commit has put is the latest for the hint that it writes. -/
theorem Extends.isLatest_hint {e : MetadataFile L} {n : MetadataName} (hn : Extends e n)
    (hs : s.Valid) (m : TableMetadata L) {h : Option VersionHint}
    (he : findLatest h s.files = some e) {h' : VersionHint}
    (hh : h' = .number n.version ∨ h' = .fileName n.fileName) :
    findLatest (some h') (s.put n m).files = some (s.newFile n m) := by
  obtain rfl | rfl := hh
  · exact hn.isLatest_number hs m he _
  · have hl := hs.isLatest_of_findLatest he
    cases hn with
    | above =>
      refine (Store.isLatest_put_above m _ fun f hf => ?_).findLatest_eq
      exact Int.lt_add_one_of_le (hl.version_le hf)
    | same =>
      refine (hs.isLatest_put_of hl m fun f _ _ => ?_).findLatest_eq
      simp [hintSelects, VersionHint.selects]

/-- The file of a new table is not seen next to one of a higher version. -/
theorem isLatest_put_below {e : MetadataFile L} (he : IsLatest none s.files e)
    (hver : 1 < e.name.version) (n : MetadataName) (hn : n.version = 1) (m : TableMetadata L) :
    IsLatest (some (.number 1)) (s.put n m).files e := by
  have hne : e.name ≠ n := by
    rintro rfl
    omega
  refine ⟨Store.mem_put.mpr (.inl ⟨he.mem, hne⟩), fun f hf hfe => ?_⟩
  obtain ⟨hf, -⟩ | rfl := Store.mem_put.mp hf
  · refine (he.before f hf hfe).imp_right ?_
    rintro ⟨heq, ⟨-, hno⟩ | ⟨-, hlt⟩⟩
    · cases hno
    · refine ⟨heq, .inr ⟨?_, hlt⟩⟩
      simp [hintSelects, VersionHint.selects, heq]
  · left
    rw [Store.newFile_name, hn]
    exact hver

/-- Otherwise it takes the place of all that was there. -/
theorem isLatest_put_first (hs : s.Valid) {h : Option VersionHint} {e : MetadataFile L}
    (he : findLatest h s.files = some e) (hver : e.name.version ≤ 1) (n : MetadataName)
    (hn : n.version = 1) (m : TableMetadata L) :
    IsLatest (some (.number 1)) (s.put n m).files (s.newFile n m) := by
  refine ⟨Store.mem_put.mpr (.inr rfl), fun f hf hfe => ?_⟩
  obtain ⟨hf, -⟩ | rfl := Store.mem_put.mp hf
  · have hle := (hs.isLatest_of_findLatest he).version_le hf
    have hclock := Nat.lt_succ_of_le (hs.clock f hf)
    obtain hlt | heq := (hle.trans hver).lt_or_eq
    · left
      rw [Store.newFile_name, hn]
      exact hlt
    · refine .inr ⟨by rw [Store.newFile_name, hn, heq], .inr ⟨?_, .inl hclock⟩⟩
      simp [hintSelects, VersionHint.selects, heq, hn]
  · exact absurd rfl hfe

/-! ### A commit that runs alone -/

variable [PartitionLiteral L]

/-- One access of a commit that runs alone. -/
def aloneStep (c : CommitInfo L) (id : Nat → Int) (x : Phase L × Store L) (ok : Bool) :
    Phase L × Store L :=
  ((perform c id x.2 ok x.1).phase, (perform c id x.2 ok x.1).store)

/-- A commit that runs alone; `reads` says which of its accesses fail. -/
def alone (c : CommitInfo L) (id : Nat → Int) (s : Store L) (reads : List Bool) :
    Phase L × Store L :=
  run (aloneStep c id) (c.start, s) reads

/-- The commit's files are in the current snapshot of `e`, and an append has kept those of `e₀`. -/
def CommitInfo.Kept (c : CommitInfo L) (e₀ e : MetadataFile L) : Prop :=
  c.paths ⊆ e.live ∧ (c.operation = .append → e₀.live ⊆ e.live)

omit [PartitionLiteral L] in
theorem kept_iff {e₀ e : MetadataFile L} {paths : List String} (hpaths : c.paths ⊆ e.live)
    (hmem : c.operation = .append → ∀ p, p ∈ e.live ↔ p ∈ paths) :
    c.Kept e₀ e ↔ (c.operation = .append → e₀.live ⊆ paths) := by
  constructor
  · intro hk ha p hp
    exact (hmem ha p).mp (hk.2 ha hp)
  · intro hsub
    exact ⟨hpaths, fun ha p hp => (hmem ha p).mpr (hsub ha hp)⟩

/-- Whatever later reads fail, the commit is visible and destroys nothing if it reports success. -/
def SafeCommit (c : CommitInfo L) (id : Nat → Int) (s : Store L) (e₀ : MetadataFile L)
    (hintRead listed : Bool) : Prop :=
  ∀ later, (alone c id s (hintRead :: listed :: later)).1 = .done .committed →
    ∃ e, findLatest (alone c id s (hintRead :: listed :: later)).2.hint
      (alone c id s (hintRead :: listed :: later)).2.files = some e ∧ c.Kept e₀ e

/-! ### On a metadata file -/

/-- Where a commit on the file `e` of the store `s` can be, and what it has put by then. -/
def OnFile (c : CommitInfo L) (id : Nat → Int) (s : Store L) (e : MetadataFile L) :
    Phase L × Store L → Prop
  | (.loading a n, s') => a = 1 ∧ s' = s ∧ n = e.name
  | (.checking a n m, s') => a = 1 ∧ s' = s ∧ n = e.name ∧ m = e.metadata
  | (.putting a n m, s') => a = 1 ∧ s' = s ∧ n = e.name ∧ m = e.metadata
  | (.replacing a n m, s') =>
    a = 1 ∧ s' = s ∧ n = e.name ∧ m = e.metadata ∧ m.currentSnapshot = none
  | (.verifying a n, s') => a = 1 ∧ n = nextName e.name e.metadata ∧
    ∃ m, c.commit (id 1) e.metadata = some m ∧ s' = s.put n m
  | (.hinting h, s') => ∃ n m, Extends e n ∧ c.commit (id 1) e.metadata = some m ∧
    s' = s.put n m ∧ (h = .number n.version ∨ h = .fileName n.fileName)
  | (.done .committed, s') => ∃ n m h, Extends e n ∧ c.commit (id 1) e.metadata = some m ∧
    s' = { s.put n m with hint := some h } ∧ (h = .number n.version ∨ h = .fileName n.fileName)
  | (.done _, _) => True
  | _ => False

section

variable (hs : s.Valid) {h : Option VersionHint} {e : MetadataFile L}
  (he : findLatest h s.files = some e)
include hs he

theorem onFile_step {x : Phase L × Store L} (hx : OnFile c id s e x) (ok : Bool) :
    OnFile c id s e (aloneStep c id x ok) := by
  obtain ⟨p, s'⟩ := x
  cases p with
  | locating a | listing a h | creating a | removing a n => exact hx.elim
  | loading a n =>
    obtain ⟨rfl, rfl, rfl⟩ := hx
    cases ok with
    | false => exact trivial
    | true =>
      simp only [aloneStep, perform, if_true, hs.get_latest he, elim_some]
      unfold CommitInfo.loaded
      cases hp : c.prepare e.metadata with
      | none => exact trivial
      | some mp =>
        have hcur := (CommitInfo.prepare_snapshots hp).2.2.2
        simp only [elim_some]
        cases hc : mp.currentSnapshot with
        | none =>
          simp only [elim_none]
          split
          · exact ⟨rfl, rfl, rfl, rfl, hcur ▸ hc⟩
          · exact trivial
        | some t =>
          simp only [elim_some]
          split
          · exact trivial
          · exact ⟨rfl, rfl, rfl, rfl⟩
  | checking a n m =>
    obtain ⟨rfl, rfl, rfl, rfl⟩ := hx
    cases ok with
    | false => exact trivial
    | true =>
      simp only [aloneStep, perform, if_true, hs.any_above he fun f hf => of_decide_eq_true hf,
        Bool.false_eq_true, if_false]
      split
      · exact ⟨rfl, rfl, rfl, rfl⟩
      · exact trivial
  | putting a n m =>
    obtain ⟨rfl, rfl, rfl, rfl⟩ := hx
    have hnone := hs.any_next he
    simp only [aloneStep, perform, hnone]
    cases hc : c.commit (id 1) e.metadata with
    | none => exact trivial
    | some m => exact ⟨rfl, rfl, m, hc, rfl⟩
  | verifying a n =>
    obtain ⟨rfl, rfl, m, hc, rfl⟩ := hx
    cases ok with
    | false => exact trivial
    | true =>
      simp only [aloneStep, perform, if_true, any_above_put hs he]
      exact ⟨_, m, .above, hc, rfl, .inl rfl⟩
  | replacing a n m =>
    obtain ⟨rfl, rfl, rfl, rfl, hnone⟩ := hx
    simp only [aloneStep, perform]
    cases hc : c.commit (id 1) e.metadata with
    | none => exact trivial
    | some m => exact ⟨_, m, .same hnone, hc, rfl, .inr rfl⟩
  | hinting h =>
    obtain ⟨n, m, hn, hc, rfl, hh⟩ := hx
    exact ⟨n, m, h, hn, hc, rfl, hh⟩
  | done o => exact hx

/-- A commit that succeeds on the file `e` keeps what `e` and the commit have. -/
theorem kept_of_onFile (hr : e.metadata.RefsValid) (hf : FreshId e.metadata.snapshots (id 1))
    {x : Phase L × Store L} (hx : OnFile c id s e x) (hdone : x.1 = .done .committed)
    (e₀ : MetadataFile L) :
    (c.commit (id 1) e.metadata).isSome ∧ ∃ e', findLatest x.2.hint x.2.files = some e' ∧
      (c.Kept e₀ e' ↔ (c.operation = .append → e₀.live ⊆ e.live ++ c.paths)) := by
  obtain ⟨p, s'⟩ := x
  obtain rfl : p = .done .committed := hdone
  obtain ⟨n, m, h', hn, hc, rfl, hh⟩ := hx
  refine ⟨by rw [hc]; rfl, s.newFile n m, hn.isLatest_hint hs m he hh, ?_⟩
  obtain ⟨t, -, hw⟩ := writes_commit hc hr hf
  obtain ⟨hpaths, hlive⟩ := hw.live (e := s.newFile n m) rfl
  have hmem (ha : c.operation = .append) (p : String) :
      p ∈ (s.newFile n m).live ↔ p ∈ e.live ++ c.paths := by
    rw [hlive ha p, mem_append, or_comm, MetadataFile.live]
    refine or_congr_left ?_
    cases hcur : e.metadata.currentSnapshot with
    | none | some u => simp [hcur]
  exact kept_iff hpaths hmem

/-- If no further read fails, the commit succeeds as soon as the updates can be made. -/
theorem committed_onFile (hc : (c.commit (id 1) e.metadata).isSome) :
    (run (aloneStep c id) (.loading 1 e.name, s) [true, true, true, true, true]).1 =
      .done .committed := by
  obtain ⟨m, hm⟩ := isSome_iff_exists.mp hc
  obtain ⟨mp, op, t, hp, -, hspec⟩ := CommitInfo.commit_spec hm
  have hload : aloneStep c id (.loading 1 e.name, s) true =
      (c.loaded (id 1) 1 e.name e.metadata, s) := by
    simp [aloneStep, perform, hs.get_latest he]
  rw [run_cons, hload]
  obtain ⟨-, hsome, -, hskip⟩ | ⟨-, hnone, -⟩ := hspec
  · obtain ⟨u, hu⟩ := isSome_iff_exists.mp hsome
    have hloaded : c.loaded (id 1) 1 e.name e.metadata = .checking 1 e.name e.metadata := by
      simp [CommitInfo.loaded, hp, hu, hskip]
    have hnew := hs.any_next he
    have hcheck := hs.any_above he (q := fun f => f.name.version = e.name.version + 1)
      fun f hf => of_decide_eq_true hf
    have hput := any_above_put hs he m
    have h1 : aloneStep c id (.checking 1 e.name e.metadata, s) true =
        (.putting 1 e.name e.metadata, s) := by
      simp only [aloneStep, perform, if_true, hcheck, hc, Bool.false_eq_true, if_false]
    have h2 : aloneStep c id (.putting 1 e.name e.metadata, s) true =
        (.verifying 1 (nextName e.name e.metadata), s.put (nextName e.name e.metadata) m) := by
      simp only [aloneStep, perform, hnew, hm, Bool.false_eq_true, if_false, elim_some]
    have h3 : aloneStep c id
        (.verifying 1 (nextName e.name e.metadata), s.put (nextName e.name e.metadata) m) true =
        (.hinting (.number (nextName e.name e.metadata).version),
          s.put (nextName e.name e.metadata) m) := by
      simp only [aloneStep, perform, if_true, hput, Bool.false_eq_true, if_false]
    rw [hloaded, run_cons, h1, run_cons, h2, run_cons, h3]
    rfl
  · have hloaded : c.loaded (id 1) 1 e.name e.metadata = .replacing 1 e.name e.metadata := by
      simp [CommitInfo.loaded, hp, hnone, hc]
    simp only [hloaded, run_cons, run_nil, aloneStep, perform, hm, elim_some]

end

/-! ### On no table -/

/-- Where a commit that creates a table can be, and what it has put by then. -/
def Created (c : CommitInfo L) (id : Nat → Int) (s : Store L) : Phase L × Store L → Prop
  | (.creating a, s') => a = 1 ∧ s' = s
  | (.hinting h, s') => h = .number 1 ∧
    ∃ m, c.newTable (id 1) = some m ∧ s' = s.put (hadoopName 1 m.codec) m
  | (.done .committed, s') => ∃ m, c.newTable (id 1) = some m ∧
    s' = { s.put (hadoopName 1 m.codec) m with hint := some (.number 1) }
  | (.done _, _) => True
  | _ => False

theorem created_step {x : Phase L × Store L} (hx : Created c id s x) (ok : Bool) :
    Created c id s (aloneStep c id x ok) := by
  obtain ⟨p, s'⟩ := x
  cases p with
  | creating a =>
    obtain ⟨rfl, rfl⟩ := hx
    simp only [aloneStep, perform]
    cases hc : c.newTable (id 1) with
    | none => exact trivial
    | some m => exact ⟨rfl, m, hc, rfl⟩
  | hinting h =>
    obtain ⟨rfl, m, hc, rfl⟩ := hx
    exact ⟨m, hc, rfl⟩
  | done o => exact hx
  | locating a | listing a h | loading a n | checking a n m | putting a n m | verifying a n
  | removing a n | replacing a n m => exact hx.elim

/-- What has to hold of a table that is created over `e₀`. -/
def CommitInfo.Overwrites (c : CommitInfo L) (s : Store L) (e₀ : MetadataFile L) : Prop :=
  if 1 < e₀.name.version then ∀ e, newest s.files = some e → c.Kept e₀ e
  else c.operation = .append → e₀.live ⊆ c.paths

theorem kept_of_created (hs : s.Valid) {h : Option VersionHint} {e₀ : MetadataFile L}
    (he₀ : findLatest h s.files = some e₀) {x : Phase L × Store L} (hx : Created c id s x)
    (hdone : x.1 = .done .committed) :
    ∃ e, findLatest x.2.hint x.2.files = some e ∧ (c.Kept e₀ e ↔ c.Overwrites s e₀) := by
  obtain ⟨p, s'⟩ := x
  obtain rfl : p = .done .committed := hdone
  obtain ⟨m, hc, rfl⟩ := hx
  unfold CommitInfo.Overwrites
  by_cases hver : 1 < e₀.name.version
  · have hl := hs.isLatest_of_findLatest he₀
    obtain ⟨e, he⟩ := hs.exists_isLatest (ne_nil_of_mem hl.mem) none
    have hnew : newest s.files = some e := by simpa [findLatest] using he.findLatest_eq
    have hver' := he.version_le hl.mem
    refine ⟨e, (isLatest_put_below he (by omega) _ rfl m).findLatest_eq, ?_⟩
    rw [if_pos hver]
    constructor
    · intro hk e' he'
      obtain rfl := some.inj (hnew.symm.trans he')
      exact hk
    · exact fun h => h e hnew
  · refine ⟨_, (isLatest_put_first hs he₀ (by omega) _ rfl m).findLatest_eq, ?_⟩
    rw [if_neg hver]
    obtain ⟨t, -, hw⟩ := writes_newTable hc
    obtain ⟨hpaths, hlive⟩ := hw.live (e := s.newFile (hadoopName 1 m.codec) m) rfl
    have hmem (ha : c.operation = .append) (p : String) :
        p ∈ (s.newFile (hadoopName 1 m.codec) m).live ↔ p ∈ c.paths := by
      simp [hlive ha p]
    exact kept_iff hpaths hmem

/-! ### The reads that matter -/

/-- When a commit is safe: the listing succeeds or there is nothing to lose, and likewise for the
hint. -/
def CommitInfo.SafeReads (c : CommitInfo L) (id : Int) (s : Store L) (e₀ : MetadataFile L)
    (hintRead listed : Bool) : Prop :=
  (c.streaming.isSome ∧ c.dataFiles = []) ∨
    if listed then hintRead = true ∨ ∀ e, newest s.files = some e →
      (c.commit id e.metadata).isSome → c.operation = .append → e₀.live ⊆ e.live ++ c.paths
    else (c.newTable id).isSome → c.Overwrites s e₀

/-- A commit that runs alone is safe if and only if the hint and the first listing are. -/
theorem safeCommit_iff (c : CommitInfo L) (id : Nat → Int) (s : Store L) (hs : s.Valid)
    (e₀ : MetadataFile L) (he₀ : findLatest s.hint s.files = some e₀)
    (hfiles : ∀ f ∈ s.files, f.metadata.RefsValid ∧ FreshId f.metadata.snapshots (id 1))
    (hintRead listed : Bool) :
    SafeCommit c id s e₀ hintRead listed ↔ c.SafeReads (id 1) s e₀ hintRead listed := by
  unfold SafeCommit CommitInfo.SafeReads alone
  by_cases hempty : c.streaming.isSome ∧ c.dataFiles = []
  · have hstart : c.start = .done .skipped := if_pos hempty
    simp only [hempty, true_and, true_or, iff_true, hstart]
    intro later hdone
    rw [run_fixed] at hdone
    · cases hdone
    · exact fun _ _ => rfl
  have hstart : c.start = .locating 1 := if_neg hempty
  simp only [hempty, false_or, hstart, run_cons]
  cases listed with
  | false =>
    simp only [Bool.false_eq_true, if_false]
    have hstep : aloneStep c id (aloneStep c id (.locating 1, s) hintRead) false =
        (c.noTable (id 1) 1, s) := by
      simp [aloneStep, perform]
    rw [hstep]
    unfold CommitInfo.noTable
    by_cases hnew : (c.newTable (id 1)).isSome
    · simp only [hnew, and_self, if_true, forall_const]
      have hrun (later : List Bool) :=
        run_inv (aloneStep c id) (Created c id s) (fun x ok hx => created_step hx ok)
          (.creating 1, s) later ⟨rfl, rfl⟩
      constructor
      · intro h
        obtain ⟨m, hm⟩ := isSome_iff_exists.mp hnew
        have hdone : (run (aloneStep c id) (.creating 1, s) [true, true]).1 =
            .done .committed := by
          simp [aloneStep, perform, hm]
        obtain ⟨e, he, hk⟩ := h [true, true] hdone
        obtain ⟨e', he', hiff⟩ := kept_of_created hs he₀ (hrun [true, true]) hdone
        obtain rfl := some.inj (he.symm.trans he')
        exact hiff.mp hk
      · intro h later hdone
        obtain ⟨e, he, hiff⟩ := kept_of_created hs he₀ (hrun later) hdone
        exact ⟨e, he, hiff.mpr h⟩
    · refine ⟨fun _ h => absurd h hnew, fun _ later hdone => ?_⟩
      rw [if_neg fun h => hnew h.2] at hdone
      rw [run_fixed] at hdone
      · cases hdone
      · exact fun _ _ => rfl
  | true =>
    simp only [if_true]
    -- the file that the commit goes by
    obtain ⟨e, he⟩ := hs.exists_isLatest (ne_nil_of_mem (hs.isLatest_of_findLatest he₀).mem)
      (if hintRead then s.hint else none)
    have hfind := he.findLatest_eq
    have hstep : aloneStep c id (aloneStep c id (.locating 1, s) hintRead) true =
        (.loading 1 e.name, s) := by
      simp [aloneStep, perform, hfind]
    rw [hstep]
    have hrun (later : List Bool) :=
      run_inv (aloneStep c id) (OnFile c id s e) (fun x ok hx => onFile_step hs hfind hx ok)
        (.loading 1 e.name, s) later ⟨rfl, rfl, rfl⟩
    obtain ⟨hr, hf⟩ := hfiles e he.mem
    have hkept (later : List Bool) (hdone) := kept_of_onFile hs hfind hr hf (hrun later) hdone e₀
    cases hintRead with
    | true =>
      obtain rfl := some.inj (he₀.symm.trans hfind)
      simp only [true_or, iff_true]
      intro later hdone
      obtain ⟨-, e', he', hiff⟩ := hkept later hdone
      exact ⟨e', he', hiff.mpr fun _ p hp => mem_append_left _ hp⟩
    | false =>
      have hnew : newest s.files = some e := by simpa [findLatest] using hfind
      simp only [Bool.false_eq_true, false_or, hnew, some.injEq, forall_eq']
      constructor
      · intro h hc
        have hdone : (run (aloneStep c id) (.loading 1 e.name, s)
            [true, true, true, true, true]).1 = .done .committed := committed_onFile hs hfind hc
        obtain ⟨e', he', hk⟩ := h _ hdone
        obtain ⟨-, e'', he'', hiff⟩ := hkept _ hdone
        obtain rfl := some.inj (he'.symm.trans he'')
        exact hiff.mp hk
      · intro h later hdone
        obtain ⟨hc, e', he', hiff⟩ := hkept later hdone
        exact ⟨e', he', hiff.mpr (h hc)⟩

/-- An append of one file that was planned for a table that does not exist. -/
def appendOf (path : String) : CommitInfo Int where
  dataFiles := [{ filePath := path }]
  schema := some { schemaId := 0, fields := [{ id := 1, name := "x" }] }

/-- A table with one metadata file and the data file `a`. -/
def oneFileTable : Store Int :=
  (alone (appendOf "a") (fun _ => 1) {} [true, true, true, true]).2

/-- The listing fails: the append creates the table again and reports success, and `a` is lost. -/
theorem failed_listing_loses_files :
    (findLatest oneFileTable.hint oneFileTable.files).map (·.live) = some ["a"] ∧
    (alone (appendOf "b") (fun _ => 2) oneFileTable [true, false, true, true]).1 =
      .done .committed ∧
    (findLatest (alone (appendOf "b") (fun _ => 2) oneFileTable [true, false, true, true]).2.hint
      (alone (appendOf "b") (fun _ => 2) oneFileTable [true, false, true, true]).2.files).map
        (·.live) = some ["b"] := by
  decide +kernel

/-- The get of the hint fails: the append is made on the same file. -/
theorem safeCommit_oneFileTable : oneFileTable.Valid ∧
    (∀ f ∈ oneFileTable.files, f.metadata.RefsValid ∧ FreshId f.metadata.snapshots 2) ∧
    ∃ e, findLatest oneFileTable.hint oneFileTable.files = some e ∧
      SafeCommit (appendOf "b") (fun _ => 2) oneFileTable e false true := by
  have hs : oneFileTable.Valid := ⟨by decide +kernel, by decide +kernel⟩
  have hfiles : ∀ f ∈ oneFileTable.files, f.metadata.RefsValid ∧
      FreshId f.metadata.snapshots 2 := by
    unfold TableMetadata.RefsValid FreshId
    decide +kernel
  have hnewest : newest oneFileTable.files = findLatest oneFileTable.hint oneFileTable.files := by
    decide +kernel
  obtain ⟨e, he⟩ := hs.exists_isLatest (by decide +kernel) oneFileTable.hint
  refine ⟨hs, hfiles, e, he.findLatest_eq, ?_⟩
  refine (safeCommit_iff (appendOf "b") (fun _ => 2) oneFileTable hs e he.findLatest_eq hfiles false
    true).mpr (.inr (.inr fun e' he' _ _ p hp => ?_))
  rw [hnewest, he.findLatest_eq] at he'
  obtain rfl := some.inj he'
  exact mem_append_left _ hp

end Zelox.Iceberg
