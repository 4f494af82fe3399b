import Zelox.Iceberg.Ancestry
import Zelox.Iceberg.Store
import Zelox.Lib.Runs

/-!
# Commits and the object store

`IcebergCommitExec::execute` as a machine: any number of commits run side by side, and one step is
one access of one of them to the object store.  `Inv` says that the metadata files are the result
of the commits that put them, one on top of the other (`Serial`); `Inv.step` keeps it as long as
the two ways of bootstrapping, which put without a condition, put on top as well (`OnTop`).
-/

namespace Zelox.Iceberg

open List Option

variable {L : Type}

/-! ### One commit -/

inductive Outcome where
  | committed | skipped | conflict | failed
deriving DecidableEq, Repr

/-- What a commit does next.  `m` is the metadata that was loaded from the file `name`. -/
inductive Phase (L : Type) where
  | locating (attempt : Nat)
  | listing (attempt : Nat) (hint : Option VersionHint)
  | loading (attempt : Nat) (name : MetadataName)
  | checking (attempt : Nat) (name : MetadataName) (m : TableMetadata L)
  | putting (attempt : Nat) (name : MetadataName) (m : TableMetadata L)
  | verifying (attempt : Nat) (name : MetadataName)
  | removing (attempt : Nat) (name : MetadataName)
  | creating (attempt : Nat)
  | replacing (attempt : Nat) (name : MetadataName) (m : TableMetadata L)
  | hinting (hint : VersionHint)
  | done (outcome : Outcome)
deriving DecidableEq, Repr

def maxCommitRetries : Nat := 5

def retry (attempt : Nat) : Phase L :=
  if maxCommitRetries ≤ attempt then .done .conflict else .locating (attempt + 1)

def TableMetadata.codec (m : TableMetadata L) : MetadataFileCodec := m.compression.getD .none

/-- The name under which the commit on the file `n` puts its metadata. -/
def nextName (n : MetadataName) (m : TableMetadata L) : MetadataName :=
  hadoopName (n.version + 1) m.codec

namespace CommitInfo

variable [PartitionLiteral L] (c : CommitInfo L)

/-- A stream commits nothing for an empty batch. -/
def start : Phase L :=
  if c.streaming.isSome ∧ c.dataFiles = [] then .done .skipped else .locating 1

/-- No metadata file was found, whatever the reason: the first attempt creates the table. -/
def noTable (id : Int) (attempt : Nat) : Phase L :=
  if attempt = 1 ∧ (c.newTable id).isSome then .creating attempt else .done .failed

def loaded (id : Int) (attempt : Nat) (n : MetadataName) (m : TableMetadata L) : Phase L :=
  (c.prepare m).elim (.done .failed) fun mp =>
    mp.currentSnapshot.elim
      (if (c.commit id m).isSome then .replacing attempt n m else .done .failed) fun _ =>
        if c.skips mp then .done .skipped else .checking attempt n m

end CommitInfo

/-- What one access leads to; `written` is the metadata that it has put, with its snapshot id. -/
structure Effect (L : Type) where
  phase : Phase L
  store : Store L
  written : Option (Int × TableMetadata L) := none

section perform

variable [PartitionLiteral L] (c : CommitInfo L) (id : Nat → Int) (s : Store L) (ok : Bool)

/-- The next access of a commit; `ok` is false if a get or a listing fails. -/
def perform : Phase L → Effect L
  | .locating a => { phase := .listing a (if ok then s.hint else none), store := s }
  | .listing a h =>
    { phase := if ok then (findLatest h s.files).elim (c.noTable (id a) a) fun e =>
          .loading a e.name
        else c.noTable (id a) a
      store := s }
  | .loading a n =>
    { phase := if ok then (s.get n).elim (.done .failed) fun e => c.loaded (id a) a n e.metadata
        else .done .failed
      store := s }
  | .checking a n m =>
    { phase := if ok then
          if s.files.any (·.name.version = n.version + 1) then retry a
          else if (c.commit (id a) m).isSome then .putting a n m else .done .failed
        else .done .failed
      store := s }
  | .putting a n m =>
    if s.files.any (·.name = nextName n m) then { phase := retry a, store := s }
    else (c.commit (id a) m).elim { phase := .done .failed, store := s } fun m' =>
      { phase := .verifying a (nextName n m)
        store := s.put (nextName n m) m'
        written := some (id a, m') }
  | .verifying a n =>
    { phase := if ok then
          if s.files.any (fun f => f.name.version = n.version ∧ f.name ≠ n) then .removing a n
          else .hinting (.number n.version)
        else .done .failed
      store := s }
  | .removing a n => { phase := retry a, store := s.delete n }
  | .creating a =>
    (c.newTable (id a)).elim { phase := .done .failed, store := s } fun m' =>
      { phase := .hinting (.number 1)
        store := s.put (hadoopName 1 m'.codec) m'
        written := some (id a, m') }
  | .replacing a n m =>
    (c.commit (id a) m).elim { phase := .done .failed, store := s } fun m' =>
      { phase := .hinting (.fileName n.fileName)
        store := s.put n m'
        written := some (id a, m') }
  | .hinting h => { phase := .done .committed, store := { s with hint := some h } }
  | .done o => { phase := .done o, store := s }

end perform

/-! ### Many commits -/

/-- The commits by number, and the snapshot ids that their attempts draw. -/
structure Writers (L : Type) where
  info : Nat → CommitInfo L
  snapshotId : Nat → Nat → Int

/-- A metadata file that was put, and the latest metadata at that time. -/
structure Put (L : Type) where
  run : Nat
  id : Int
  before : Option (TableMetadata L)
  after : TableMetadata L

structure CommitState (L : Type) where
  store : Store L
  phase : Nat → Phase L
  log : List (Put L) := []

/-- The next access of the commit `run`. -/
structure Access where
  run : Nat
  ok : Bool := true

namespace CommitState

variable (σ : CommitState L)

def latest : Option (MetadataFile L) := findLatest σ.store.hint σ.store.files

def init [PartitionLiteral L] (w : Writers L) (s : Store L) : CommitState L :=
  { store := s, phase := fun r => (w.info r).start }

/-- The commit `r` has put the metadata `m` with the snapshot `id` under the name `n`. -/
def put (r : Nat) (n : MetadataName) (id : Int) (m : TableMetadata L) (p : Phase L) :
    CommitState L where
  store := σ.store.put n m
  phase := Function.update σ.phase r p
  log := σ.log ++ [{ run := r, id := id, before := σ.latest.map (·.metadata), after := m }]

def step [PartitionLiteral L] (w : Writers L) (i : Access) : CommitState L :=
  let e := perform (w.info i.run) (w.snapshotId i.run) σ.store i.ok (σ.phase i.run)
  { store := e.store
    phase := Function.update σ.phase i.run e.phase
    log := e.written.elim σ.log fun m =>
      σ.log ++ [{ run := i.run, id := m.1, before := σ.latest.map (·.metadata), after := m.2 }] }

end CommitState

/-! ### Commits one after the other -/

section serial

variable [PartitionLiteral L] (w : Writers L)

/-- What was put is what the commit makes of the latest metadata. -/
def Writers.Commits (p : Put L) : Prop :=
  p.before.elim ((w.info p.run).newTable p.id) ((w.info p.run).commit p.id) = some p.after

/-- The puts, one after the other, lead from the metadata `m` to `m'`. -/
def Serial : Option (TableMetadata L) → List (Put L) → Option (TableMetadata L) → Prop
  | m, [], m' => m' = m
  | m, p :: ps, m' => p.before = m ∧ w.Commits p ∧ Serial (some p.after) ps m'

variable {w}

theorem Serial.concat {m m' : Option (TableMetadata L)} {ps : List (Put L)} {p : Put L}
    (h : Serial w m ps m') (hb : p.before = m') (hc : w.Commits p) :
    Serial w m (ps ++ [p]) (some p.after) := by
  induction ps generalizing m with
  | nil =>
    obtain rfl : m' = m := h
    exact ⟨hb, hc, rfl⟩
  | cons q ps ih => exact ⟨h.1, h.2.1, ih h.2.2⟩

theorem Serial.eq_nil {m : Option (TableMetadata L)} {ps : List (Put L)} (h : Serial w m ps none) :
    m = none ∧ ps = [] := by
  induction ps generalizing m with
  | nil => exact ⟨(show none = m from h).symm, rfl⟩
  | cons q ps ih => exact absurd (ih h.2.2).1 (some_ne_none _)

end serial

/-! ### The invariant -/

def NotIn (log : List (Put L)) (r : Nat) : Prop := ∀ p ∈ log, p.run ≠ r

def Once (log : List (Put L)) (r : Nat) : Prop := (log.filter (·.run = r)).length = 1

/-- What a commit can see of the others. -/
structure View (L : Type) where
  files : List (MetadataFile L)
  latest : Option (MetadataFile L)
  log : List (Put L)

def CommitState.view (σ : CommitState L) : View L := ⟨σ.store.files, σ.latest, σ.log⟩

/-- The file `n` was once the latest: it still is, or its version has been passed. -/
def View.Based (v₀ : Int) (v : View L) (n : MetadataName) : Prop :=
  ∃ e, v.latest = some e ∧ v₀ ≤ n.version ∧ n.version ≤ e.name.version ∧
    (n.version = e.name.version → n = e.name) ∧
    ∀ f ∈ v.files, f.name = n → f.metadata.compression = e.metadata.compression

/-- The metadata `m` was loaded from `n`, and is the latest if `n` is. -/
def View.Loaded (v : View L) (n : MetadataName) (m : TableMetadata L) : Prop :=
  m.currentSnapshot.isSome ∧ ∀ e, v.latest = some e →
    m.compression = e.metadata.compression ∧ (n.version = e.name.version → e.metadata = m)

/-- No other file has the version of `n`. -/
def View.Sole (v : View L) (n : MetadataName) : Prop :=
  (∃ e, v.latest = some e ∧ n.version ≤ e.name.version) ∧
    ∀ f ∈ v.files, f.name.version = n.version → f.name = n

/-- What holds while the commit `r` is in a phase. -/
def PhaseOk (v₀ : Int) (v : View L) (r : Nat) : Phase L → Prop
  | .loading _ n => NotIn v.log r ∧ v.Based v₀ n
  | .checking _ n m => NotIn v.log r ∧ v.Based v₀ n ∧ v.Loaded n m
  | .putting _ n m => NotIn v.log r ∧ v.Based v₀ n ∧ v.Loaded n m
  | .verifying _ n => Once v.log r ∧ v.Sole n
  | .removing _ _ => False
  | .replacing _ _ m => NotIn v.log r ∧ m.currentSnapshot = none
  | .hinting _ => Once v.log r
  | .done .committed => Once v.log r
  | _ => NotIn v.log r

/-- The hint that a commit goes by or is about to write. -/
def Phase.hint? : Phase L → Option (Option VersionHint)
  | .listing _ h => some h
  | .hinting h => some (some h)
  | _ => none

/-- `m₀` is the latest metadata at the start and `v₀` its version, or 1 if there is none. -/
structure Inv [PartitionLiteral L] (w : Writers L) (v₀ : Int) (m₀ : Option (TableMetadata L))
    (σ : CommitState L) : Prop where
  valid : σ.store.Valid
  serial : Serial w m₀ σ.log (σ.latest.map (·.metadata))
  ids : ∀ p ∈ σ.log, ∃ a, p.id = w.snapshotId p.run a
  hints : ∀ r h, (σ.phase r).hint? = some h → findLatest h σ.store.files = σ.latest
  numbers : σ.log ≠ [] → ∀ v, findLatest (some (.number v)) σ.store.files = σ.latest
  versions : ∀ e, σ.latest = some e → v₀ ≤ e.name.version ∧ ∀ v, v₀ < v → v ≤ e.name.version →
    ∃ f ∈ σ.store.files, f.name = hadoopName v e.metadata.codec
  phases : ∀ r, PhaseOk v₀ σ.view r (σ.phase r)

/-- The two puts without a condition put on top of the latest metadata. -/
def Phase.OnTop (σ : CommitState L) : Phase L → Prop
  | .creating _ => σ.store.files = []
  | .replacing _ n m => ∃ e, σ.latest = some e ∧ e.name = n ∧ e.metadata = m
  | _ => True

theorem NotIn.concat {log : List (Put L)} {r' : Nat} (h : NotIn log r') {p : Put L}
    (hp : p.run ≠ r') : NotIn (log ++ [p]) r' := by
  intro q hq
  obtain hq | hq := mem_append.mp hq
  · exact h q hq
  · rw [mem_singleton.mp hq]
    exact hp

theorem Once.concat {log : List (Put L)} {r' : Nat} (h : Once log r') {p : Put L}
    (hp : p.run ≠ r') : Once (log ++ [p]) r' := by
  simpa [Once, filter_append, hp] using h

theorem NotIn.once {log : List (Put L)} {r : Nat} (h : NotIn log r) {p : Put L} (hp : p.run = r) :
    Once (log ++ [p]) r := by
  have hnil : log.filter (·.run = r) = [] :=
    filter_eq_nil_iff.mpr fun q hq => by simpa using h q hq
  simp [Once, filter_append, hnil, hp]

/-- A commit on top of `e` goes under the next version, or in place of `e` without a snapshot. -/
inductive Extends (e : MetadataFile L) : MetadataName → Prop
  | above : Extends e (hadoopName (e.name.version + 1) e.metadata.codec)
  | same (h : e.metadata.currentSnapshot = none) : Extends e e.name

theorem Extends.version_le {e : MetadataFile L} {n : MetadataName} (h : Extends e n) :
    e.name.version ≤ n.version := by
  cases h with
  | above => exact Int.le_of_lt (Int.lt_succ _)
  | same => exact le_rfl

theorem Extends.eq_name {e : MetadataFile L} {n n' : MetadataName} (h : Extends e n)
    (hle : n'.version ≤ e.name.version) (heq : n'.version = n.version) :
    n = e.name ∧ e.metadata.currentSnapshot = none := by
  cases h with
  | above =>
    have : n'.version = e.name.version + 1 := heq
    omega
  | same h => exact ⟨rfl, h⟩

variable {m : TableMetadata L}

section

variable {e : MetadataFile L} {n : MetadataName} {s : Store L}

section

variable (h : Extends e n) (hv : s.Valid) (m : TableMetadata L) {hint : Option VersionHint}
  (he : findLatest hint s.files = some e)
include h hv he

/-- A put on top of `e` makes its file the latest for every reader that took `e` for it. -/
theorem Extends.isLatest :
    findLatest hint (s.put n m).files =
      some (s.newFile n m) := by
  have hl := hv.isLatest_of_findLatest he
  cases h with
  | above =>
    refine (Store.isLatest_put_above m hint fun f hf => ?_).findLatest_eq
    exact Int.lt_add_one_of_le (hl.version_le hf)
  | same => exact (hv.isLatest_put hl m).findLatest_eq

theorem Extends.isLatest_number (v : Int) :
    findLatest (some (.number v)) (s.put n m).files =
      some (s.newFile n m) := by
  have hl := hv.isLatest_of_findLatest he
  cases h with
  | above =>
    refine (Store.isLatest_put_above m _ fun f hf => ?_).findLatest_eq
    exact Int.lt_add_one_of_le (hl.version_le hf)
  | same =>
    refine (hv.isLatest_put_of hl m fun f hf hs => ?_).findLatest_eq
    simp only [hintSelects, any_some, VersionHint.selects, decide_eq_true_eq] at hs ⊢
    exact hf.symm.trans hs

end

/-- What a commit knows while another one puts on top of `e`. -/
theorem PhaseOk.land {v₀ : Int} {v : View L} {r' : Nat} {p : Phase L} (h : PhaseOk v₀ v r' p)
    (hfiles : v.files = s.files) (he : v.latest = some e) (hmem : e ∈ s.files) (hx : Extends e n)
    (hm : m.compression = e.metadata.compression) {q : Put L} (hq : q.run ≠ r') :
    PhaseOk v₀ ⟨(s.put n m).files, some (s.newFile n m), v.log ++ [q]⟩ r' p := by
  have hbased {n' : MetadataName} (hb : v.Based v₀ n') : View.Based v₀ ⟨(s.put n m).files,
      some (s.newFile n m), v.log ++ [q]⟩ n' := by
    obtain ⟨e', he', h0, hle, heq, hc⟩ := hb
    obtain rfl : e = e' := some.inj (he.symm.trans he')
    refine ⟨_, rfl, h0, hle.trans hx.version_le, fun hn => ?_, fun f hf hfn => ?_⟩
    · obtain ⟨hname, -⟩ := hx.eq_name hle hn
      exact (heq (by rw [hn, Store.newFile_name, hname])).trans hname.symm
    · obtain ⟨hf, -⟩ | rfl := Store.mem_put.mp hf
      · exact (hc f (hfiles ▸ hf) hfn).trans hm.symm
      · rfl
  have hloaded {n' : MetadataName} {m' : TableMetadata L} (hb : v.Based v₀ n')
      (hl : v.Loaded n' m') : View.Loaded ⟨(s.put n m).files,
        some (s.newFile n m), v.log ++ [q]⟩ n' m' := by
    obtain ⟨e', he', -, hle, -, -⟩ := hb
    obtain rfl : e = e' := some.inj (he.symm.trans he')
    obtain ⟨hsome, hl⟩ := hl
    obtain ⟨hc, hmeta⟩ := hl e he
    refine ⟨hsome, fun e'' he'' => ?_⟩
    obtain rfl := some.inj he''
    refine ⟨hc.trans hm.symm, fun hn => ?_⟩
    -- metadata that was loaded with a snapshot is not replaced in place
    obtain ⟨hname, hnone⟩ := hx.eq_name hle hn
    rw [hmeta (by rw [hn, Store.newFile_name, hname])] at hnone
    simp [hnone] at hsome
  have hsole {n' : MetadataName} (hs : v.Sole n') : View.Sole ⟨(s.put n m).files,
      some (s.newFile n m), v.log ++ [q]⟩ n' := by
    obtain ⟨⟨e', he', hle⟩, hs⟩ := hs
    obtain rfl : e = e' := some.inj (he.symm.trans he')
    refine ⟨⟨_, rfl, hle.trans hx.version_le⟩, fun f hf hfn => ?_⟩
    obtain ⟨hf, -⟩ | rfl := Store.mem_put.mp hf
    · exact hs f (hfiles ▸ hf) hfn
    · obtain ⟨hname, -⟩ := hx.eq_name hle hfn.symm
      subst hname
      exact hs e (hfiles ▸ hmem) hfn
  cases p with
  | loading a n' => exact ⟨h.1.concat hq, hbased h.2⟩
  | checking a n' m' | putting a n' m' => exact ⟨h.1.concat hq, hbased h.2.1, hloaded h.2.1 h.2.2⟩
  | verifying a n' => exact ⟨h.1.concat hq, hsole h.2⟩
  | replacing a n' m' => exact ⟨h.1.concat hq, h.2⟩
  | done o =>
    cases o with
    | committed => exact Once.concat h hq
    | failed | skipped | conflict => exact NotIn.concat h hq
  | hinting _ => exact Once.concat h hq
  | locating _ | listing _ _ | creating _ => exact NotIn.concat h hq
  | removing _ _ => exact h

end

section step

variable [PartitionLiteral L] {w : Writers L} {v₀ : Int} {m₀ : Option (TableMetadata L)}
variable {σ : CommitState L} {r : Nat}

theorem Inv.quiet (h : Inv w v₀ m₀ σ) {hint : Option VersionHint} {p : Phase L}
    (hh : findLatest hint σ.store.files = σ.latest) (hp : PhaseOk v₀ σ.view r p)
    (hr : ∀ x, p.hint? = some x → findLatest x σ.store.files = σ.latest) :
    Inv w v₀ m₀ { σ with
      store := { σ.store with hint := hint }
      phase := Function.update σ.phase r p } := by
  have hlat : CommitState.latest { σ with
      store := { σ.store with hint := hint }
      phase := Function.update σ.phase r p } = σ.latest := hh
  refine ⟨⟨h.valid.unique, h.valid.clock⟩, hlat ▸ h.serial, h.ids, ?_, ?_, ?_, ?_⟩
  · intro r' x hx
    by_cases hr' : r' = r
    · subst hr'
      rw [hlat]
      exact hr x (by simpa using hx)
    · rw [hlat]
      exact h.hints r' x (by simpa [hr'] using hx)
  · intro hl v
    rw [hlat]
    exact h.numbers hl v
  · rw [hlat]
    exact h.versions
  · intro r'
    have hview : CommitState.view { σ with
        store := { σ.store with hint := hint }
        phase := Function.update σ.phase r p } = σ.view := by
      simp only [CommitState.view, hlat]
    rw [hview]
    by_cases hr' : r' = r
    · subst hr'
      simpa using hp
    · simpa [hr'] using h.phases r'

theorem commit_compression {c : CommitInfo L} {id : Int} {m m' : TableMetadata L}
    (h : c.commit id m = some m') : m'.compression = m.compression := by
  have hd := (CommitInfo.commit_updates h).2
  simp only [TableMetadata.definitions, Prod.mk.injEq] at hd
  exact hd.2.2.2.2.trans (c.applyUpdates_snapshots m).2.2.2.2

theorem Inv.land (h : Inv w v₀ m₀ σ) {e : MetadataFile L} (he : σ.latest = some e)
    {n : MetadataName} (hx : Extends e n) {id : Int}
    (hc : (w.info r).commit id e.metadata = some m) (hid : ∃ a, id = w.snapshotId r a)
    {p : Phase L}
    (hp : PhaseOk v₀
      ⟨(σ.store.put n m).files, some (σ.store.newFile n m), (σ.put r n id m p).log⟩ r p)
    (hr : ∀ x, p.hint? = some x →
      findLatest x (σ.store.put n m).files = some (σ.store.newFile n m)) :
    Inv w v₀ m₀ (σ.put r n id m p) := by
  have hmem := (h.valid.isLatest_of_findLatest he).mem
  have hcomp := commit_compression hc
  have hlat : (σ.put r n id m p).latest = some (σ.store.newFile n m) := hx.isLatest h.valid m he
  refine ⟨h.valid.put n m, ?_, fun q hq => ?_, fun r' x hx' => ?_, fun _ v => ?_,
    fun e' he' => ?_, fun r' => ?_⟩
  · rw [hlat]
    refine h.serial.concat rfl ?_
    simpa [Writers.Commits, he] using hc
  · obtain hq | hq := mem_append.mp hq
    · exact h.ids q hq
    · rw [mem_singleton.mp hq]
      exact hid
  · rw [hlat]
    by_cases hr' : r' = r
    · subst hr'
      exact hr x (by simpa [CommitState.put] using hx')
    · have := h.hints r' x (by simpa [CommitState.put, hr'] using hx')
      exact hx.isLatest h.valid m (this.trans he)
  · rw [hlat]
    exact hx.isLatest_number h.valid m he v
  · rw [hlat] at he'
    obtain rfl := some.inj he'
    obtain ⟨h0, hall⟩ := h.versions e he
    refine ⟨h0.trans hx.version_le, fun v hv hle => ?_⟩
    have hcodec : m.codec = e.metadata.codec := by simp only [TableMetadata.codec, hcomp]
    show ∃ f ∈ (σ.store.put n m).files, f.name = hadoopName v m.codec
    rw [hcodec]
    by_cases hve : v ≤ e.name.version
    · obtain ⟨f, hf, hfn⟩ := hall v hv hve
      by_cases hn : f.name = n
      · exact ⟨_, Store.mem_put.mpr (.inr rfl), hn.symm.trans hfn⟩
      · exact ⟨f, Store.mem_put.mpr (.inl ⟨hf, hn⟩), hfn⟩
    · refine ⟨_, Store.mem_put.mpr (.inr rfl), ?_⟩
      cases hx with
      | above =>
        have hle : v ≤ e.name.version + 1 := hle
        rw [show v = e.name.version + 1 by omega]
        rfl
      | same => exact absurd hle hve
  · have hview : (σ.put r n id m p).view =
        ⟨(σ.store.put n m).files, some (σ.store.newFile n m), (σ.put r n id m p).log⟩ := by
      rw [← hlat]
      rfl
    rw [hview]
    by_cases hr' : r' = r
    · subst hr'
      simpa [CommitState.put] using hp
    · rw [show (σ.put r n id m p).phase r' = σ.phase r' from Function.update_of_ne hr' _ _]
      exact (h.phases r').land rfl he hmem hx hcomp (Ne.symm hr')

theorem Inv.create (h : Inv w v₀ m₀ σ) (hv₀ : m₀ = none → v₀ = 1) (hnil : σ.store.files = [])
    {id : Int} (hc : (w.info r).newTable id = some m) (hid : ∃ a, id = w.snapshotId r a)
    (hnot : NotIn σ.log r) :
    Inv w v₀ m₀ (σ.put r (hadoopName 1 m.codec) id m (.hinting (.number 1))) := by
  have hnone : σ.latest = none := by
    unfold CommitState.latest
    rw [hnil]
    cases σ.store.hint <;> rfl
  have hserial := h.serial
  rw [hnone] at hserial
  obtain ⟨hm₀, hlog⟩ := hserial.eq_nil
  have hfind (x : Option VersionHint) :
      findLatest x (σ.store.put (hadoopName 1 m.codec) m).files =
        some (σ.store.newFile (hadoopName 1 m.codec) m) := by
    refine (Store.isLatest_put_above m x fun f hf => ?_).findLatest_eq
    rw [hnil] at hf
    exact absurd hf not_mem_nil
  have hlat : (σ.put r (hadoopName 1 m.codec) id m (.hinting (.number 1))).latest =
      some (σ.store.newFile (hadoopName 1 m.codec) m) := hfind _
  refine ⟨h.valid.put _ m, ?_, fun q hq => ?_, fun r' x _ => (hfind x).trans hlat.symm,
    fun _ v => (hfind _).trans hlat.symm, fun e' he' => ?_, fun r' => ?_⟩
  · rw [hlat]
    refine h.serial.concat rfl ?_
    simpa [Writers.Commits, hnone] using hc
  · obtain hq | hq := mem_append.mp hq
    · exact h.ids q hq
    · rw [mem_singleton.mp hq]
      exact hid
  · rw [hlat] at he'
    obtain rfl := some.inj he'
    rw [hv₀ hm₀]
    refine ⟨le_rfl, fun v hv hle => ?_⟩
    have hle : v ≤ 1 := hle
    omega
  · by_cases hr' : r' = r
    · subst hr'
      rw [show (σ.put r' (hadoopName 1 m.codec) id m (.hinting (.number 1))).phase r' =
        .hinting (.number 1) from Function.update_self _ _ _]
      exact hnot.once rfl
    · -- the other commits have not seen a table yet
      have hp := h.phases r'
      rw [show (σ.put r (hadoopName 1 m.codec) id m (.hinting (.number 1))).phase r' = σ.phase r'
        from Function.update_of_ne hr' _ _]
      have hnot' : NotIn (σ.put r (hadoopName 1 m.codec) id m (.hinting (.number 1))).log r' := by
        show NotIn (σ.log ++ [_]) r'
        rw [hlog]
        exact NotIn.concat (fun p hp => absurd hp not_mem_nil) (Ne.symm hr')
      have honce : ¬ Once σ.view.log r' := by simp [CommitState.view, hlog, Once]
      have hlatest : ∀ e, σ.view.latest ≠ some e := by simp [CommitState.view, hnone]
      generalize σ.phase r' = p at hp ⊢
      cases p with
      | loading a n => exact hp.2.elim fun e he => absurd he.1 (hlatest e)
      | checking a n m | putting a n m => exact hp.2.1.elim fun e he => absurd he.1 (hlatest e)
      | verifying a n => exact absurd hp.1 honce
      | removing a n => exact hp
      | replacing a n m => exact ⟨hnot', hp.2⟩
      | hinting x => exact absurd hp honce
      | done o =>
        cases o with
        | committed => exact absurd hp honce
        | failed | skipped | conflict => exact hnot'
      | locating a | listing a x | creating a => exact hnot'

/-! ### One access -/

omit [PartitionLiteral L] in
theorem phaseOk_retry {v : View L} (h : NotIn v.log r) (a : Nat) : PhaseOk v₀ v r (retry a) := by
  unfold retry
  split <;> exact h

theorem phaseOk_noTable {v : View L} (h : NotIn v.log r) (c : CommitInfo L) (id : Int) (a : Nat) :
    PhaseOk v₀ v r (c.noTable id a) := by
  unfold CommitInfo.noTable
  split <;> exact h

omit [PartitionLiteral L] in
theorem hint?_retry (a : Nat) : (retry a : Phase L).hint? = none := by
  unfold retry
  split <;> rfl

theorem hint?_noTable (c : CommitInfo L) (id : Int) (a : Nat) : (c.noTable id a).hint? = none := by
  unfold CommitInfo.noTable
  split <;> rfl

theorem phaseOk_loaded {v : View L} (hnot : NotIn v.log r) (c : CommitInfo L) (id : Int) (a : Nat)
    {n : MetadataName} (hb : v.Based v₀ n)
    (hm : ∀ e, v.latest = some e → m.compression = e.metadata.compression ∧
      (n.version = e.name.version → e.metadata = m)) :
    PhaseOk v₀ v r (c.loaded id a n m) ∧ (c.loaded id a n m).hint? = none := by
  unfold CommitInfo.loaded
  cases hp : c.prepare m with
  | none => exact ⟨hnot, rfl⟩
  | some mp =>
    have hcur := (CommitInfo.prepare_snapshots hp).2.2.2
    rw [elim_some]
    cases hs : mp.currentSnapshot with
    | none =>
      rw [elim_none]
      split
      · exact ⟨⟨hnot, hcur.symm.trans hs⟩, rfl⟩
      · exact ⟨hnot, rfl⟩
    | some s =>
      rw [elim_some]
      split
      · exact ⟨hnot, rfl⟩
      · exact ⟨⟨hnot, hb, by rw [← hcur, hs]; rfl, hm⟩, rfl⟩

theorem Inv.latest_based (h : Inv w v₀ m₀ σ) {e : MetadataFile L} (he : σ.latest = some e) :
    σ.view.Based v₀ e.name := by
  refine ⟨e, he, (h.versions e he).1, le_rfl, fun _ => rfl, fun f hf hfn => ?_⟩
  rw [h.valid.eq_of_name hf (h.valid.isLatest_of_findLatest he).mem hfn]

/-- The put of a commit that finds the next version free is on top. -/
theorem Inv.extends_putting (h : Inv w v₀ m₀ σ) {n : MetadataName} (hb : σ.view.Based v₀ n)
    (hl : σ.view.Loaded n m) (hfree : ¬ σ.store.files.any (·.name = nextName n m)) :
    ∃ e, σ.latest = some e ∧ e.metadata = m ∧ Extends e (nextName n m) := by
  obtain ⟨e, he, h0, hle, hn, -⟩ := hb
  obtain ⟨hc, hm⟩ := hl.2 e he
  have hcodec : m.codec = e.metadata.codec := by simp only [TableMetadata.codec, hc]
  have hv : n.version = e.name.version := by
    by_contra hne
    obtain ⟨f, hf, hfn⟩ := (h.versions e he).2 (n.version + 1) (by omega) (by omega)
    refine hfree (List.any_eq_true.mpr ⟨f, hf, ?_⟩)
    rw [decide_eq_true_eq, hfn, nextName, hcodec]
  refine ⟨e, he, hm hv, ?_⟩
  rw [nextName, hcodec, hv]
  exact .above

theorem Inv.step (h : Inv w v₀ m₀ σ) (hv₀ : m₀ = none → v₀ = 1) {i : Access} (hok : i.ok = true)
    (htop : (σ.phase i.run).OnTop σ) : Inv w v₀ m₀ (σ.step w i) := by
  have hp := h.phases i.run
  have hquiet {p : Phase L} (hp : PhaseOk v₀ σ.view i.run p) (hr : p.hint? = none) :
      Inv w v₀ m₀ { σ with phase := Function.update σ.phase i.run p } :=
    h.quiet rfl hp fun x hx => absurd (hr.symm.trans hx) (some_ne_none x).symm
  have hfailed (hnot : NotIn σ.log i.run) :
      Inv w v₀ m₀ { σ with phase := Function.update σ.phase i.run (.done .failed) } :=
    hquiet hnot rfl
  unfold CommitState.step
  generalize hphase : σ.phase i.run = p at hp htop ⊢
  cases p with
  | locating a =>
    simp only [perform, hok, if_true, elim_none]
    exact h.quiet rfl hp fun x hx => by rw [← some.inj hx]; rfl
  | listing a x =>
    simp only [perform, hok, if_true, elim_none]
    rw [h.hints i.run x (by rw [hphase]; rfl)]
    cases he : σ.latest with
    | none => exact hquiet (phaseOk_noTable hp _ _ a) (hint?_noTable _ _ a)
    | some e => exact hquiet ⟨hp, h.latest_based he⟩ rfl
  | loading a n =>
    simp only [perform, hok, if_true, elim_none]
    cases hg : σ.store.get n with
    | none => exact hfailed hp.1
    | some f =>
      have hmem : f ∈ σ.store.files := mem_of_find?_eq_some hg
      have hname : f.name = n := by simpa using find?_some hg
      have hm : ∀ e, σ.view.latest = some e → f.metadata.compression = e.metadata.compression ∧
          (n.version = e.name.version → e.metadata = f.metadata) := by
        intro e he
        obtain ⟨e', he', -, -, hn, hc⟩ := hp.2
        obtain rfl := some.inj (he'.symm.trans he)
        refine ⟨hc f hmem hname, fun hv => ?_⟩
        rw [h.valid.eq_of_name (h.valid.isLatest_of_findLatest he).mem hmem
          ((hn hv).symm.trans hname.symm)]
      obtain ⟨hok, hnone⟩ := phaseOk_loaded hp.1 (w.info i.run) (w.snapshotId i.run a) a hp.2 hm
      exact hquiet hok hnone
  | checking a n m =>
    simp only [perform, hok, if_true, elim_none]
    split
    · exact hquiet (phaseOk_retry hp.1 a) (hint?_retry a)
    · split
      · exact hquiet hp rfl
      · exact hfailed hp.1
  | putting a n m =>
    simp only [perform]
    split
    · exact hquiet (phaseOk_retry hp.1 a) (hint?_retry a)
    · next hfree =>
      obtain ⟨e, he, rfl, hx⟩ := h.extends_putting hp.2.1 hp.2.2 hfree
      cases hc : (w.info i.run).commit (w.snapshotId i.run a) e.metadata with
      | none => exact hfailed hp.1
      | some m' =>
        refine h.land he hx hc ⟨a, rfl⟩ ⟨hp.1.once rfl, ⟨_, rfl, le_rfl⟩, fun f hf hfv => ?_⟩
          fun x hx => absurd hx (some_ne_none x).symm
        obtain ⟨hf, -⟩ | rfl := Store.mem_put.mp hf
        · have hle := (h.valid.isLatest_of_findLatest he).version_le hf
          have hnone := (hx.eq_name hle hfv).2
          have hsome := hp.2.2.1
          rw [hnone] at hsome
          cases hsome
        · rfl
  | verifying a n =>
    simp only [perform, hok, if_true, elim_none]
    rw [if_neg]
    · refine h.quiet rfl hp.1 fun x hx => ?_
      rw [← some.inj hx]
      refine h.numbers (fun hnil => ?_) _
      have honce := hp.1
      simp [Once, CommitState.view, hnil] at honce
    · intro hany
      obtain ⟨f, hf, hfn⟩ := List.any_eq_true.mp hany
      rw [decide_eq_true_eq] at hfn
      exact hfn.2 (hp.2.2 f hf hfn.1)
  | removing a n =>
    exact hp.elim
  | creating a =>
    simp only [perform]
    cases hc : (w.info i.run).newTable (w.snapshotId i.run a) with
    | none => exact hfailed hp
    | some m => exact h.create hv₀ htop hc ⟨a, rfl⟩ hp
  | replacing a n m =>
    obtain ⟨e, he, rfl, rfl⟩ := htop
    simp only [perform]
    cases hc : (w.info i.run).commit (w.snapshotId i.run a) e.metadata with
    | none => exact hfailed hp.1
    | some m' =>
      refine h.land he (.same hp.2) hc ⟨a, rfl⟩ (hp.1.once rfl) fun x hx => ?_
      rw [← some.inj hx]
      refine (h.valid.isLatest_put_of (h.valid.isLatest_of_findLatest he) m' ?_).findLatest_eq
      intro f _ _
      simp [hintSelects, VersionHint.selects]
  | hinting x =>
    simp only [perform, elim_none]
    exact h.quiet (h.hints i.run _ (by rw [hphase]; rfl)) hp fun x hx =>
      absurd hx (some_ne_none x).symm
  | done o =>
    simp only [perform, elim_none]
    exact hquiet hp rfl

theorem Inv.init (s : Store L) (hs : s.Valid) (hv : ∀ e, findLatest s.hint s.files = some e →
    v₀ = e.name.version) :
    Inv w v₀ ((findLatest s.hint s.files).map (·.metadata)) (CommitState.init w s) := by
  have hphase (r : Nat) (hp : (w.info r).start.hint? ≠ none ∨
      ¬ PhaseOk v₀ (CommitState.init w s).view r (w.info r).start) : False := by
    unfold CommitInfo.start at hp
    split at hp <;> exact hp.elim (fun h => h rfl) fun h => h fun p hp => absurd hp not_mem_nil
  refine ⟨hs, rfl, fun p hp => absurd hp not_mem_nil, fun r x hx => ?_,
    fun h => absurd rfl h, fun e he => ?_, fun r => ?_⟩
  · exact (hphase r (.inl (by rw [show (w.info r).start.hint? = some x from hx]; simp))).elim
  · refine ⟨(hv e he).le, fun v hlt hle => ?_⟩
    have := hv e he
    omega
  · by_contra hp
    exact hphase r (.inr hp)

theorem exists_inv_init (w : Writers L) (s : Store L) (hs : s.Valid) :
    ∃ v₀ : Int, Inv w v₀ ((findLatest s.hint s.files).map (·.metadata)) (CommitState.init w s) ∧
      ((findLatest s.hint s.files).map (·.metadata) = none → v₀ = 1) := by
  cases h : findLatest s.hint s.files with
  | none =>
    refine ⟨1, h ▸ Inv.init s hs fun e he => ?_, fun _ => rfl⟩
    exact absurd (h.symm.trans he) (some_ne_none e).symm
  | some e =>
    refine ⟨e.name.version, h ▸ Inv.init s hs fun e' he' => ?_, fun hnone => ?_⟩
    · rw [some.inj (h.symm.trans he')]
    · exact absurd hnone (some_ne_none _)

end step

end Zelox.Iceberg
