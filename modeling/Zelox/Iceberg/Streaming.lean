import Zelox.Iceberg.CommitLog

/-!
# Streaming appends

Attempts to commit the batches of a stream, and the commits of other writers, run one after the
other; each may stop at any access to the object store.  An attempt skips a batch that is not
above all batches in the ancestry, every put of a batch records it, and a file that was put is
found even if its hint was never written, so no batch gets into the table twice
(`stream_exactly_once`).
-/

namespace Zelox.Iceberg

open Runs List

variable {L : Type} [PartitionLiteral L] {w : Writers L} {v₀ : Int} {m₀ : Option (TableMetadata L)}
variable {σ : CommitState L} {r : Nat}

/-! ### Commits that run alone -/

/-- While a commit runs alone, the latest metadata stays what it has read. -/
def Phase.Solo (σ : CommitState L) : Phase L → Prop
  | .loading _ n => ∃ e, σ.latest = some e ∧ e.name = n
  | .checking _ n m => ∃ e, σ.latest = some e ∧ e.name = n ∧ e.metadata = m
  | .putting _ n m => ∃ e, σ.latest = some e ∧ e.name = n ∧ e.metadata = m
  | .replacing _ n m => ∃ e, σ.latest = some e ∧ e.name = n ∧ e.metadata = m
  | .creating _ => σ.store.files = []
  | _ => True

omit [PartitionLiteral L] in
theorem Phase.Solo.onTop {p : Phase L} (h : p.Solo σ) : p.OnTop σ := by
  cases p with
  | replacing a n m => exact h
  | creating a => exact h
  | _ => trivial

omit [PartitionLiteral L] in
theorem Phase.Solo.congr {σ' : CommitState L} (hs : σ'.store = σ.store) {p : Phase L}
    (h : p.Solo σ) : p.Solo σ' := by
  have hl : σ'.latest = σ.latest := by rw [CommitState.latest, hs, CommitState.latest]
  cases p with
  | loading a n | checking a n m | putting a n m | replacing a n m =>
    exact h.imp fun e he => ⟨hl.trans he.1, he.2⟩
  | creating a => exact (congrArg Store.files hs).trans h
  | _ => trivial

omit [PartitionLiteral L] in
theorem solo_retry (a : Nat) : (retry a : Phase L).Solo σ := by
  unfold retry
  split <;> trivial

/-- A batch that was skipped is covered by one in the ancestry. -/
def Covered (w : Writers L) (σ : CommitState L) (q : Nat) : Prop :=
  σ.phase q = .done .skipped → (w.info q).dataFiles ≠ [] → ∀ b app,
    (w.info q).streaming = some ⟨b, app⟩ →
      ∃ b' ∈ batches app (σ.latest.map (·.metadata)), b ≤ b'

/-- The next phase of a commit that runs alone; if it skips, its batch is covered. -/
theorem solo_step (h : Inv w v₀ m₀ σ) (hs : (σ.phase r).Solo σ) :
    ((σ.step w { run := r }).phase r).Solo (σ.step w { run := r }) ∧
      ((σ.step w { run := r }).phase r = .done .skipped → σ.phase r ≠ .done .skipped →
        ∀ b app, (w.info r).streaming = some ⟨b, app⟩ →
          ∃ b' ∈ batches app (σ.latest.map (·.metadata)), b ≤ b') := by
  have hstore : (σ.step w { run := r }).store =
      (perform (w.info r) (w.snapshotId r) σ.store true (σ.phase r)).store := rfl
  rw [phase_step_self]
  cases hphase : σ.phase r with
  | locating a => exact ⟨trivial, fun h => by cases h⟩
  | listing a x =>
    simp only [perform, if_true]
    rw [h.hints r x (by rw [hphase]; rfl)]
    cases he : σ.latest with
    | none =>
      rw [Option.elim_none, CommitInfo.noTable]
      split
      · have hnil : (Phase.creating a : Phase L).Solo σ := h.valid.files_eq_nil he
        exact ⟨hnil.congr (by rw [hstore, hphase]; rfl), fun h => by cases h⟩
      · exact ⟨trivial, fun h => by cases h⟩
    | some e =>
      have hs : (Phase.loading a e.name : Phase L).Solo σ := ⟨e, he, rfl⟩
      exact ⟨hs.congr (by rw [hstore, hphase]; rfl), fun h => by cases h⟩
  | loading a n =>
    rw [hphase] at hs
    obtain ⟨e, he, rfl⟩ := hs
    simp only [perform, if_true]
    rw [h.valid.get_eq (h.valid.isLatest_of_findLatest he).mem, Option.elim_some, CommitInfo.loaded]
    cases hp : (w.info r).prepare e.metadata with
    | none => exact ⟨trivial, fun h => by cases h⟩
    | some mp =>
      rw [Option.elim_some]
      cases hc : mp.currentSnapshot with
      | none =>
        rw [Option.elim_none]
        split
        · have hs : (Phase.replacing a e.name e.metadata).Solo σ := ⟨e, he, rfl, rfl⟩
          exact ⟨hs.congr (by rw [hstore, hphase]; rfl), fun h => by cases h⟩
        · exact ⟨trivial, fun h => by cases h⟩
      | some t =>
        rw [Option.elim_some]
        split
        · next hk =>
          refine ⟨trivial, fun _ _ b app hb => ?_⟩
          obtain ⟨b', hb', hle⟩ := skips_covered hb hk
          refine ⟨b', ?_, hle⟩
          simpa [he, batches, CommitInfo.ancestors_prepare hp] using hb'
        · have hs : (Phase.checking a e.name e.metadata).Solo σ := ⟨e, he, rfl, rfl⟩
          exact ⟨hs.congr (by rw [hstore, hphase]; rfl), fun h => by cases h⟩
  | checking a n m =>
    rw [hphase] at hs
    simp only [perform, if_true]
    split
    · refine ⟨solo_retry a, fun h => ?_⟩
      unfold retry at h
      split at h <;> cases h
    · split
      · have hs : (Phase.putting a n m).Solo σ := hs
        exact ⟨hs.congr (by rw [hstore, hphase]; rfl), fun h => by cases h⟩
      · exact ⟨trivial, fun h => by cases h⟩
  | putting a n m =>
    simp only [perform]
    split
    · refine ⟨solo_retry a, fun h => ?_⟩
      unfold retry at h
      split at h <;> cases h
    · cases (w.info r).commit (w.snapshotId r a) m with
      | none | some m' => exact ⟨trivial, fun h => by cases h⟩
  | verifying a n =>
    simp only [perform, if_true]
    split <;> exact ⟨trivial, fun h => by cases h⟩
  | removing a n =>
    have hp := h.phases r
    rw [hphase] at hp
    exact hp.elim
  | creating a =>
    simp only [perform]
    cases (w.info r).newTable (w.snapshotId r a) with
    | none | some m' => exact ⟨trivial, fun h => by cases h⟩
  | replacing a n m =>
    simp only [perform]
    cases (w.info r).commit (w.snapshotId r a) m with
    | none | some m' => exact ⟨trivial, fun h => by cases h⟩
  | hinting x => exact ⟨trivial, fun h => by cases h⟩
  | done o => exact ⟨trivial, fun h1 h2 => absurd h1 h2⟩

/-! ### The log grows -/

theorem log_run (σ : CommitState L) (schedule : List Nat) :
    ∃ ext, (run (fun σ r => σ.step w { run := r }) σ schedule).log = σ.log ++ ext := by
  induction schedule generalizing σ with
  | nil => exact ⟨[], (append_nil _).symm⟩
  | cons r schedule ih =>
    obtain ⟨ext, h⟩ := log_step (w := w) σ { run := r }
    obtain ⟨ext', h'⟩ := ih (σ.step w { run := r })
    exact ⟨ext ++ ext', by rw [run_cons, h', h, append_assoc]⟩

theorem Serial.nodup_batches {m m' : Option (TableMetadata L)} {log : List (Put L)}
    (h : Serial w m log m') (hw : ∀ p ∈ log, ∃ s, w.Wrote p s) (app : String)
    (hm : (batches app m).Nodup) : (batches app m').Nodup := by
  induction log generalizing m with
  | nil => rwa [show m' = m from h]
  | cons q log ih =>
    obtain ⟨rfl, -, h⟩ := h
    obtain ⟨s, -, hs⟩ := hw q mem_cons_self
    refine ih h (fun p hp => hw p (mem_cons_of_mem q hp)) ?_
    rw [batches, Option.elim_some, hs.adds.ancestors]
    obtain hnone | ⟨b, hb, -, hlt⟩ := hs.batch app
    · simp only [filterMap_cons, hnone]
      exact hm
    · simp only [filterMap_cons, hb, nodup_cons]
      exact ⟨fun hmem => absurd (hlt b hmem) (lt_irrefl b), hm⟩

/-! ### Attempts one after the other -/

/-- What holds between two attempts: those that have not begun are at their start. -/
structure Between (w : Writers L) (v₀ : Int) (m₀ : Option (TableMetadata L)) (σ : CommitState L) :
    Prop where
  inv : Inv w v₀ m₀ σ
  covered : ∀ q, Covered w σ q

section

variable (hv₀ : m₀ = none → v₀ = 1) (hd : w.Distinct m₀) (hrefs : ∀ m, m₀ = some m → m.RefsValid)
include hv₀ hd hrefs

theorem between_step (h : Between w v₀ m₀ σ) (hs : (σ.phase r).Solo σ) :
    Between w v₀ m₀ (σ.step w { run := r }) := by
  have hinv := h.inv.step hv₀ (i := { run := r }) rfl hs.onTop
  obtain ⟨ext, hext⟩ := log_step (w := w) σ { run := r }
  have hmono := batches_subset h.inv hinv (hinv.writes hd hrefs) hext
  refine ⟨hinv, fun q hq hne b app hb => ?_⟩
  have hold (hq : σ.phase q = .done .skipped) :
      ∃ b' ∈ batches app ((σ.step w { run := r }).latest.map (·.metadata)), b ≤ b' := by
    obtain ⟨b', hb', hle⟩ := h.covered q hq hne b app hb
    exact ⟨b', hmono app hb', hle⟩
  by_cases hqr : q = r
  · subst hqr
    by_cases hskip : σ.phase q = .done .skipped
    · exact hold hskip
    · obtain ⟨b', hb', hle⟩ := (solo_step h.inv hs).2 hq hskip b app hb
      exact ⟨b', hmono app hb', hle⟩
  · exact hold ((phase_step_of_ne _ hqr).symm.trans hq)

theorem between_attempt (n : Nat) (h : Between w v₀ m₀ σ)
    (hs : (σ.phase r).Solo σ) :
    Between w v₀ m₀ (run (fun σ r => σ.step w { run := r }) σ (List.replicate n r)) := by
  induction n generalizing σ with
  | zero => exact h
  | succ n ih =>
    rw [replicate_succ, run_cons]
    exact ih (between_step hv₀ hd hrefs h hs) (solo_step h.inv hs).1

end

/-- Attempts, each with the number of accesses it makes before it stops. -/
def attempts (blocks : List (Nat × Nat)) : List Nat :=
  blocks.flatMap fun b => List.replicate b.2 b.1

theorem phase_run_of_notMem (σ : CommitState L) (schedule : List Nat) (hr : r ∉ schedule) :
    (run (fun σ r => σ.step w { run := r }) σ schedule).phase r = σ.phase r := by
  induction schedule generalizing σ with
  | nil => rfl
  | cons q schedule ih =>
    rw [mem_cons, not_or] at hr
    rw [run_cons, ih _ hr.2]
    exact phase_step_of_ne σ hr.1

theorem notMem_attempts {blocks : List (Nat × Nat)} (hr : r ∉ blocks.map (·.1)) :
    r ∉ attempts blocks := by
  intro hmem
  obtain ⟨b, hb, hrb⟩ := mem_flatMap.mp hmem
  exact hr (eq_of_mem_replicate hrb ▸ mem_map_of_mem hb)

theorem between_attempts (hv₀ : m₀ = none → v₀ = 1) (hd : w.Distinct m₀)
    (hrefs : ∀ m, m₀ = some m → m.RefsValid) (blocks : List (Nat × Nat))
    (hnd : (blocks.map (·.1)).Nodup) (h : Between w v₀ m₀ σ)
    (hstart : ∀ r ∈ blocks.map (·.1), σ.phase r = (w.info r).start) :
    Between w v₀ m₀ (run (fun σ r => σ.step w { run := r }) σ (attempts blocks)) := by
  induction blocks generalizing σ with
  | nil => exact h
  | cons b blocks ih =>
    rw [map_cons, nodup_cons] at hnd
    have hsolo : (σ.phase b.1).Solo σ := by
      rw [hstart b.1 mem_cons_self, CommitInfo.start]
      split <;> trivial
    rw [attempts, flatMap_cons, run_append]
    refine ih hnd.2 (between_attempt hv₀ hd hrefs b.2 h hsolo) fun r hr => ?_
    have hne : r ≠ b.1 := fun heq => hnd.1 (heq ▸ hr)
    rw [phase_run_of_notMem σ _ fun hmem => hne (eq_of_mem_replicate hmem)]
    exact hstart r (mem_cons_of_mem _ hr)

/-- A put of a batch comes after all batches that were in the ancestry before it. -/
theorem Serial.lt_batch {m m' : Option (TableMetadata L)} {log : List (Put L)}
    (h : Serial w m log m') (hw : ∀ p ∈ log, ∃ s, w.Wrote p s) {p : Put L} (hp : p ∈ log)
    {b : Nat} {app : String} (hb : (w.info p.run).streaming = some ⟨b, app⟩)
    (happ : (w.info p.run).operation = .append) : ∀ b' ∈ batches app m, b' < b := by
  obtain ⟨pre, post, rfl⟩ := append_of_mem hp
  obtain ⟨s, -, hs⟩ := hw p hp
  have hpre : ∀ t ∈ m.elim [] (·.ancestors), t ∈ p.before.elim [] (·.ancestors) := by
    clear hs
    induction pre generalizing m with
    | nil =>
      obtain ⟨rfl, -⟩ := h
      exact fun t ht => ht
    | cons q pre ih =>
      obtain ⟨rfl, -, h⟩ := h
      obtain ⟨u, -, hu⟩ := hw q mem_cons_self
      intro t ht
      refine ih h (fun x hx => hw x (mem_cons_of_mem q hx))
        (mem_append_right _ mem_cons_self) t ?_
      rw [Option.elim_some, hu.adds.ancestors]
      exact mem_cons_of_mem u ht
  have hsb : s.committedBatchId app = some b := by
    simp [Snapshot.committedBatchId, hs.recorded happ, hb]
  intro b' hb'
  obtain ⟨t, ht, htb⟩ := mem_filterMap.mp hb'
  obtain hnone | ⟨b'', hb'', -, hlt⟩ := hs.batch app
  · rw [hsb] at hnone
    cases hnone
  · obtain rfl := Option.some.inj (hsb.symm.trans hb'')
    exact hlt b' (mem_filterMap.mpr ⟨t, hpre t ht, htb⟩)

/-- What an attempt that has reported success leaves in the ancestry. -/
theorem exists_batch_of_success (h : Between w v₀ m₀ σ)
    (hw : ∀ p ∈ σ.log, ∃ s, w.Wrote p s) {q : Nat}
    (hq : σ.phase q = .done .committed ∨ σ.phase q = .done .skipped)
    (hne : (w.info q).dataFiles ≠ []) {b : Nat} {app : String}
    (hb : (w.info q).streaming = some ⟨b, app⟩) (happ : (w.info q).operation = .append) :
    ∃ b' ∈ batches app (σ.latest.map (·.metadata)), b ≤ b' := by
  obtain hq | hq := hq
  · have hp := h.inv.phases q
    rw [hq] at hp
    obtain ⟨p, hp⟩ := length_eq_one_iff.mp hp
    obtain ⟨hmem, hrun⟩ := mem_filter.mp (hp ▸ mem_singleton_self p)
    have hrun : p.run = q := of_decide_eq_true hrun
    obtain ⟨s, hs⟩ := hw p hmem
    refine ⟨b, mem_filterMap.mpr ⟨s, h.inv.serial.mem_ancestors hw hmem hs, ?_⟩, le_rfl⟩
    have hrec := hs.2.recorded (by rw [hrun]; exact happ)
    simp [Snapshot.committedBatchId, hrec, hrun, hb]
  · exact h.covered q hq hne b app hb

/-- Streaming appends are exactly once: a batch is in the ancestry at most once, and after a
reported success no attempt of that batch or an earlier one puts anything. -/
theorem stream_exactly_once (w : Writers L) (s : Store L) (hs : s.Valid)
    (hrefs : ∀ e, findLatest s.hint s.files = some e → e.metadata.RefsValid)
    (hd : w.Distinct ((findLatest s.hint s.files).map (·.metadata))) (app : String)
    (hinit : (batches app ((findLatest s.hint s.files).map (·.metadata))).Nodup)
    (happ : ∀ r b, (w.info r).streaming = some ⟨b, app⟩ → (w.info r).operation = .append)
    (blocks : List (Nat × Nat)) (hnd : (blocks.map (·.1)).Nodup) :
    (batches app ((afterSchedule w s (attempts blocks)).latest.map (·.metadata))).Nodup ∧
    ∀ pre r n post, blocks = pre ++ (r, n) :: post →
      ∀ q b, (w.info q).streaming = some ⟨b, app⟩ → (w.info q).dataFiles ≠ [] →
        ((afterSchedule w s (attempts pre)).phase q = .done .committed ∨
          (afterSchedule w s (attempts pre)).phase q = .done .skipped) →
        ∀ b', (w.info r).streaming = some ⟨b', app⟩ → b' ≤ b →
          NotIn (afterSchedule w s (attempts blocks)).log r := by
  obtain ⟨v₀, hinv₀, hv₁⟩ := exists_inv_init w s hs
  have hrefs' : ∀ m, (findLatest s.hint s.files).map (·.metadata) = some m → m.RefsValid := by
    intro m hm
    obtain ⟨e, he, rfl⟩ := Option.map_eq_some_iff.mp hm
    exact hrefs e he
  have hbetween (bs : List (Nat × Nat)) (hbs : (bs.map (·.1)).Nodup) :
      Between w v₀ ((findLatest s.hint s.files).map (·.metadata))
        (afterSchedule w s (attempts bs)) := by
    refine between_attempts hv₁ hd hrefs' bs hbs ⟨hinv₀, fun q hq hne b app hb => ?_⟩ fun r _ => rfl
    -- at the start only empty batches are skipped
    have hq : (w.info q).start = .done .skipped := hq
    unfold CommitInfo.start at hq
    split at hq
    · next hempty => exact absurd hempty.2 hne
    · cases hq
  have hend := hbetween blocks hnd
  have hw := hend.inv.writes hd hrefs'
  refine ⟨hend.inv.serial.nodup_batches hw app hinit, ?_⟩
  rintro pre r n post rfl q b hb hne hq b' hb' hle p hp hrun
  have hndpre : (pre.map (·.1)).Nodup ∧ r ∉ pre.map (·.1) := by
    rw [map_append, map_cons] at hnd
    exact ⟨(nodup_append'.mp hnd).1, fun hr => (nodup_append'.mp hnd).2.2 hr
      mem_cons_self⟩
  have hmid := hbetween pre hndpre.1
  obtain ⟨ext, hext⟩ : ∃ ext, (afterSchedule w s (attempts (pre ++ (r, n) :: post))).log =
      (afterSchedule w s (attempts pre)).log ++ ext := by
    unfold afterSchedule
    rw [attempts, flatMap_append, run_append]
    exact log_run _ _
  -- the attempt had not begun, so its put is one of the later ones
  have hnot : NotIn (afterSchedule w s (attempts pre)).log r := by
    have hstart : (afterSchedule w s (attempts pre)).phase r = (w.info r).start :=
      phase_run_of_notMem _ _ (notMem_attempts hndpre.2)
    have hph := hmid.inv.phases r
    rw [hstart] at hph
    unfold CommitInfo.start at hph
    split at hph <;> exact hph
  have hpext : p ∈ ext := by
    rw [hext] at hp
    exact (mem_append.mp hp).resolve_left fun h => hnot p h hrun
  have hwext : ∀ x ∈ ext, ∃ t, w.Wrote x t := fun x hx => hw x (hext ▸ mem_append_right _ hx)
  obtain ⟨b'', hb'', hle''⟩ := exists_batch_of_success hmid
    (fun x hx => hw x (hext ▸ mem_append_left _ hx)) hq hne hb (happ q b hb)
  have hser := hmid.inv.serial.rest (hext ▸ hend.inv.serial)
  have hlt := hser.lt_batch hwext hpext (hrun ▸ hb') (hrun ▸ happ r b' hb') b'' hb''
  omega

/-- Attempts of batch 8 of the stream in the even runs, appends of another writer in the others. -/
def attemptsOfBatch : Writers Int where
  info r := { dataFiles := [{ filePath := "f" }]
              streaming := if r % 2 = 0 then some ⟨8, "stream"⟩ else none }
  snapshotId r _ := r + 2

/-- The first attempt stops before its put, the second commits, and the third puts nothing. -/
theorem stream_exactly_once_attempts : streamedStore.Valid ∧ streamedMetadata.RefsValid ∧
    attemptsOfBatch.Distinct (some streamedMetadata) ∧
    (afterSchedule attemptsOfBatch streamedStore (attempts [(0, 3), (2, 9), (3, 9)])).phase 2 =
      .done .committed ∧
    NotIn (afterSchedule attemptsOfBatch streamedStore
      (attempts [(0, 3), (2, 9), (3, 9), (4, 9)])).log 4 := by
  have hlatest : findLatest streamedStore.hint streamedStore.files =
      some { name := hadoopName 1 .none, lastModified := 1, metadata := streamedMetadata } := by
    decide +kernel
  have hrefs : streamedMetadata.RefsValid := refsValid_of_isSome (by decide +kernel) _ rfl
  have hphase : (afterSchedule attemptsOfBatch streamedStore
      (attempts [(0, 3), (2, 9), (3, 9)])).phase 2 = .done .committed := by
    decide +kernel
  have happ : ∀ r b, (attemptsOfBatch.info r).streaming = some ⟨b, "stream"⟩ →
      (attemptsOfBatch.info r).operation = .append := fun _ _ _ => rfl
  have hfinal := stream_exactly_once attemptsOfBatch streamedStore streamedStore_valid
    (by rw [hlatest]; rintro e ⟨⟩; exact hrefs)
    (by rw [hlatest]; exact distinct_streamedMetadata _) "stream"
    (by rw [hlatest]; decide +kernel) happ [(0, 3), (2, 9), (3, 9), (4, 9)] (by decide)
  exact ⟨streamedStore_valid, hrefs, distinct_streamedMetadata _, hphase,
    hfinal.2 [(0, 3), (2, 9), (3, 9)] 4 9 [] rfl 2 8 rfl (cons_ne_nil _ _) (.inl hphase) 8 rfl
      le_rfl⟩

end Zelox.Iceberg
