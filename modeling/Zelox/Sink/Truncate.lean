import Zelox.Sink.Output

/-!
# Truncating an output directory

On recovery `truncate_after` removes what the sink wrote after the last committed epoch: the
metadata files with a larger id, and the objects in data directories with a larger number.

Without the later metadata files the log is the one that the earlier commits alone would have
written, in whatever order the batches were committed (`filter_commits`).  Two things can still go
wrong, and nothing else (`truncated_iff`).  The data directories are found by the prefix `<base>/`,
which for an output at the root of its store is `/` and no prefix of anything.  And a batch that
was committed after a compaction with a larger id is skipped by readers.

A data file is known by the number of its directory and the rest of its path.
-/

namespace Zelox.SinkLog

open List

/-! ## The truncation -/

section

variable {N R : Type} [DecidableEq N]

/-- A `StorePath` as a text. -/
def pathText : List String → List Char
  | [] => []
  | [segment] => segment.toList
  | segment :: segments => segment.toList ++ '/' :: pathText segments

/-- Where a data file is; `rest` is the text of its path in the data directory. -/
def location (rest : N → List Char) (base : List String) (p : Nat × N) : List Char :=
  pathText (base ++ [Nat.repr p.1]) ++ '/' :: rest p.2

/-- The number that a segment of digits is read as. -/
def parseId (segment : List Char) : Option Nat :=
  if segment ≠ [] ∧ segment.all Char.isDigit then some (Nat.ofDigitChars 10 segment 0) else none

/-- The number in the segment after `<base>/`. -/
def dataEpoch (base : List String) (loc : List Char) : Option Nat :=
  if pathText base ++ ['/'] <+: loc then
    parseId ((loc.drop (pathText base ++ ['/']).length).takeWhile (· ≠ '/'))
  else none

def truncateAfter (rest : N → List Char) (base : List String) (out : Output N R)
    (lastCommitted : Nat) : Output N R :=
  let log := out.log.filter (·.id ≤ lastCommitted)
  let dataPaths := out.data.keys.filter fun p =>
    (dataEpoch base (location rest base p)).any (lastCommitted < ·)
  dataPaths.foldl Output.deleteFile { out with log }

/-- After a truncation the committed files are those of the batches up to `c`, nothing is left of
later ones, and nothing else has changed. -/
structure Truncated (h : List (Commit (Nat × N) Prod.fst)) (c : Nat) (before after : Output N R) :
    Prop where
  asIf : readCommittedFiles after.log = readCommittedFiles (commits (h.filter (·.batchId ≤ c)))
  committed : after.listed.Perm (paths (h.filter (·.batchId ≤ c)))
  removed : ∀ p ∈ after.data.keys, p.1 ≤ c
  kept : ∀ p : Nat × N, p.1 ≤ c → after.data.lookup p = before.data.lookup p

end

/-! ## Commits in any order -/

variable {P : Type} {dir : P → Nat}

/-- What is known of a log whatever the order of the commits. -/
structure Kinded (log : Log P) : Prop where
  kind : ∀ f ∈ log, f.compact = isCompaction f.id
  adds : ∀ f ∈ log, ∀ e ∈ f.entries, e.action = .add

/-- No compaction is ahead of the file. -/
def isCurrent (log : Log P) (f : MetaFile P) : Bool :=
  log.all fun k => !k.compact || decide (k.id ≤ f.id)

def current (log : Log P) : List (MetaFile P) := log.filter (isCurrent log)

variable {log : Log P}

theorem isCurrent_iff {f : MetaFile P} :
    isCurrent log f = true ↔ ∀ k ∈ log, k.compact = true → k.id ≤ f.id := by
  unfold isCurrent
  rw [all_eq_true]
  refine forall₂_congr fun k _ => ?_
  cases k.compact <;> simp

theorem isCurrent_snoc (f g : MetaFile P) :
    isCurrent (log ++ [f]) g = (isCurrent log g && (!f.compact || decide (f.id ≤ g.id))) := by
  simp [isCurrent, all_append]

theorem Kinded.filter (h : Kinded log) (p : MetaFile P → Bool) :
    Kinded (log.filter p) :=
  ⟨fun f hf => h.kind f (mem_filter.mp hf).1, fun f hf => h.adds f (mem_filter.mp hf).1⟩

theorem Kinded.perm {log log' : Log P} (h : Kinded log) (hperm : log'.Perm log) : Kinded log' :=
  ⟨fun f hf => h.kind f (hperm.mem_iff.mp hf), fun f hf => h.adds f (hperm.mem_iff.mp hf)⟩

/-- The files that count are those that no compaction is ahead of. -/
theorem Kinded.counted_eq (h : Kinded log) : counted log = current log := by
  refine filter_congr fun f hf => ?_
  cases hlatest : latestCompact log with
  | none =>
    have hnone : ∀ k ∈ log, k.compact = false := by
      intro k hk
      by_contra hc
      have hmem : k.id ∈ (log.filter (·.compact)).map (·.id) :=
        mem_map_of_mem (mem_filter.mpr ⟨hk, by simpa using hc⟩)
      rw [max?_eq_none_iff.mp hlatest] at hmem
      cases hmem
    symm
    rw [Option.all_none, isCurrent_iff]
    intro k hk hkc
    rw [hnone k hk] at hkc
    cases hkc
  | some c =>
    obtain ⟨hmem, hmax⟩ := max?_eq_some_iff.mp hlatest
    obtain ⟨g, hg, rfl⟩ := mem_map.mp hmem
    obtain ⟨hg, hgc⟩ := mem_filter.mp hg
    rw [Bool.eq_iff_iff, Option.all_some, isCurrent_iff]
    constructor
    · intro hcounts k hk hkc
      have hle := hmax k.id (mem_map_of_mem (mem_filter.mpr ⟨hk, hkc⟩))
      simp only [Bool.not_eq_eq_eq_not, Bool.not_true, Bool.or_eq_false_iff,
        decide_eq_false_iff_not] at hcounts
      omega
    · intro hall
      have hle := hall g hg hgc
      have hkind : f.id = g.id → f.compact = true := by
        intro heq
        rw [h.kind f hf, heq, ← h.kind g hg, hgc]
      by_cases heq : f.id = g.id
      · simp [heq, hkind heq]
      · simp [heq, hle]

theorem perm_current {log log' : Log P} (hperm : log'.Perm log) : (current log').Perm (current log) := by
  have hsame : isCurrent log' = isCurrent log := by
    funext f
    rw [Bool.eq_iff_iff, isCurrent_iff, isCurrent_iff]
    exact ⟨fun h k hk => h k (hperm.mem_iff.mpr hk), fun h k hk => h k (hperm.mem_iff.mp hk)⟩
  unfold current
  rw [hsame]
  exact hperm.filter _

/-! ## One commit, of a file that is not in the log -/

theorem current_snoc_behind {f k : MetaFile P} (hk : k ∈ log) (hc : k.compact = true)
    (hlt : f.id < k.id) : current (log ++ [f]) = current log := by
  have hahead : ∀ g, isCurrent log g = true → f.id < g.id := by
    intro g hg
    have := isCurrent_iff.mp hg k hk hc
    omega
  have hf : ¬ isCurrent (log ++ [f]) f = true := by
    rw [isCurrent_snoc, Bool.and_eq_true]
    exact fun h => lt_irrefl _ (hahead f h.1)
  unfold current
  rw [filter_append, filter_cons_of_neg hf, filter_nil, append_nil]
  refine filter_congr fun g hg => ?_
  rw [isCurrent_snoc, Bool.and_eq_left_iff_imp, Bool.or_eq_true, decide_eq_true_eq]
  exact fun h => .inr (le_of_lt (hahead g h))

theorem current_snoc_delta {f : MetaFile P} (hc : f.compact = false)
    (hle : ∀ k ∈ log, k.compact = true → k.id ≤ f.id) :
    current (log ++ [f]) = current log ++ [f] := by
  have hsame : ∀ g, isCurrent (log ++ [f]) g = isCurrent log g := by
    intro g
    rw [isCurrent_snoc, hc]
    exact Bool.and_true _
  unfold current
  rw [funext hsame, filter_append, filter_cons_of_pos (isCurrent_iff.mpr hle), filter_nil]

/-- A compaction that no other is ahead of stands for the files up to its id. -/
theorem current_snoc_compact {f : MetaFile P} (hc : f.compact = true)
    (hle : ∀ k ∈ log, k.compact = true → k.id ≤ f.id) (hne : ∀ k ∈ log, k.id ≠ f.id) :
    current (log ++ [f]) = (log.filter fun g => f.id < g.id) ++ [f] ∧
      (current log).Perm
        (current (log.filter fun g => g.id ≤ f.id) ++ log.filter fun g => f.id < g.id) := by
  constructor
  · have hf : isCurrent (log ++ [f]) f = true := by
      rw [isCurrent_snoc, isCurrent_iff.mpr hle]
      simp
    unfold current
    rw [filter_append, filter_cons_of_pos hf, filter_nil]
    refine congrArg (· ++ [f]) (filter_congr fun g hg => ?_)
    rw [Bool.eq_iff_iff, isCurrent_snoc, hc, Bool.and_eq_true, isCurrent_iff, Bool.not_true,
      Bool.false_or, decide_eq_true_eq, decide_eq_true_eq]
    constructor
    · intro h
      have := hne g hg
      omega
    · intro hlt
      refine ⟨fun k hk hkc => ?_, le_of_lt hlt⟩
      have := hle k hk hkc
      omega
  · have hlow : (current log).filter (fun g => g.id ≤ f.id) =
        current (log.filter fun g => g.id ≤ f.id) := by
      unfold current
      rw [filter_filter, filter_filter]
      refine filter_congr fun g hg => ?_
      rw [Bool.and_comm]
      refine congrArg (· && _) ?_
      rw [Bool.eq_iff_iff, isCurrent_iff, isCurrent_iff]
      constructor
      · exact fun h k hk => h k (mem_filter.mp hk).1
      · intro h k hk hkc
        exact h k (mem_filter.mpr ⟨hk, decide_eq_true (hle k hk hkc)⟩) hkc
    have hhigh : (current log).filter (fun g => !decide (g.id ≤ f.id)) =
        log.filter fun g => f.id < g.id := by
      unfold current
      rw [filter_filter]
      refine filter_congr fun g hg => ?_
      rw [Bool.eq_iff_iff, Bool.and_eq_true, isCurrent_iff, Bool.not_eq_true', decide_eq_false_iff_not,
        decide_eq_true_eq]
      constructor
      · intro h
        omega
      · intro hlt
        refine ⟨by omega, fun k hk hkc => ?_⟩
        have := hle k hk hkc
        omega
    rw [← hlow, ← hhigh]
    exact (filter_append_perm _ _).symm

section

variable [DecidableEq P]

/-- Readers are given the entries of the files that no compaction is ahead of. -/
theorem Kinded.readLiveEntries_perm (h : Kinded log) (upTo : Option Nat) :
    (readLiveEntries log upTo).Perm
      ((current (log.filter fun f => upTo.all fun u => f.id ≤ u)).flatMap (·.entries)) := by
  have hperm := perm_insertionSort before (log.filter fun f => upTo.all fun u => f.id ≤ u)
  have hfiles := (h.filter fun f => upTo.all fun u => f.id ≤ u).perm hperm
  have hadd : ∀ e ∈ (counted ((log.filter fun f => upTo.all fun u => f.id ≤ u).insertionSort
      before)).flatMap (·.entries), e.action = .add := by
    intro e he
    obtain ⟨f, hf, he⟩ := mem_flatMap.mp he
    exact hfiles.adds f (mem_filter.mp hf).1 e he
  have hnone : ((counted ((log.filter fun f => upTo.all fun u => f.id ≤ u).insertionSort
      before)).flatMap (·.entries)).filter (fun e => decide (e.action = .delete)) = [] := by
    rw [filter_eq_nil_iff]
    intro e he
    simp [hadd e he]
  unfold readLiveEntries
  simp only [hnone, map_nil, not_mem_nil, not_false_eq_true, decide_true]
  rw [filter_eq_self.mpr (by simp), filter_eq_self.mpr fun e he => by simp [hadd e he],
    hfiles.counted_eq]
  exact (perm_current hperm).flatMap_right _

theorem Kinded.live_perm (h : Kinded log) :
    (live log).Perm ((current log).flatMap (·.entries)) := by
  have hall : (log.filter fun f => (none : Option Nat).all fun u => f.id ≤ u) = log :=
    filter_eq_self.mpr fun f _ => rfl
  have hperm := h.readLiveEntries_perm none
  rw [hall] at hperm
  exact hperm

theorem Kinded.readLiveEntries_adds (h : Kinded log) (upTo : Option Nat) :
    ∀ e ∈ readLiveEntries log upTo, e.action = .add := by
  intro e he
  obtain ⟨f, hf, he⟩ := mem_flatMap.mp ((h.readLiveEntries_perm upTo).mem_iff.mp he)
  exact h.adds f (mem_filter.mp (mem_filter.mp hf).1).1 e he

omit [DecidableEq P] in
theorem put_of_ne {f : MetaFile P} (h : ∀ g ∈ log, g.id ≠ f.id) :
    put log f = log ++ [f] := by
  unfold put
  rw [filter_eq_self.mpr]
  intro g hg
  simp [h g hg]

section

variable (h : Kinded log) {b : Nat} (hfresh : ∀ g ∈ log, g.id ≠ b) (files : List P)
include h hfresh

theorem Kinded.commit :
    commitBatch log b files = log ++ [batchFile (readLiveEntries log (some b)) b files] ∧
      Kinded (commitBatch log b files) := by
  have heq : commitBatch log b files =
      log ++ [batchFile (readLiveEntries log (some b)) b files] := by
    rw [commitBatch_eq_put]
    refine put_of_ne ?_
    rw [batchFile_id]
    exact hfresh
  refine ⟨heq, ?_⟩
  rw [heq]
  constructor
  · refine Lists.forall_mem_concat.mpr ⟨h.kind, ?_⟩
    rw [batchFile_compact, batchFile_id]
  · refine Lists.forall_mem_concat.mpr ⟨h.adds, ?_⟩
    exact batchFile_adds (h.readLiveEntries_adds (some b)) b files

/-- A commit that is not behind a compaction adds its files, and another one nothing. -/
theorem Kinded.live_commit :
    (live (commitBatch log b files)).Perm
      (live log ++ if log.any fun k => k.compact && b < k.id then [] else files.map .ofAdd) := by
  obtain ⟨heq, hkinded⟩ := h.commit hfresh files
  refine hkinded.live_perm.trans ?_
  rw [heq]
  by_cases hbehind : (log.any fun k => k.compact && decide (b < k.id)) = true
  · obtain ⟨k, hk, hkb⟩ := any_eq_true.mp hbehind
    obtain ⟨hkc, hlt⟩ := (Bool.and_eq_true _ _).mp hkb
    rw [current_snoc_behind hk hkc (by rw [batchFile_id]; exact of_decide_eq_true hlt), hbehind,
      if_pos rfl, append_nil]
    exact h.live_perm.symm
  · have hle : ∀ k ∈ log, k.compact = true → k.id ≤ b := by
      intro k hk hkc
      by_contra hlt
      refine hbehind (any_eq_true.mpr ⟨k, hk, ?_⟩)
      rw [hkc, Bool.true_and]
      exact decide_eq_true (by omega)
    rw [if_neg hbehind]
    by_cases hb : isCompaction b = true
    · -- the file starts with the live set of the batches up to `b`
      have hcompact : (batchFile (readLiveEntries log (some b)) b files).compact = true := by
        rw [batchFile_compact]
        exact hb
      obtain ⟨hcur, hold⟩ := current_snoc_compact hcompact (by rw [batchFile_id]; exact hle)
        (by rw [batchFile_id]; exact hfresh)
      rw [batchFile_id] at hcur hold
      have hentries : (batchFile (readLiveEntries log (some b)) b files).entries =
          readLiveEntries log (some b) ++ files.map .ofAdd := by
        unfold batchFile
        rw [if_pos hb]
      rw [hcur, flatMap_append, flatMap_singleton, hentries]
      have hprior := h.readLiveEntries_perm (some b)
      have hlive := h.live_perm.trans (hold.flatMap_right _)
      rw [flatMap_append] at hlive
      refine List.Perm.trans ?_ (List.Perm.append_right _ hlive.symm)
      rw [append_assoc]
      refine perm_append_comm.trans ?_
      rw [append_assoc]
      exact hprior.append perm_append_comm
    · have hdelta : (batchFile (readLiveEntries log (some b)) b files).compact = false := by
        rw [batchFile_compact]
        exact Bool.eq_false_iff.mpr hb
      have hentries : (batchFile (readLiveEntries log (some b)) b files).entries =
          files.map .ofAdd := by
        unfold batchFile
        rw [if_neg hb]
      rw [current_snoc_delta hdelta (by rw [batchFile_id]; exact hle), flatMap_append,
        flatMap_singleton, hentries]
      exact h.live_perm.symm.append_right _

end

/-! ## Whole histories -/

def Distinct (h : List (Commit P dir)) : Prop := h.Pairwise fun c d => c.batchId ≠ d.batchId

/-- No batch with files is committed after a compaction with a larger id. -/
def NoneBehind (h : List (Commit P dir)) : Prop :=
  h.Pairwise fun k d => isCompaction k.batchId = true → d.batchId < k.batchId → d.files = []

theorem commits_snoc (h : List (Commit P dir)) (d : Commit P dir) :
    commits (h ++ [d]) = commitBatch (commits h) d.batchId d.files := by
  unfold commits
  rw [Runs.run_append]
  rfl

omit [DecidableEq P] in
theorem fresh_of_distinct {h : List (Commit P dir)} {d : Commit P dir}
    (hids : log.map (·.id) = h.map (·.batchId)) (hdistinct : Distinct (h ++ [d])) :
    ∀ g ∈ log, g.id ≠ d.batchId := by
  intro g hg
  have hmem : g.id ∈ log.map (·.id) := mem_map_of_mem hg
  rw [hids] at hmem
  obtain ⟨e, he, heq⟩ := mem_map.mp hmem
  rw [← heq]
  exact (pairwise_append.mp hdistinct).2.2 e he d (mem_singleton_self d)

omit [DecidableEq P] in
/-- The log has a compaction ahead of a batch if the history has one. -/
theorem any_ahead_iff {h : List (Commit P dir)} (hkinded : Kinded log)
    (hids : log.map (·.id) = h.map (·.batchId)) (b : Nat) :
    (log.any fun k => k.compact && decide (b < k.id)) = true ↔
      ∃ k ∈ h, isCompaction k.batchId = true ∧ b < k.batchId := by
  rw [any_eq_true]
  constructor
  · rintro ⟨g, hg, hahead⟩
    obtain ⟨hc, hlt⟩ := (Bool.and_eq_true _ _).mp hahead
    have hmem : g.id ∈ log.map (·.id) := mem_map_of_mem hg
    rw [hids] at hmem
    obtain ⟨k, hk, heq⟩ := mem_map.mp hmem
    refine ⟨k, hk, ?_, heq ▸ of_decide_eq_true hlt⟩
    rw [heq, ← hkinded.kind g hg, hc]
  · rintro ⟨k, hk, hc, hlt⟩
    have hmem : k.batchId ∈ h.map (·.batchId) := mem_map_of_mem hk
    rw [← hids] at hmem
    obtain ⟨g, hg, heq⟩ := mem_map.mp hmem
    refine ⟨g, hg, (Bool.and_eq_true _ _).mpr ⟨?_, decide_eq_true (heq ▸ hlt)⟩⟩
    rw [hkinded.kind g hg, heq, hc]

theorem kinded_commits (h : List (Commit P dir)) (hdistinct : Distinct h) :
    Kinded (commits h) ∧ (commits h).map (·.id) = h.map (·.batchId) := by
  induction h using List.reverseRecOn with
  | nil => exact ⟨⟨by simp [commits], by simp [commits]⟩, rfl⟩
  | append_singleton h d ih =>
    obtain ⟨hkinded, hids⟩ := ih (pairwise_append.mp hdistinct).1
    have hfresh := fresh_of_distinct hids hdistinct
    obtain ⟨heq, hnext⟩ := hkinded.commit hfresh d.files
    rw [commits_snoc]
    refine ⟨hnext, ?_⟩
    rw [heq, map_append, hids, map_append, map_singleton, batchFile_id]
    rfl

/-- The files of the commits: those that readers are given, and those behind a compaction. -/
theorem exists_lost (h : List (Commit P dir)) (hdistinct : Distinct h) :
    ∃ lost, ((live (commits h)).map (·.path) ++ lost).Perm (paths h) ∧ (lost = [] ↔ NoneBehind h) := by
  induction h using List.reverseRecOn with
  | nil => exact ⟨[], List.Perm.refl _, iff_of_true rfl List.Pairwise.nil⟩
  | append_singleton h d ih =>
    have hh := (pairwise_append.mp hdistinct).1
    obtain ⟨lost, hperm, hlost⟩ := ih hh
    obtain ⟨hkinded, hids⟩ := kinded_commits h hh
    have hlive := hkinded.live_commit (fresh_of_distinct hids hdistinct) d.files
    have hbehind : NoneBehind (h ++ [d]) ↔ NoneBehind h ∧
        ((∃ k ∈ h, isCompaction k.batchId = true ∧ d.batchId < k.batchId) → d.files = []) := by
      unfold NoneBehind
      rw [Lists.pairwise_concat]
      refine and_congr_right fun _ => ?_
      exact ⟨fun hlast ⟨k, hk, hc, hlt⟩ => hlast k hk hc hlt,
        fun hlast k hk hc hlt => hlast ⟨k, hk, hc, hlt⟩⟩
    have hpaths : paths (h ++ [d]) = paths h ++ d.files := by
      unfold paths
      rw [flatMap_append, flatMap_singleton]
    have hadds : (d.files.map SinkFileStatus.ofAdd).map (·.path) = d.files := by
      rw [map_map]
      exact map_id _
    rw [commits_snoc, hpaths, hbehind, ← any_ahead_iff hkinded hids]
    by_cases hahead : ((commits h).any fun k => k.compact && decide (d.batchId < k.id)) = true
    · refine ⟨lost ++ d.files, ?_, ?_⟩
      · rw [if_pos hahead, append_nil] at hlive
        rw [← append_assoc]
        exact ((hlive.map _).append_right _ |>.trans hperm).append_right _
      · rw [append_eq_nil_iff, hlost]
        exact ⟨fun h => ⟨h.1, fun _ => h.2⟩, fun h => ⟨h.1, h.2 hahead⟩⟩
    · refine ⟨lost, ?_, ?_⟩
      · rw [if_neg hahead] at hlive
        have hmap := hlive.map (·.path)
        rw [map_append, hadds] at hmap
        refine (hmap.append_right lost).trans ?_
        rw [append_assoc]
        refine (List.Perm.append_left _ perm_append_comm).trans ?_
        rw [← append_assoc]
        exact hperm.append_right _
      · rw [hlost]
        exact ⟨fun h => ⟨h, fun h' => absurd h' hahead⟩, fun h => h.1⟩

theorem filter_commitBatch (log : Log P) (b : Nat) (files : List P) (c : Nat) :
    (commitBatch log b files).filter (·.id ≤ c) =
      if b ≤ c then commitBatch (log.filter (·.id ≤ c)) b files else log.filter (·.id ≤ c) := by
  rw [commitBatch_eq_put, commitBatch_eq_put]
  by_cases hb : b ≤ c
  · have hread : readLiveEntries (log.filter (·.id ≤ c)) (some b) = readLiveEntries log (some b) := by
      unfold readLiveEntries
      have hsame : ((log.filter (·.id ≤ c)).filter fun f => (some b).all fun u => f.id ≤ u) =
          log.filter fun f => (some b).all fun u => f.id ≤ u := by
        rw [filter_filter]
        refine filter_congr fun f _ => ?_
        rw [Option.all_some, Bool.and_eq_left_iff_imp, decide_eq_true_eq, decide_eq_true_eq]
        omega
      rw [hsame]
    rw [if_pos hb, hread]
    unfold put
    rw [filter_append, filter_cons_of_pos (by simp [hb]), filter_nil, filter_filter, filter_filter]
    simp only [Bool.and_comm]
  · rw [if_neg hb]
    unfold put
    rw [filter_append, filter_cons_of_neg (by simpa using hb), filter_nil,
      append_nil, filter_filter]
    refine filter_congr fun f _ => ?_
    rw [batchFile_id, Bool.and_eq_left_iff_imp, decide_eq_true_eq, decide_eq_true_eq]
    omega

/-- What is left of the log is what the earlier batches alone would have written. -/
theorem filter_commits (h : List (Commit P dir)) (c : Nat) :
    (commits h).filter (·.id ≤ c) = commits (h.filter (·.batchId ≤ c)) := by
  induction h using List.reverseRecOn with
  | nil => rfl
  | append_singleton h d ih =>
    rw [commits_snoc, filter_commitBatch, ih, filter_append]
    by_cases hd : d.batchId ≤ c
    · rw [if_pos hd, filter_cons_of_pos (by simpa using hd), filter_nil, commits_snoc]
    · rw [if_neg hd, filter_cons_of_neg (by simpa using hd), filter_nil, append_nil]

end

/-! ## The output directory -/

section

variable {N R : Type} [DecidableEq N]

theorem foldl_deleteFile (paths : List (Nat × N)) (out : Output N R) :
    (paths.foldl Output.deleteFile out).log = out.log ∧
      ∀ p, (paths.foldl Output.deleteFile out).data.lookup p =
        if p ∈ paths then none else out.data.lookup p := by
  induction paths generalizing out with
  | nil => exact ⟨rfl, fun p => rfl⟩
  | cons q paths ih =>
    obtain ⟨hlog, hdata⟩ := ih (out.deleteFile q)
    refine ⟨hlog, fun p => ?_⟩
    rw [foldl_cons, hdata p]
    by_cases hp : p ∈ paths
    · rw [if_pos hp, if_pos (mem_cons_of_mem q hp)]
    · rw [if_neg hp]
      by_cases hq : p = q
      · subst hq
        rw [if_pos mem_cons_self]
        exact AList.lookup_erase p _
      · rw [if_neg (by simp [hq, hp])]
        exact AList.lookup_erase_ne hq

theorem pathText_append {base : List String} (h : base ≠ []) (segment : String) :
    pathText (base ++ [segment]) = pathText base ++ '/' :: segment.toList := by
  induction base with
  | nil => exact absurd rfl h
  | cons s base ih =>
    cases base with
    | nil => rfl
    | cons t base =>
      have hcons := ih (cons_ne_nil t base)
      simp only [cons_append, pathText] at hcons ⊢
      rw [hcons, append_assoc, cons_append]

theorem toList_repr (n : Nat) : (Nat.repr n).toList = Nat.toDigits 10 n := by
  rw [Nat.repr_eq_ofList_toDigits, String.toList_ofList]

theorem isDigit_of_mem_repr {n : Nat} {ch : Char} (h : ch ∈ (Nat.repr n).toList) :
    ch.isDigit = true :=
  Nat.isDigit_of_mem_toDigits (by decide) (by decide) (toList_repr n ▸ h)

theorem ne_slash_of_mem_repr {n : Nat} {ch : Char} (h : ch ∈ (Nat.repr n).toList) : ch ≠ '/' := by
  rintro rfl
  exact absurd (isDigit_of_mem_repr h) (by decide)

theorem repr_ne_nil (n : Nat) : (Nat.repr n).toList ≠ [] := by
  rw [toList_repr]
  exact Nat.toDigits_ne_nil

theorem parseId_repr (n : Nat) : parseId (Nat.repr n).toList = some n := by
  rw [parseId, if_pos ⟨repr_ne_nil n, all_eq_true.mpr fun ch => isDigit_of_mem_repr⟩, toList_repr,
    Nat.ofDigitChars_ten_toDigits]

omit [DecidableEq N] in
/-- The number of the directory is found unless the base is empty. -/
theorem dataEpoch_location (rest : N → List Char) (base : List String) (p : Nat × N) :
    dataEpoch base (location rest base p) = if base = [] then none else some p.1 := by
  unfold dataEpoch location
  by_cases hbase : base = []
  · subst hbase
    rw [if_pos rfl, if_neg]
    rintro ⟨t, ht⟩
    obtain ⟨d, ds, hd⟩ := exists_cons_of_ne_nil (repr_ne_nil p.1)
    have hhead : '/' = d := by
      simp only [pathText, nil_append, cons_append, hd] at ht
      exact (cons.inj ht).1
    exact ne_slash_of_mem_repr (hd ▸ mem_cons_self) hhead.symm
  · have hloc : pathText (base ++ [Nat.repr p.1]) ++ '/' :: rest p.2 =
        (pathText base ++ ['/']) ++ ((Nat.repr p.1).toList ++ '/' :: rest p.2) := by
      rw [pathText_append hbase, append_assoc, append_assoc]
      rfl
    have hdigits : ∀ ch ∈ (Nat.repr p.1).toList, decide (ch ≠ '/') = true :=
      fun ch hch => decide_eq_true (ne_slash_of_mem_repr hch)
    rw [hloc, if_pos (prefix_append _ _), drop_left, if_neg hbase, takeWhile_append_of_pos hdigits,
      takeWhile_cons_of_neg (by simp), append_nil, parseId_repr]

theorem truncateAfter_spec (rest : N → List Char) (base : List String) (out : Output N R)
    (c : Nat) :
    (truncateAfter rest base out c).log = out.log.filter (·.id ≤ c) ∧
      ∀ p, (truncateAfter rest base out c).data.lookup p =
        if base ≠ [] ∧ c < p.1 then none else out.data.lookup p := by
  obtain ⟨hlog, hdata⟩ := foldl_deleteFile
    (out.data.keys.filter fun p => (dataEpoch base (location rest base p)).any (c < ·))
    { out with log := out.log.filter (·.id ≤ c) }
  refine ⟨hlog, fun p => (hdata p).trans ?_⟩
  have hmem : p ∈ (out.data.keys.filter fun p =>
      (dataEpoch base (location rest base p)).any (c < ·)) ↔
      p ∈ out.data.keys ∧ base ≠ [] ∧ c < p.1 := by
    rw [mem_filter, dataEpoch_location]
    refine and_congr_right fun _ => ?_
    by_cases hbase : base = [] <;> simp [hbase]
  by_cases hremoved : base ≠ [] ∧ c < p.1
  · rw [if_pos hremoved]
    by_cases hp : p ∈ out.data.keys
    · rw [if_pos (hmem.mpr ⟨hp, hremoved⟩)]
    · rw [if_neg fun h => hp (hmem.mp h).1]
      exact AList.lookup_eq_none.mpr hp
  · rw [if_neg hremoved, if_neg fun h => hremoved (hmem.mp h).2]

/-- Readers are given all files of the batches exactly if none was committed behind a
compaction. -/
theorem listed_perm_iff {h : List (Commit (Nat × N) Prod.fst)} (hdistinct : Distinct h)
    {out : Output N R} (hlog : out.log = commits h) : out.listed.Perm (paths h) ↔ NoneBehind h := by
  obtain ⟨lost, hperm, hlost⟩ := exists_lost h hdistinct
  rw [Output.listed_eq_live, hlog, ← hlost]
  constructor
  · intro hall
    have hlength := hperm.length_eq
    rw [length_append, hall.length_eq] at hlength
    exact length_eq_zero_iff.mp (by omega)
  · rintro rfl
    rw [append_nil] at hperm
    exact hperm

/-- A truncation is right exactly if the output is not at the root of its store, or has nothing to
remove, and no batch up to `c` with files was committed behind a compaction. -/
theorem truncated_iff (rest : N → List Char) (base : List String)
    {h : List (Commit (Nat × N) Prod.fst)} (hdistinct : Distinct h) {out : Output N R} (hlog : out.log = commits h) (c : Nat) :
    Truncated h c out (truncateAfter rest base out c) ↔
      (base ≠ [] ∨ ∀ p ∈ out.data.keys, p.1 ≤ c) ∧ NoneBehind (h.filter (·.batchId ≤ c)) := by
  obtain ⟨hafter, hdata⟩ := truncateAfter_spec rest base out c
  rw [hlog, filter_commits] at hafter
  have hfiles := listed_perm_iff (hdistinct.filter _) hafter
  constructor
  · intro htruncated
    refine ⟨?_, hfiles.mp htruncated.committed⟩
    by_cases hbase : base = []
    · right
      intro p hp
      refine htruncated.removed p ?_
      rw [← AList.mem_keys, ← AList.lookup_isSome, hdata p, if_neg fun h => h.1 hbase,
        AList.lookup_isSome, AList.mem_keys]
      exact hp
    · exact .inl hbase
  · rintro ⟨hbase, hnone⟩
    refine ⟨by rw [hafter], hfiles.mpr hnone, fun p hp => ?_, fun p hp => ?_⟩
    · by_contra hlt
      rw [← AList.mem_keys, ← AList.lookup_isSome, hdata p] at hp
      rcases hbase with hbase | hbase
      · rw [if_pos ⟨hbase, by omega⟩] at hp
        cases hp
      · split at hp
        · cases hp
        · exact hlt (hbase p (AList.mem_keys.mp (AList.lookup_isSome.mp hp)))
    · rw [hdata p, if_neg fun h => by omega]

/-- The files `0` and `1` of batches `0` and `1`, committed one after the other. -/
def twoCommits : List (Commit (Nat × Nat) Prod.fst) :=
  [⟨0, [(0, 0)], by decide, by decide⟩, ⟨1, [(1, 0)], by decide, by decide⟩]

def twoBatches : Output Nat Nat :=
  { (Output.empty.putFile (0, 0) [7]).putFile (1, 0) [8] with log := commits twoCommits }

theorem distinct_twoCommits : Distinct twoCommits := by
  unfold Distinct twoCommits
  decide

theorem truncated_subdirectory :
    Truncated twoCommits 0 twoBatches
      (truncateAfter (fun n => (Nat.repr n).toList) ["out"] twoBatches 0) := by
  refine (truncated_iff _ ["out"] distinct_twoCommits rfl 0).mpr ⟨.inl (cons_ne_nil _ _), ?_⟩
  exact pairwise_singleton _ _

/-- At the root of the store the data file of batch `1` stays. -/
theorem not_truncated_root :
    ¬ Truncated twoCommits 0 twoBatches
      (truncateAfter (fun n => (Nat.repr n).toList) [] twoBatches 0) := by
  intro h
  exact absurd (h.removed (1, 0) (by decide)) (by decide)

end

end Zelox.SinkLog
