import Zelox.Delta.Commit

/-!
# Creating a table concurrently

A write whose plan saw no table goes through the writer, which looks at the save mode
(`writer_exec.rs`), and the commit node, which makes it a creation (`commit_exec.rs`); the
commit knows nothing of the mode.  If the table exists by the time a creation lists the
log, the creation goes on as an append, whatever the mode (`appended_twice`).

As long as no creation that brings files, or overwrites, finds a table, the table has the
files of one writer, the one that the modes ask for (`creation_respects_mode`).
-/

namespace Zelox.Delta

open Runs List

/-! ### The files that actions are about -/

def Action.file? : Action → Option (Add ⊕ Remove)
  | add a => some (.inl a)
  | remove r => some (.inr r)
  | _ => none

def applyFile (adds : KeyedMap Add.key) : Add ⊕ Remove → KeyedMap Add.key
  | .inl a => adds.insert a
  | .inr r => adds.erase r.key

theorem adds_applyAll_eq_foldl (s : ReconciledCheckpointState) (as : List Action) :
    (s.applyAll as).adds = (as.filterMap Action.file?).foldl applyFile s.adds := by
  induction as generalizing s with
  | nil => rfl
  | cons a as ih =>
    rw [ReconciledCheckpointState.applyAll_cons, ih]
    cases a <;> rfl

theorem foldl_applyFile_adds (adds : KeyedMap Add.key) (files : List Add) :
    (files.map Sum.inl).foldl applyFile adds = adds.insertAll files := by
  induction files generalizing adds with
  | nil => rfl
  | cons a files ih => exact ih (adds.insert a)

/-! ### The write and its plan -/

inductive PhysicalSinkMode where
  | errorIfExists
  | ignoreIfExists
  | append
  | overwrite
  | overwriteIf (source : Option String)
  | overwritePartitions
deriving DecidableEq, Repr

/-- A planned write, with the files that its data were written to. -/
structure TableWrite where
  tableUrl : String
  sinkMode : PhysicalSinkMode
  tableExists : Bool
  initialActions : List Action
  schemaActions : List Action
  files : List Add
  /-- What a new table gets if the plan does not say. -/
  protocol : Protocol
  metadata : Metadata

namespace TableWrite

variable (t : TableWrite)

/-- `DeltaWriterExec::execute_stream`: the mode only asks whether the plan saw a table. -/
def writerActions : DeltaResult (List Action) :=
  match t.sinkMode, t.tableExists with
  | .errorIfExists, true =>
    let tableUrl := t.tableUrl
    .error s!"Delta table already exists at path: {tableUrl}"
  | .ignoreIfExists, true => .ok []
  | _, _ => .ok ((t.initialActions ++ t.schemaActions).filter CommitRun.isCreationAction ++
      t.files.map .add)

/-- The actions of a creation, which start with protocol and metadata if they lack one of
them. -/
def creationActions (actions : List Action) : List Action :=
  if (actions.findSome? Action.protocol?).isSome && (actions.findSome? Action.metadata?).isSome then
    actions
  else .protocol t.protocol :: .metadata t.metadata :: actions

def defaultRetries : Nat := 15

/-- `DeltaCommitExec::execute` for a table that the plan did not see; without any action there is
no commit. -/
def commitNew : Option PreparedCommit :=
  match t.writerActions with
  | .error _ => none
  | .ok [] => none
  | .ok actions => some ⟨.new (t.creationActions actions) .create [], none, defaultRetries⟩

/-- The table stays as it is if the write finds one and is taken for an append. -/
def AddsNothing : Prop := t.files = [] ∧ t.sinkMode ≠ .overwrite

instance : Decidable t.AddsNothing :=
  inferInstanceAs (Decidable (t.files = [] ∧ t.sinkMode ≠ .overwrite))

variable {t}

theorem files_of_commitNew {c : PreparedCommit} (hnew : t.tableExists = false)
    (h : t.commitNew = some c) : c.data.actions.filterMap Action.file? = t.files.map .inl := by
  have hok : t.writerActions =
      .ok ((t.initialActions ++ t.schemaActions).filter CommitRun.isCreationAction ++
        t.files.map .add) := by
    unfold writerActions
    rw [hnew]
    split <;> first | rfl | contradiction
  have hcreation : ((t.initialActions ++ t.schemaActions).filter
      CommitRun.isCreationAction).filterMap Action.file? = [] := by
    rw [filterMap_eq_nil_iff]
    intro a ha
    have hcreation := (mem_filter.mp ha).2
    cases a <;> first | rfl | cases hcreation
  have hfiles : ∀ actions, (t.creationActions actions).filterMap Action.file? =
      actions.filterMap Action.file? := by
    intro actions
    unfold creationActions
    split <;> rfl
  have hinfos : ∀ actions : List Action, (actions.filter fun a =>
      a.commitInfo?.isNone).filterMap Action.file? = actions.filterMap Action.file? := by
    intro actions
    rw [filterMap_filter]
    congr 1
    funext a
    cases a <;> rfl
  have hadds : (t.files.map Action.add).filterMap Action.file? = t.files.map .inl := by
    rw [filterMap_map]
    exact filterMap_eq_map_iff_forall_eq_some.mpr fun _ _ => rfl
  unfold commitNew at h
  rw [hok] at h
  split at h
  · cases h
  · cases h
  next actions _ heq =>
    cases heq
    cases h
    show (CommitData.newActions _ _ _).filterMap Action.file? = _
    rw [CommitData.newActions, filterMap_cons_none rfl, map_nil, append_nil, hinfos,
      hfiles, filterMap_append, hcreation, hadds, nil_append]

end TableWrite

/-! ### Writers that create -/

namespace CommitRun

def isListing (w : CommitRun) : Bool :=
  match w.phase with
  | .listing => true
  | _ => false

/-- A creation goes for the first version, unless it has met the table and changes nothing in it. -/
def Creates (store : LogStore) (t : TableWrite) (w : CommitRun) : Prop :=
  w.localActions.filterMap Action.file? = t.files.map .inl ∧
  match w.phase with
  | .listing => True
  | .loading _ => t.AddsNothing ∧ (store.commits.get? 0).isSome
  | .checking _ _ => t.AddsNothing ∧ (store.commits.get? 0).isSome
  | .refreshing _ => t.AddsNothing ∧ (store.commits.get? 0).isSome
  | .finalizing version => version = 0 ∨ t.AddsNothing ∧ (store.commits.get? 0).isSome
  | .putting version actions =>
    (version = 0 ∨ t.AddsNothing ∧ (store.commits.get? 0).isSome) ∧
      actions.filterMap Action.file? = t.files.map .inl
  | .committed post =>
    (post.version = 0 ∨ t.AddsNothing) ∧ post.actions.filterMap Action.file? = t.files.map .inl
  | .failed _ => True

end CommitRun

/-- The log of a table that is being created: the first version is there if any is, and only it has
files. -/
structure LogStore.Created (store : LogStore) : Prop where
  speaks : store.SpeaksOf store
  first : ∀ f ∈ store.commits.entries, (store.commits.get? 0).isSome
  later : ∀ v f, v ≠ 0 → store.commits.get? v = some f → f.actions.filterMap Action.file? = []

namespace LogStore

variable {store : LogStore}

theorem Created.listing_none (h : store.Created) (hempty : store.commits.entries.isEmpty) :
    store.latestVersionFromListing = none := by
  have hnone : ∀ v, ¬ store.Known v := by
    rintro v ⟨f, hf, -⟩
    rw [List.isEmpty_iff.mp hempty] at hf
    cases hf
  have hcheckpoints : store.checkpoints.entries = [] :=
    eq_nil_iff_forall_not_mem.mpr fun f hf => hnone _ (h.speaks.checkpoints f hf)
  have hcompactions : store.compactions.entries = [] :=
    eq_nil_iff_forall_not_mem.mpr fun f hf => hnone _ (h.speaks.compactions f hf)
  simp [latestVersionFromListing, listFrom, List.isEmpty_iff.mp hempty, hcheckpoints, hcompactions]

theorem Created.of_listing (h : store.Created) {start : Int} {v : Nat}
    (hv : store.getLatestVersion start = some v) :
    ¬ store.commits.entries.isEmpty ∧ (store.commits.get? 0).isSome := by
  cases hentries : store.commits.entries with
  | nil =>
    rw [getLatestVersion, h.listing_none (by rw [hentries]; rfl)] at hv
    cases hv
  | cons f fs => exact ⟨by simp, h.first f (by rw [hentries]; exact mem_cons_self)⟩

theorem Created.put (h : store.Created) {version : Nat} {actions : List Action} {modified : Int64}
    (hnone : store.commits.get? version = none)
    (hversion : version = 0 ∨ (store.commits.get? 0).isSome ∧
      actions.filterMap Action.file? = []) :
    { store with commits := store.commits.insert ⟨version, modified, actions⟩ }.Created := by
  have hext : store.Extends { store with
      commits := store.commits.insert ⟨version, modified, actions⟩ } := extends_insert hnone
  constructor
  case speaks =>
    exact ⟨fun f hf => hext.known (h.speaks.checkpoints f hf),
      fun f hf => hext.known (h.speaks.compactions f hf), fun v hv => hext.known (h.speaks.hint v hv)⟩
  case first =>
    intro f _
    rcases hversion with rfl | ⟨hfirst, -⟩
    · simp
    · exact hext.isSome hfirst
  case later =>
    intro v f hv hf
    rw [KeyedMap.get?_insert] at hf
    split at hf
    next heq =>
      cases hf
      rcases hversion with rfl | ⟨-, hfiles⟩
      · exact absurd heq hv
      · exact hfiles
    next => exact h.later v f hv hf

theorem Created.adds_eq (h : store.Created) {f : CommitFile} (hf : store.commits.get? 0 = some f)
    {n : Nat} (hn : ∀ g ∈ store.commits.entries, g.version < n) :
    (store.replayBefore n).adds = (f.actions.filterMap Action.file?).foldl applyFile .empty := by
  have hpos : 0 < n := lt_of_le_of_lt (Nat.zero_le _) (hn f (KeyedMap.mem_of_get? hf))
  obtain ⟨m, rfl⟩ : ∃ m, n = m + 1 := ⟨n - 1, by omega⟩
  have hlater : (store.rangeActions 1 m).filterMap Action.file? = [] := by
    rw [filterMap_eq_nil_iff]
    intro a ha
    obtain ⟨v, hv, ha⟩ := mem_flatMap.mp ha
    have hne : v ≠ 0 := by
      have := (mem_range'_1.mp hv).1
      omega
    unfold commitActions readCommitEntry at ha
    cases hget : store.commits.get? v with
    | none =>
      rw [hget] at ha
      cases ha
    | some g =>
      rw [hget] at ha
      exact filterMap_eq_nil_iff.mp (h.later v g hne hget) a ha
  have hsplit : store.rangeActions 0 (m + 1) = f.actions ++ store.rangeActions 1 m := by
    rw [Nat.add_comm, rangeActions_add]
    simp [rangeActions, commitActions, readCommitEntry, hf]
  rw [replayBefore, adds_applyAll_eq_foldl, hsplit, filterMap_append, hlater, append_nil]
  rfl

end LogStore

/-! ### One step of a creation -/

namespace CommitRun

theorem files_stripCreationActions (w : CommitRun) :
    w.stripCreationActions.localActions.filterMap Action.file? =
      w.localActions.filterMap Action.file? := by
  unfold stripCreationActions
  split
  · rw [filterMap_map, filterMap_filter]
    congr 1
    funext a
    cases a <;> rfl
  · rfl

namespace Creates

variable {w : CommitRun} {store store' : LogStore} {t : TableWrite} {validate : Validation}
  {nowMs modified : Int64} {latestVersion version : Nat}

theorem extend (h : w.Creates store t) (hext : store.Extends store') : w.Creates store' t := by
  obtain ⟨hfiles, hphase⟩ := h
  refine ⟨hfiles, ?_⟩
  split at hphase
  · trivial
  · exact hphase.imp_right hext.isSome
  · exact hphase.imp_right hext.isSome
  · exact hphase.imp_right hext.isSome
  · exact hphase.imp_right (.imp_right hext.isSome)
  · exact hphase.imp_left (.imp_right (.imp_right hext.isSome))
  · exact hphase
  · trivial

theorem fail (h : w.Creates store t) (error : TransactionError) : (w.fail error).Creates store t :=
  ⟨h.1, trivial⟩

theorem abort (h : w.Creates store t) (error : String) : (w.abort error).Creates store t := by
  unfold CommitRun.abort
  split
  · exact h
  · exact h
  · exact h.fail _

theorem meet (w : CommitRun) (h : w.localActions.filterMap Action.file? = t.files.map .inl)
    (hfirst : t.AddsNothing ∧ (store.commits.get? 0).isSome) (snapshot : DeltaSnapshot) :
    (w.meet snapshot latestVersion).Creates store t := by
  have hfiles := w.files_stripCreationActions.trans h
  unfold CommitRun.meet
  split
  · exact ⟨h, trivial⟩
  · dsimp only
    split
    · split
      · exact ⟨hfiles, trivial⟩
      · exact ⟨hfiles, hfirst⟩
    · exact ⟨hfiles, .inr hfirst⟩

section

variable (h : w.Creates store t)
include h

theorem list (hlog : store.Created) (hlist : store.commits.entries.isEmpty ∨ t.AddsNothing) :
    (w.list store).Creates store t := by
  have hfirst : ∀ {start v}, store.getLatestVersion start = some v →
      t.AddsNothing ∧ (store.commits.get? 0).isSome := by
    intro start v hv
    obtain ⟨hne, hfirst⟩ := hlog.of_listing hv
    exact ⟨hlist.resolve_left hne, hfirst⟩
  unfold CommitRun.list
  split
  · exact h.fail _
  · dsimp only
    split
    · exact ⟨h.1, .inl rfl⟩
    next hlatest _ => exact ⟨h.1, hfirst hlatest⟩
    next hlatest _ =>
      refine meet _ ?_ (hfirst hlatest) _
      exact h.1

theorem load (hphase : w.phase = .loading latestVersion) :
    (w.load store latestVersion).Creates store t := by
  have hfirst := h.2
  rw [hphase] at hfirst
  unfold CommitRun.load
  split
  · exact h.fail _
  · refine meet _ ?_ hfirst _
    exact h.1

theorem check (hphase : w.phase = .checking latestVersion version) :
    (w.check store latestVersion version).Creates store t := by
  have hfirst := h.2
  rw [hphase] at hfirst
  unfold CommitRun.check
  split
  · exact h
  · exact h.fail _
  · split
    · exact h.fail _
    · split
      · exact ⟨h.1, hfirst⟩
      · exact ⟨h.1, hfirst⟩

theorem refresh (hphase : w.phase = .refreshing latestVersion) :
    (w.refresh store latestVersion).Creates store t := by
  have hfirst := h.2
  rw [hphase] at hfirst
  unfold CommitRun.refresh
  split
  · exact h
  · split
    · exact h.fail _
    · exact ⟨h.1, .inr hfirst⟩

theorem finalize (hphase : w.phase = .finalizing version) :
    (w.finalize validate store version nowMs).Creates store t := by
  have hversion := h.2
  rw [hphase] at hversion
  unfold CommitRun.finalize
  split
  · exact h.fail _
  · dsimp only
    split
    · exact h.fail _
    · refine ⟨h.1, hversion, ?_⟩
      rw [filterMap_finalizeAttemptActions (fun _ => rfl) (fun _ => rfl)]
      exact h.1

theorem put (hlog : store.Created) {actions : List Action}
    (hphase : w.phase = .putting version actions) :
    (w.put store version actions modified).2.Created ∧
      (w.put store version actions modified).1.Creates
        (w.put store version actions modified).2 t := by
  have hput := h.2
  rw [hphase] at hput
  obtain ⟨hversion, hfiles⟩ := hput
  unfold CommitRun.put
  cases hget : store.commits.get? version with
  | some f => exact ⟨hlog, h.1, trivial⟩
  | none =>
    refine ⟨hlog.put hget (hversion.imp_right ?_), h.1, hversion.imp_right And.left, hfiles⟩
    rintro ⟨hnothing, hfirst⟩
    rw [hnothing.1] at hfiles
    exact ⟨hfirst, hfiles⟩

theorem step (hlog : store.Created)
    (hlist : w.isListing → store.commits.entries.isEmpty ∨ t.AddsNothing) :
    (w.step validate store nowMs modified).2.Created ∧
      (w.step validate store nowMs modified).1.Creates
        (w.step validate store nowMs modified).2 t := by
  unfold CommitRun.step
  split
  next hphase => exact ⟨hlog, h.list hlog (hlist (by rw [isListing, hphase]))⟩
  next hphase => exact ⟨hlog, h.load hphase⟩
  next hphase => exact ⟨hlog, h.check hphase⟩
  next hphase => exact ⟨hlog, h.refresh hphase⟩
  next hphase => exact ⟨hlog, h.finalize hphase⟩
  next hphase => exact h.put hlog hphase
  · exact ⟨hlog, h⟩
  · exact ⟨hlog, h⟩

end

end Creates

end CommitRun

/-! ### All writers -/

namespace CommitSystem

/-- Every writer is there from the beginning, and other files speak of committed versions. -/
def OnNewTable (s : CommitSystem) : CommitEvent → Prop
  | .begin _ => False
  | .files files => files.SpeaksOf s.store
  | _ => True

/-- A creation that lists the log finds no table, unless it adds nothing to it. -/
def FindsNoTable (writes : List TableWrite) (s : CommitSystem) : CommitEvent → Prop
  | .step i _ _ => ∀ t ∈ writes[i]?, ∀ w ∈ s.writers[i]?, w.isListing →
    s.store.commits.entries.isEmpty ∨ t.AddsNothing
  | _ => True

instance (writes : List TableWrite) (s : CommitSystem) :
    ∀ e, Decidable (s.FindsNoTable writes e)
  | .begin _ => inferInstanceAs (Decidable True)
  | .step i _ _ => inferInstanceAs (Decidable (∀ t ∈ writes[i]?, ∀ w ∈ s.writers[i]?,
      w.isListing → s.store.commits.entries.isEmpty ∨ t.AddsNothing))
  | .abort _ _ => inferInstanceAs (Decidable True)
  | .files _ => inferInstanceAs (Decidable True)

/-- The files are those of the last committed writer that overwrites, or else of the first. -/
def RespectsMode (writes : List TableWrite) (s : CommitSystem) : Prop :=
  s.store.commits.entries.isEmpty ∨
  ∃ i t w post, writes[i]? = some t ∧ s.Committed i w post ∧
    (∀ n, (∀ f ∈ s.store.commits.entries, f.version < n) →
      ∀ k, (s.store.replayBefore n).adds.get? k =
        ((KeyedMap.empty : KeyedMap Add.key).insertAll t.files).get? k) ∧
    ∀ j t' w' post', writes[j]? = some t' → s.Committed j w' post' →
      if t.sinkMode = .overwrite then t'.sinkMode = .overwrite → post'.version ≤ post.version
      else t'.sinkMode ≠ .overwrite ∧ post.version ≤ post'.version

theorem kept_onNewTable (validate : CommitRun.Validation) (writes : List TableWrite) :
    Kept validate LogStore.Created
      (fun store i w => ∃ t, writes[i]? = some t ∧ w.Creates store t)
      (fun s e => s.OnNewTable e ∧ s.FindsNoTable writes e) where
  begin s commit hc _ := hc.1.elim
  step s i nowMs modified w hc hw hlog hcreates := by
    obtain ⟨t, ht, hcreates⟩ := hcreates
    obtain ⟨hlog', hcreates'⟩ := hcreates.step hlog (hc.2 t ht w hw)
    exact ⟨hlog', t, ht, hcreates'⟩
  other store nowMs modified i w j w' _ _ hw' := by
    obtain ⟨t, ht, hcreates⟩ := hw'
    exact ⟨t, ht, hcreates.extend (w.extends_step validate store nowMs modified)⟩
  abort store i w error hw := by
    obtain ⟨t, ht, hcreates⟩ := hw
    exact ⟨t, ht, hcreates.abort error⟩
  files s files hc hlog := by
    refine ⟨⟨⟨hc.1.checkpoints, hc.1.compactions, hc.1.hint⟩, hlog.first, hlog.later⟩,
      fun i w hw => ?_⟩
    obtain ⟨t, ht, hcreates⟩ := hw
    exact ⟨t, ht, hcreates.extend fun _ _ h => h⟩

/-- What holds of a log and its writers, whose commits are all theirs, is what the modes ask. -/
theorem respectsMode_of_creates {writes : List TableWrite} {s : CommitSystem}
    (hledger : Ledger {} s) (hlog : s.store.Created)
    (hwriters : ∀ (i : Nat) (w : CommitRun), s.writers[i]? = some w →
      ∃ t, writes[i]? = some t ∧ w.Creates s.store t) : s.RespectsMode writes := by
  have hcommitted : ∀ i t w post, writes[i]? = some t → s.Committed i w post →
      (post.version = 0 ∨ t.AddsNothing) ∧
        post.actions.filterMap Action.file? = t.files.map .inl := by
    rintro i t w post ht ⟨hi, hphase⟩
    obtain ⟨t', ht', hcreates⟩ := hwriters i w hi
    obtain rfl : t = t' := Option.some.inj (ht.symm.trans ht')
    have hpost := hcreates.2
    rwa [hphase] at hpost
  cases hentries : s.store.commits.entries with
  | nil => exact .inl (by rw [hentries]; rfl)
  | cons f fs =>
    -- the writer of the first version
    obtain ⟨f0, hf0⟩ := Option.isSome_iff_exists.mp
      (hlog.first f (by rw [hentries]; exact mem_cons_self))
    obtain ⟨i, w, post, hi, hversion, hactions⟩ := (hledger.made 0 f0 hf0).resolve_left (by simp)
    obtain ⟨t, ht, -⟩ := hwriters i w hi.1
    have hfiles := (hcommitted i t w post ht hi).2
    refine .inr ⟨i, t, w, post, ht, hi, fun n hn k => ?_, fun j t' w' post' ht' hj => ?_⟩
    · rw [hlog.adds_eq hf0 hn, ← hactions, hfiles, foldl_applyFile_adds]
    · -- a writer that overwrites has committed the first version too
      have hfirst : t'.sinkMode = .overwrite → post'.version = 0 ∧ t' = t := by
        intro hmode
        have hzero : post'.version = 0 :=
          (hcommitted j t' w' post' ht' hj).1.resolve_right fun hnothing => hnothing.2 hmode
        obtain rfl := hledger.once j i w' w post' post hj hi (hzero.trans hversion.symm)
        exact ⟨hzero, Option.some.inj (ht'.symm.trans ht)⟩
      split
      · intro hmode
        rw [(hfirst hmode).1, hversion]
      next hnot =>
        refine ⟨fun hmode => hnot ?_, by rw [hversion]; exact Nat.zero_le _⟩
        rw [← (hfirst hmode).2]
        exact hmode

/-- As long as no creation that would change it finds a table, the table has the files of the one
writer that the save modes ask for. -/
theorem creation_respects_mode (validate : CommitRun.Validation) (writes : List TableWrite)
    (commits : List PreparedCommit) (hnew : ∀ t ∈ writes, t.tableExists = false)
    (hcommits : writes.map TableWrite.commitNew = commits.map some) (events : List CommitEvent)
    (hevents : Along (step validate) OnNewTable ⟨{}, commits.map PreparedCommit.start⟩ events)
    (hfinds : Along (step validate) (FindsNoTable writes) ⟨{}, commits.map PreparedCommit.start⟩
      events) :
    (run (step validate) ⟨{}, commits.map PreparedCommit.start⟩ events).RespectsMode writes := by
  have hempty : ({} : LogStore).Created :=
    { speaks := ⟨by decide, by decide, by decide⟩, first := by decide
      later := fun v f _ hf => by cases hf }
  have hstart : ∀ (i : Nat) (w : CommitRun), (commits.map PreparedCommit.start)[i]? = some w →
      ∃ t, writes[i]? = some t ∧ w.Creates {} t := by
    intro i w hi
    rw [getElem?_map] at hi
    obtain ⟨c, hc, rfl⟩ := Option.map_eq_some_iff.mp hi
    have ht : (writes.map TableWrite.commitNew)[i]? = some (some c) := by
      rw [hcommits, getElem?_map, hc]
      rfl
    rw [getElem?_map] at ht
    obtain ⟨t, ht, hcommit⟩ := Option.map_eq_some_iff.mp ht
    exact ⟨t, ht, TableWrite.files_of_commitNew (hnew t (mem_of_getElem? ht)) hcommit,
      trivial⟩
  obtain ⟨hlog, hwriters⟩ := (kept_onNewTable validate writes).run
    (along_and (step validate) hevents hfinds) ⟨hempty, hstart⟩
  exact respectsMode_of_creates ((ledger_start {} commits).run validate events) hlog hwriters

/-- A write of one file to a table that must not exist. -/
def raceWrite (path : String) : TableWrite where
  tableUrl := "t"
  sinkMode := .errorIfExists
  tableExists := false
  initialActions := []
  schemaActions := []
  files := [{ path := path, size := 1 }]
  protocol := ⟨1, 2, none, none⟩
  metadata := { id := "t", schema := some [] }

def raceCommit (path : String) : PreparedCommit :=
  ⟨.new ((raceWrite path).creationActions [.add { path := path, size := 1 }]) .create [], none,
    TableWrite.defaultRetries⟩

/-- Both creations list the log before one of them commits. -/
def closeRace : List CommitEvent :=
  [.step 0 1 1, .step 1 1 1, .step 0 2 2, .step 1 2 2, .step 0 3 3, .step 1 3 3]

theorem closeRace_respects_mode :
    ((∀ t ∈ [raceWrite "a", raceWrite "b"], t.tableExists = false) ∧
      [raceWrite "a", raceWrite "b"].map TableWrite.commitNew =
        [raceCommit "a", raceCommit "b"].map some ∧
      Along (step fun _ _ => .ok ()) OnNewTable
        ⟨{}, [raceCommit "a", raceCommit "b"].map PreparedCommit.start⟩ closeRace ∧
      Along (step fun _ _ => .ok ()) (FindsNoTable [raceWrite "a", raceWrite "b"])
        ⟨{}, [raceCommit "a", raceCommit "b"].map PreparedCommit.start⟩ closeRace) ∧
    (run (step fun _ _ => .ok ()) ⟨{}, [raceCommit "a", raceCommit "b"].map PreparedCommit.start⟩
      closeRace).RespectsMode [raceWrite "a", raceWrite "b"] :=
  have hnew : ∀ t ∈ [raceWrite "a", raceWrite "b"], t.tableExists = false := by decide
  have hevents : Along (step fun _ _ => .ok ()) OnNewTable
      ⟨{}, [raceCommit "a", raceCommit "b"].map PreparedCommit.start⟩ closeRace :=
    ⟨trivial, trivial, trivial, trivial, trivial, trivial, trivial⟩
  have hfinds : Along (step fun _ _ => .ok ()) (FindsNoTable [raceWrite "a", raceWrite "b"])
      ⟨{}, [raceCommit "a", raceCommit "b"].map PreparedCommit.start⟩ closeRace := by decide
  ⟨⟨hnew, rfl, hevents, hfinds⟩,
    creation_respects_mode (fun _ _ => .ok ()) [raceWrite "a", raceWrite "b"]
      [raceCommit "a", raceCommit "b"] hnew rfl closeRace hevents hfinds⟩

/-- The second creation lists the log after the first has committed. -/
def lateRace : List CommitEvent :=
  [.step 0 1 1, .step 0 2 2, .step 0 3 3, .step 1 4 4, .step 1 5 5, .step 1 6 6, .step 1 7 7]

/-- It appends its file, although the table must not exist. -/
theorem appended_twice :
    ((∀ t ∈ [raceWrite "a", raceWrite "b"], t.tableExists = false ∧ t.sinkMode = .errorIfExists) ∧
      [raceWrite "a", raceWrite "b"].map TableWrite.commitNew =
        [raceCommit "a", raceCommit "b"].map some ∧
      Along (step fun _ _ => .ok ()) OnNewTable
        ⟨{}, [raceCommit "a", raceCommit "b"].map PreparedCommit.start⟩ lateRace) ∧
    ¬ (run (step fun _ _ => .ok ()) ⟨{}, [raceCommit "a", raceCommit "b"].map PreparedCommit.start⟩
      lateRace).RespectsMode [raceWrite "a", raceWrite "b"] := by
  refine ⟨⟨by decide, rfl, trivial, trivial, trivial, trivial, trivial, trivial, trivial, trivial⟩, ?_⟩
  -- both files are in the table
  have hboth : ∀ path ∈ ["a", "b"], (((run (step fun _ _ => .ok ())
      ⟨{}, [raceCommit "a", raceCommit "b"].map PreparedCommit.start⟩
      lateRace).store.replayBefore 2).adds.get? (path, none)).isSome := by decide
  rintro (hempty | ⟨i, t, w, post, ht, -, hfiles, -⟩)
  · revert hempty
    decide
  · have hadds := hfiles 2 (by decide)
    have hone : ∀ t ∈ [raceWrite "a", raceWrite "b"], ∃ path ∈ ["a", "b"],
        ((KeyedMap.empty : KeyedMap Add.key).insertAll t.files).get? (path, none) = none := by decide
    obtain ⟨path, hpath, hnone⟩ := hone t (mem_of_getElem? ht)
    have hsome := hboth path hpath
    rw [hadds, hnone] at hsome
    cases hsome

end CommitSystem

end Zelox.Delta
