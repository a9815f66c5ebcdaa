import RedisFromScratch.FileNumbers
import RedisFromScratch.ManifestFiles

/-!
The shape of the levels in every state the engine can get into, over any number
of flushes, compactions, kills and opens. Level 0 lists the files of flushes with
the newest flush first; a deeper level is in key order with ranges that do not
meet. So the check of a merged version never fails, and a binary search of a
deeper level finds the one file that can hold a key.
-/
namespace RedisFromScratch.LevelStructure

open ByteStrings SortedTables EngineTypes SsTables Versions LsmTree Compaction
open CompactionAgreement TreeInvariant TreeSteps EngineRuns EngineInvariant EngineSteps
open EngineRestarts Relation Runs ManifestFiles
open FileSwaps (Files Ending Ends ends_swap ends_returned)
open CrashPoints (stored_wellFormed)

section Shape

variable {files : TableFiles} {v : Version} {flushes : List ℕ}

/-- A table entry of the manifest says what is in its file. -/
def Describes (files : TableFiles) (f : FileMeta) : Prop :=
  ∃ t, files.lookup f.number = some (some t) ∧ Ascending t.iter ∧ f.entries = t.iter.length ∧
    t.iter.head?.map Prod.fst = some f.minKey ∧ t.iter.getLast?.map Prod.fst = some f.maxKey

/-- The files of level 0 came from flushes, of which the newest is listed first. -/
def FlushOrder (v : Version) (flushes : List ℕ) : Prop :=
  ((v.level 0).map FileMeta.number).Sublist flushes

/-- The shape of a version over the flushes made so far, the newest first. -/
structure Levels (files : TableFiles) (v : Version) (flushes : List ℕ) : Prop where
  descending : (v.level 0).Pairwise (fun a b => b.number < a.number)
  flushed : FlushOrder v flushes
  sorted : ∀ l, 0 < l → (v.level l).Pairwise (fun a b => a.maxKey < b.minKey)
  ranges : ∀ l, ∀ f ∈ v.level l, f.minKey ≤ f.maxKey
  distinct : v.fileNumbers.Nodup
  metas : ∀ l, ∀ f ∈ v.level l, Describes files f
  valid : v.validate = .ok ()
  candidate : ∀ l, 0 < l → ∀ key f,
    v.findInLevel l key = some f ↔ f ∈ v.level l ∧ f.MayContain key
  holder : ∀ l, 0 < l → ∀ key e, ∀ f ∈ v.level l, (key, e) ∈ entriesOf files f →
    v.findInLevel l key = some f

theorem describes_of_backed {f : FileMeta} (h : Backed files f) : Describes files f := by
  obtain ⟨t, hfile, hsound, hmeta⟩ := h
  obtain ⟨e, hmin⟩ := hsound.min_mem
  obtain ⟨e', hmax⟩ := hsound.max_mem
  refine ⟨t, hfile, hsound.ascending, ?_, ?_, ?_⟩
  · rw [hmeta]
    exact hsound.count
  · rw [hmin, hmeta]
    rfl
  · rw [hmax, hmeta]
    rfl

theorem level_getElem {l : ℕ} (hl : l < v.levels.length) : v.level l = v.levels[l] := by
  rw [Version.level, List.getD_eq_getElem?_getD, List.getElem?_eq_getElem hl, Option.getD_some]

/-- Files of one level have different numbers. -/
theorem level_numbers (h : v.Ordered) (l : ℕ) :
    (v.level l).Pairwise (fun a b => a.number ≠ b.number) := by
  rcases Nat.eq_zero_or_pos l with rfl | hl
  · exact h.newest.imp (fun hlt => hlt.ne')
  · refine (h.disjoint l hl).imp_of_mem ?_
    intro a b ha hb hlt hnumber
    obtain ⟨-, rfl⟩ := h.unique l l a b ha hb hnumber
    exact absurd (h.ranges l a ha) (not_le_of_gt hlt)

theorem fileNumbers_nodup (h : v.Ordered) : v.fileNumbers.Nodup := by
  rw [Version.fileNumbers, List.Nodup, List.pairwise_map, List.pairwise_flatten]
  constructor
  · intro files hfiles
    obtain ⟨l, hl, rfl⟩ := List.getElem_of_mem hfiles
    rw [← level_getElem hl]
    exact level_numbers h l
  · rw [List.pairwise_iff_getElem]
    intro i j hi hj hij a ha b hb hnumber
    rw [← level_getElem hi] at ha
    rw [← level_getElem hj] at hb
    exact absurd (h.unique i j a b ha hb hnumber).1 hij.ne

/-- The search of an ordered level stops at the file whose range has the key. -/
theorem findInLevel_iff (h : v.Ordered) {l : ℕ} (hl : 0 < l) (key : Bytes) (f : FileMeta) :
    v.findInLevel l key = some f ↔ f ∈ v.level l ∧ f.MayContain key := by
  constructor
  · intro hfind
    refine ⟨Version.mem_of_findInLevel hfind, ?_⟩
    unfold Version.findInLevel at hfind
    split at hfind
    · cases hfind
    · split at hfind
      · cases hfind
        assumption
      · cases hfind
  · rintro ⟨hf, hkey⟩
    have hsearch : ∀ fs : List FileMeta, fs.Pairwise (fun a b => a.maxKey < b.minKey) →
        f ∈ fs → search FileMeta.maxKey fs key = some f := by
      intro fs hfs hmem
      induction fs with
      | nil => cases hmem
      | cons g fs ih =>
        obtain ⟨hg, hrest⟩ := List.pairwise_cons.mp hfs
        rw [search_cons]
        rcases List.mem_cons.mp hmem with rfl | hmem
        · exact if_neg (not_lt_of_ge hkey.2)
        · rw [if_pos ((hg f hmem).trans_le hkey.1)]
          exact ih hrest hmem
    rw [Version.findInLevel, hsearch _ (h.disjoint l hl) hf]
    exact if_pos hkey

theorem levels_of_wellFormed (h : WellFormed files v) (hflushed : FlushOrder v flushes) :
    Levels files v flushes where
  descending := h.newest
  flushed := hflushed
  sorted := h.disjoint
  ranges := h.ranges
  distinct := fileNumbers_nodup h.toOrdered
  metas l f hf := describes_of_backed (h.backed l f hf)
  valid := h.validate_ok
  candidate _ hl := findInLevel_iff h.toOrdered hl
  holder l hl key _ f hf hentry :=
    (findInLevel_iff h.toOrdered hl key f).mpr ⟨hf, (h.backed l f hf).range hentry⟩

end Shape

section Flushes

variable {F : Type} {o : Options} {sc : Scores F} {t t' : TreeRuns.State} {flushes : List ℕ}

/-- The file of a flush whose version a step stores in the manifest. -/
def flushedBy (t t' : TreeRuns.State) : List ℕ :=
  match t.job, t'.job with
  | .flushed n _ _, .publishing _ _ => [n]
  | _, _ => []

/-- The version readers get and the one the manifest names. -/
def TreeFlushes (t : TreeRuns.State) (flushes : List ℕ) : Prop :=
  FlushOrder t.version flushes ∧ FlushOrder (storedVersion t) flushes

theorem flushOrder_mono {v : Version} {more : List ℕ} (h : FlushOrder v flushes) :
    FlushOrder v (more ++ flushes) := h.trans (List.sublist_append_right _ _)

/-- A flush goes to the front of level 0, and a merge only takes files from it. -/
theorem flushes_publish (h : Inv t) (hf : TreeFlushes t flushes)
    (hstep : TreeRuns.Step o sc t .publish t') : TreeFlushes t' (flushedBy t t' ++ flushes) := by
  have hok := h.job
  cases hstep with
  | publishFlush n frozen tab hjob hne =>
    rw [hjob] at hok
    obtain ⟨-, hfresh, -, -, hcount, hsound⟩ := hok
    have hnone : frozen.table.entries ≠ [] := by
      intro hnil
      rw [hnil] at hcount
      exact hne hcount
    obtain ⟨e, hmin⟩ := (hsound hnone).min_mem
    have hrange := ((hsound hnone).range (List.mem_of_head? hmin)).2
    obtain ⟨-, hzero, -⟩ := h.wellFormed.toOrdered.addNewest (f := .fromTable n tab.summary) hrange
      (fun l g hg => hfresh.newer _ ⟨l, g, hg, rfl⟩)
    have hby : flushedBy t { t with
        job := .publishing (t.version.addFile 0 (.fromTable n tab.summary)) (.flush frozen) } =
        [n] := by
      rw [flushedBy, hjob]
    rw [hby]
    refine ⟨flushOrder_mono hf.1, ?_⟩
    change ((t.version.addFile 0 _).level 0 |>.map FileMeta.number).Sublist _
    rw [hzero, List.map_cons]
    exact hf.1.cons_cons n
  | publishCompaction plan now done next hjob hclock hnext =>
    rw [hjob] at hok
    obtain ⟨v', hinstall, -, -, hother⟩ :=
      install_ok h.wellFormed hok.valid (written_of_mergeOk hok)
    cases hnext.symm.trans hinstall
    have hout := hok.valid.output
    refine ⟨flushOrder_mono hf.1, flushOrder_mono ?_⟩
    change ((next.level 0).map FileMeta.number).Sublist flushes
    rw [hother 0 (by omega)]
    exact ((cleared_sublist h.wellFormed hok.valid 0).map _).trans hf.1

/-- Only the swap behind a publication changes the version readers get. -/
theorem version_of_step {a : TreeRuns.Act} (hstep : TreeRuns.Step o sc t a t') :
    t'.version = t.version ∨ t'.version = storedVersion t := by
  cases hstep with
  | swapVersion next w hjob => exact Or.inr (by simp only [storedVersion, hjob])
  | _ => exact Or.inl rfl

theorem stored_of_other {a : TreeRuns.Act} (hother : a ≠ .publish)
    (hstep : TreeRuns.Step o sc t a t') : storedVersion t' = storedVersion t := by
  by_cases ha : Quiet a
  · exact (keeps_of_quiet ha hstep).stored
  · cases hstep with
    | publishFlush | publishCompaction => exact absurd rfl hother
    | append | allocateLog | swapLog => rfl
    | storeLogNumber n m hjob | forgetLogs n m hjob => simp only [storedVersion, hjob]
    | _ => exact absurd trivial ha

theorem flushes_step {a : TreeRuns.Act} (h : Inv t) (hf : TreeFlushes t flushes)
    (hstep : TreeRuns.Step o sc t a t') : TreeFlushes t' (flushedBy t t' ++ flushes) := by
  by_cases hpublish : a = .publish
  · subst hpublish
    exact flushes_publish h hf hstep
  · constructor
    · rcases version_of_step hstep with hversion | hversion
      · rw [hversion]
        exact flushOrder_mono hf.1
      · rw [hversion]
        exact flushOrder_mono hf.2
    · rw [stored_of_other hpublish hstep]
      exact flushOrder_mono hf.2

/-- A step of the engine is a step of its tree, or leaves the tree alone. -/
theorem tree_step {policy : EngineWal.SyncPolicy} {s s' : State}
    (hstep : EngineRuns.Step o sc policy s s') :
    s'.tree = s.tree ∨ ∃ a, TreeRuns.Step o sc s.tree a s'.tree := by
  cases hstep with
  | append i muts t w w' hidle hne htree | freeze t htree | swapLog n w t hfreezing htree
  | publish t htree | storeLogNumber n m t hjob htree | keepLogNumber n m t hjob htree
  | forgetLogs n m t hjob htree | quiet a t ha htree => exact Or.inr ⟨_, htree⟩
  | commit i n seq handle =>
    obtain ⟨wals, logs, hrun⟩ := runCommit_frame s policy handle seq
    exact Or.inl (by rw [hrun])
  | logOp n op => exact Or.inl (runOp_tree s n op)
  | _ => exact Or.inl rfl

end Flushes

variable {F : Type} {o : Options} {sc : Scores F} {policy : EngineWal.SyncPolicy} {x x' : Sys}
  {flushes : List ℕ}

/-- The system and the files of all flushes so far, the newest first. -/
structure Traced where
  sys : Sys
  flushes : List ℕ

/-- The flush a step of the system stores. -/
def storedFlush (x x' : Sys) : List ℕ :=
  match x.phase, x'.phase with
  | .up s, .up s' => flushedBy s.tree s'.tree
  | _, _ => []

def TracedStep (sc : Scores F) (y y' : Traced) : Prop :=
  AnyStep sc (fun _ => True) y.sys y'.sys ∧ y'.flushes = storedFlush y.sys y'.sys ++ y.flushes

def PhaseFlushes : Phase → List ℕ → Prop
  | .down d, flushes => FlushOrder d.loaded.version flushes
  | .creating x, flushes => FlushOrder x.disk.loaded.version flushes
  | .created x, flushes => FlushOrder x.disk.loaded.version flushes
  | .cleaning x, flushes => FlushOrder x.disk.loaded.version flushes
  | .up s, flushes => TreeFlushes s.tree flushes

theorem phaseFlushes_step (h : PhaseOk x.phase) (hf : PhaseFlushes x.phase flushes)
    (hstep : EngineRestarts.Step o sc policy x x') :
    PhaseFlushes x'.phase (storedFlush x x' ++ flushes) := by
  cases hstep with
  | truncate | load | header | create | removeTable | removeLog => exact hf
  | store x =>
    change FlushOrder x.manifest.version flushes
    rw [h.2.1.version]
    exact hf
  | serve x =>
    have hversion : FlushOrder x.manifest.version flushes := by
      rw [h.2.1.version]
      exact hf
    exact ⟨hversion, hversion⟩
  | run s s' clock past hstep =>
    rcases tree_step hstep with hsame | ⟨a, htree⟩
    · change TreeFlushes s'.tree (flushedBy s.tree s'.tree ++ flushes)
      rw [hsame]
      exact ⟨flushOrder_mono hf.1, flushOrder_mono hf.2⟩
    · exact flushes_step h.1.tree hf htree
  | kill s d clock past hkill =>
    change FlushOrder d.loaded.version flushes
    rw [Leaves.loaded hkill, h.1.version]
    exact hf.2
  | killOpen p y clock past hp =>
    have hnone : storedFlush ⟨p, clock, past⟩ ⟨.down y.disk, clock, past⟩ = [] := by
      cases p <;> rfl
    rw [hnone]
    rcases opening_cases hp with rfl | rfl | rfl
    · exact hf
    · exact hf
    · exact hf

/-- What holds of the levels: those in the directory, those an open has in
memory, and in a run those readers get, those the manifest names and those a
merge that is over is about to install. -/
def LevelsOk (y : Traced) : Prop :=
  match y.sys.phase with
  | .down d => Levels d.tables d.loaded.version y.flushes
  | .creating x => Levels x.disk.tables x.manifest.version y.flushes
  | .created x => Levels x.disk.tables x.manifest.version y.flushes
  | .cleaning x => Levels x.disk.tables x.manifest.version y.flushes
  | .up s => Levels s.tree.files s.tree.version y.flushes ∧
      Levels s.tree.files s.stored.version y.flushes ∧
      ∀ plan now done, s.tree.job = .merging plan now done none [] →
        ∃ v, installVersion s.tree.version plan (done.map outputMeta) = .ok v

theorem levels_opening {y : Opening} (hd : DiskOk y.disk) (hm : ManifestOk y)
    (hf : FlushOrder y.disk.loaded.version flushes) :
    Levels y.disk.tables y.manifest.version flushes := by
  rw [hm.version]
  exact levels_of_wellFormed hd.wellFormed hf

/-- In every state reached from an empty directory the levels have their shape. -/
theorem levels_keep_shape (sc : Scores F) (clock : ℤ) (y : Traced)
    (hrun : ReflTransGen (TracedStep sc) ⟨EngineRestarts.empty clock, []⟩ y) : LevelsOk y := by
  have hempty : PhaseFlushes (EngineRestarts.empty clock).phase [] := by
    change ((Version.new.level 0).map FileMeta.number).Sublist []
    rw [Version.level_new]
    exact List.Sublist.refl _
  have hall : PhaseOk y.sys.phase ∧ PhaseFlushes y.sys.phase y.flushes := by
    refine run_preserves (fun y => PhaseOk y.sys.phase ∧ PhaseFlushes y.sys.phase y.flushes) ?_
      hrun ⟨phase_empty clock, hempty⟩
    rintro a b ⟨hok, hf⟩ ⟨⟨o, policy, -, hstep⟩, hflushes⟩
    refine ⟨phase_step hok hstep, ?_⟩
    rw [hflushes]
    exact phaseFlushes_step hok hf hstep
  obtain ⟨hok, hf⟩ := hall
  unfold LevelsOk
  cases hphase : y.sys.phase with
  | down =>
    rw [hphase] at hok hf
    exact levels_of_wellFormed hok.wellFormed hf
  | creating | created | cleaning =>
    rw [hphase] at hok hf
    exact levels_opening hok.1 hok.2.1 hf
  | up =>
    rw [hphase] at hok hf
    obtain ⟨hinv, -⟩ := hok
    refine ⟨levels_of_wellFormed hinv.tree.wellFormed hf.1, ?_, ?_⟩
    · rw [hinv.version]
      exact levels_of_wellFormed (stored_wellFormed hinv.tree) hf.2
    · intro plan now done hjob
      have hmerge := hinv.tree.job
      rw [hjob] at hmerge
      obtain ⟨v, hinstall, -⟩ :=
        install_ok hinv.tree.wellFormed hmerge.valid (written_of_mergeOk hmerge)
      exact ⟨v, hinstall⟩

/-- An ordered level is in the order a reload sorts it into. -/
theorem sortLevel_level {v : Version} (h : v.Ordered) (l : ℕ) :
    sortLevel l (v.level l) = v.level l := by
  rcases Nat.eq_zero_or_pos l with rfl | hl
  · exact sortLevel_newest h.newest
  · rw [sortLevel, if_neg hl.ne']
    apply List.Pairwise.insertionSort_eq
    exact (h.disjoint l hl).imp_of_mem (fun ha _ hlt => (h.ranges l _ ha).trans hlt.le)

/-- Runs of the system are runs of it with its flushes. -/
theorem traced_run (hrun : ReflTransGen (AnyStep sc (fun _ => True)) x x') (flushes : List ℕ) :
    ∃ flushes', ReflTransGen (TracedStep sc) ⟨x, flushes⟩ ⟨x', flushes'⟩ := by
  induction hrun with
  | refl => exact ⟨flushes, .refl⟩
  | @tail b c _ hstep ih =>
    obtain ⟨flushes', hrun⟩ := ih
    exact ⟨storedFlush b c ++ flushes', hrun.tail ⟨hstep, rfl⟩⟩

/-- A memtable is frozen, flushed and popped, and the manifest names the new log. -/
theorem flush_run (o : Options) (sc : Scores F) (policy : EngineWal.SyncPolicy) (s : State)
    {w : EngineWal.Wal} (hjob : s.tree.job = .idle) (hlock : s.tree.freezing = none)
    (himm : s.tree.immutable = []) (hne : s.tree.active.entries ≠ [])
    (hwal : (s.runOp s.tree.logNumber .flush).wals.lookup s.tree.logNumber = some w)
    (hold : s.stored.logNumber ≠ s.tree.nextFileNumber) :
    ∃ s' t, ReflTransGen (EngineRuns.Step o sc policy) s s' ∧
      s'.stored = ⟨s.tree.nextFileNumber + 1 + 1, s.tree.nextFileNumber,
        max s.stored.lastSequence s.tree.active.entries.length,
        s.tree.version.addFile 0 (.fromTable (s.tree.nextFileNumber + 1) t.summary)⟩ ∧
      s'.logs = (s.runOp s.tree.logNumber .flush).logs.insert s.tree.nextFileNumber
        (EngineWal.headerFile s.tree.nextFileNumber w.lastAppended) ∧
      s'.acked = s.acked ∧
      s'.tree.files = (s.tree.files.insert (s.tree.nextFileNumber + 1) none).insert
        (s.tree.nextFileNumber + 1) (some t) := by
  obtain ⟨t, ht, -, hcount, -⟩ := writeTable_ascending o.tuning s.tree.active.sorted
  have hentries : t.summary.entryCount ≠ 0 := by
    rw [hcount]
    exact fun h => hne (List.eq_nil_of_length_eq_zero h)
  obtain ⟨wals, logs, hop⟩ := runOp_frame s s.tree.logNumber .flush
  have hfreeze : EngineRuns.Step o sc policy s _ := .freeze s _ (.allocateLog s.tree hlock hne)
  rw [hop] at hfreeze hwal ⊢
  obtain ⟨⟨active, immutable, version, files, next, logNumber, freezing, job, installs, pending,
    doomed, pointers, clock, reader⟩, stored, logs₀, wals₀, writer, live, retired, acked⟩ := s
  subst hjob hlock himm
  have hswap := ReflTransGen.tail (.single hfreeze)
    (.swapLog _ next w _ rfl (.swapLog _ next rfl) hwal)
  have hstart := hswap.tail (.quiet _ .startFlush _ trivial (.startFlush _ _ rfl rfl rfl))
  have hfinish := hstart.tail (.quiet _ .finishTable _ trivial (.finishTable _ _ _ t rfl ht))
  have hpublish := hfinish.tail (.publish _ _ (.publishFlush _ _ _ t rfl hentries))
  have hversion := hpublish.tail (.quiet _ .swapVersion _ trivial (.swapVersion _ _ _ rfl))
  have hpark := hversion.tail (.quiet _ .park _ trivial (.park _ _ _ rfl))
  have hpop := hpark.tail (.quiet _ .popFrozen _ trivial (.popFrozen _ _ rfl rfl))
  have hstore := hpop.tail (.storeLogNumber _ logNumber next _ rfl (.storeLogNumber _ _ _ rfl) hold)
  exact ⟨_, t, hstore, rfl, rfl, rfl, rfl⟩

section Example

open EngineWriters (oneRecord oneRecord_run flushedLog flush_oneAppended)

theorem flushed_oneRecord (writer : EngineRuns.Writer) :
    ((oneRecord writer []).runOp 1 .flush).wals.lookup 1 = some flushedLog.wal := by
  rw [← flush_oneAppended]
  rfl

/-- A write, its flush into table 3 and a kill. -/
theorem levels_after_flush : ∃ d clock past flushes,
    ReflTransGen (TracedStep wholeScores) ⟨EngineRestarts.empty 0, []⟩
      ⟨⟨.down d, clock, past⟩, flushes⟩ ∧
    (d.loaded.version.level 0).map FileMeta.number = [3] ∧
    LevelsOk ⟨⟨.down d, clock, past⟩, flushes⟩ := by
  have hopen := FileNumbers.opened_run .everySecond (fun _ _ => True) (fun _ _ _ => trivial)
  have hwrite : ReflTransGen (EngineRuns.Step eagerOptions wholeScores .everySecond)
      (EngineRuns.init 0) (oneRecord (.committing 1 1 1) []) :=
    guarded_run_is_run (oneRecord_run (fun _ _ => True) (fun _ _ _ => trivial))
  obtain ⟨s', t, hflush, hstored, -⟩ := flush_run eagerOptions wholeScores .everySecond
    (oneRecord (.committing 1 1 1) []) rfl rfl rfl (List.cons_ne_nil _ _) (flushed_oneRecord _)
    (by decide)
  have hlift := FileNumbers.lift_run (fun _ _ => True) (hwrite.trans hflush) 0 []
    (fun _ _ _ => trivial)
  have hkill := (hopen.trans hlift).tail
    ⟨.kill s' (CrashPoints.onDisk s') 0 [] (CrashPoints.killed_onDisk s'), trivial⟩
  obtain ⟨flushes, hrun⟩ := traced_run (guarded_run_is_run
    (anyStep_run (fun _ => True) trivial hkill)) []
  refine ⟨_, _, _, flushes, hrun, ?_, levels_keep_shape wholeScores 0 _ hrun⟩
  change (s'.stored.version.level 0).map FileMeta.number = [3]
  rw [hstored]
  rfl

end Example

end RedisFromScratch.LevelStructure
