import RedisFromScratch.TreeRuns

/-!
What every interleaving of writers, the background job, sweeps and readers
keeps. The parked versions form a chain: a file retired at one place of it is
named by no later version. So the files a sweep unlinks are named neither by
the current version nor by any version a reader can still hold.
-/
namespace RedisFromScratch.TreeInvariant

open ByteStrings SortedTables NewestWins EngineTypes SsTables Versions LsmTree Compaction
open CompactionAgreement TreeRuns Relation Runs

def Names (v : Version) (n : ℕ) : Prop := ∃ l, ∃ f ∈ v.level l, f.number = n

theorem mem_fileNumbers_iff (v : Version) (n : ℕ) : n ∈ v.fileNumbers ↔ Names v n := by
  simp only [Version.fileNumbers, List.mem_map, List.mem_flatten, Names]
  constructor
  · rintro ⟨f, ⟨files, hfiles, hf⟩, hn⟩
    obtain ⟨l, hl, rfl⟩ := List.getElem_of_mem hfiles
    refine ⟨l, f, ?_, hn⟩
    rw [Version.level, List.getD_eq_getElem?_getD, List.getElem?_eq_getElem hl, Option.getD_some]
    exact hf
  · rintro ⟨l, f, hf, hn⟩
    have hl := Version.lt_of_mem_level hf
    rw [Version.level, List.getD_eq_getElem?_getD, List.getElem?_eq_getElem hl,
      Option.getD_some] at hf
    exact ⟨f, ⟨_, List.getElem_mem hl, hf⟩, hn⟩

section Frames

variable {files files' : TableFiles} {v : Version}

theorem entriesOf_congr {f : FileMeta} (h : files'.lookup f.number = files.lookup f.number) :
    entriesOf files' f = entriesOf files f := by
  rw [entriesOf, h, entriesOf]

/-- Only the files a version names matter to it. -/
theorem wellFormed_congr (h : WellFormed files v)
    (hsame : ∀ n, Names v n → files'.lookup n = files.lookup n) : WellFormed files' v := by
  refine ⟨h.toOrdered, fun l f hf => ?_⟩
  obtain ⟨t, hfile, hsound, hmeta⟩ := h.backed l f hf
  exact ⟨t, (hsame _ ⟨l, f, hf, rfl⟩).trans hfile, hsound, hmeta⟩

theorem levelsEntry_congr_files (hsame : ∀ n, Names v n → files'.lookup n = files.lookup n)
    (ls : List ℕ) (k : Bytes) : levelsEntry files' v ls k = levelsEntry files v ls k := by
  unfold levelsEntry
  congr 1
  apply List.map_congr_left
  intro f hf
  obtain ⟨l, -, hl⟩ := List.mem_flatMap.mp hf
  exact entriesOf_congr (hsame _ ⟨l, f, hl, rfl⟩)

theorem newest_version_congr (h : WellFormed files v)
    (hsame : ∀ n, Names v n → files'.lookup n = files.lookup n) (k : Bytes) :
    newest (versionSources files' v) k = newest (versionSources files v) k := by
  rw [h.newest_version, (wellFormed_congr h hsame).newest_version, levelsEntry_congr_files hsame]

theorem names_stored (h : WellFormed files v) {n : ℕ} (hn : Names v n) :
    ∃ t, files.lookup n = some (some t) := by
  obtain ⟨l, f, hf, rfl⟩ := hn
  obtain ⟨t, hfile, -⟩ := h.backed l f hf
  exact ⟨t, hfile⟩

end Frames

/-- Parked versions, oldest first, with the one about to be parked. -/
def chain (s : State) : List PendingDelete :=
  s.pending ++ match s.job with
    | .parking p _ => [p]
    | _ => []

/-- A number given to a file of the job under way. -/
structure Fresh (s : State) (n : ℕ) : Prop where
  bound : n < s.nextFileNumber
  newer : ∀ m, Names s.version m → m < n
  chain : ∀ p ∈ chain s, ¬ Names p.handle.version n
  doomed : n ∉ s.doomed

/-- The table of a frozen memtable is in the version, above everything else. -/
def FlushedIn (s : State) (frozen : Frozen) : Prop :=
  s.immutable.getLast? = some frozen ∧ ∀ k e, frozen.table.lookup k = some e →
    newest (versionSources s.files s.version) k = some e

/-- What the next version does to the content. -/
def WorkOk (s : State) (next : Version) : Work → Prop
  | .flush frozen => s.immutable.getLast? = some frozen ∧
      ∀ k, newest (versionSources s.files next) k =
        (frozen.table.lookup k).or (newest (versionSources s.files s.version) k)
  | .compaction _ now => (∀ k, now k ≤ s.clock) ∧ ∀ t, (∀ k, now k ≤ t) →
      ∀ k, Agrees t (newest (versionSources s.files s.version) k)
        (newest (versionSources s.files next) k)

/-- A merge under way: its outputs, written or to be written, are the survivors
of its sources. -/
structure MergeOk (s : State) (plan : Plan) (now : Bytes → ℤ) (done : List (ℕ × SsTable))
    (writing : Option ℕ) (todo : List SsTable) : Prop where
  valid : plan.Valid s.version
  iter : (done.map Prod.snd ++ todo).flatMap SsTable.iter =
    survivors s.version plan now (plan.sources.map (entriesOf s.files))
  sound : ∀ t ∈ done.map Prod.snd ++ todo, t.Sound
  stored : ∀ p ∈ done, s.files.lookup p.1 = some (some p.2)
  fresh : ∀ p ∈ done, Fresh s p.1
  distinct : done.Pairwise (fun a b => a.1 ≠ b.1)
  writing : ∀ n, writing = some n → Fresh s n ∧ ∀ p ∈ done, p.1 ≠ n

structure PublishOk (s : State) (next : Version) (w : Work) : Prop where
  wellFormed : WellFormed s.files next
  names : ∀ n, Names next n → Names s.version n ∨ Fresh s n
  retired : ∀ n ∈ w.retired, Names s.version n ∧ ¬ Names next n
  work : WorkOk s next w

def JobOk (s : State) : Job → Prop
  | .flushing n frozen => s.immutable.getLast? = some frozen ∧ Fresh s n
  | .flushed n frozen t => s.immutable.getLast? = some frozen ∧ Fresh s n ∧
      s.files.lookup n = some (some t) ∧ t.iter = frozen.table.entries ∧
      t.summary.entryCount = frozen.table.entries.length ∧ (frozen.table.entries ≠ [] → t.Sound)
  | .merging plan now done writing todo => MergeOk s plan now done writing todo
  | .publishing next w => PublishOk s next w
  | .parking _ (.flush frozen) => FlushedIn s frozen
  | .retiring frozen => FlushedIn s frozen
  | _ => True

structure Inv (s : State) : Prop where
  wellFormed : WellFormed s.files s.version
  numbers : ∀ n x, s.files.lookup n = some x → n < s.nextFileNumber
  parked : ∀ p ∈ chain s, WellFormed s.files p.handle.version
  retired : ∀ p ∈ chain s, ∀ n ∈ p.files, Names p.handle.version n ∧ ¬ Names s.version n
  apart : (chain s).Pairwise (fun p q => ∀ n ∈ p.files, ¬ Names q.handle.version n)
  doomed : ∀ n ∈ s.doomed, n < s.nextFileNumber ∧ ¬ Names s.version n ∧
    ∀ p ∈ chain s, ¬ Names p.handle.version n
  held : ∀ i h, (s.reader i).holds = some h → h = s.handle ∨ ∃ p ∈ chain s, p.handle = h
  job : JobOk s s.job

/-- A file of the current version or of a parked one. -/
def Named (s : State) (n : ℕ) : Prop := Names s.version n ∨ ∃ p ∈ chain s, Names p.handle.version n

variable {s s' : State}

theorem inv_opened (h : Opened s) : Inv s := by
  have hchain : chain s = [] := by rw [chain, h.pending, h.job, List.append_nil]
  refine ⟨h.wellFormed, h.numbers, ?_, ?_, ?_, ?_, ?_, ?_⟩
  · simp [hchain]
  · simp [hchain]
  · simp [hchain]
  · simp [h.doomed]
  · intro i hd hheld
    rw [h.readers] at hheld
    cases hheld
  · rw [h.job]
    trivial

theorem Inv.named_stored (h : Inv s) {n : ℕ} (hn : Named s n) :
    ∃ t, s.files.lookup n = some (some t) := by
  rcases hn with hn | ⟨p, hp, hn⟩
  · exact names_stored h.wellFormed hn
  · exact names_stored (h.parked p hp) hn

theorem Inv.named_lt (h : Inv s) {n : ℕ} (hn : Named s n) : n < s.nextFileNumber := by
  obtain ⟨t, ht⟩ := h.named_stored hn
  exact h.numbers n _ ht

theorem Inv.named_not_doomed (h : Inv s) {n : ℕ} (hn : Named s n) : n ∉ s.doomed := by
  intro hd
  obtain ⟨-, hcur, hchain⟩ := h.doomed n hd
  rcases hn with hn | ⟨p, hp, hn⟩
  · exact hcur hn
  · exact hchain p hp hn

theorem Fresh.not_named {n : ℕ} (h : Fresh s n) : ¬ Named s n := by
  rintro (hn | ⟨p, hp, hn⟩)
  · exact absurd (h.newer n hn) (Nat.lt_irrefl n)
  · exact h.chain p hp hn

/-- The invariant survives a step that keeps the version, the files it and the
parked ones name, and the order of the chain. -/
theorem Inv.keep (h : Inv s) (hversion : s'.version = s.version)
    (hinstalls : s'.installs = s.installs) (hchain : (chain s').Sublist (chain s))
    (hfiles : ∀ n, Named s n → s'.files.lookup n = s.files.lookup n)
    (hnumbers : ∀ n x, s'.files.lookup n = some x → n < s'.nextFileNumber)
    (hdoomed : ∀ n ∈ s'.doomed, n < s'.nextFileNumber ∧ ¬ Names s.version n ∧
      ∀ p ∈ chain s', ¬ Names p.handle.version n)
    (hheld : ∀ i h, (s'.reader i).holds = some h → h = s.handle ∨ ∃ p ∈ chain s', p.handle = h)
    (hjob : JobOk s' s'.job) : Inv s' := by
  have hsub := hchain.subset
  refine ⟨?_, hnumbers, ?_, ?_, h.apart.sublist hchain, ?_, ?_, hjob⟩
  · rw [hversion]
    exact wellFormed_congr h.wellFormed (fun n hn => hfiles n (Or.inl hn))
  · intro p hp
    exact wellFormed_congr (h.parked p (hsub hp)) (fun n hn => hfiles n (Or.inr ⟨p, hsub hp, hn⟩))
  · intro p hp
    rw [hversion]
    exact h.retired p (hsub hp)
  · rw [hversion]
    exact hdoomed
  · intro i hd hi
    rw [State.handle, hversion, hinstalls]
    exact hheld i hd hi

/-- Steps of the job that touch no version, parked or current. -/
theorem Inv.rejob (h : Inv s) (hversion : s'.version = s.version)
    (hinstalls : s'.installs = s.installs) (hchain : chain s' = chain s)
    (hdoomed : s'.doomed = s.doomed) (hreader : s'.reader = s.reader)
    (hnext : s.nextFileNumber ≤ s'.nextFileNumber)
    (hfiles : ∀ n, Named s n → s'.files.lookup n = s.files.lookup n)
    (hnumbers : ∀ n x, s'.files.lookup n = some x → n < s'.nextFileNumber)
    (hjob : JobOk s' s'.job) : Inv s' := by
  refine h.keep hversion hinstalls (hchain ▸ List.Sublist.refl _) hfiles hnumbers ?_ ?_ hjob
  · intro n hn
    rw [hdoomed] at hn
    obtain ⟨hlt, hcur, hpar⟩ := h.doomed n hn
    exact ⟨hlt.trans_le hnext, hcur, by rw [hchain]; exact hpar⟩
  · intro i hd hi
    rw [hreader] at hi
    rw [hchain]
    exact h.held i hd hi

/-- The part of a state a job relies on. -/
structure Frame (s s' : State) : Prop where
  version : s'.version = s.version
  files : ∀ n, n ∉ s.doomed → s'.files.lookup n = s.files.lookup n
  frozen : ∀ f, s.immutable.getLast? = some f → s'.immutable.getLast? = some f
  chain : ∀ p ∈ chain s', p ∈ chain s
  doomed : ∀ n ∈ s'.doomed, n ∈ s.doomed ∨ Named s n
  next : s.nextFileNumber ≤ s'.nextFileNumber
  clock : s.clock ≤ s'.clock

theorem Fresh.frame {n : ℕ} (h : Fresh s n) (hf : Frame s s') : Fresh s' n where
  bound := h.bound.trans_le hf.next
  newer m hm := h.newer m (hf.version ▸ hm)
  chain p hp := h.chain p (hf.chain p hp)
  doomed hd := by
    rcases hf.doomed n hd with hd | hn
    · exact h.doomed hd
    · exact h.not_named hn

theorem Inv.frame_names (h : Inv s) (hf : Frame s s') {n : ℕ} (hn : Named s n) :
    s'.files.lookup n = s.files.lookup n := hf.files n (h.named_not_doomed hn)

theorem Inv.frame_newest (h : Inv s) (hf : Frame s s') (k : Bytes) :
    newest (versionSources s'.files s'.version) k =
      newest (versionSources s.files s.version) k := by
  rw [hf.version]
  exact newest_version_congr h.wellFormed (fun n hn => h.frame_names hf (Or.inl hn)) k

theorem MergeOk.frame (h : Inv s) (hf : Frame s s') {plan : Plan} {now : Bytes → ℤ}
    {done : List (ℕ × SsTable)} {writing : Option ℕ} {todo : List SsTable}
    (hm : MergeOk s plan now done writing todo) : MergeOk s' plan now done writing todo := by
  have hsources : plan.sources.map (entriesOf s'.files) = plan.sources.map (entriesOf s.files) := by
    apply List.map_congr_left
    intro f hfs
    apply entriesOf_congr
    refine h.frame_names hf (Or.inl ?_)
    rcases List.mem_append.mp hfs with hin | hin
    · exact ⟨_, f, mem_level_of_mem_inputs hm.valid hin, rfl⟩
    · exact ⟨_, f, (overlapping_sublist hm.valid).subset hin, rfl⟩
  refine ⟨hf.version ▸ hm.valid, ?_, hm.sound, ?_, fun p hp => (hm.fresh p hp).frame hf,
    hm.distinct, fun n hn => ⟨(hm.writing n hn).1.frame hf, (hm.writing n hn).2⟩⟩
  · rw [hsources, hf.version]
    exact hm.iter
  · intro p hp
    rw [hf.files _ (hm.fresh p hp).doomed]
    exact hm.stored p hp

theorem PublishOk.frame (h : Inv s) (hf : Frame s s') {next : Version} {w : Work}
    (hp : PublishOk s next w) : PublishOk s' next w := by
  have hsame : ∀ n, Names next n → s'.files.lookup n = s.files.lookup n := by
    intro n hn
    rcases hp.names n hn with hold | hnew
    · exact h.frame_names hf (Or.inl hold)
    · exact hf.files n hnew.doomed
  refine ⟨wellFormed_congr hp.wellFormed hsame, ?_, ?_, ?_⟩
  · intro n hn
    rw [hf.version]
    exact (hp.names n hn).imp_right (fun hnew => hnew.frame hf)
  · rw [hf.version]
    exact hp.retired
  · have hwork := hp.work
    cases w with
    | flush frozen =>
      refine ⟨hf.frozen _ hwork.1, fun k => ?_⟩
      rw [newest_version_congr hp.wellFormed hsame, h.frame_newest hf]
      exact hwork.2 k
    | compaction =>
      refine ⟨fun k => (hwork.1 k).trans hf.clock, fun t ht k => ?_⟩
      rw [newest_version_congr hp.wellFormed hsame, h.frame_newest hf]
      exact hwork.2 t ht k

theorem FlushedIn.frame (h : Inv s) (hf : Frame s s') {frozen : Frozen}
    (hin : FlushedIn s frozen) : FlushedIn s' frozen := by
  refine ⟨hf.frozen _ hin.1, fun k e hk => ?_⟩
  rw [h.frame_newest hf]
  exact hin.2 k e hk

theorem JobOk.frame (h : Inv s) (hf : Frame s s') {j : Job} (hj : JobOk s j) : JobOk s' j := by
  cases j with
  | flushing n frozen => exact ⟨hf.frozen _ hj.1, hj.2.frame hf⟩
  | flushed n frozen =>
    obtain ⟨hlast, hfresh, hfile, hrest⟩ := hj
    exact ⟨hf.frozen _ hlast, hfresh.frame hf, (hf.files n hfresh.doomed).trans hfile, hrest⟩
  | merging => exact MergeOk.frame h hf hj
  | publishing => exact PublishOk.frame h hf hj
  | parking p w =>
    cases w with
    | flush => exact FlushedIn.frame h hf hj
    | compaction => trivial
  | retiring => exact FlushedIn.frame h hf hj
  | _ => trivial

/-- Steps outside the job. -/
theorem Inv.frame (h : Inv s) (hf : Frame s s') (hjob : s'.job = s.job)
    (hinstalls : s'.installs = s.installs) (hchain : (chain s').Sublist (chain s))
    (hnumbers : ∀ n x, s'.files.lookup n = some x → n < s'.nextFileNumber)
    (hdoomed : ∀ n ∈ s'.doomed, n < s'.nextFileNumber ∧ ¬ Names s.version n ∧
      ∀ p ∈ chain s', ¬ Names p.handle.version n)
    (hheld : ∀ i h, (s'.reader i).holds = some h → h = s.handle ∨ ∃ p ∈ chain s', p.handle = h) :
    Inv s' :=
  h.keep hf.version hinstalls hchain (fun _ hn => h.frame_names hf hn) hnumbers hdoomed hheld
    (by rw [hjob]; exact JobOk.frame h hf h.job)

end RedisFromScratch.TreeInvariant
