import RedisFromScratch.CrashPoints

/-!
The tables the stored manifest names hold the history that was flushed. They
answer as the flushed memtables do, one over the other, over what the tables
held when the run began. A flush adds the oldest memtable when its manifest is
stored, before its log is retired; a compaction changes nothing for readers
who come later.
-/
namespace RedisFromScratch.FlushedTables

open ByteStrings SortedTables NewestWins EngineTypes EngineLogs EngineWal SsTables Versions LsmTree
open Compaction TreeContents TreeInvariant EngineRuns EngineInvariant EngineSteps CrashPoints
open Relation Runs

variable {F : Type} {o : Options} {sc : Scores F} {policy : SyncPolicy} {s s' : State}
variable {c : Bytes → Option Entry}

/-- How many of the live logs have their table in the manifest's version. -/
def flushedLogs : TreeRuns.Job → ℕ
  | .publishing _ (.flush _) => 1
  | .parking _ (.flush _) => 1
  | .retiring _ => 1
  | .retired _ _ => 1
  | _ => 0

theorem flushedLogs_le (j : TreeRuns.Job) : flushedLogs j ≤ 1 := by
  unfold flushedLogs
  split <;> decide

/-- The segments whose tables the manifest names, or named before. -/
def flushedSegs (s : State) : List Segment := s.retired ++ s.live.take (flushedLogs s.tree.job)

/-- No memtable from before the run is left without a table. -/
def BaseFlushed (s : State) : Prop :=
  ∀ g ∈ s.live.drop (flushedLogs s.tree.job), g.base = Table.empty

/-- Segments one over the other, over what was there before. -/
def settled (c : Bytes → Option Entry) (gs : List Segment) (k : Bytes) : Option Entry :=
  (newest (gs.map (fun g => (Segment.table g).entries)).reverse k).or (c k)

theorem settled_concat (gs : List Segment) (g : Segment) (k : Bytes) :
    settled c (gs ++ [g]) k = ((Segment.table g).lookup k).or (settled c gs k) := by
  rw [settled, List.map_append, List.reverse_append, newest_append, Option.or_assoc]
  simp only [List.map_cons, List.map_nil, List.reverse_singleton, newest_cons, newest_nil,
    Option.or_none]
  rfl

/-- The tables of the stored manifest, for readers from now on. -/
def TablesHold (c : Bytes → Option Entry) (s : State) : Prop := ∀ k, Agrees s.tree.clock
  (newest (versionSources s.tree.files (storedVersion s.tree)) k) (settled c (flushedSegs s) k)

section Oldest

/-- The oldest frozen memtable is the oldest segment, and not the newest one. -/
theorem oldest_segment (h : LogInv s) (hjob : ∀ n m, s.tree.job ≠ .retired n m) {frozen : Frozen}
    (hlast : s.tree.immutable.getLast? = some frozen) :
    ∃ g rest, s.live = g :: rest ∧ rest ≠ [] ∧ Segment.table g = frozen.table := by
  obtain ⟨popped, rest, hlive, hmem, hpopped⟩ := h.layout
  rw [poppedOk_of_not_retired hjob] at hpopped
  rw [← getLast_split hlast, List.reverse_append, List.reverse_singleton, List.singleton_append,
    List.cons_append] at hmem
  obtain ⟨g, rest', rfl, hg, hrest⟩ := List.map_eq_cons_iff.mp hmem
  refine ⟨g, rest', by rw [hlive, hpopped]; rfl, ?_, congrArg Frozen.table hg⟩
  rintro rfl
  simp at hrest

/-- The log of a flushed memtable says what its table says. -/
theorem flushed_stored (h : LogInv s) (hone : flushedLogs s.tree.job = 1) :
    ∃ g rest, s.live = g :: rest ∧ rest ≠ [] ∧ ∀ k e, (Segment.table g).lookup k = some e →
      newest (versionSources s.tree.files (storedVersion s.tree)) k = some e := by
  have hok := h.tree.job
  unfold flushedLogs at hone
  split at hone
  · rename_i next frozen hjob
    rw [hjob] at hok
    obtain ⟨hlast, hnewest⟩ := hok.work
    obtain ⟨g, rest, hg, hne, htable⟩ :=
      oldest_segment h (fun n m hn => by rw [hjob] at hn; cases hn) hlast
    refine ⟨g, rest, hg, hne, fun k e hk => ?_⟩
    rw [storedVersion, hjob]
    rw [hnewest k, ← htable, hk]
    rfl
  · rename_i p frozen hjob
    rw [hjob] at hok
    obtain ⟨g, rest, hg, hne, htable⟩ :=
      oldest_segment h (fun n m hn => by rw [hjob] at hn; cases hn) hok.1
    refine ⟨g, rest, hg, hne, fun k e hk => ?_⟩
    rw [storedVersion, hjob]
    exact hok.2 k e (htable ▸ hk)
  · rename_i frozen hjob
    rw [hjob] at hok
    obtain ⟨g, rest, hg, hne, htable⟩ :=
      oldest_segment h (fun n m hn => by rw [hjob] at hn; cases hn) hok.1
    refine ⟨g, rest, hg, hne, fun k e hk => ?_⟩
    rw [storedVersion, hjob]
    exact hok.2 k e (htable ▸ hk)
  · rename_i n m hjob
    obtain ⟨g, rest, hg, -, -, hhead, -, hin⟩ := LogInv.retired h hjob
    refine ⟨g, rest, hg, ?_, ?_⟩
    · rintro rfl
      cases hhead
    · rw [storedVersion, hjob]
      exact hin
  · cases hone

end Oldest

section Trees

variable {t t' : TreeRuns.State} {a : TreeRuns.Act}

/-- No step touches a file the stored manifest names. -/
theorem lookup_stored (h : Inv t) (hstep : TreeRuns.Step o sc t a t') {n : ℕ}
    (hn : Names (storedVersion t) n) : t'.files.lookup n = t.files.lookup n := by
  unfold storedVersion at hn
  split at hn
  · rename_i next w hjob
    have hok := h.job
    rw [hjob] at hok
    rcases hok.names n hn with hold | hfresh
    · exact lookup_step h hstep (Or.inl hold)
    · cases hstep with
      | startFlush frozen hj | finishTable m frozen tab hj | discardTable m frozen tab hj
      | openOutput plan now done todo hj | closeOutput plan now done m tab todo hj =>
        rw [hjob] at hj
        cases hj
      | unlink m hdoomed =>
        rw [Table.lookup_erase, if_neg]
        rintro rfl
        exact hfresh.doomed hdoomed
      | _ => rfl
  · exact lookup_step h hstep (Or.inl hn)

theorem stored_step (h : Inv t) (hstep : TreeRuns.Step o sc t a t')
    (hstored : storedVersion t' = storedVersion t) (k : Bytes) :
    newest (versionSources t'.files (storedVersion t')) k =
      newest (versionSources t.files (storedVersion t)) k := by
  rw [hstored]
  exact newest_version_congr (stored_wellFormed h) (fun n hn => lookup_stored h hstep hn) k

theorem clock_step (hstep : TreeRuns.Step o sc t a t') : t.clock ≤ t'.clock := by
  cases hstep with
  | tick later hle => exact hle
  | _ => exact le_rfl

theorem flushedLogs_quiet (ha : Quiet a) (hdiscard : a ≠ .discardTable)
    (hstep : TreeRuns.Step o sc t a t') : flushedLogs t'.job = flushedLogs t.job := by
  cases hstep with
  | discardTable => exact absurd rfl hdiscard
  | publishFlush | publishCompaction | storeLogNumber | forgetLogs => exact absurd ha id
  | startFlush frozen hjob | finishTable n frozen tab hjob | startCompaction plan now outs hjob
  | openOutput plan now done todo hjob | closeOutput plan now done n tab todo hjob
  | popFrozen frozen hjob => simp only [flushedLogs, hjob]
  | swapVersion next w hjob => cases w <;> simp only [flushedLogs, hjob]
  | park p w hjob => cases w <;> simp only [flushedLogs, hjob, TreeRuns.Work.next]
  | _ => rfl

end Trees

/-- The tables stay, and so does what they stand for. -/
theorem TablesHold.keep (ht : TablesHold c s) (h : LogInv s) {a : TreeRuns.Act}
    (htree : TreeRuns.Step o sc s.tree a s'.tree)
    (hstored : storedVersion s'.tree = storedVersion s.tree)
    (hsettled : ∀ k, settled c (flushedSegs s') k = settled c (flushedSegs s) k) :
    TablesHold c s' := by
  intro k
  rw [stored_step h.tree htree hstored, hsettled]
  exact (ht k).mono (clock_step htree)

theorem TablesHold.same (ht : TablesHold c s) (htree : s'.tree = s.tree) (hlive : s'.live = s.live)
    (hretired : s'.retired = s.retired) : TablesHold c s' := by
  intro k
  rw [flushedSegs, htree, hlive, hretired]
  exact ht k

theorem take_flushed_record (h : LogInv s) (muts : List Mutation) :
    (record muts s.live).take (flushedLogs s.tree.job) = s.live.take (flushedLogs s.tree.job) := by
  by_cases hone : flushedLogs s.tree.job = 1
  · obtain ⟨g, rest, hlive, hne, -⟩ := flushed_stored h hone
    rw [hone, hlive]
    cases rest with
    | nil => exact absurd rfl hne
    | cons => rfl
  · have := flushedLogs_le s.tree.job
    rw [show flushedLogs s.tree.job = 0 by omega, List.take_zero, List.take_zero]

/-- A flush puts the oldest segment on top of the tables. -/
theorem tables_publish (h : LogInv s) (ht : TablesHold c s) {t : TreeRuns.State}
    (htree : TreeRuns.Step o sc s.tree .publish t) (stored : Manifest) :
    TablesHold c { s with tree := t, stored := stored } := by
  have hinv := TreeSteps.inv_step h.tree htree
  have hok := hinv.job
  intro k
  have hbefore := ht k
  cases htree with
  | publishFlush n frozen tab hjob =>
    obtain ⟨hlast, hnewest⟩ := hok.work
    obtain ⟨g, rest, hlive, -, htable⟩ :=
      oldest_segment h (fun n m hn => by rw [hjob] at hn; cases hn) hlast
    rw [flushedSegs, hjob, storedVersion, hjob] at hbefore
    simp only [flushedLogs, List.take_zero, List.append_nil] at hbefore
    simp only [flushedSegs, flushedLogs, hlive, List.take_succ_cons, List.take_zero,
      settled_concat, storedVersion, hnewest k, htable]
    exact hbefore.under _
  | publishCompaction plan now done next hjob =>
    obtain ⟨hnow, hagrees⟩ := hok.work
    rw [flushedSegs, hjob, storedVersion, hjob] at hbefore
    simp only [flushedLogs, List.take_zero, List.append_nil] at hbefore
    simp only [flushedSegs, flushedLogs, List.take_zero, List.append_nil, storedVersion]
    exact (hagrees s.tree.clock hnow k).symm.trans hbefore

theorem tables_quiet (h : LogInv s) (ht : TablesHold c s) {a : TreeRuns.Act} {t : TreeRuns.State}
    (ha : Quiet a) (htree : TreeRuns.Step o sc s.tree a t) : TablesHold c { s with tree := t } := by
  have hk := keeps_of_quiet ha htree
  refine TablesHold.keep ht h htree hk.stored (fun k => ?_)
  by_cases hdiscard : a = .discardTable
  · -- an empty memtable leaves no table, and there is nothing in it
    subst hdiscard
    have hok := h.tree.job
    cases htree with
    | discardTable n frozen tab hjob hempty =>
      rw [hjob] at hok
      obtain ⟨hlast, -, -, -, hcount, -⟩ := hok
      obtain ⟨g, rest, hlive, -, htable⟩ :=
        oldest_segment h (fun n m hn => by rw [hjob] at hn; cases hn) hlast
      have hnone : (Segment.table g).lookup k = none := by
        have hnil : frozen.table.entries = [] := List.length_eq_zero_iff.mp (hcount ▸ hempty)
        rw [htable]
        change find frozen.table.entries k = none
        rw [hnil]
        rfl
      simp only [flushedSegs, flushedLogs, hjob, hlive, List.take_succ_cons, List.take_zero,
        settled_concat, hnone, Option.none_or, List.append_nil]
  · rw [flushedSegs, flushedSegs, flushedLogs_quiet ha hdiscard htree]

theorem tables_step (h : LogInv s) (ht : TablesHold c s) (hstep : Step o sc policy s s') :
    TablesHold c s' := by
  cases hstep with
  | append i muts t w w' hidle hne htree =>
    refine ht.keep h htree ?_ (fun k => ?_)
    · cases htree
      rfl
    · have hjob : t.job = s.tree.job := by
        cases htree
        rfl
      rw [flushedSegs, flushedSegs, hjob, take_flushed_record h]
  | reread | commitFast | create | removeLog => exact ht
  | commit i n seq handle =>
    obtain ⟨wals, logs, hrun⟩ := runCommit_frame s policy handle seq
    rw [hrun]
    exact ht
  | logOp n op => exact ht.same (runOp_tree s n op) (runOp_live s n op) (runOp_retired s n op)
  | freeze t htree =>
    refine ht.keep h htree ?_ (fun k => ?_)
    · cases htree
      rfl
    · have hjob : t.job = s.tree.job := by
        cases htree
        rfl
      simp only [flushedSegs, hjob, runOp_live, runOp_retired]
  | swapLog n w t hfreezing htree =>
    refine ht.keep h htree ?_ (fun k => ?_)
    · cases htree
      rfl
    · have hjob : t.job = s.tree.job := by
        cases htree
        rfl
      obtain ⟨l, g, hl, -⟩ := h.newest
      have hle := flushedLogs_le s.tree.job
      simp only [flushedSegs, hjob]
      rw [List.take_append_of_le_length (by rw [hl]; simp; omega)]
  | publish t htree => exact tables_publish h ht htree _
  | storeLogNumber n m t hjob htree =>
    refine ht.keep h htree ?_ (fun k => ?_)
    · cases htree
      simp only [storedVersion, hjob]
    · cases htree
      simp only [flushedSegs, flushedLogs, hjob, List.take_zero, List.append_nil]
  | keepLogNumber n m t hjob =>
    obtain ⟨g, rest, -, hnumber, hlt, -⟩ := LogInv.retired h hjob
    omega
  | forgetLogs n m t hjob htree =>
    refine ht.keep h htree ?_ (fun k => ?_)
    · cases htree
      simp only [storedVersion, hjob]
    · cases htree
      simp only [flushedSegs, flushedLogs, hjob]
  | quiet a t ha htree => exact tables_quiet h ht ha htree

theorem tables_started (h : Started s) : TablesHold (versionEntry s.tree) s := by
  intro k
  rw [flushedSegs, h.retired, storedVersion, h.opened.job]
  exact .refl _ _

end RedisFromScratch.FlushedTables
