import RedisFromScratch.AckedWrites
import RedisFromScratch.EngineRestarts

/-!
What one run leaves of its history. The memory says what all batches of the run
say, over the memtable its open rebuilt, over the tables it found. After a kill
the directory says the same for all batches but some last ones, none of them
acknowledged, provided the rebuilt memtable has been flushed: its own logs were
removed by the open.
-/
namespace RedisFromScratch.RunHistory

open ByteStrings FramedLogs SortedTables NewestWins EngineTypes EngineLogs EngineWal SsTables
open Versions LsmTree Compaction TreeContents EngineRuns EngineInvariant EngineSteps EngineWriters
open CrashPoints FlushedTables AckedWrites EngineRestarts Relation Runs

variable {F : Type} {o : Options} {sc : Scores F} {policy : SyncPolicy} {s s' : State} {d : Disk}
variable {b : MemTable} {c : Bytes → Option Entry}

/-- Only the oldest segment has something from before its log. -/
def BasedOn (b : MemTable) (gs : List Segment) : Prop :=
  ∃ n, gs.map Segment.base = b :: List.replicate n Table.empty

def Based (b : MemTable) (s : State) : Prop := BasedOn b (s.retired ++ s.live)

theorem based_started (h : Started s) : Based s.tree.active s := by
  obtain ⟨start, -, hlive, -⟩ := h.live
  exact ⟨0, by rw [h.retired, hlive]; rfl⟩

theorem based_step (hb : Based b s) (hstep : Step o sc policy s s') :
    Based b s' := by
  obtain ⟨n, hn⟩ := hb
  cases hstep with
  | append =>
    refine ⟨n, ?_⟩
    rw [List.map_append, map_record Segment.base (fun _ _ => rfl), ← List.map_append]
    exact hn
  | commit i m seq handle =>
    obtain ⟨wals, logs, hrun⟩ := runCommit_frame s policy handle seq
    rw [hrun]
    exact ⟨n, hn⟩
  | logOp => exact ⟨n, by rw [runOp_retired, runOp_live]; exact hn⟩
  | freeze =>
    refine ⟨n, ?_⟩
    rw [runOp_retired, runOp_live]
    exact hn
  | swapLog =>
    refine ⟨n + 1, ?_⟩
    rw [← List.append_assoc, List.map_append, hn, List.replicate_succ']
    rfl
  | storeLogNumber =>
    refine ⟨n, ?_⟩
    rw [List.append_assoc, ← List.drop_one, List.take_append_drop]
    exact hn
  | _ => exact ⟨n, hn⟩

section Settled

theorem settled_append (gs hs : List Segment) (k : Bytes) : settled c (gs ++ hs) k =
    (newest (hs.map (fun g => (Segment.table g).entries)).reverse k).or (settled c gs k) := by
  rw [settled, List.map_append, List.reverse_append, newest_append, Option.or_assoc]
  rfl

/-- Segments of a run say what their batches say, over what the first began with. -/
theorem settled_based {gs : List Segment} (h : BasedOn b gs) (k : Bytes) : settled c gs k =
    (lastWrite k (writes (gs.flatMap Segment.batches).flatten)).or ((b.lookup k).or (c k)) := by
  obtain ⟨n, hn⟩ := h
  obtain ⟨g, rest, rfl, hg, hrest⟩ := List.map_eq_cons_iff.mp hn
  have hunbased : ∀ g' ∈ rest, g'.base = Table.empty := by
    intro g' hg'
    have hmem : g'.base ∈ rest.map Segment.base := List.mem_map_of_mem hg'
    rw [hrest] at hmem
    exact List.eq_of_mem_replicate hmem
  have hone : settled c [g] k = ((Segment.table g).lookup k).or (c k) := settled_concat [] g k
  rw [show g :: rest = [g] ++ rest from rfl, settled_append, hone, table_entry, hg,
    ← lastWrite_segments hunbased, List.flatMap_append, List.flatten_append, writes_append,
    lastWrite_append, Option.or_assoc, Option.or_assoc]
  simp

end Settled

/-- Segments that begin with a flushed one, whose table answers for it. -/
theorem flushed_head (h : LogInv s) (hone : flushedLogs s.tree.job = 1) {gs : List Segment}
    (hgs : gs.take (flushedLogs s.tree.job) = s.live.take (flushedLogs s.tree.job)) :
    ∃ g rest, gs = g :: rest ∧ ∀ k e, (Segment.table g).lookup k = some e →
      newest (versionSources s.tree.files (storedVersion s.tree)) k = some e := by
  obtain ⟨g, rest, hlive, -, hin⟩ := flushed_stored h hone
  rw [hone, hlive] at hgs
  cases gs with
  | nil => cases hgs
  | cons g' gs =>
    rw [List.take_succ_cons, List.take_succ_cons] at hgs
    obtain ⟨rfl, -⟩ := List.cons.inj hgs
    exact ⟨g', gs, rfl, hin⟩

/-- Segments that begin with the flushed ones, over the tables. -/
theorem segments_over_tables (h : LogInv s) (ht : TablesHold c s) {gs : List Segment}
    (hgs : gs.take (flushedLogs s.tree.job) = s.live.take (flushedLogs s.tree.job)) (k : Bytes) :
    Agrees s.tree.clock ((newest (gs.map (fun g => (Segment.table g).entries)).reverse k).or
        (newest (versionSources s.tree.files (storedVersion s.tree)) k))
      (settled c (s.retired ++ gs) k) := by
  have htables := ht k
  rw [flushedSegs, ← hgs] at htables
  by_cases hone : flushedLogs s.tree.job = 1
  · obtain ⟨g, rest, rfl, hin⟩ := flushed_head h hone hgs
    rw [hone] at htables
    rw [show g :: rest = [g] ++ rest from rfl, ← List.append_assoc, settled_append,
      List.map_append, List.reverse_append, newest_append, Option.or_assoc]
    refine Agrees.under ?_ _
    have habsorbed : (newest (([g].map (fun g => (Segment.table g).entries)).reverse) k).or
        (newest (versionSources s.tree.files (storedVersion s.tree)) k) =
          newest (versionSources s.tree.files (storedVersion s.tree)) k := by
      rw [List.map_singleton, List.reverse_singleton, newest_cons, newest_nil, Option.or_none]
      change ((Segment.table g).lookup k).or _ = _
      cases hk : (Segment.table g).lookup k with
      | none => rfl
      | some e => exact (hin k e hk).symm
    rw [habsorbed]
    exact htables
  · have hle := flushedLogs_le s.tree.job
    rw [show flushedLogs s.tree.job = 0 by omega, List.take_zero, List.append_nil] at htables
    rw [settled_append]
    exact htables.under _

/-- The memory of a run says what its batches say, over what it began with. -/
theorem content_history (h : LogInv s) (ht : TablesHold c s) (hb : Based b s) (k : Bytes) :
    Agrees s.tree.clock (s.tree.tree.content k)
      ((lastWrite k (writes ((s.retired ++ s.live).flatMap Segment.batches).flatten)).or
        ((b.lookup k).or (c k))) := by
  rw [← settled_based hb]
  exact (segments_agree h k).symm.trans (segments_over_tables h ht rfl k)

/-- Over the tables the batches of segments say what the segments say. -/
theorem batches_over_tables (h : LogInv s) {gs : List Segment}
    (hgs : gs.take (flushedLogs s.tree.job) = s.live.take (flushedLogs s.tree.job))
    (hbase : ∀ g ∈ gs.drop (flushedLogs s.tree.job), g.base = Table.empty) (k : Bytes) :
    (lastWrite k (writes (gs.flatMap Segment.batches).flatten)).or
        (newest (versionSources s.tree.files (storedVersion s.tree)) k) =
      (newest (gs.map (fun g => (Segment.table g).entries)).reverse k).or
        (newest (versionSources s.tree.files (storedVersion s.tree)) k) := by
  by_cases hone : flushedLogs s.tree.job = 1
  · obtain ⟨g, rest, rfl, hin⟩ := flushed_head h hone hgs
    rw [hone] at hbase
    have hrest : ∀ g ∈ rest, g.base = Table.empty := hbase
    rw [List.flatMap_cons, List.flatten_append, writes_append, lastWrite_append,
      lastWrite_segments hrest, List.map_cons, List.reverse_cons, newest_append, newest_cons,
      newest_nil, Option.or_none, Option.or_assoc, Option.or_assoc]
    congr 1
    change _ = ((Segment.table g).lookup k).or _
    rw [table_entry]
    cases hk : lastWrite k (writes g.batches.flatten) with
    | some => rfl
    | none =>
      cases hbk : g.base.lookup k with
      | none => rfl
      | some e => exact hin k e (by rw [table_entry, hk, hbk]; rfl)
  · have hle := flushedLogs_le s.tree.job
    rw [show flushedLogs s.tree.job = 0 by omega, List.drop_zero] at hbase
    rw [lastWrite_segments hbase]

/-- A run's segments with the newest one cut. -/
theorem cut_segments (h : LogInv s) {l : List Segment} {g : Segment} (hl : s.live = l ++ [g])
    (j : ℕ) : (l ++ [{ g with batches := g.batches.take j }]).take (flushedLogs s.tree.job) =
        s.live.take (flushedLogs s.tree.job) ∧
      (BaseFlushed s → ∀ g' ∈ (l ++ [{ g with batches := g.batches.take j }]).drop
        (flushedLogs s.tree.job), g'.base = Table.empty) := by
  have hle : flushedLogs s.tree.job ≤ l.length := by
    by_cases hone : flushedLogs s.tree.job = 1
    · obtain ⟨g₀, rest, hlive, hne, -⟩ := flushed_stored h hone
      have hlen := congrArg List.length (hl.symm.trans hlive)
      have hpos := List.length_pos_iff.mpr hne
      rw [List.length_append, List.length_singleton, List.length_cons] at hlen
      omega
    · have := flushedLogs_le s.tree.job
      omega
  constructor
  · rw [hl, List.take_append_of_le_length hle, List.take_append_of_le_length hle]
  · intro hbase g' hg'
    unfold BaseFlushed at hbase
    rw [hl, List.drop_append_of_le_length hle] at hbase
    rw [List.drop_append_of_le_length hle] at hg'
    rcases List.mem_append.mp hg' with hold | hlast
    · exact hbase g' (List.mem_append_left _ hold)
    · rw [List.mem_singleton.mp hlast]
      exact hbase g (List.mem_append_right _ (List.mem_singleton_self g))

section Kept

/-- What has to come back has come back, and nothing that was not there. -/
def Survives (past kept : List (List Mutation × Bool)) : Prop :=
  kept.Sublist past ∧ (past.filter Prod.snd).Sublist kept

theorem Survives.append {past kept run lost : List (List Mutation × Bool)}
    (h : Survives past kept) (hlost : ∀ b ∈ lost, b.2 = false) :
    Survives (past ++ (run ++ lost)) (kept ++ run) := by
  refine ⟨h.1.append (List.sublist_append_left run lost), ?_⟩
  have hnone : lost.filter Prod.snd = [] := by
    rw [List.filter_eq_nil_iff]
    intro b hb
    rw [hlost b hb]
    decide
  rw [List.filter_append, List.filter_append, hnone, List.append_nil]
  exact h.2.append List.filter_sublist

theorem map_fst_marked (acked : List (ℕ × ℕ)) (g : Segment) :
    (marked acked g).map Prod.fst = g.batches := by
  rw [marked, List.map_map]
  exact map_snd_numberedBatches g.start g.batches

theorem map_fst_batchesOf (s : State) :
    (batchesOf s).map Prod.fst = (s.retired ++ s.live).flatMap Segment.batches := by
  rw [batchesOf, List.map_flatMap]
  simp only [map_fst_marked]

/-- The batches of a segment before a cut and behind it. -/
theorem marked_cut (acked : List (ℕ × ℕ)) (g : Segment) {j : ℕ} (hj : j ≤ g.batches.length) :
    ∃ lost, marked acked g = marked acked { g with batches := g.batches.take j } ++ lost ∧
      ((∀ seq, (g.number, seq) ∈ acked → seq ≤ g.start + j) → ∀ b ∈ lost, b.2 = false) := by
  have hsplit : numberedBatches g.start g.batches = numberedBatches g.start (g.batches.take j) ++
      numberedWith Prod.mk (g.start + 1 + j) (g.batches.drop j) := by
    conv_lhs => rw [← List.take_append_drop j g.batches]
    rw [numberedBatches, numberedWith_append, List.length_take_of_le hj]
    rfl
  refine ⟨_, by rw [marked, hsplit, List.map_append]; rfl, ?_⟩
  intro hacked b hb
  obtain ⟨r, hmem, rfl⟩ := List.mem_map.mp hb
  obtain ⟨seq, muts, -, hlow, -, rfl⟩ := mem_numberedWith hmem
  refine decide_eq_false (fun hin => ?_)
  have := hacked seq hin
  omega

end Kept

/-- The directory after a kill says what the run's batches say, but for some
last ones that were not acknowledged. -/
theorem overlay_history (h : LogInv s) (ha : AckInv Wal.written s) (ht : TablesHold c s)
    (hb : Based b s) (hbase : BaseFlushed s) (hkill : Killed s d) :
    ∃ run lost, batchesOf s = run ++ lost ∧ (∀ x ∈ lost, x.2 = false) ∧
      ∀ k, Agrees s.tree.clock (Disk.overlay d k)
        ((lastWrite k (writes (run.map Prod.fst).flatten)).or ((b.lookup k).or (c k))) := by
  have hloaded := Leaves.loaded hkill
  obtain ⟨l, g, j, hl, hnumber, hj, hrecords, w, hw, hwritten⟩ := records_killed h hkill
  have hg : g ∈ s.live := by simp [hl]
  let g' : Segment := { g with batches := g.batches.take j }
  obtain ⟨lost, hmarked, hlost⟩ := marked_cut s.acked g hj
  obtain ⟨htake, hdrop⟩ := cut_segments h hl j
  have hrun : (((s.retired ++ l).flatMap (marked s.acked) ++ marked s.acked g').map Prod.fst) =
      (s.retired ++ (l ++ [g'])).flatMap Segment.batches := by
    rw [← List.append_assoc, List.flatMap_append (f := Segment.batches), List.flatMap_singleton,
      List.map_append, List.map_flatMap, map_fst_marked]
    simp only [map_fst_marked]
  have hbased : BasedOn b (s.retired ++ (l ++ [g'])) := by
    obtain ⟨n, hn⟩ := hb
    refine ⟨n, ?_⟩
    rw [hl] at hn
    rw [← hn, List.map_append, List.map_append, List.map_append, List.map_append]
    rfl
  refine ⟨(s.retired ++ l).flatMap (marked s.acked) ++ marked s.acked g', lost, ?_, ?_, ?_⟩
  · rw [batchesOf, hl, ← List.append_assoc, List.flatMap_append, List.flatMap_singleton, hmarked,
      List.append_assoc]
  · refine hlost (fun seq hseq => ?_)
    obtain ⟨hknown, -, hreach⟩ := ha.acked _ hseq
    have hle := hreach g hg rfl w hw
    obtain ⟨w', f, hw', -, hback, -⟩ := h.backed g hg
    rw [hw] at hw'
    cases hw'
    omega
  · intro k
    rw [hrun, ← settled_based hbased, Disk.overlay, hrecords, hloaded, hkill.tables, h.version]
    have hbatches : l.flatMap Segment.batches ++ g.batches.take j =
        (l ++ [g']).flatMap Segment.batches := by
      rw [List.flatMap_append, List.flatMap_singleton]
    rw [hbatches, batches_over_tables h htake (hdrop hbase)]
    exact segments_over_tables h ht htake k

end RedisFromScratch.RunHistory
