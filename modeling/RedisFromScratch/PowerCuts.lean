import RedisFromScratch.FlushedTables

/-!
A power cut. Each log keeps at least its synced bytes, and each is replayed and
cut short on its own. What comes back is a prefix of the history if no log but
the newest can be short, that is, if every log was completely synced before the
next one took its place. A rotation only flushes the old log.
-/
namespace RedisFromScratch.PowerCuts

open ByteStrings FramedLogs SortedTables NewestWins EngineTypes EngineLogs EngineWal SsTables
open Versions LsmTree Compaction TreeContents EngineRuns EngineInvariant EngineSteps EngineWriters
open CrashPoints FlushedTables Relation Runs

variable {F : Type} {o : Options} {sc : Scores F} {policy : SyncPolicy} {s s' : State} {d : Disk}

/-- The batches that are in no table the manifest names, under their numbers. -/
def unflushed (s : State) : List (ℕ × List Mutation) :=
  (s.live.drop (flushedLogs s.tree.job)).flatMap (fun g => numberedBatches g.start g.batches)

/-- What the open of the run replayed and no table the manifest names has. -/
def unflushedBase (s : State) : MemTable :=
  ((s.live.drop (flushedLogs s.tree.job)).head?.map Segment.base).getD Table.empty

/-- What an open finds is the tables and the first unflushed batches. -/
structure RecoversPrefix (s : State) (d : Disk) : Prop where
  ordered : ((unflushed s).map Prod.fst).Pairwise (· < ·)
  recovered : ∀ r, d.recover = .ok r → ∃ n, ∀ k, (d.treeOf r).content k =
    (lastWrite k (writes (((unflushed s).take n).map Prod.snd).flatten)).or
      (((unflushedBase s).lookup k).or (newest (versionSources s.tree.files s.stored.version) k))

/-- The log is completely synced when another one takes its place. -/
def RotatesSynced (s s' : State) : Prop := s'.tree.logNumber ≠ s.tree.logNumber →
  ∀ w, s.wals.lookup s.tree.logNumber = some w → w.synced = w.lastAppended

section Replay

/-- The memtable an open rebuilds holds the records of the logs. -/
theorem mem_of_replayLogs {logs : List (ℕ × LogFile)} {r r' : Recovered}
    (h : replayLogs logs r = .ok r') : r'.mem =
      r.mem.insertAll (writes (logs.flatMap (fun b => logRecords b.2)).flatten) := by
  induction logs generalizing r with
  | nil =>
    cases h
    rfl
  | cons b logs ih =>
    rw [replayLogs] at h
    split at h
    · cases h
    · rename_i p f' hreplay
      have happly : ∀ (mem : MemTable) (batches : List (ℕ × List Mutation)),
          applyBatches mem batches = mem.insertAll (writes (batches.map Prod.snd).flatten) := by
        intro mem batches
        induction batches generalizing mem with
        | nil => rfl
        | cons b batches ih =>
          rw [applyBatches, List.foldl_cons]
          change applyBatches _ batches = _
          rw [ih, List.map_cons, List.flatten_cons, writes_append, Table.insertAll,
            Table.insertAll, Table.insertAll, List.foldl_append]
      rw [ih h, happly, List.flatMap_cons, List.flatten_append, writes_append, logRecords, hreplay,
        Table.insertAll, Table.insertAll, Table.insertAll, List.foldl_append]

/-- The memtable over the tables is the overlay. -/
theorem lookup_recovered {r : Recovered} (h : d.recover = .ok r) (k : Bytes) :
    (r.mem.lookup k).or (newest (versionSources d.tables d.loaded.version) k) =
      Disk.overlay d k := by
  rw [mem_of_replayLogs h, Table.lookup_insertAll, Table.lookup_empty, Option.or_none]
  rfl

theorem content_recovered {r : Recovered} (h : d.recover = .ok r) (k : Bytes) :
    (d.treeOf r).content k = Disk.overlay d k := by
  have hcontent : (d.treeOf r).content k =
      (newest [r.mem.entries] k).or (newest (versionSources d.tables d.loaded.version) k) :=
    newest_append _ _ k
  rw [hcontent, newest_cons, newest_nil, Option.or_none]
  exact lookup_recovered h k

theorem recover_ok (h : ∀ b ∈ d.neededLogs, ∃ p, replay b.2 = .ok p) :
    ∃ r, d.recover = .ok r := by
  have hall : ∀ (logs : List (ℕ × LogFile)) (r : Recovered),
      (∀ b ∈ logs, ∃ p, replay b.2 = .ok p) → ∃ r', replayLogs logs r = .ok r' := by
    intro logs
    induction logs with
    | nil => exact fun r _ => ⟨r, rfl⟩
    | cons b logs ih =>
      intro r hb
      obtain ⟨⟨p, f'⟩, hp⟩ := hb b List.mem_cons_self
      rw [replayLogs, hp]
      exact ih _ (fun c hc => hb c (List.mem_cons_of_mem _ hc))
  exact hall _ _ h

end Replay

section Sequence

theorem fst_numberedBatches (start : ℕ) (batches : List (List Mutation)) :
    (numberedBatches start batches).map Prod.fst = List.range' (start + 1) batches.length := by
  unfold numberedBatches
  generalize start + 1 = n
  induction batches generalizing n with
  | nil => rfl
  | cons b batches ih => rw [numberedWith_cons, List.map_cons, ih, List.length_cons,
      List.range'_succ]

/-- The numbers run on from log to log. -/
theorem fst_chained (g : Segment) (gs : List Segment)
    (h : (g :: gs).IsChain (fun a b => b.start = a.start + a.batches.length)) :
    ∃ len, ((g :: gs).flatMap (fun g => numberedBatches g.start g.batches)).map Prod.fst =
      List.range' (g.start + 1) len := by
  induction gs generalizing g with
  | nil => exact ⟨g.batches.length, by simp [fst_numberedBatches]⟩
  | cons g' gs ih =>
    obtain ⟨hnext, hrest⟩ := List.isChain_cons_cons.mp h
    obtain ⟨len, hlen⟩ := ih g' hrest
    refine ⟨g.batches.length + len, ?_⟩
    rw [List.flatMap_cons, List.map_append, hlen, fst_numberedBatches, hnext,
      show g.start + g.batches.length + 1 = g.start + 1 + g.batches.length by omega,
      List.range'_append_1]

theorem unflushed_ordered (h : LogInv s) : ((unflushed s).map Prod.fst).Pairwise (· < ·) := by
  have hchained := h.chained.drop (flushedLogs s.tree.job)
  unfold unflushed
  cases hdrop : s.live.drop (flushedLogs s.tree.job) with
  | nil => exact List.Pairwise.nil
  | cons g gs =>
    rw [hdrop] at hchained
    obtain ⟨len, hlen⟩ := fst_chained g gs hchained
    rw [hlen]
    exact List.pairwise_lt_range'

end Sequence

/-- All logs but the current one are completely synced. -/
def OldSynced (s : State) : Prop := ∀ g ∈ s.live, g.number ≠ s.tree.logNumber →
  ∀ w, s.wals.lookup g.number = some w → w.synced = w.lastAppended

theorem OldSynced.runOp (hs : OldSynced s) (h : LogInv s) (n : ℕ) (op : Op) :
    OldSynced (s.runOp n op) := by
  intro g hg hne w hw
  rw [runOp_live] at hg
  rw [runOp_tree] at hne
  rcases runOp_lookup s n op g.number with ⟨hm, w₁, f₁, hw₁, hf₁, hwal, -⟩ | ⟨hwal, -⟩
  · obtain ⟨w₂, f₂, hw₂, hf₂, hb, -⟩ := h.backed g hg
    have hold := hs g hg hne w₂ hw₂
    rw [← hm, hw₂] at hw₁
    rw [← hm, hf₂] at hf₁
    cases hw₁
    cases hf₁
    rw [hwal] at hw
    cases hw
    obtain ⟨hb', -, hsynced, hlast⟩ := hb.run op
    have hmid := hb'.holds.mid
    have hhigh := hb'.holds.high
    dsimp only at hmid hhigh
    omega
  · rw [hwal] at hw
    exact hs g hg hne w hw

theorem OldSynced.keep (hs : OldSynced s) (hlive : ∀ g ∈ s'.live, g ∈ s.live)
    (hnumber : s'.tree.logNumber = s.tree.logNumber) (hwals : s'.wals = s.wals) :
    OldSynced s' := by
  intro g hg hne w hw
  rw [hnumber] at hne
  rw [hwals] at hw
  exact hs g (hlive g hg) hne w hw

theorem oldSynced_step (h : LogInv s) (hs : OldSynced s)
    (hstep : Guarded (Step o sc policy) RotatesSynced s s') : OldSynced s' := by
  obtain ⟨hstep, hcond⟩ := hstep
  cases hstep with
  | append i muts t w w' hidle hne htree =>
    obtain ⟨l, g, hl, hnumber, -⟩ := h.newest
    have htn : t.logNumber = s.tree.logNumber := by
      cases htree
      rfl
    intro g' hg' hne' w₁ hw₁
    rw [hl, record_concat] at hg'
    rw [htn] at hne'
    rw [Table.lookup_insert, if_neg hne'] at hw₁
    rcases List.mem_append.mp hg' with hold | hnewest
    · exact hs g' (hl ▸ List.mem_append_left _ hold) hne' w₁ hw₁
    · rw [List.mem_singleton] at hnewest
      subst hnewest
      exact absurd hnumber hne'
  | reread | commitFast | create | removeLog => exact hs
  | commit i n seq handle =>
    have hrun : OldSynced (s.runCommit policy handle seq) := by
      unfold State.runCommit
      split
      · exact hs
      · exact hs.runOp h handle _
    exact hrun
  | logOp n op => exact hs.runOp h n op
  | freeze t htree =>
    refine (hs.runOp h s.tree.logNumber .flush).keep (fun g hg => hg) ?_ rfl
    rw [runOp_tree]
    cases htree
    rfl
  | swapLog n w t hfreezing htree =>
    obtain ⟨l, g, hl, hnumber, -⟩ := h.newest
    have hnew := (h.freezing n hfreezing).2.1
    have htn : t.logNumber = n := by
      cases htree with
      | swapLog n' hlock =>
        rw [hfreezing] at hlock
        exact (Option.some.inj hlock).symm
    intro g' hg' hne' w₁ hw₁
    rw [htn] at hne'
    rw [Table.lookup_insert, if_neg hne'] at hw₁
    rcases List.mem_append.mp hg' with hold | hnewest
    · by_cases hcurrent : g'.number = s.tree.logNumber
      · rw [hcurrent] at hw₁
        refine hcond ?_ w₁ hw₁
        dsimp only
        omega
      · exact hs g' hold hcurrent w₁ hw₁
    · rw [List.mem_singleton] at hnewest
      subst hnewest
      exact absurd rfl hne'
  | publish t htree =>
    refine hs.keep (fun g hg => hg) ?_ rfl
    cases htree <;> rfl
  | storeLogNumber n m t hjob htree =>
    refine hs.keep (fun g hg => List.mem_of_mem_tail hg) ?_ rfl
    cases htree
    rfl
  | keepLogNumber n m t hjob htree | forgetLogs n m t hjob htree =>
    refine hs.keep (fun g hg => hg) ?_ rfl
    cases htree
    rfl
  | quiet a t ha htree => exact hs.keep (fun g hg => hg) (keeps_of_quiet ha htree).logNumber rfl

theorem oldSynced_run {s₀ : State} (h₀ : Started s₀)
    (hrun : ReflTransGen (Guarded (Step o sc policy) RotatesSynced) s₀ s) :
    LogInv s ∧ OldSynced s := by
  refine run_preserves (fun s => LogInv s ∧ OldSynced s)
    (fun _ _ h hstep => ⟨inv_step h.1 hstep.1, oldSynced_step h.1 h.2 hstep⟩) hrun
    ⟨started_inv h₀, ?_⟩
  intro g hg hne
  obtain ⟨start, -, hlive, -⟩ := h₀.live
  rw [hlive, List.mem_singleton] at hg
  subst hg
  exact absurd rfl hne

section Cut

/-- The synced part of a log holds what the counter says. -/
theorem synced_length {w : Wal} {f : LogFile} {g : Segment} (hb : Backs w f g) {i : ℕ}
    (hi : i ≤ w.synced - g.start) :
    (logBytes g.number g.start (g.batches.take i)).length ≤ f.synced := by
  have hstable := hb.holds.stable
  rw [hstable, hb.number]
  exact (logBytes_take_mono _ _ _ hi).length_le

/-- All batches of the old logs come back, and the first ones of the newest. -/
theorem records_cut (h : LogInv s) (hs : OldSynced s) (hcut : PowerCut s d) :
    ∃ l g j, s.live = l ++ [g] ∧
      Disk.records d = l.flatMap Segment.batches ++ g.batches.take j := by
  obtain ⟨l, g, j, hl, -, -, hrecords, -⟩ := records_left h hcut
    (fun g hg w f hw hb => by
      have hlen := synced_length hb (Nat.zero_le _)
      rwa [List.take_zero, logBytes_nil, encodeHeader_length] at hlen)
    (fun g hg hne w f hw hb => by
      have hsynced := hs g hg hne w hw
      have hlast := hb.holds.last
      dsimp only at hlast
      have hlen := synced_length hb (i := g.batches.length) (by omega)
      rwa [List.take_length] at hlen)
  exact ⟨l, g, j, hl, hrecords⟩

/-- The first batches of the live logs over the tables are the first unflushed
batches over them. -/
theorem overlay_unflushed (h : LogInv s) {l : List Segment} {g : Segment} (hl : s.live = l ++ [g])
    (j : ℕ) : ∃ n, ∀ k,
    (lastWrite k (writes (l.flatMap Segment.batches ++ g.batches.take j).flatten)).or
        (newest (versionSources s.tree.files (storedVersion s.tree)) k) =
      (lastWrite k (writes (((unflushed s).take n).map Prod.snd).flatten)).or
        (newest (versionSources s.tree.files (storedVersion s.tree)) k) := by
  have hfirst : ∀ gs : List Segment, s.live.drop (flushedLogs s.tree.job) = gs ++ [g] →
      ((unflushed s).take ((gs.flatMap Segment.batches).length + j)).map Prod.snd =
        gs.flatMap Segment.batches ++ g.batches.take j := by
    intro gs hgs
    have hsnd : (unflushed s).map Prod.snd = gs.flatMap Segment.batches ++ g.batches := by
      rw [unflushed, hgs, List.map_flatMap]
      simp only [map_snd_numberedBatches, List.flatMap_append, List.flatMap_singleton]
    rw [List.map_take, hsnd, List.take_length_add_append]
  by_cases hone : flushedLogs s.tree.job = 1
  · obtain ⟨g₀, rest, hlive, hne, hin⟩ := flushed_stored h hone
    obtain ⟨l', rfl⟩ : ∃ l', l = g₀ :: l' := by
      rw [hl] at hlive
      cases l with
      | nil =>
        rw [List.nil_append, List.cons_eq_cons] at hlive
        exact absurd hlive.2.symm hne
      | cons a l' =>
        rw [List.cons_append, List.cons_eq_cons] at hlive
        exact ⟨l', by rw [hlive.1]⟩
    refine ⟨(l'.flatMap Segment.batches).length + j, fun k => ?_⟩
    rw [hfirst l' (by rw [hl, hone]; rfl), List.flatMap_cons, List.append_assoc,
      List.flatten_append, writes_append, lastWrite_append, Option.or_assoc]
    congr 1
    cases hk : lastWrite k (writes g₀.batches.flatten) with
    | none => rfl
    | some e => exact (hin k e (by rw [table_entry, hk]; rfl)).symm
  · have hzero : flushedLogs s.tree.job = 0 := by
      unfold flushedLogs at hone ⊢
      split at hone <;> first | exact absurd rfl hone | rfl
    refine ⟨(l.flatMap Segment.batches).length + j, fun k => ?_⟩
    rw [hfirst l (by rw [hl, hzero, List.drop_zero])]

end Cut

theorem unflushedBase_eq (h : BaseFlushed s) : unflushedBase s = Table.empty := by
  unfold unflushedBase
  cases hlive : s.live.drop (flushedLogs s.tree.job) with
  | nil => rfl
  | cons g => exact h g (hlive ▸ List.mem_cons_self)

/-- In every run that rotates its log only when it is completely synced, a power
cut leaves a prefix of the history, once what its open replayed is in a table. -/
theorem power_cut_leaves_history (o : Options) (sc : Scores F) (policy : SyncPolicy)
    (s₀ s : State) (d : Disk) (h₀ : Started s₀)
    (hrun : ReflTransGen (Guarded (Step o sc policy) RotatesSynced) s₀ s) (hbase : BaseFlushed s)
    (hcut : PowerCut s d) : RecoversPrefix s d := by
  obtain ⟨hinv, hsynced⟩ := oldSynced_run h₀ hrun
  have hloaded := Leaves.loaded hcut
  obtain ⟨l, g, j, hl, hrecords⟩ := records_cut hinv hsynced hcut
  obtain ⟨n, hn⟩ := overlay_unflushed hinv hl j
  refine ⟨unflushed_ordered hinv, fun r hr => ⟨n, fun k => ?_⟩⟩
  rw [content_recovered hr, Disk.overlay, hrecords, hloaded, hcut.tables, hinv.version,
    unflushedBase_eq hbase, Table.lookup_empty, Option.none_or]
  exact hn k

section Example

open EngineCommit (putK append_one oneAppended)
open TreeSteps (eagerOptions wholeScores oneWrite)

theorem powerCut_onDisk (h : ∀ n f, s.logs.lookup n = some f → f.synced ≤ f.data.length) :
    PowerCut s (onDisk s) where
  manifest := rfl
  tables := rfl
  logs n f' hf' := ⟨f', hf', List.prefix_append _ _, h n f' hf'⟩
  names _ f hf := ⟨f, hf⟩

/-- One record in memory, and a cut that leaves the header of its log. -/
theorem cut_of_one_record : ∃ s d,
    ReflTransGen (Guarded (Step eagerOptions wholeScores .everySecond) RotatesSynced)
      (EngineRuns.init 0) s ∧ PowerCut s d ∧ unflushed s = [(1, putK)] ∧ RecoversPrefix s d := by
  have hrun : ReflTransGen (Guarded (Step eagerOptions wholeScores .everySecond) RotatesSynced)
      (EngineRuns.init 0) (oneRecord (.committing 1 1 1) []) :=
    oneRecord_run RotatesSynced (fun a b hsame hne => absurd hsame hne)
  have hcut : PowerCut (oneRecord (.committing 1 1 1) [])
      (onDisk (oneRecord (.committing 1 1 1) [])) := by
    refine powerCut_onDisk (fun n f hf => ?_)
    change (Table.empty.insert 1 (headerFile 1 0)).lookup n = some f at hf
    rw [Table.lookup_insert] at hf
    split at hf
    · cases hf
      exact le_rfl
    · cases hf
  have hbase : BaseFlushed (oneRecord (.committing 1 1 1) []) := by
    intro g hg
    rw [List.mem_singleton.mp (List.mem_of_mem_drop hg)]
  exact ⟨_, _, hrun, hcut, rfl, power_cut_leaves_history eagerOptions wholeScores .everySecond _ _ _
    (init_started 0) hrun hbase hcut⟩

def putL : List Mutation := [⟨[108], .put ⟨[118], 0⟩⟩]

theorem putL_size : (encodeBatch putL).length = 7 := by decide +kernel

theorem putL_fits : BatchFits putL := by
  refine ⟨fun m hm => ?_, by rw [putL_size]; decide⟩
  rw [List.mem_singleton.mp hm]
  exact ⟨by decide, by decide⟩

/-- The second log with its record, in memory and synced. -/
def secondAppended : Wal := ⟨2, framing.encode (recOf 2 putL), 3, 2, 1, 1⟩

def secondSynced : Log :=
  ⟨⟨2, [], 3, 2, 2, 2⟩, ⟨logBytes 2 1 [putL], (logBytes 2 1 [putL]).length⟩, false⟩

theorem append_second : (Wal.create 2 1).append putL = some secondAppended := by
  rw [Wal.append, if_neg (by rw [putL_size]; decide)]
  rfl

theorem sync_second :
    (Op.run Io.fine .syncAll ⟨secondAppended, headerFile 2 1, false⟩).1 = secondSynced := by
  have hne := EngineLogs.encode_ne_nil (recOf 2 putL)
  simp [Op.run, Op.Drains, secondAppended, Log.syncLocked, Log.drain, hne, Io.fine, secondSynced,
    headerFile, logBytes]

/-- A record in each of two logs. -/
def secondRecord (writer : EngineRuns.Writer) : State :=
  { rotated writer with
    tree := { (rotated writer).tree with active := Table.empty.insertAll (writes putL) }
    wals := (rotated writer).wals.insert 2 secondAppended
    writer := Function.update (rotated writer).writer 1 (.appended 2 2)
    live := [⟨1, 0, [putK], Table.empty⟩, ⟨2, 1, [putL], Table.empty⟩] }

/-- The same with the second log synced. -/
def twoLogs (writer : EngineRuns.Writer) : State :=
  { secondRecord writer with
    logs := (rotated writer).logs.insert 2 secondSynced.file
    wals := (secondRecord writer).wals.insert 2 secondSynced.wal }

theorem twoLogs_run (writer : EngineRuns.Writer) :
    ReflTransGen (Step eagerOptions wholeScores policy) (rotated writer) (twoLogs writer) := by
  have happend : Step eagerOptions wholeScores policy (rotated writer) (secondRecord writer) :=
    .append (rotated writer) 1 putL _ (Wal.create 2 1) secondAppended rfl
      (List.cons_ne_nil _ _) (.append _ putL rfl) rfl append_second putL_fits (by decide)
  have hsync : Step eagerOptions wholeScores policy (secondRecord writer) _ :=
    .logOp (secondRecord writer) 2 .syncAll
  have hop : (secondRecord writer).runOp 2 .syncAll = twoLogs writer := by
    rw [twoLogs, ← sync_second]
    rfl
  rw [hop] at hsync
  exact .tail (.single happend) hsync

theorem replay_secondSynced : ∃ cut f,
    replay secondSynced.file = .ok (⟨[(2, putL)], 2, cut⟩, f) :=
  replay_whole 2 (logBytes 2 1 [putL]).length (fun b hb => List.mem_singleton.mp hb ▸ putL_fits)
    (show 1 + 1 + [putL].length ≤ 2 ^ 64 by decide)

/-- The first log has lost its record, the second has its own. -/
def shortened (writer : EngineRuns.Writer) : Disk :=
  ⟨some (twoLogs writer).stored,
    (Table.empty.insert 1 (headerFile 1 0)).insert 2 secondSynced.file, (twoLogs writer).tree.files⟩

theorem shortened_cut (writer : EngineRuns.Writer) :
    PowerCut (twoLogs writer) (shortened writer) := by
  have hone : (twoLogs writer).logs.lookup 1 = some flushedLog.file := rfl
  have htwo : (twoLogs writer).logs.lookup 2 = some secondSynced.file := rfl
  refine ⟨rfl, rfl, ?_, ?_⟩
  · intro n f' hf'
    change ((Table.empty.insert 1 (headerFile 1 0)).insert 2 secondSynced.file).lookup n =
      some f' at hf'
    rw [Table.lookup_insert, Table.lookup_insert] at hf'
    split at hf'
    · rename_i hn
      subst hn
      cases hf'
      exact ⟨_, htwo, List.prefix_append _ _, le_rfl⟩
    split at hf'
    · rename_i hn
      subst hn
      cases hf'
      refine ⟨_, hone, ?_, ?_⟩
      · exact (List.prefix_append _ _).trans (List.prefix_append _ _)
      · exact (encodeHeader_length 1 0).ge
    · cases hf'
  · intro n f hf
    change ((((EngineRuns.init 0).logs.insert 1 flushedLog.file).insert 2 (headerFile 2 1)).insert 2
      secondSynced.file).lookup n = some f at hf
    rw [Table.lookup_insert] at hf
    split at hf
    · rename_i hn
      subst hn
      exact ⟨_, rfl⟩
    rw [Table.lookup_insert] at hf
    split at hf
    · rename_i hno hn
      exact absurd hn hno
    rw [Table.lookup_insert] at hf
    split at hf
    · rename_i hn
      subst hn
      exact ⟨_, rfl⟩
    · rename_i hn
      change (Table.empty.insert 1 (headerFile 1 0)).lookup n = some f at hf
      rw [Table.lookup_insert, if_neg hn] at hf
      cases hf

/-- A log is rotated away unsynced, and the next one is synced: the cut takes
the first record and leaves the second. -/
theorem cut_drops_earlier_record : ∃ s d,
    ReflTransGen (Step eagerOptions wholeScores .everySecond) (EngineRuns.init 0) s ∧
      PowerCut s d ∧ ¬ RecoversPrefix s d := by
  have hfirst : ReflTransGen (Step eagerOptions wholeScores .everySecond) (EngineRuns.init 0) _ :=
    guarded_run_is_run (oneRecord_run (fun _ _ => True) (fun _ _ _ => trivial))
  have hrun := (hfirst.trans (rotated_run _)).trans (twoLogs_run _)
  refine ⟨_, _, hrun, shortened_cut _, fun hprefix => ?_⟩
  have hempty : logRecords (headerFile 1 0) = [] :=
    logRecords_header (by decide) List.prefix_rfl
  have hsecond : logRecords secondSynced.file = [putL] :=
    logRecords_whole 2 _ (fun b hb => List.mem_singleton.mp hb ▸ putL_fits) (by decide)
  have hrecords : Disk.records (shortened (.committing 1 1 1)) = [putL] := by
    have hlogs : Disk.records (shortened (.committing 1 1 1)) =
        logRecords (headerFile 1 0) ++ (logRecords secondSynced.file ++ []) := rfl
    rw [hlogs, hempty, hsecond]
    rfl
  obtain ⟨r, hr⟩ : ∃ r, (shortened (.committing 1 1 1)).recover = .ok r := by
    refine recover_ok (fun b hb => ?_)
    have hlogs : (shortened (.committing 1 1 1)).neededLogs =
        [(1, headerFile 1 0), (2, secondSynced.file)] := rfl
    rw [hlogs, List.mem_cons, List.mem_singleton] at hb
    rcases hb with rfl | rfl
    · obtain ⟨cut, f, hreplay⟩ := replay_header 1 (encodeHeader 1 0).length
        (show 0 < 2 ^ 64 by decide)
      exact ⟨_, hreplay⟩
    · obtain ⟨cut, f, hreplay⟩ := replay_secondSynced
      exact ⟨_, hreplay⟩
  obtain ⟨n, hn⟩ := hprefix.recovered r hr
  have hk := hn [107]
  have hl := hn [108]
  rw [content_recovered hr, Disk.overlay, hrecords] at hk hl
  have hunflushed : unflushed (twoLogs (.committing 1 1 1)) = [(1, putK), (2, putL)] := rfl
  rw [hunflushed] at hk hl
  rcases n with _ | _ | n
  · cases hl
  · cases hk
  · rw [List.take_of_length_le (by simp)] at hk
    cases hk

end Example

end RedisFromScratch.PowerCuts
