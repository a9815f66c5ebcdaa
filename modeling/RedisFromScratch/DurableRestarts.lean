import RedisFromScratch.FileNumbers
import RedisFromScratch.RunHistory

/-!
Durability over any number of runs. An open replays the logs into a memtable,
and then removes them: until this memtable is flushed, nothing on disk has what
it holds, and a run that ends before loses it. Neither does a directory open
whose newest log has only a part of its header. Where runs end neither way,
every acknowledged batch comes back, in every later run.
-/
namespace RedisFromScratch.DurableRestarts

open ByteStrings SortedTables NewestWins EngineTypes EngineLogs EngineWal SsTables Versions LsmTree
open Compaction TreeContents TreeInvariant EngineRuns EngineInvariant EngineSteps EngineWriters
open CrashPoints FlushedTables PowerCuts AckedWrites EngineRestarts RunHistory Relation Runs

variable {F : Type} {o : Options} {sc : Scores F} {policy : SyncPolicy} {x x' : Sys} {d : Disk}
variable {kept : List (List Mutation × Bool)}

/-- What batches in this order say of a key. -/
def history (batches : List (List Mutation × Bool)) (k : Bytes) : Option Entry :=
  lastWrite k (writes (batches.map Prod.fst).flatten)

theorem history_append (a b : List (List Mutation × Bool)) (k : Bytes) :
    history (a ++ b) k = (history b k).or (history a k) := by
  rw [history, List.map_append, List.flatten_append, writes_append, lastWrite_append]
  rfl

/-- A directory can be opened, and an open engine answers from all acknowledged
batches of earlier runs and possibly some others, in the order of their appends,
and from its own. -/
def Durable (x : Sys) : Prop :=
  match x.phase with
  | .down d => ∃ r, d.recover = .ok r
  | .up s => ∃ kept, Survives x.past kept ∧ ∀ now, s.tree.clock ≤ now → ∀ k,
      s.tree.tree.get k now = .ok (seen now (history (kept ++ batchesOf s) k))
  | _ => True

/-- Runs end only after their open has returned. -/
def EndsServing (x x' : Sys) : Prop := ∀ d, x'.phase = .down d → ∃ s, x.phase = .up s

/-- No run ends with replayed batches in memory only, or inside the header of a
new log. -/
def EndsSettled (x x' : Sys) : Prop := ∀ s d, x.phase = .up s → x'.phase = .down d →
  BaseFlushed s ∧ ∀ n, s.tree.freezing = some n → ∀ f, s.logs.lookup n = some f →
    logHeader ≤ f.data.length

/-- A run that began with a memtable over tables. -/
structure RunInv (b : MemTable) (c : Bytes → Option Entry) (s : State) : Prop where
  log : LogInv s
  writers : WriterInv s
  acks : AckInv Wal.written s
  tables : TablesHold c s
  based : Based b s

theorem runInv_started {s : State} (h : Started s) :
    RunInv s.tree.active (versionEntry s.tree) s where
  log := started_inv h
  writers := started_writers h
  acks := ackInv_started h
  tables := tables_started h
  based := based_started h

theorem runInv_step (hpolicy : policy ≠ .never) {b : MemTable} {c : Bytes → Option Entry}
    {s s' : State} (h : RunInv b c s) (hstep : EngineRuns.Step o sc policy s s') :
    RunInv b c s' where
  log := inv_step h.log hstep
  writers := writers_step hpolicy h.log h.writers hstep
  acks := acks_step (written_reaches hpolicy) h.log h.writers (oldReach_written h.log) h.acks hstep
  tables := tables_step h.log h.tables hstep
  based := based_step h.based hstep

/-- The clock of a run does not go back. -/
theorem clock_run_step {s s' : State} (hstep : EngineRuns.Step o sc policy s s') :
    s.tree.clock ≤ s'.tree.clock := by
  cases hstep with
  | commit i n seq handle =>
    obtain ⟨wals, logs, hrun⟩ := runCommit_frame s policy handle seq
    rw [hrun]
  | logOp => rw [runOp_tree]
  | append i muts t w w' hidle hne htree | freeze t htree | swapLog n w t hfreezing htree
  | publish t htree | storeLogNumber n m t hjob htree | keepLogNumber n m t hjob htree
  | forgetLogs n m t hjob htree | quiet a t ha htree => exact clock_step htree
  | _ => exact le_rfl

/-- Every log a kill leaves can be replayed, if it has its header. -/
theorem recover_killed {s : State} (h : LogInv s) (hkill : Killed s d)
    (hheader : ∀ n, s.tree.freezing = some n → ∀ f, s.logs.lookup n = some f →
      logHeader ≤ f.data.length) : ∃ r, d.recover = .ok r := by
  refine recover_ok (fun b hb => ?_)
  obtain ⟨n, f'⟩ := b
  rcases log_needed h hkill hb with ⟨g, hg, rfl⟩ |
    ⟨hfreezing, f, start, hf, hstart, hpre, hbytes, hlen⟩
  · obtain ⟨w, f, f₁, hw, hback, hf₁, hpre, hlen⟩ := log_left h hkill hg
    rw [(mem_neededLogs.mp hb).1] at hf₁
    cases hf₁
    exact (logRecords_cut hback hpre ((header_length hback).trans hlen)).1
  · have hfull := hheader n hfreezing f hf
    have hdata : f'.data = encodeHeader n start := by
      have hwhole := hpre.trans hbytes
      refine hwhole.eq_of_length (le_antisymm hwhole.length_le ?_)
      rw [encodeHeader_length]
      exact hfull.trans hlen
    obtain ⟨cut, f₁, hreplay⟩ := replay_header n f'.synced hstart
    rw [← hdata] at hreplay
    exact ⟨_, hreplay⟩

/-- What each phase has of the batches kept. -/
def PhaseKeeps (clock : ℤ) (kept : List (List Mutation × Bool)) : Phase → Prop
  | .down d => (∃ r, d.recover = .ok r) ∧ ∀ k, Agrees clock (Disk.overlay d k) (history kept k)
  | .creating y | .created y | .cleaning y => ∀ k, Agrees clock ((y.mem.lookup k).or
      (newest (versionSources y.disk.tables y.manifest.version) k)) (history kept k)
  | .up s => clock ≤ s.tree.clock ∧ ∃ b c, RunInv b c s ∧
      ∀ k, Agrees clock ((b.lookup k).or (c k)) (history kept k)

def Keeps (x : Sys) : Prop := ∃ kept, Survives x.past kept ∧ PhaseKeeps x.clock kept x.phase

/-- A kill passes what the run began with and its own batches on. -/
theorem keeps_kill {s : State} {b : MemTable} {c : Bytes → Option Entry} {clock : ℤ}
    {past : List (List Mutation × Bool)} (hkept : Survives past kept) (h : RunInv b c s)
    (hclock : clock ≤ s.tree.clock)
    (hbegan : ∀ k, Agrees clock ((b.lookup k).or (c k)) (history kept k)) (hbase : BaseFlushed s)
    (hheader : ∀ n, s.tree.freezing = some n → ∀ f, s.logs.lookup n = some f →
      logHeader ≤ f.data.length) (hkill : Killed s d) :
    Keeps ⟨.down d, s.tree.clock, past ++ batchesOf s⟩ := by
  obtain ⟨run, lost, hbatches, hlost, hoverlay⟩ :=
    overlay_history h.log h.acks h.tables h.based hbase hkill
  refine ⟨kept ++ run, ?_, recover_killed h.log hkill hheader, fun k => ?_⟩
  · rw [hbatches]
    exact hkept.append hlost
  · rw [history_append]
    exact (hoverlay k).trans (((hbegan k).mono hclock).under _)

theorem keeps_step (hpolicy : policy ≠ .never) (hok : PhaseOk x.phase) (h : Keeps x)
    (hstep : EngineRestarts.Step o sc policy x x') (hserving : EndsServing x x')
    (hsettled : EndsSettled x x') : Keeps x' := by
  obtain ⟨kept, hkept, hphase⟩ := h
  cases hstep with
  | truncate =>
    obtain ⟨s, hs⟩ := hserving _ rfl
    cases hs
  | killOpen p y clock past hp =>
    obtain ⟨s, hs⟩ := hserving _ rfl
    dsimp only at hs
    rw [hs] at hp
    cases hp
  | load d clock past r hr =>
    refine ⟨kept, hkept, fun k => ?_⟩
    have hoverlay := hphase.2 k
    rw [← lookup_recovered hr] at hoverlay
    exact hoverlay
  | header | create | store | removeLog => exact ⟨kept, hkept, hphase⟩
  | removeTable y clock past n hn =>
    refine ⟨kept, hkept, fun k => ?_⟩
    obtain ⟨hd, hm, -⟩ := hok
    have hwf := hd.wellFormed
    rw [← hm.version] at hwf
    have hsame : newest (versionSources (y.disk.tables.erase n) y.manifest.version) k =
        newest (versionSources y.disk.tables y.manifest.version) k := by
      refine newest_version_congr hwf (fun m hm => ?_) k
      rw [Table.lookup_erase, if_neg]
      rintro rfl
      exact hn hm
    have hbefore := hphase k
    rw [← hsame] at hbefore
    exact hbefore
  | serve y clock later past hlater htables hdebris =>
    obtain ⟨hd, hm, hstored, hlog⟩ := hok
    have hstarted := started_serve hd hm hstored hlog htables hdebris later
    exact ⟨kept, hkept, hlater, _, _, runInv_started hstarted, hphase⟩
  | run s s' clock past hstep =>
    obtain ⟨hclock, b, c, hrun, hbegan⟩ := hphase
    exact ⟨kept, hkept, hclock.trans (clock_run_step hstep), b, c, runInv_step hpolicy hrun hstep,
      hbegan⟩
  | kill s d clock past hkill =>
    obtain ⟨hclock, b, c, hrun, hbegan⟩ := hphase
    obtain ⟨hbase, hheader⟩ := hsettled s d rfl rfl
    exact keeps_kill hkept hrun hclock hbegan hbase hheader hkill

theorem keeps_empty (clock : ℤ) : Keeps (EngineRestarts.empty clock) := by
  refine ⟨[], ⟨List.Sublist.refl _, List.Sublist.refl _⟩, ⟨_, rfl⟩, fun k => ?_⟩
  exact .of_eq rfl

theorem durable_of_keeps (h : Keeps x) : Durable x := by
  obtain ⟨kept, hkept, hphase⟩ := h
  unfold Durable
  cases hp : x.phase with
  | down =>
    rw [hp] at hphase
    exact hphase.1
  | up =>
    rw [hp] at hphase
    obtain ⟨hclock, b, c, hrun, hbegan⟩ := hphase
    refine ⟨kept, hkept, fun now hnow k => ?_⟩
    have hcontent := content_history hrun.log hrun.tables hrun.based k
    rw [← map_fst_batchesOf] at hcontent
    rw [Tree.get_eq_content hrun.log.tree.wellFormed, history_append]
    exact congrArg Except.ok ((hcontent.trans (((hbegan k).mono hclock).under _)) now hnow)
  | _ => trivial

/-- Over any number of runs on a directory, each ended by a close or a kill after
its open has returned, what was acknowledged comes back, if no run ends while
batches an open has replayed are in no table or while a freeze writes the
header of its log. -/
theorem acknowledged_survives_restarts (sc : Scores F) (clock : ℤ) (x : Sys)
    (hrun : ReflTransGen (Guarded (Guarded (AnyStep sc (· ≠ .never)) EndsServing) EndsSettled)
      (EngineRestarts.empty clock) x) : Durable x := by
  have hall : PhaseOk x.phase ∧ Keeps x := by
    refine run_preserves (fun x => PhaseOk x.phase ∧ Keeps x) ?_ hrun
      ⟨phase_empty clock, keeps_empty clock⟩
    rintro a b ⟨hok, hkeeps⟩ ⟨⟨⟨o, policy, hpolicy, hstep⟩, hserving⟩, hsettled⟩
    exact ⟨phase_step hok hstep, keeps_step hpolicy hok hkeeps hstep hserving hsettled⟩
  exact durable_of_keeps hall.2

section Example

open EngineCommit (putK)
open TreeSteps (eagerOptions wholeScores oneWrite)
open FileNumbers (opened_run lift_run)

/-- What an open makes of a directory with one log. -/
def reopened (d : Disk) (r : Recovered) (n : ℕ) : Opening :=
  ((Disk.begin d r).setLog (headerFile d.loaded.nextFileNumber r.lastSequence)).store.removeLog n

theorem reopened_run {r : Recovered} {n : ℕ} (policy : SyncPolicy) (cond : Sys → Sys → Prop)
    (hcond : ∀ a b : Sys, (∀ d, b.phase ≠ .down d) → cond a b) (clock : ℤ)
    (past : List (List Mutation × Bool)) (hr : d.recover = .ok r)
    (hseq : r.lastSequence + 1 < 2 ^ 64)
    (htables : ∀ m t, d.tables.lookup m = some t → Names d.loaded.version m)
    (hneeded : d.neededLogs.map Prod.fst = [n]) (hn : n < d.loaded.nextFileNumber)
    (hlogs : ∀ m f, r.logs.lookup m = some f → m ≤ n) :
    ReflTransGen (Guarded (EngineRestarts.Step eagerOptions wholeScores policy) cond)
      ⟨.down d, clock, past⟩ ⟨.up ((reopened d r n).serve clock), clock, past⟩ := by
  have hload := ReflTransGen.single (r := Guarded (EngineRestarts.Step eagerOptions wholeScores
    policy) cond) ⟨.load d clock past r hr hseq, hcond _ _ nofun⟩
  have hcreate := hload.tail ⟨.create _ clock past, hcond _ _ nofun⟩
  have hstore := hcreate.tail ⟨.store _ clock past, hcond _ _ nofun⟩
  have hmem : n ∈ d.neededLogs.map Prod.fst := by
    rw [hneeded]
    exact List.mem_singleton_self n
  have hremove := hstore.tail ⟨.removeLog _ clock past n (Or.inr ⟨hmem, hn⟩), hcond _ _ nofun⟩
  refine hremove.tail ⟨.serve _ clock clock past le_rfl htables (fun m f hf => ?_)
    (fun m hm _ => ?_), hcond _ _ nofun⟩
  · change ((r.logs.insert d.loaded.nextFileNumber _).erase n).lookup m = some f at hf
    rw [Table.lookup_erase] at hf
    split at hf
    · cases hf
    · rw [Table.lookup_insert] at hf
      split at hf
      · exact le_of_eq ‹_›
      · exact (hlogs m f hf).trans hn.le
  · change m ∈ d.neededLogs.map Prod.fst at hm
    rw [hneeded] at hm
    change ((r.logs.insert _ _).erase n).lookup m = none
    rw [Table.lookup_erase, if_pos (List.mem_singleton.mp hm)]

/-- A run that has acknowledged one write. -/
def firstServed : State :=
  { oneRecord (.committing 1 1 1) [] with
    wals := (oneRecord (.committing 1 1 1) []).wals.insert 1 flushedLog.wal
    logs := (EngineRuns.init 0).logs.insert 1 flushedLog.file
    writer := fun _ => .idle
    acked := [(1, 1)] }

theorem firstServed_run (cond : Sys → Sys → Prop)
    (hcond : ∀ a b : Sys, (∀ d, b.phase ≠ .down d) → cond a b) :
    ReflTransGen (Guarded (EngineRestarts.Step eagerOptions wholeScores .everySecond) cond)
      (EngineRestarts.empty 0) ⟨.up firstServed, 0, []⟩ := by
  have hopen := opened_run .everySecond cond hcond
  have hlift := lift_run cond (acknowledge_oneRecord .everySecond) 0 [] hcond
  have hop : (oneRecord (.committing 1 1 1) []).runCommit .everySecond 1 1 =
      { oneRecord (.committing 1 1 1) [] with
        wals := (oneRecord (.committing 1 1 1) []).wals.insert 1 flushedLog.wal
        logs := (EngineRuns.init 0).logs.insert 1 flushedLog.file } := by
    rw [← flush_oneAppended]
    rfl
  rw [hop] at hlift
  exact hopen.trans hlift

/-- The directory it leaves. -/
def firstDisk : Disk :=
  ⟨some ⟨2, 1, 0, Version.new⟩, (EngineRuns.init 0).logs.insert 1 flushedLog.file, Table.empty⟩

theorem firstDisk_run (cond : Sys → Sys → Prop)
    (hcond : ∀ a b : Sys, (∀ d, b.phase ≠ .down d) → cond a b)
    (hkill : cond ⟨.up firstServed, 0, []⟩ ⟨.down firstDisk, 0, [(putK, true)]⟩) :
    ReflTransGen (Guarded (EngineRestarts.Step eagerOptions wholeScores .everySecond) cond)
      (EngineRestarts.empty 0) ⟨.down firstDisk, 0, [(putK, true)]⟩ :=
  (firstServed_run cond hcond).tail
    ⟨.kill firstServed firstDisk 0 [] (killed_onDisk firstServed), hkill⟩

theorem upto_insert {logs : Table ℕ LogFile} {n : ℕ} (h : ∀ m f, logs.lookup m = some f → m ≤ n)
    (f : LogFile) : ∀ m f', (logs.insert n f).lookup m = some f' → m ≤ n := by
  intro m f' hf'
  rw [Table.lookup_insert] at hf'
  split at hf'
  · exact le_of_eq ‹_›
  · exact h m f' hf'

theorem upto_empty (n : ℕ) : ∀ m f, (Table.empty : Table ℕ LogFile).lookup m = some f → m ≤ n := by
  intro m f hf
  cases hf

/-- What the next open replays. -/
def firstRecovered (f : LogFile) : Recovered :=
  ⟨applyBatches Table.empty [(1, putK)], 1, firstDisk.logs.insert 1 f⟩

theorem firstDisk_recovers : ∃ f, firstDisk.recover = .ok (firstRecovered f) := by
  obtain ⟨cut, f, hreplay⟩ := replay_flushedLog
  have hneeded : firstDisk.neededLogs = [(1, flushedLog.file)] := rfl
  refine ⟨f, ?_⟩
  rw [Disk.recover, hneeded, replayLogs, hreplay]
  rfl

theorem firstDisk_reopened {f : LogFile} (hr : firstDisk.recover = .ok (firstRecovered f))
    (cond : Sys → Sys → Prop) (hcond : ∀ a b : Sys, (∀ d, b.phase ≠ .down d) → cond a b)
    (past : List (List Mutation × Bool)) :
    ReflTransGen (Guarded (EngineRestarts.Step eagerOptions wholeScores policy) cond)
      ⟨.down firstDisk, 0, past⟩
      ⟨.up ((reopened firstDisk (firstRecovered f) 1).serve 0), 0, past⟩ := by
  have hupto : ∀ m f', firstDisk.logs.lookup m = some f' → m ≤ 1 :=
    upto_insert (upto_insert (upto_empty 1) _) _
  exact reopened_run policy cond hcond 0 past hr (show 1 + 1 < 2 ^ 64 by decide)
    (fun m t ht => by cases ht) rfl (show 1 < 2 by decide) (upto_insert hupto f)

/-- A run on that directory that ends at once leaves this one. -/
def secondDisk : Disk :=
  ⟨some ⟨3, 2, 1, Version.new⟩, Table.empty.insert 2 (headerFile 2 1), Table.empty⟩

theorem secondDisk_recovers : ∃ f, secondDisk.recover =
    .ok ⟨Table.empty, 1, secondDisk.logs.insert 2 f⟩ := by
  obtain ⟨cut, f, hreplay⟩ := replay_header 2 (encodeHeader 2 1).length
    (show 1 < 2 ^ 64 by decide)
  have hneeded : secondDisk.neededLogs = [(2, headerFile 2 1)] := rfl
  refine ⟨f, ?_⟩
  rw [Disk.recover, hneeded, replayLogs, headerFile, hreplay]
  rfl

theorem killed_secondDisk (f : LogFile) :
    Killed ((reopened firstDisk (firstRecovered f) 1).serve 0) secondDisk :=
  killed_onDisk ((reopened firstDisk (firstRecovered f) 1).serve 0)

/-- One write, acknowledged in a run that is killed, and found by the next. -/
theorem acknowledged_found_by_next_run : ∃ s,
    ReflTransGen (Guarded (Guarded (AnyStep wholeScores (· ≠ .never)) EndsServing) EndsSettled)
      (EngineRestarts.empty 0) ⟨.up s, 0, [(putK, true)]⟩ ∧ Durable ⟨.up s, 0, [(putK, true)]⟩ := by
  let cond : Sys → Sys → Prop := fun a b => EndsServing a b ∧ EndsSettled a b
  have hup : ∀ a b : Sys, (∀ d, b.phase ≠ .down d) → cond a b := fun a b hup =>
    ⟨fun d hd => absurd hd (hup d), fun s d _ hd => absurd hd (hup d)⟩
  have hkill : cond ⟨.up firstServed, 0, []⟩ ⟨.down firstDisk, 0, [(putK, true)]⟩ := by
    refine ⟨fun _ _ => ⟨_, rfl⟩, ?_⟩
    rintro s' d' ⟨⟩ -
    refine ⟨fun g hg => ?_, fun n hn => by cases hn⟩
    rw [List.mem_singleton.mp (List.mem_of_mem_drop hg)]
  obtain ⟨f, hr⟩ := firstDisk_recovers
  have hrun := (firstDisk_run cond hup hkill).trans (firstDisk_reopened hr cond hup _)
  have hany := anyStep_run (· ≠ .never) (by decide) hrun
  have hall : ReflTransGen (Guarded (Guarded (AnyStep wholeScores (· ≠ .never)) EndsServing)
      EndsSettled) (EngineRestarts.empty 0) _ :=
    ReflTransGen.mono (fun _ _ h => ⟨⟨h.1, h.2.1⟩, h.2.2⟩) _ _ hany
  exact ⟨_, hall, acknowledged_survives_restarts wholeScores 0 _ hall⟩

/-- The open of the second run removes the log of the first, and its own end
takes the memtable: the third run has nothing. -/
theorem acknowledged_lost_by_second_restart : ∃ s,
    ReflTransGen (Guarded (AnyStep wholeScores (· ≠ .never)) EndsServing)
      (EngineRestarts.empty 0) ⟨.up s, 0, [(putK, true)]⟩ ∧
        ¬ Durable ⟨.up s, 0, [(putK, true)]⟩ := by
  have hup : ∀ a b : Sys, (∀ d, b.phase ≠ .down d) → EndsServing a b :=
    fun a b hup d hd => absurd hd (hup d)
  have hfirst := firstDisk_run EndsServing hup (fun _ _ => ⟨_, rfl⟩)
  obtain ⟨f, hr⟩ := firstDisk_recovers
  have hkill : EngineRestarts.Step eagerOptions wholeScores .everySecond
      ⟨.up ((reopened firstDisk (firstRecovered f) 1).serve 0), 0, [(putK, true)]⟩
      ⟨.down secondDisk, 0, [(putK, true)]⟩ :=
    .kill _ secondDisk 0 [(putK, true)] (killed_secondDisk f)
  obtain ⟨f', hr'⟩ := secondDisk_recovers
  have hthird := reopened_run .everySecond EndsServing hup 0 [(putK, true)] hr'
    (show 1 + 1 < 2 ^ 64 by decide) (fun m t ht => by cases ht) rfl (show 2 < 3 by decide)
    (upto_insert (upto_insert (upto_empty 2) _) f')
  have hall := ((hfirst.trans (firstDisk_reopened hr EndsServing hup _)).tail
    ⟨hkill, fun _ _ => ⟨_, rfl⟩⟩).trans hthird
  refine ⟨_, anyStep_run (· ≠ .never) (by decide) hall, fun hdurable => ?_⟩
  obtain ⟨kept, hkept, hget⟩ := hdurable
  have hone : kept = [(putK, true)] := hkept.1.antisymm hkept.2
  have hnone := hget 0 le_rfl [107]
  rw [hone] at hnone
  cases hnone

end Example

end RedisFromScratch.DurableRestarts
