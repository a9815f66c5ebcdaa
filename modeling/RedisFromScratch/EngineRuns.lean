import RedisFromScratch.EngineWal
import RedisFromScratch.TreeContents

/-!
The engine and its directory. A write appends to the log and to the memtable
under one lock, then looks up the current log again and commits there. A freeze
flushes the old log, takes a number and creates the new log before it swaps. The
manifest is replaced when a version is published and when a log is retired. A
kill leaves the files with what was written to them; a power cut may take back
what was not synced.
-/
namespace RedisFromScratch.EngineRuns

open ByteStrings SortedTables NewestWins EngineTypes EngineLogs EngineWal SsTables Versions LsmTree
open Compaction Relation

/-- The batches of one log, in order, numbered from behind `start`, and what its
memtable held before. -/
structure Segment where
  number : ℕ
  start : ℕ
  batches : List (List Mutation)
  base : MemTable

/-- A write past its critical section, with the log and number of its record. -/
inductive Writer
  | idle
  | appended (log seq : ℕ)
  /-- It has looked up the log to commit to. -/
  | committing (log seq handle : ℕ)

structure State where
  tree : TreeRuns.State
  /-- The manifest in the directory. The one in memory differs in the next file number. -/
  stored : Manifest
  logs : Table ℕ LogFile
  wals : Table ℕ Wal
  writer : ℕ → Writer
  /-- What the logs from the manifest's log number on stand for, oldest first. -/
  live : List Segment
  /-- Those of earlier logs of the run. -/
  retired : List Segment
  /-- The records of acknowledged writes: log and number. -/
  acked : List (ℕ × ℕ)

/-- Run an operation on an open log; one whose file is gone has no effect here. -/
def State.runOp (s : State) (n : ℕ) (op : Op) : State :=
  match s.wals.lookup n, s.logs.lookup n with
  | some w, some f =>
      let l := (op.run Io.fine ⟨w, f, false⟩).1
      { s with wals := s.wals.insert n l.wal, logs := s.logs.insert n l.file }
  | _, _ => s

def State.runCommit (s : State) (policy : SyncPolicy) (handle seq : ℕ) : State :=
  match commitOp seq policy with
  | none => s
  | some op => s.runOp handle op

/-- A batch joins the newest segment. -/
def record (muts : List Mutation) : List Segment → List Segment
  | [] => []
  | [g] => [{ g with batches := g.batches ++ [muts] }]
  | g :: gs => g :: record muts gs

/-- The manifest written for a published version. -/
def published (m : Manifest) (next : ℕ) : TreeRuns.Job → Manifest
  | .publishing v (.flush frozen) =>
      ⟨next, m.logNumber, max m.lastSequence frozen.table.entries.length, v⟩
  | .publishing v (.compaction _ _) => ⟨next, m.logNumber, m.lastSequence, v⟩
  | _ => m

/-- Actions on the tree that touch neither the logs nor the manifest. -/
def Quiet : TreeRuns.Act → Prop
  | .append _ | .allocateLog | .swapLog | .publish | .storeLogNumber | .forgetLogs => False
  | _ => True

variable {F : Type}

inductive Step (o : Options) (sc : Scores F) (policy : SyncPolicy) : State → State → Prop
  | append (s : State) (i : ℕ) (muts : List Mutation) (t : TreeRuns.State) (w w' : Wal)
      (hidle : s.writer i = .idle) (hne : muts ≠ [])
      (htree : TreeRuns.Step o sc s.tree (.append muts) t)
      (hwal : s.wals.lookup s.tree.logNumber = some w) (happend : w.append muts = some w')
      -- times are 64-bit integers, and the sequence numbers have not run out
      (hfits : BatchFits muts) (hseq : w.nextSeq + 1 < 2 ^ 64) :
      Step o sc policy s { s with
        tree := t
        wals := s.wals.insert s.tree.logNumber w'
        writer := Function.update s.writer i (.appended s.tree.logNumber w.nextSeq)
        live := record muts s.live }
  | reread (s : State) (i n seq : ℕ) (hpc : s.writer i = .appended n seq)
      (hlock : s.tree.freezing = none) :
      Step o sc policy s { s with
        writer := Function.update s.writer i (.committing n seq s.tree.logNumber) }
  | commit (s : State) (i n seq handle : ℕ) (hpc : s.writer i = .committing n seq handle) :
      Step o sc policy s { s.runCommit policy handle seq with
        writer := Function.update s.writer i .idle
        acked := s.acked ++ [(n, seq)] }
  -- the look before the lock of the file may find the record written
  | commitFast (s : State) (i n seq handle : ℕ) (w : Wal)
      (hpc : s.writer i = .committing n seq handle) (hpolicy : policy = .everySecond)
      (hwal : s.wals.lookup handle = some w) (hwritten : seq ≤ w.written) :
      Step o sc policy s { s with
        writer := Function.update s.writer i .idle
        acked := s.acked ++ [(n, seq)] }
  -- a sync call, the periodic maintenance, or a buffer that grew too large
  | logOp (s : State) (n : ℕ) (op : Op) : Step o sc policy s (s.runOp n op)
  | freeze (s : State) (t : TreeRuns.State) (htree : TreeRuns.Step o sc s.tree .allocateLog t) :
      Step o sc policy s { s.runOp s.tree.logNumber .flush with tree := t }
  -- the file is created, and its header gets there piece by piece
  | create (s : State) (n : ℕ) (w : Wal) (d : Bytes) (hfreezing : s.tree.freezing = some n)
      (hwal : s.wals.lookup s.tree.logNumber = some w)
      (hd : d <+: encodeHeader n w.lastAppended) :
      Step o sc policy s { s with logs := s.logs.insert n ⟨d, 0⟩ }
  | swapLog (s : State) (n : ℕ) (w : Wal) (t : TreeRuns.State)
      (hfreezing : s.tree.freezing = some n) (htree : TreeRuns.Step o sc s.tree .swapLog t)
      (hwal : s.wals.lookup s.tree.logNumber = some w) :
      Step o sc policy s { s with
        tree := t
        logs := s.logs.insert n (headerFile n w.lastAppended)
        wals := s.wals.insert n (Wal.create n w.lastAppended)
        live := s.live ++ [⟨n, w.lastAppended, [], Table.empty⟩] }
  | publish (s : State) (t : TreeRuns.State) (htree : TreeRuns.Step o sc s.tree .publish t) :
      Step o sc policy s { s with
        tree := t
        stored := published s.stored s.tree.nextFileNumber t.job }
  | storeLogNumber (s : State) (n m : ℕ) (t : TreeRuns.State)
      (hjob : s.tree.job = .retired n m)
      (htree : TreeRuns.Step o sc s.tree .storeLogNumber t) (hne : s.stored.logNumber ≠ m) :
      Step o sc policy s { s with
        tree := t
        stored := ⟨s.tree.nextFileNumber, m, s.stored.lastSequence, s.stored.version⟩
        live := s.live.tail
        retired := s.retired ++ s.live.take 1 }
  | keepLogNumber (s : State) (n m : ℕ) (t : TreeRuns.State) (hjob : s.tree.job = .retired n m)
      (htree : TreeRuns.Step o sc s.tree .storeLogNumber t) (heq : s.stored.logNumber = m) :
      Step o sc policy s { s with tree := t }
  | removeLog (s : State) (n m k : ℕ) (hjob : s.tree.job = .forgetting n m) (hlt : k < m)
      (hle : k ≤ n) :
      Step o sc policy s { s with logs := s.logs.erase k }
  | forgetLogs (s : State) (n m : ℕ) (t : TreeRuns.State) (hjob : s.tree.job = .forgetting n m)
      (htree : TreeRuns.Step o sc s.tree .forgetLogs t)
      (hgone : ∀ k, k < m → k ≤ n → s.logs.lookup k = none) :
      Step o sc policy s { s with tree := t }
  | quiet (s : State) (a : TreeRuns.Act) (t : TreeRuns.State) (ha : Quiet a)
      (htree : TreeRuns.Step o sc s.tree a t) : Step o sc policy s { s with tree := t }

/-- A directory. -/
structure Disk where
  manifest : Option Manifest
  logs : Table ℕ LogFile
  tables : TableFiles

/-- The bytes of a log that have not been handed to the file. -/
def State.buffered (s : State) (n : ℕ) : Bytes := ((s.wals.lookup n).map Wal.bytes).getD []

/-- What the end of the process leaves. A write under way may have got through
in part, and of each log at least `floor` bytes stay. -/
structure Leaves (floor : LogFile → ℕ) (s : State) (d : Disk) : Prop where
  manifest : d.manifest = some s.stored
  tables : d.tables = s.tree.files
  logs : ∀ n f', d.logs.lookup n = some f' → ∃ f, s.logs.lookup n = some f ∧
    f'.data <+: f.data ++ s.buffered n ∧ floor f ≤ f'.data.length
  names : ∀ n f, s.logs.lookup n = some f → ∃ f', d.logs.lookup n = some f'

/-- A killed process leaves every byte it wrote. -/
def Killed : State → Disk → Prop := Leaves (fun f => f.data.length)

/-- A power cut leaves what was synced. -/
def PowerCut : State → Disk → Prop := Leaves LogFile.synced

inductive OpenError
  | log (number : ℕ) (e : LogError)
  deriving DecidableEq, Repr

/-- What the replay loop of an open carries from log to log. -/
structure Recovered where
  mem : MemTable
  lastSequence : ℕ
  logs : Table ℕ LogFile

def applyBatches (mem : MemTable) (batches : List (ℕ × List Mutation)) : MemTable :=
  batches.foldl (fun mem b => mem.insertAll (writes b.2)) mem

/-- Replay the logs in the order of their numbers. -/
def replayLogs : List (ℕ × LogFile) → Recovered → Except OpenError Recovered
  | [], r => .ok r
  | (n, f) :: rest, r =>
      match replay f with
      | .error e => .error (.log n e)
      | .ok (p, f') =>
          replayLogs rest ⟨applyBatches r.mem p.batches,
            (p.batches.map Prod.fst).foldl max r.lastSequence, r.logs.insert n f'⟩

def Disk.loaded (d : Disk) : Manifest := d.manifest.getD Manifest.default

theorem Disk.loaded_of_some {d : Disk} {m : Manifest} (h : d.manifest = some m) : d.loaded = m := by
  rw [Disk.loaded, h, Option.getD_some]

theorem Leaves.loaded {floor : LogFile → ℕ} {s : State} {d : Disk} (h : Leaves floor s d) :
    d.loaded = s.stored := Disk.loaded_of_some h.manifest

/-- The logs the manifest still needs, oldest first. -/
def Disk.neededLogs (d : Disk) : List (ℕ × LogFile) :=
  d.logs.entries.filter (fun b => d.loaded.logNumber ≤ b.1)

/-- Rebuild the memtable from the logs. -/
def Disk.recover (d : Disk) : Except OpenError Recovered :=
  replayLogs d.neededLogs ⟨Table.empty, d.loaded.lastSequence, d.logs⟩

/-- The tree an open would serve. -/
def Disk.treeOf (d : Disk) (r : Recovered) : Tree := ⟨r.mem, [], d.loaded.version, d.tables⟩

/-- A run right after its open. -/
structure Started (s : State) : Prop where
  opened : TreeRuns.Opened s.tree
  version : s.stored.version = s.tree.version
  logNumber : s.stored.logNumber = s.tree.logNumber
  number : s.tree.logNumber < s.tree.nextFileNumber
  live : ∃ start, start + 1 < 2 ^ 64 ∧ s.live = [⟨s.tree.logNumber, start, [], s.tree.active⟩] ∧
    s.logs.lookup s.tree.logNumber = some (headerFile s.tree.logNumber start) ∧
    s.wals.lookup s.tree.logNumber = some (Wal.create s.tree.logNumber start)
  only : ∀ n f, s.logs.lookup n = some f → n ≤ s.tree.logNumber
  wals : ∀ n w, s.wals.lookup n = some w → n = s.tree.logNumber
  writer : ∀ i, s.writer i = .idle
  retired : s.retired = []
  acked : s.acked = []

/-- The engine opened on an empty directory. -/
def init (clock : ℤ) : State where
  tree := TreeRuns.init clock
  stored := ⟨2, 1, 0, Version.new⟩
  logs := Table.empty.insert 1 (headerFile 1 0)
  wals := Table.empty.insert 1 (Wal.create 1 0)
  writer := fun _ => .idle
  live := [⟨1, 0, [], Table.empty⟩]
  retired := []
  acked := []

theorem init_started (clock : ℤ) : Started (init clock) where
  opened := TreeRuns.init_opened clock
  version := rfl
  logNumber := rfl
  number := Nat.lt_succ_self 1
  live := ⟨0, by decide, rfl, rfl, rfl⟩
  only n f h := by
    rw [init, Table.lookup_insert] at h
    split at h
    · rename_i heq
      exact heq.le
    · cases h
  wals n w h := by
    rw [init, Table.lookup_insert] at h
    split at h
    · rename_i heq
      exact heq
    · cases h
  writer _ := rfl
  retired := rfl
  acked := rfl

end RedisFromScratch.EngineRuns
