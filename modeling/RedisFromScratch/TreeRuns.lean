import RedisFromScratch.CompactionAgreement
import RedisFromScratch.Runs
import Mathlib.Tactic.Simps.Basic

/-!
A running tree. Writers fill the active memtable and freeze it; one background
job at a time flushes the oldest frozen memtable or compacts; readers take the
memtables at one instant and a counted reference to the version at a later one.
A superseded version is parked with the files it retires, and a sweep drops the
oldest parked versions that nobody refers to before it unlinks their files.
-/
namespace RedisFromScratch.TreeRuns

open ByteStrings SortedTables EngineTypes SsTables Versions LsmTree Compaction
open CompactionAgreement Relation
open StoreRecords (Record)

/-- A counted reference. All references to one installed version bear its number. -/
structure Handle where
  id : ℕ
  version : Version

structure PendingDelete where
  handle : Handle
  files : List ℕ

/-- What a version is installed for. A compaction reads the clock for each key. -/
inductive Work
  | flush (frozen : Frozen)
  | compaction (plan : Plan) (now : Bytes → ℤ)

def Work.retired : Work → List ℕ
  | .flush _ => []
  | .compaction plan _ => plan.sources.map FileMeta.number

/-- Where the holder of the compaction lock is. -/
inductive Job
  | idle
  | flushing (number : ℕ) (frozen : Frozen)
  | flushed (number : ℕ) (frozen : Frozen) (table : SsTable)
  /-- Some outputs are complete, one may be half written. -/
  | merging (plan : Plan) (now : Bytes → ℤ) (done : List (ℕ × SsTable)) (writing : Option ℕ)
      (todo : List SsTable)
  /-- The manifest names the next version; readers still get the old one. -/
  | publishing (next : Version) (work : Work)
  | parking (parked : PendingDelete) (work : Work)
  | retiring (frozen : Frozen)
  /-- The memtable is gone; logs below `stillNeeded` are superseded. -/
  | retired (logNumber stillNeeded : ℕ)
  | forgetting (logNumber stillNeeded : ℕ)

/-- A reader: a point read at one of its stages, or a scan that has its version. -/
inductive Reader
  | idle
  | asked (key : Bytes) (nowMs : ℤ)
  | missed (key : Bytes) (nowMs : ℤ)
  | reading (handle : Handle) (key : Bytes) (nowMs : ℤ) (todo : List FileMeta)
  | done (key : Bytes) (nowMs : ℤ) (result : Except EngineError (Option Record))
  | holding (handle : Handle)

def Reader.holds : Reader → Option Handle
  | .reading h _ _ _ => some h
  | .holding h => some h
  | _ => none

structure State where
  active : MemTable
  /-- Newest first. -/
  immutable : List Frozen
  version : Version
  files : TableFiles
  nextFileNumber : ℕ
  /-- The number of the log that backs the active memtable. -/
  logNumber : ℕ
  /-- A freeze that holds the memtable lock and has its new log's number. -/
  freezing : Option ℕ
  job : Job
  installs : ℕ
  pending : List PendingDelete
  /-- Files that sweeps are going to unlink. -/
  doomed : List ℕ
  pointers : Table ℕ Bytes
  clock : ℤ
  reader : ℕ → Reader

def State.tree (s : State) : Tree := ⟨s.active, s.immutable, s.version, s.files⟩

def State.handle (s : State) : Handle := ⟨s.installs, s.version⟩

def State.Held (s : State) (id : ℕ) : Prop := ∃ i h, (s.reader i).holds = some h ∧ h.id = id

@[simps] def State.setReader (s : State) (i : ℕ) (r : Reader) : State :=
  { s with reader := Function.update s.reader i r }

/-- Level 0, then the one candidate of each deeper level. -/
def candidates (v : Version) (key : Bytes) : List FileMeta :=
  v.level 0 ++ (List.range' 1 (v.levelCount - 1)).filterMap (fun l => v.findInLevel l key)

def afterMem (key : Bytes) (nowMs : ℤ) : Option (Option Record) → Reader
  | some a => .done key nowMs (.ok a)
  | none => .missed key nowMs

def afterFile (h : Handle) (key : Bytes) (nowMs : ℤ) (todo : List FileMeta) :
    Except EngineError (Option (Option Record)) → Reader
  | .error e => .done key nowMs (.error e)
  | .ok (some a) => .done key nowMs (.ok a)
  | .ok none => .reading h key nowMs todo

/-- The oldest log a memtable still needs. -/
def stillNeeded (immutable : List Frozen) (logNumber : ℕ) : ℕ :=
  (immutable.getLast?.map Frozen.logNumber).getD logNumber

def Work.next : Work → Job
  | .flush frozen => .retiring frozen
  | .compaction _ _ => .idle

def Work.pointers (pointers : Table ℕ Bytes) : Work → Table ℕ Bytes
  | .flush _ => pointers
  | .compaction plan _ =>
      match plan.inputs.getLast? with
      | some last => pointers.insert plan.level last.maxKey
      | none => pointers

inductive Act
  | append (muts : List Mutation)
  | allocateLog
  | swapLog
  | startFlush
  | finishTable
  | discardTable
  | startCompaction
  | openOutput
  | closeOutput
  | publish
  | swapVersion
  | park
  | popFrozen
  | storeLogNumber
  | forgetLogs
  | sweep
  | unlink
  | read
  | tick

variable {F : Type}

inductive Step (o : Options) (sc : Scores F) : State → Act → State → Prop
  | append (s : State) (muts : List Mutation) (hlock : s.freezing = none) :
      Step o sc s (.append muts) { s with active := s.active.insertAll (writes muts) }
  -- a freeze keeps the memtable lock while it flushes the old log and creates the new one
  | allocateLog (s : State) (hlock : s.freezing = none) (hne : s.active.entries ≠ []) :
      Step o sc s .allocateLog
        { s with nextFileNumber := s.nextFileNumber + 1, freezing := some s.nextFileNumber }
  | swapLog (s : State) (n : ℕ) (hlock : s.freezing = some n) :
      Step o sc s .swapLog { s with
        active := Table.empty
        immutable := ⟨s.logNumber, s.active⟩ :: s.immutable
        logNumber := n
        freezing := none }
  | startFlush (s : State) (frozen : Frozen) (hjob : s.job = .idle) (hlock : s.freezing = none)
      (hlast : s.immutable.getLast? = some frozen) :
      Step o sc s .startFlush { s with
        nextFileNumber := s.nextFileNumber + 1
        files := s.files.insert s.nextFileNumber none
        job := .flushing s.nextFileNumber frozen }
  | finishTable (s : State) (n : ℕ) (frozen : Frozen) (t : SsTable)
      (hjob : s.job = .flushing n frozen)
      (ht : writeTable o.tuning frozen.table.entries = some t) :
      Step o sc s .finishTable
        { s with files := s.files.insert n (some t), job := .flushed n frozen t }
  | discardTable (s : State) (n : ℕ) (frozen : Frozen) (t : SsTable)
      (hjob : s.job = .flushed n frozen t) (hempty : t.summary.entryCount = 0) :
      Step o sc s .discardTable { s with files := s.files.erase n, job := .retiring frozen }
  | publishFlush (s : State) (n : ℕ) (frozen : Frozen) (t : SsTable)
      (hjob : s.job = .flushed n frozen t) (hne : t.summary.entryCount ≠ 0) :
      Step o sc s .publish { s with
        job := .publishing (s.version.addFile 0 (.fromTable n t.summary)) (.flush frozen) }
  -- the readings of the clock are named here and bounded when the merge is over
  | startCompaction (s : State) (plan : Plan) (now : Bytes → ℤ) (outs : List SsTable)
      (hjob : s.job = .idle) (hpick : pickCompaction o sc s.pointers s.version = some plan)
      (houts : outputTables o s.files s.version plan now = .ok outs) :
      Step o sc s .startCompaction { s with job := .merging plan now [] none outs }
  | openOutput (s : State) (plan : Plan) (now : Bytes → ℤ) (done : List (ℕ × SsTable))
      (todo : List SsTable) (hjob : s.job = .merging plan now done none todo) (hne : todo ≠ []) :
      Step o sc s .openOutput { s with
        nextFileNumber := s.nextFileNumber + 1
        files := s.files.insert s.nextFileNumber none
        job := .merging plan now done (some s.nextFileNumber) todo }
  | closeOutput (s : State) (plan : Plan) (now : Bytes → ℤ) (done : List (ℕ × SsTable)) (n : ℕ)
      (t : SsTable) (todo : List SsTable)
      (hjob : s.job = .merging plan now done (some n) (t :: todo)) :
      Step o sc s .closeOutput { s with
        files := s.files.insert n (some t)
        job := .merging plan now (done ++ [(n, t)]) none todo }
  | publishCompaction (s : State) (plan : Plan) (now : Bytes → ℤ) (done : List (ℕ × SsTable))
      (next : Version) (hjob : s.job = .merging plan now done none [])
      (hclock : ∀ k, now k ≤ s.clock)
      (hnext : installVersion s.version plan (done.map outputMeta) = .ok next) :
      Step o sc s .publish { s with job := .publishing next (.compaction plan now) }
  | swapVersion (s : State) (next : Version) (w : Work) (hjob : s.job = .publishing next w) :
      Step o sc s .swapVersion { s with
        version := next
        installs := s.installs + 1
        job := .parking ⟨s.handle, w.retired⟩ w }
  | park (s : State) (p : PendingDelete) (w : Work) (hjob : s.job = .parking p w) :
      Step o sc s .park { s with
        pending := s.pending ++ [p]
        pointers := w.pointers s.pointers
        job := w.next }
  | popFrozen (s : State) (frozen : Frozen) (hjob : s.job = .retiring frozen)
      (hlock : s.freezing = none) :
      Step o sc s .popFrozen { s with
        immutable := s.immutable.dropLast
        job := .retired frozen.logNumber (stillNeeded s.immutable.dropLast s.logNumber) }
  | storeLogNumber (s : State) (n m : ℕ) (hjob : s.job = .retired n m) :
      Step o sc s .storeLogNumber { s with job := .forgetting n m }
  | forgetLogs (s : State) (n m : ℕ) (hjob : s.job = .forgetting n m) :
      Step o sc s .forgetLogs { s with job := .idle }
  -- the background thread may itself hold one of the later versions
  | sweep (s : State) (releasable rest : List PendingDelete)
      (hpending : s.pending = releasable ++ rest)
      (hfree : ∀ p ∈ releasable, ¬ s.Held p.handle.id) :
      Step o sc s .sweep
        { s with pending := rest, doomed := s.doomed ++ releasable.flatMap PendingDelete.files }
  | unlink (s : State) (n : ℕ) (hdoomed : n ∈ s.doomed) :
      Step o sc s .unlink { s with files := s.files.erase n, doomed := s.doomed.erase n }
  | ask (s : State) (i : ℕ) (key : Bytes) (nowMs : ℤ) (hidle : s.reader i = .idle) :
      Step o sc s .read (s.setReader i (.asked key nowMs))
  | readMem (s : State) (i : ℕ) (key : Bytes) (nowMs : ℤ) (hpc : s.reader i = .asked key nowMs)
      (hlock : s.freezing = none) :
      Step o sc s .read
        (s.setReader i (afterMem key nowMs (lookupMem s.active s.immutable key nowMs)))
  | clone (s : State) (i : ℕ) (key : Bytes) (nowMs : ℤ) (hpc : s.reader i = .missed key nowMs) :
      Step o sc s .read
        (s.setReader i (.reading s.handle key nowMs (candidates s.version key)))
  | readFile (s : State) (i : ℕ) (h : Handle) (key : Bytes) (nowMs : ℤ) (f : FileMeta)
      (todo : List FileMeta) (hpc : s.reader i = .reading h key nowMs (f :: todo)) :
      Step o sc s .read
        (s.setReader i (afterFile h key nowMs todo (lookupFile s.files f key nowMs)))
  | readEnd (s : State) (i : ℕ) (h : Handle) (key : Bytes) (nowMs : ℤ)
      (hpc : s.reader i = .reading h key nowMs []) :
      Step o sc s .read (s.setReader i (.done key nowMs (.ok none)))
  | answered (s : State) (i : ℕ) (key : Bytes) (nowMs : ℤ)
      (result : Except EngineError (Option Record)) (hpc : s.reader i = .done key nowMs result) :
      Step o sc s .read (s.setReader i .idle)
  | hold (s : State) (i : ℕ) (hidle : s.reader i = .idle) :
      Step o sc s .read (s.setReader i (.holding s.handle))
  | drop (s : State) (i : ℕ) (h : Handle) (hpc : s.reader i = .holding h) :
      Step o sc s .read (s.setReader i .idle)
  | tick (s : State) (later : ℤ) (hle : s.clock ≤ later) :
      Step o sc s .tick { s with clock := later }

/-- Some action. -/
def Moves (o : Options) (sc : Scores F) (s s' : State) : Prop := ∃ a, Step o sc s a s'

/-- What opening a directory leaves: the tables its version names and no others,
and no work under way. -/
structure Opened (s : State) : Prop where
  wellFormed : WellFormed s.files s.version
  numbers : ∀ n x, s.files.lookup n = some x → n < s.nextFileNumber
  immutable : s.immutable = []
  freezing : s.freezing = none
  job : s.job = .idle
  pending : s.pending = []
  doomed : s.doomed = []
  readers : ∀ i, s.reader i = .idle

/-- The tree of an empty directory, whose first file is its log. -/
def init (clock : ℤ) : State where
  active := Table.empty
  immutable := []
  version := Version.new
  files := Table.empty
  nextFileNumber := 2
  logNumber := 1
  freezing := none
  job := .idle
  installs := 0
  pending := []
  doomed := []
  pointers := Table.empty
  clock := clock
  reader := fun _ => .idle

theorem init_opened (clock : ℤ) : Opened (init clock) where
  wellFormed := ⟨Version.new_ordered, fun l f hf => by
    rw [init, Version.level_new] at hf
    cases hf⟩
  numbers n x h := by cases h
  immutable := rfl
  freezing := rfl
  job := rfl
  pending := rfl
  doomed := rfl
  readers _ := rfl

def Reachable (o : Options) (sc : Scores F) (s : State) : Prop :=
  ∃ s₀, Opened s₀ ∧ ReflTransGen (Moves o sc) s₀ s

end RedisFromScratch.TreeRuns
