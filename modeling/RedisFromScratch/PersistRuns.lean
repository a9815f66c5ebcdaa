import RedisFromScratch.GroupCommit
import RedisFromScratch.MemoryStore

/-!
The durable engine over many incarnations. A process opens the directory, which
replays and repairs the log and starts a new segment, then serves clients, and
takes snapshots that trim the log. A kill keeps every byte written and may fall
inside any section; a power cut keeps of each file a prefix with at least its
stable bytes. System calls do not fail.
-/
namespace RedisFromScratch.PersistRuns

open ByteStrings StoreRecords LogRecords SegmentReplay SegmentLog GroupCommit Relation Runs

/-- Where the single snapshot a process may take is. -/
inductive Saving
  | idle
  | writing (lsn : ℕ)
  | trimming (lsn : ℕ)
  deriving DecidableEq, Repr

structure Proc where
  /-- The number the log was opened behind. -/
  start : ℕ
  /-- The number of the snapshot that was loaded, 0 without one. -/
  snapLSN : ℕ
  g : GroupCommit.State
  saving : Saving

inductive Mode
  | down (dir : Dir)
  | up (p : Proc)

/-- A write whose wait for the log returned without an error, and the snapshot
its process had started from. -/
structure Ack where
  lsn : ℕ
  record : LogRecord
  snapLSN : ℕ
  deriving DecidableEq, Repr

structure State where
  mode : Mode
  /-- The number of the newest complete snapshot. -/
  snap : Option ℕ
  acked : List Ack

def init : State := ⟨.down [], none, []⟩

@[simps] def State.setMode (s : State) (m : Mode) : State := { s with mode := m }

@[simps] def Proc.setLog (p : Proc) (l : Log) : Proc := { p with g := p.g.setLog l }

/-- How many leading segments a snapshot up to `safeLSN` makes superfluous. -/
def trimCount (segSeq safeLSN : ℕ) : Dir → ℕ
  | seg :: next :: rest =>
      if seg.seq = segSeq then 0
      else
        match readSegHeader next.data with
        | none => 0
        | some firstLSN =>
            if (safeLSN + 1) % 2 ^ 64 < firstLSN then 0
            else trimCount segSeq safeLSN (next :: rest) + 1
  | _ => 0

/-- Nothing is removed from a directory that cannot be listed. -/
def trimTo (segSeq safeLSN : ℕ) (dir : Dir) : ℕ :=
  if ∀ seg ∈ dir, (readSegHeader seg.data).isSome then trimCount segSeq safeLSN dir else 0

def dropFiles (n : ℕ) (l : Log) : Log := { l with dir := l.dir.drop n }

/-- What a power cut leaves of a file. -/
def Keeps (seg seg' : Segment) : Prop :=
  ∃ m, seg.synced ≤ m ∧ seg' = ⟨seg.seq, seg.data.take m, (seg.data.take m).length⟩

/-- A repaired directory whose truncation has not been made stable. -/
def truncatedOnly (dir repaired : Dir) : Dir :=
  List.zipWith (fun seg seg' => { seg' with synced := min seg.synced seg'.synced }) dir repaired

/-- No system call of the log's step fails, and the log is not closed. -/
def NoErrors : GroupCommit.Act → Prop
  | .call _ op => op ≠ .close
  | .section _ op φ => op ≠ .close ∧ ∃ nowMs, φ = SysCalls.succeed nowMs
  | _ => True

inductive Act
  | log (a : GroupCommit.Act)
  | ack (c : ℕ)
  | beginSnapshot
  | commitSnapshot
  | trim
  | kill
  | killInSection (φ : SysCalls)
  | killInTrim
  | powerCut (dir : Dir)
  | killInTruncate
  | killInOpen (φ : SysCalls)
  | openEngine

inductive Step : State → Act → State → Prop
  | log (s : State) (p : Proc) (a : GroupCommit.Act) (g : GroupCommit.State)
      (hmode : s.mode = .up p) (hstep : GroupCommit.Step p.g a g) (hio : NoErrors a) :
      Step s (.log a) (s.setMode (.up { p with g }))
  | ack (s : State) (p : Proc) (c m n lsn : ℕ) (rec : LogRecord) (hmode : s.mode = .up p)
      (hpc : p.g.pc c = .returned (.sync m) n) (hle : lsn ≤ n) (hlt : p.start < lsn)
      (hrec : p.g.records[lsn - p.start - 1]? = some rec) :
      Step s (.ack c) { s with acked := ⟨lsn, rec, p.snapLSN⟩ :: s.acked }
  | beginSnapshot (s : State) (p : Proc) (hmode : s.mode = .up p) (hidle : p.saving = .idle) :
      Step s .beginSnapshot
        (s.setMode (.up { p with saving := .writing (p.g.log.nextLSN - 1) }))
  -- the image is complete, stable and renamed into place
  | commitSnapshot (s : State) (p : Proc) (lsn : ℕ) (hmode : s.mode = .up p)
      (hsaving : p.saving = .writing lsn) :
      Step s .commitSnapshot
        { s with mode := .up { p with saving := .trimming lsn }, snap := some lsn }
  | trim (s : State) (p : Proc) (lsn : ℕ) (hmode : s.mode = .up p)
      (hsaving : p.saving = .trimming lsn) :
      Step s .trim (s.setMode (.up
        { p.setLog (dropFiles (trimTo p.g.log.segSeq lsn p.g.log.dir) p.g.log) with
          saving := .idle }))
  | kill (s : State) (p : Proc) (hmode : s.mode = .up p) :
      Step s .kill (s.setMode (.down p.g.log.dir))
  -- the section stops at the first call that did not happen
  | killInSection (s : State) (p : Proc) (c n : ℕ) (op : Op) (φ : SysCalls)
      (hmode : s.mode = .up p) (hpc : p.g.pc c = .calling op n) :
      Step s (.killInSection φ) (s.setMode (.down (op.run φ p.g.log).1.dir))
  | killInTrim (s : State) (p : Proc) (lsn k : ℕ) (hmode : s.mode = .up p)
      (hsaving : p.saving = .trimming lsn) (hk : k ≤ trimTo p.g.log.segSeq lsn p.g.log.dir) :
      Step s .killInTrim (s.setMode (.down (p.g.log.dir.drop k)))
  | powerCut (s : State) (dir dir' : Dir) (hmode : s.mode = .down dir)
      (hkeep : List.Forall₂ Keeps dir dir') :
      Step s (.powerCut dir') (s.setMode (.down dir'))
  | killInTruncate (s : State) (dir : Dir) (r : Replayed) (hmode : s.mode = .down dir)
      (hreplay : replay dir (s.snap.getD 0) = .ok r) :
      Step s .killInTruncate (s.setMode (.down (truncatedOnly dir r.dir)))
  | killInOpen (s : State) (dir : Dir) (r : Replayed) (φ : SysCalls)
      (segmentSize maxBufferBytes : ℕ) (hmode : s.mode = .down dir)
      (hreplay : replay dir (s.snap.getD 0) = .ok r) :
      Step s (.killInOpen φ) (s.setMode
        (.down (openLog φ segmentSize maxBufferBytes r.dir r.state.lastLSN).1.dir))
  | openEngine (s : State) (dir : Dir) (r : Replayed) (nowMs : ℤ)
      (segmentSize maxBufferBytes : ℕ) (l : Log) (hmode : s.mode = .down dir)
      (hreplay : replay dir (s.snap.getD 0) = .ok r)
      (hopen : openLog (SysCalls.succeed nowMs) segmentSize maxBufferBytes r.dir r.state.lastLSN =
        (l, none)) :
      Step s .openEngine (s.setMode
        (.up ⟨r.state.lastLSN, s.snap.getD 0, ⟨l, [], fun _ => .idle⟩, .idle⟩))

end RedisFromScratch.PersistRuns
