import RedisFromScratch.SegmentReplay

/-!
The segmented log. Records are appended to a buffer and numbered; a drain takes
the whole buffer to the current segment file and rotates a full one. Every
system call may fail: a failed write leaves any prefix of its bytes, and a file
that has been closed refuses everything. Sections under the flush lock are
functions of the log and of what their system calls do.
-/
namespace RedisFromScratch.SegmentLog

open ByteStrings FramedLogs StoreRecords LogRecords SegmentReplay

inductive LogError
  | closed
  | write (seq : ℕ)
  | fsync
  | fsyncBeforeRotate
  | closeSegment (seq : ℕ)
  | createSegment (seq : ℕ)
  | writeHeader
  | fsyncHeader
  | fsyncDir
  deriving DecidableEq, Repr

/-- What the system calls of one section do. A write that fails has written the
given number of bytes. -/
structure SysCalls where
  nowMs : ℤ
  write : Option ℕ
  rotateSync : Bool
  close : Bool
  create : Bool
  header : Option ℕ
  headerSync : Bool
  dirSync : Bool
  fsync : Bool

def SysCalls.succeed (nowMs : ℤ) : SysCalls :=
  ⟨nowMs, none, true, true, true, none, true, true, true⟩

structure Log where
  segmentSize : ℕ
  maxBufferBytes : ℕ
  buf : Bytes
  nextLSN : ℕ
  lastAppended : ℕ
  writtenLSN : ℕ
  syncedLSN : ℕ
  segSeq : ℕ
  segLen : ℕ
  fileOpen : Bool
  fatal : Option LogError
  closed : Bool
  dir : Dir
  /-- Not in the program: a drained buffer did not reach its file completely. -/
  lost : Bool

/-- The first failure is kept. -/
@[simps] def latch (e : LogError) (l : Log) : Log := { l with fatal := some (l.fatal.getD e) }

@[simps] def setClosed (l : Log) : Log := { l with closed := true }

@[simps] def takeBuf (l : Log) : Log := { l with buf := [] }

@[simps] def markLost (l : Log) : Log := { l with lost := true }

@[simps] def closeFile (l : Log) : Log := { l with fileOpen := false }

/-- Bytes reach the end of the current segment file. -/
@[simps] def writeFile (bytes : Bytes) (l : Log) : Log :=
  { l with dir := l.dir.map fun seg =>
      if seg.seq = l.segSeq then { seg with data := seg.data ++ bytes } else seg }

/-- Everything in the current segment file becomes stable. -/
@[simps] def syncFile (l : Log) : Log :=
  { l with dir := l.dir.map fun seg =>
      if seg.seq = l.segSeq then { seg with synced := seg.data.length } else seg }

@[simps] def addFile (seg : Segment) (l : Log) : Log := { l with dir := l.dir ++ [seg] }

@[simps] def setWritten (upto n : ℕ) (l : Log) : Log :=
  { l with segLen := l.segLen + n, writtenLSN := upto }

@[simps] def setSynced (upto : ℕ) (l : Log) : Log := { l with syncedLSN := upto }

@[simps] def setSegment (seq : ℕ) (l : Log) : Log :=
  { l with segSeq := seq, segLen := segHeaderSize, fileOpen := true }

def openSegment (φ : SysCalls) (seq firstLSN : ℕ) (l : Log) : Log × Option LogError :=
  if φ.create = false ∨ ∃ seg ∈ l.dir, seg.seq = seq then (l, some (.createSegment seq))
  else
    let hdr := encodeSegHeader firstLSN φ.nowMs
    match φ.header with
    | some n => (addFile ⟨seq, hdr.take n, 0⟩ l, some .writeHeader)
    | none =>
        if φ.headerSync = false then (addFile ⟨seq, hdr, 0⟩ l, some .fsyncHeader)
        else if φ.dirSync = false then (addFile ⟨seq, hdr, segHeaderSize⟩ l, some .fsyncDir)
        else (setSegment seq (addFile ⟨seq, hdr, segHeaderSize⟩ l), none)

def rotateLocked (φ : SysCalls) (firstLSN : ℕ) (l : Log) : Log × Option LogError :=
  if φ.rotateSync = false ∨ l.fileOpen = false then (l, some .fsyncBeforeRotate)
  else
    let l := closeFile (setSynced l.writtenLSN (syncFile l))
    if φ.close = false then (l, some (.closeSegment l.segSeq))
    else openSegment φ (l.segSeq + 1) firstLSN l

structure Drained where
  log : Log
  upto : ℕ
  err : Option LogError

def drainLocked (φ : SysCalls) (l : Log) : Drained :=
  if l.buf = [] then ⟨l, l.writtenLSN, none⟩
  else
    let pending := l.buf
    let upto := l.nextLSN - 1
    let l := takeBuf l
    if l.fileOpen = false then ⟨markLost (latch (.write l.segSeq) l), 0, some (.write l.segSeq)⟩
    else
      match φ.write with
      | some n => ⟨markLost (latch (.write l.segSeq) (writeFile (pending.take n) l)), 0,
          some (.write l.segSeq)⟩
      | none =>
          let l := setWritten upto pending.length (writeFile pending l)
          if l.segmentSize ≤ l.segLen then
            let r := rotateLocked φ (upto + 1) l
            ⟨r.1, upto, r.2⟩
          else ⟨l, upto, none⟩

def syncLocked (φ : SysCalls) (l : Log) : Log × Option LogError :=
  match drainLocked φ l with
  | ⟨l, _, some e⟩ => (l, some e)
  | ⟨l, upto, none⟩ =>
      let upto := if upto = 0 then l.writtenLSN else upto
      if upto ≤ l.syncedLSN then (l, none)
      else if φ.fsync = false ∨ l.fileOpen = false then (latch .fsync l, some .fsync)
      else (setSynced upto (syncFile l), none)

/-- The section of Close: the log refuses new calls already. -/
def closeLocked (φ : SysCalls) (l : Log) : Log × Option LogError :=
  match drainLocked φ l with
  | ⟨l, _, some e⟩ => (closeFile l, some e)
  | ⟨l, _, none⟩ =>
      if φ.fsync = false ∨ l.fileOpen = false then (closeFile l, some .fsync)
      else if φ.close = false then
        (closeFile (setSynced l.writtenLSN (syncFile l)), some (.closeSegment l.segSeq))
      else (closeFile (setSynced l.writtenLSN (syncFile l)), none)

/-- The calls that take the flush lock. -/
inductive Op
  | flush
  | sync (lsn : ℕ)
  | syncAll
  | close
  deriving DecidableEq, Repr

/-- The section each call runs under the flush lock, its second look at the
counters included. -/
def Op.run (φ : SysCalls) (op : Op) (l : Log) : Log × Option LogError :=
  match op with
  | .flush =>
      if l.lastAppended ≤ l.writtenLSN then (l, none)
      else ((drainLocked φ l).log, (drainLocked φ l).err)
  | .sync lsn => if lsn ≤ l.syncedLSN then (l, none) else syncLocked φ l
  | .syncAll => syncLocked φ l
  | .close => closeLocked φ l

/-- One record goes into the buffer under the next number. -/
@[simps] def append (rec : LogRecord) (l : Log) : Log :=
  { l with
    nextLSN := l.nextLSN + 1
    buf := l.buf ++ framing.encode (frameOf l.nextLSN rec)
    lastAppended := l.nextLSN }

def nextSeq (dir : Dir) : ℕ :=
  match dir.getLast? with
  | none => 1
  | some seg => seg.seq + 1

/-- The log before its first segment. -/
def newLog (segmentSize maxBufferBytes : ℕ) (dir : Dir) (startLSN : ℕ) : Log where
  segmentSize
  maxBufferBytes
  buf := []
  nextLSN := startLSN + 1
  lastAppended := startLSN
  writtenLSN := startLSN
  syncedLSN := startLSN
  segSeq := nextSeq dir
  segLen := 0
  fileOpen := false
  fatal := none
  closed := false
  dir
  lost := false

/-- A log on a directory that has been replayed up to `startLSN`. -/
def openLog (φ : SysCalls) (segmentSize maxBufferBytes : ℕ) (dir : Dir) (startLSN : ℕ) :
    Log × Option LogError :=
  openSegment φ (nextSeq dir) (startLSN + 1) (newLog segmentSize maxBufferBytes dir startLSN)

end RedisFromScratch.SegmentLog
