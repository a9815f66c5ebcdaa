import RedisFromScratch.LockPrograms

/-!
The locks of the storage engine: what every public operation and the background
thread take, hold and give back. Data decides branches, loops and which log is
current. The written lock order puts the manifest above the version and the
memtables, and rotation takes it below them; the rank here is the order the code
follows, with the manifest among the locks that nothing is taken under.
-/
namespace RedisFromScratch.EngineLocks

open LockPrograms Program Relation

inductive Lock
  | compaction
  | manifest
  | version
  | mem
  | log
  | tables
  | pendingDeletes
  | compactPointer
  | work
  | lastPeriodicSync
  | fatal
  /-- The two locks inside the log with this file number. -/
  | walFile (number : ℕ)
  | walBuf (number : ℕ)
  deriving DecidableEq, Repr

abbrev Code := Program Lock

/-- Statements one after another. -/
def block (ps : List Code) : Code := ps.foldr seq skip

def locking (l : Lock) (body : List Code) : Code := hold .exclusive l (block body)

def writing (l : Lock) (body : List Code) : Code := hold .exclusive l (block body)

def reading (l : Lock) (body : List Code) : Code := hold .shared l (block body)

/-- A branch that returns. -/
def mayReturn : Code := either exit skip

/-- A fallible step: its error is the function's. -/
def mayFail : Code := either skip exit

/-- Call a function and hand its error on. -/
def attempt (p : Code) : Code := seq (call p) mayFail

def optionally (ps : List Code) : Code := either (block ps) skip

/-- Wal::drain, with the file lock held by the caller. -/
def walDrain (n : ℕ) : Code :=
  block [locking (.walBuf n) [mayReturn], locking (.walBuf n) [], mayFail]

def walFlush (n : ℕ) : Code :=
  block [mayReturn, locking (.walFile n) [mayReturn, call (walDrain n)]]

def walAppend (n : ℕ) : Code :=
  block [mayFail, locking (.walBuf n) [], optionally [attempt (walFlush n)]]

def walSyncLocked (n : ℕ) : Code := block [attempt (walDrain n), mayReturn, mayFail]

def walSyncTo (n : ℕ) : Code :=
  block [mayReturn, locking (.walFile n) [mayReturn, call (walSyncLocked n)]]

def walSyncAll (n : ℕ) : Code := locking (.walFile n) [call (walSyncLocked n)]

/-- The policy decides: sync, flush or nothing. -/
def walCommit (n : ℕ) : Code := either (call (walSyncTo n)) (either (call (walFlush n)) skip)

/-- Clone the current log out of its lock, and go on with it. -/
def withLog (p : ℕ → Code) : Code := seq (reading .log []) (pick p)

def checkHealthy : Code := block [mayReturn, locking .fatal [mayReturn]]

def poison : Code := locking .fatal []

def signalWork : Code := locking .work []

def awaitSpace : Code :=
  block [
    reading .version [], reading .mem [], mayReturn,
    call signalWork,
    locking .work [
      forever (block [
        reading .version [], reading .mem [], mayReturn,
        -- stopping, and the deadline
        mayReturn, mayReturn,
        wait .work])]]

def forceFreeze : Code :=
  block [
    writing .mem [
      mayReturn,
      writing .log [
        pick (fun n => attempt (walFlush n)),
        locking .manifest [],
        mayFail]],
    call signalWork]

def maybeFreeze : Code := block [reading .mem [], optionally [attempt forceFreeze]]

def write : Code :=
  block [
    attempt checkHealthy, mayReturn, attempt awaitSpace,
    writing .mem [withLog (fun n => attempt (walAppend n))],
    withLog (fun n => attempt (walCommit n)),
    attempt maybeFreeze]

def openTable : Code := block [reading .tables [mayReturn], mayFail, writing .tables []]

def lookupFile : Code := block [mayReturn, attempt openTable, mayReturn, mayFail]

def get : Code :=
  block [
    reading .mem [mayReturn, loop mayReturn],
    reading .version [],
    loop (block [attempt lookupFile, mayReturn]),
    loop (block [attempt lookupFile, mayReturn])]

def collectFromFile : Code :=
  block [mayReturn, attempt openTable, loop (block [mayFail, mayReturn])]

def scan : Code :=
  block [
    reading .version [reading .mem []],
    loop (loop (attempt collectFromFile)),
    loop (attempt collectFromFile)]

def estimatedLen : Code := block [reading .version [], reading .mem []]

def flushAll : Code := loop (block [attempt scan, optionally [attempt write]])

def stats : Code := block [reading .version [], reading .log [], reading .mem [], call estimatedLen]

def sync : Code := withLog (fun n => call (walSyncAll n))

def retireFrozen : Code :=
  block [
    writing .mem [optionally [reading .log []]],
    locking .manifest [optionally [mayFail]],
    mayFail, loop mayFail]

def flushOne : Code :=
  locking .compaction [
    reading .mem [], mayReturn,
    locking .manifest [],
    mayFail, loop mayFail, mayFail,
    -- an empty memtable
    optionally [mayFail, attempt retireFrozen, exit],
    reading .version [],
    locking .manifest [mayFail],
    writing .version [],
    locking .pendingDeletes [],
    attempt retireFrozen,
    call signalWork]

def drainFlushes : Code := loop (attempt flushOne)

def flushMemtable : Code := block [attempt forceFreeze, call drainFlushes]

def pickFileFromLevel : Code := block [mayReturn, locking .compactPointer []]

def pickCompaction : Code :=
  block [mayReturn, optionally [call pickFileFromLevel, mayReturn], mayReturn]

def isBottomMost : Code := reading .version []

def sweepPendingDeletes : Code :=
  block [locking .pendingDeletes [mayReturn, mayReturn], loop mayFail, mayFail]

def installCompaction : Code :=
  block [
    reading .version [], mayFail,
    locking .manifest [mayFail],
    writing .version [],
    writing .tables [],
    locking .pendingDeletes [],
    call sweepPendingDeletes]

def runCompaction : Code :=
  block [
    call isBottomMost,
    loop (attempt openTable),
    loop mayFail,
    reading .version [],
    loop (block [
      mayFail,
      optionally [optionally [locking .manifest [], mayFail], mayFail, optionally [mayFail]]]),
    mayFail,
    attempt installCompaction,
    optionally [locking .compactPointer []]]

def compactOnce : Code :=
  locking .compaction [reading .version [], call pickCompaction, mayReturn, attempt runCompaction]

/-- Compact until idle: flushes first, then compactions while there are any. -/
def compactAll : Code :=
  block [attempt drainFlushes, loop (block [attempt compactOnce, mayReturn])]

def doBackgroundStep : Code := block [attempt flushOne, mayReturn, call compactOnce]

def periodicLogMaintenance : Code :=
  withLog (fun n => block [
    attempt (walFlush n), mayReturn,
    locking .lastPeriodicSync [mayReturn, attempt (walSyncAll n)]])

def backgroundLoop : Code :=
  forever (block [
    optionally [optionally [call drainFlushes], exit],
    call doBackgroundStep,
    optionally [call poison],
    -- idle: nothing was done
    optionally [
      call periodicLogMaintenance,
      optionally [call poison],
      call sweepPendingDeletes,
      locking .work [optionally [wait .work]]]])

/-- What a thread of the process can be asked to do. -/
inductive Op
  | write
  | get
  | scan
  | flushMemtable
  | compactAll
  | flushAll
  | stats
  | sync
  | background
  deriving DecidableEq, Repr

def Op.code : Op → Code
  | .write => EngineLocks.write
  | .get => EngineLocks.get
  | .scan => EngineLocks.scan
  | .flushMemtable => EngineLocks.flushMemtable
  | .compactAll => EngineLocks.compactAll
  | .flushAll => EngineLocks.flushAll
  | .stats => EngineLocks.stats
  | .sync => EngineLocks.sync
  | .background => backgroundLoop

/-- A thread carries out its operations in turn. -/
def serve (ops : List Op) : Code := block (ops.map (fun op => call op.code))

/-- The order in which the code nests the locks. -/
def rank : Lock → ℕ
  | .compaction => 0
  | .work => 1
  | .version => 2
  | .mem => 3
  | .log => 4
  | .manifest => 5
  | .tables => 5
  | .pendingDeletes => 5
  | .compactPointer => 5
  | .lastPeriodicSync => 5
  | .fatal => 5
  | .walFile _ => 6
  | .walBuf _ => 7

theorem rank_le (l : Lock) : rank l ≤ 7 := by
  cases l <;> simp [rank]

section Ordering

variable {held : List (Mode × Lock)} {m : Mode} {l : Lock} {p q : Code} {ps : List Code} {n : ℕ}

@[simp] theorem ordered_block :
    Ordered rank held (block ps) ↔ ∀ p ∈ ps, Ordered rank held p := by
  induction ps with
  | nil => simp [block, Ordered]
  | cons p ps ih =>
    rw [List.forall_mem_cons, ← ih]
    rfl

@[simp] theorem ordered_locking : Ordered rank held (locking l ps) ↔
    Below rank held (rank l) ∧ ∀ p ∈ ps, Ordered rank ((.exclusive, l) :: held) p := by
  rw [← ordered_block]
  rfl

@[simp] theorem ordered_writing : Ordered rank held (writing l ps) ↔
    Below rank held (rank l) ∧ ∀ p ∈ ps, Ordered rank ((.exclusive, l) :: held) p :=
  ordered_locking

@[simp] theorem ordered_reading : Ordered rank held (reading l ps) ↔
    Below rank held (rank l) ∧ ∀ p ∈ ps, Ordered rank ((.shared, l) :: held) p := by
  rw [← ordered_block]
  rfl

@[simp] theorem ordered_mayReturn : Ordered rank held mayReturn := ⟨trivial, trivial⟩

@[simp] theorem ordered_mayFail : Ordered rank held mayFail := ⟨trivial, trivial⟩

@[simp] theorem ordered_exit : Ordered rank held exit := trivial

@[simp] theorem ordered_call : Ordered rank held (call p) ↔ Ordered rank held p := Iff.rfl

@[simp] theorem ordered_attempt : Ordered rank held (attempt p) ↔ Ordered rank held p :=
  and_iff_left ordered_mayFail

@[simp] theorem ordered_optionally :
    Ordered rank held (optionally ps) ↔ ∀ p ∈ ps, Ordered rank held p := by
  rw [← ordered_block]
  exact and_iff_left trivial

@[simp] theorem ordered_loop : Ordered rank held (loop p) ↔ Ordered rank held p := Iff.rfl

@[simp] theorem ordered_forever : Ordered rank held (forever p) ↔ Ordered rank held p := Iff.rfl

@[simp] theorem ordered_wait : Ordered rank held (wait l) ↔ held = [(.exclusive, l)] := Iff.rfl

@[simp] theorem ordered_withLog {f : ℕ → Code} : Ordered rank held (withLog f) ↔
    Below rank held 4 ∧ ∀ n, Ordered rank held (f n) := by
  unfold withLog
  rw [Ordered, ordered_reading]
  simp [rank, Ordered]

@[simp] theorem below_nil (r : ℕ) : Below rank [] r := Below.nil r

@[simp] theorem below_cons (r : ℕ) :
    Below rank ((m, l) :: held) r ↔ rank l < r ∧ Below rank held r := by
  simp [Below]

/-! The functions of a log run under anything but the log's own locks. -/

theorem ordered_walDrain (h : Below rank held 7) : Ordered rank held (walDrain n) := by
  simp [walDrain, rank, h]

theorem ordered_walFlush (h : Below rank held 6) : Ordered rank held (walFlush n) := by
  have hdrain : Ordered rank ((.exclusive, .walFile n) :: held) (walDrain n) :=
    ordered_walDrain (.cons (by simp [rank]) (h.mono (by decide)))
  simp [walFlush, rank, h, hdrain]

theorem ordered_walAppend (h : Below rank held 6) : Ordered rank held (walAppend n) := by
  have hbuf : Below rank held 7 := h.mono (by decide)
  simp [walAppend, rank, hbuf, ordered_walFlush h]

theorem ordered_walSyncLocked (h : Below rank held 7) : Ordered rank held (walSyncLocked n) := by
  simp [walSyncLocked, ordered_walDrain h]

theorem ordered_walSyncAll (h : Below rank held 6) : Ordered rank held (walSyncAll n) := by
  have hsync : Ordered rank ((.exclusive, .walFile n) :: held) (walSyncLocked n) :=
    ordered_walSyncLocked (.cons (by simp [rank]) (h.mono (by decide)))
  simp [walSyncAll, rank, h, hsync]

theorem ordered_walSyncTo (h : Below rank held 6) : Ordered rank held (walSyncTo n) := by
  have hsync : Ordered rank ((.exclusive, .walFile n) :: held) (walSyncLocked n) :=
    ordered_walSyncLocked (.cons (by simp [rank]) (h.mono (by decide)))
  simp [walSyncTo, rank, h, hsync]

theorem ordered_walCommit (h : Below rank held 6) : Ordered rank held (walCommit n) :=
  ⟨ordered_walSyncTo h, ordered_walFlush h, trivial⟩

/-! Everything below the compaction lock. -/

theorem ordered_openTable (h : Below rank held 5) : Ordered rank held openTable := by
  simp [openTable, rank, h]

theorem ordered_signalWork (h : Below rank held 1) : Ordered rank held signalWork := by
  simp [signalWork, rank, h]

theorem ordered_retireFrozen (h : Below rank held 3) : Ordered rank held retireFrozen := by
  have hlog : Below rank held 4 := h.mono (by decide)
  have hmanifest : Below rank held 5 := h.mono (by decide)
  simp [retireFrozen, rank, h, hlog, hmanifest]

theorem ordered_flushOne : Ordered rank [] flushOne := by
  have hretire : Ordered rank [(.exclusive, .compaction)] retireFrozen :=
    ordered_retireFrozen (.cons (by decide) (.nil 3))
  have hsignal : Ordered rank [(.exclusive, .compaction)] signalWork :=
    ordered_signalWork (.cons (by decide) (.nil 1))
  simp [flushOne, rank, hretire, hsignal]

theorem ordered_drainFlushes : Ordered rank [] drainFlushes := by
  simp [drainFlushes, ordered_flushOne]

theorem ordered_pickCompaction (h : Below rank held 5) : Ordered rank held pickCompaction := by
  simp [pickCompaction, pickFileFromLevel, rank, h]

theorem ordered_sweepPendingDeletes (h : Below rank held 5) :
    Ordered rank held sweepPendingDeletes := by
  simp [sweepPendingDeletes, rank, h]

theorem ordered_installCompaction (h : Below rank held 2) :
    Ordered rank held installCompaction := by
  have hleaf : Below rank held 5 := h.mono (by decide)
  simp [installCompaction, rank, h, hleaf, ordered_sweepPendingDeletes hleaf]

theorem ordered_runCompaction (h : Below rank held 2) : Ordered rank held runCompaction := by
  have hleaf : Below rank held 5 := h.mono (by decide)
  simp [runCompaction, isBottomMost, rank, h, hleaf, ordered_openTable hleaf,
    ordered_installCompaction h]

theorem ordered_compactOnce : Ordered rank [] compactOnce := by
  have hunder : ∀ r, 0 < r → Below rank [(.exclusive, .compaction)] r :=
    fun r hr => .cons hr (.nil r)
  simp [compactOnce, rank, ordered_pickCompaction (hunder 5 (by decide)),
    ordered_runCompaction (hunder 2 (by decide))]

/-! The operations, which start with no guard. -/

theorem ordered_awaitSpace : Ordered rank [] awaitSpace := by
  simp [awaitSpace, rank, ordered_signalWork]

/-- The manifest is taken under the memtables and the log, and nothing under it. -/
theorem ordered_forceFreeze : Ordered rank [] forceFreeze := by
  have hflush : ∀ n, Ordered rank [(.exclusive, .log), (.exclusive, .mem)] (walFlush n) :=
    fun n => ordered_walFlush (.cons (by decide) (.cons (by decide) (.nil 6)))
  have hpick : Ordered rank [(.exclusive, .log), (.exclusive, .mem)]
      (pick (fun n => attempt (walFlush n))) := fun n => ordered_attempt.mpr (hflush n)
  simp [forceFreeze, rank, hpick, ordered_signalWork]

theorem ordered_write : Ordered rank [] write := by
  have happend : ∀ n, Ordered rank [(.exclusive, .mem)] (walAppend n) :=
    fun n => ordered_walAppend (.cons (by decide) (.nil 6))
  have hcommit : ∀ n, Ordered rank [] (walCommit n) := fun n => ordered_walCommit (.nil 6)
  simp [write, checkHealthy, maybeFreeze, rank, happend, hcommit, ordered_awaitSpace,
    ordered_forceFreeze]

theorem ordered_get : Ordered rank [] get := by
  simp [get, lookupFile, rank, ordered_openTable]

theorem ordered_scan : Ordered rank [] scan := by
  simp [scan, collectFromFile, rank, ordered_openTable]

theorem ordered_sync : Ordered rank [] sync := by
  simp [sync, ordered_walSyncAll]

theorem ordered_backgroundLoop : Ordered rank [] backgroundLoop := by
  have hsyncAll : ∀ n, Ordered rank [(.exclusive, .lastPeriodicSync)] (walSyncAll n) :=
    fun n => ordered_walSyncAll (.cons (by decide) (.nil 6))
  simp [backgroundLoop, doBackgroundStep, periodicLogMaintenance, poison, rank, hsyncAll,
    ordered_walFlush, ordered_drainFlushes, ordered_flushOne, ordered_compactOnce,
    ordered_sweepPendingDeletes]

theorem ordered_code (op : Op) : Ordered rank [] op.code := by
  cases op with
  | write => exact ordered_write
  | get => exact ordered_get
  | scan => exact ordered_scan
  | flushMemtable => simp [Op.code, flushMemtable, ordered_forceFreeze, ordered_drainFlushes]
  | compactAll => simp [Op.code, compactAll, ordered_drainFlushes, ordered_compactOnce]
  | flushAll => simp [Op.code, flushAll, ordered_scan, ordered_write]
  | stats => simp [Op.code, stats, estimatedLen, rank]
  | sync => exact ordered_sync
  | background => exact ordered_backgroundLoop

theorem ordered_serve (ops : List Op) : Ordered rank [] (serve ops) := by
  unfold serve
  rw [ordered_block]
  intro p hp
  obtain ⟨op, -, rfl⟩ := List.mem_map.mp hp
  exact ordered_code op

end Ordering

/-- Any number of threads, each with any operations: in every state they reach,
an active thread can move if there is one, and none wait in a circle. -/
theorem engine_never_deadlocks {I : Type*} [DecidableEq I] (ops : I → List Op)
    (s : I → Thread Lock)
    (hrun : ReflTransGen Step (fun i => Thread.start (serve (ops i))) s) : NoDeadlock s :=
  no_deadlock rank_le (fun i => ordered_serve (ops i)) hrun

/-- A thread inside a sync, with the log lock read, beside one that has not started. -/
theorem syncing_thread_can_move :
    ∃ s : Bool → Thread Lock,
      ReflTransGen Step (fun i => Thread.start (serve (if i then [.sync] else [.write]))) s ∧
      (s true).Holds .shared .log ∧ NoDeadlock s := by
  let ops : Bool → List Op := fun i => if i then [.sync] else [.write]
  obtain ⟨s, hrun, hs⟩ : ∃ s : Bool → Thread Lock,
      ReflTransGen Step (fun i => Thread.start (serve (ops i))) s ∧
      (s true).Holds .shared .log := by
    refine Runs.exists_run_head ⟨true, .own _ true _ (.seq _ _ _)⟩ ?_
    refine Runs.exists_run_head ⟨true, .own _ true _ (.call _ _)⟩ ?_
    refine Runs.exists_run_head ⟨true, .own _ true _ (.seq _ _ _)⟩ ?_
    refine Runs.exists_run_head
      ⟨true, .take _ true .shared Lock.log _ (.hold .shared Lock.log (block []) _) ?_⟩ ?_
    · intro j hj
      cases j <;> simp [Thread.start, Thread.Holds, guards] at hj
    · exact ⟨_, .refl, by simp [Thread.Holds, guards]⟩
  exact ⟨s, hrun, hs, engine_never_deadlocks ops s hrun⟩

end RedisFromScratch.EngineLocks
