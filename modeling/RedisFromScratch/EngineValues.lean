import RedisFromScratch.CommandContext
import RedisFromScratch.EngineRequests

/-!
The two storage engines behind the command layer, with the slices their records
hold. The memory engine keeps a copy of what it is given, and a copy of an empty
slice is not nil. The client of the LSM engine sends its records as messages, and a
message does not tell an empty value from none. Walks of the keyspace are any
functions that only read.
-/
namespace RedisFromScratch.EngineValues

open ByteStrings StoreRecords EngineRequests CommandContext

def expired (r : Rec) (nowMs : ℤ) : Bool := r.expireAt ≠ 0 ∧ r.expireAt ≤ nowMs

/-- The record a reader sees at a time. -/
def liveRec (nowMs : ℤ) : Option Rec → Option Rec
  | none => none
  | some r => if expired r nowMs then none else some r

/-- A copy of nil is nil; the copy of an empty slice is a slice. -/
def clone (r : Rec) : Rec :=
  match r.value with
  | none => ⟨none, r.expireAt⟩
  | some v => ⟨some v, r.expireAt⟩

@[simp] theorem clone_eq (r : Rec) : clone r = r := by
  obtain ⟨value, expireAt⟩ := r
  cases value <;> rfl

/-- What is written to a log or sent to the engine: the bytes alone. -/
def fromRecord (r : Rec) : Record := ⟨r.bytes, r.expireAt⟩

/-- The readings of the clock, one for each look at it. -/
structure Clock where
  readings : ℕ → ℤ
  taken : ℕ

def Clock.now (clk : Clock) : ℤ := clk.readings clk.taken

def Clock.next (clk : Clock) : Clock := { clk with taken := clk.taken + 1 }

/-- The functions of a store that only read. -/
structure Walks (S : Type) where
  scan : {σ : Type} → ℕ → ℤ → ScanFn σ → σ → S → σ × Except Err ℕ
  len : S → Except Err ℤ
  stats : S → Except Err StoreStats

/-- A write-ahead log. Without one every number is zero. -/
structure Journal where
  State : Type
  log : LogRecord → State → Except Err ℕ × State
  await : ℕ → State → Except Err Unit × State

structure Memory (jrn : Journal) where
  m : Bytes → Option Rec
  clock : Clock
  journal : jrn.State
  isDead : Bool

namespace Memory

variable {jrn : Journal} {σ : Type}

/-- The record that is live at the next look at the clock. -/
def holds (s : Memory jrn) (key : Bytes) : Option Rec := liveRec s.clock.now (s.m key)

def tick (s : Memory jrn) : Memory jrn := { s with clock := s.clock.next }

def putLocked (s : Memory jrn) (key : Bytes) (rec : Rec) : Memory jrn :=
  { s with m := Function.update s.m key (some rec) }

def evictLocked (s : Memory jrn) (key : Bytes) : Memory jrn :=
  { s with m := Function.update s.m key none }

def await (lsn : ℕ) (s : Memory jrn) : Except Err Unit × Memory jrn :=
  if lsn = 0 then (.ok (), s)
  else ((jrn.await lsn s.journal).1, { s with journal := (jrn.await lsn s.journal).2 })

/-- Journal, change the records, and wait until the entry is durable. -/
def commit (entry : LogRecord) (change : Memory jrn → Memory jrn) (s : Memory jrn) :
    Except Err Unit × Memory jrn :=
  match jrn.log entry s.journal with
  | (.error e, j) => (.error e, { s with journal := j })
  | (.ok lsn, j) => await lsn (change { s with journal := j })

/-- A lookup that finds an expired record looks at the clock again to reclaim it. -/
def get (key : Bytes) (s : Memory jrn) : Except Err (Option Rec) × Memory jrn :=
  if s.isDead then (.error .closed, s)
  else
    match s.m key with
    | none => (.ok none, s.tick)
    | some rec =>
      if expired rec s.clock.now then
        (.ok none, if expired rec s.tick.clock.now then (s.tick.tick).evictLocked key
          else s.tick.tick)
      else (.ok (some rec), s.tick)

def put (key : Bytes) (rec : Rec) (s : Memory jrn) : Except Err Unit × Memory jrn :=
  if s.isDead then (.error .closed, s)
  else s.commit (.put key (fromRecord rec)) (fun s => s.putLocked key (clone rec))

def delete (key : Bytes) (s : Memory jrn) : Except Err Bool × Memory jrn :=
  if s.isDead then (.error .closed, s)
  else
    match s.m key with
    | none => (.ok false, s.tick)
    | some rec =>
      match s.tick.commit (.delete key) (fun s => s.evictLocked key) with
      | (.error e, s') => (.error e, s')
      | (.ok (), s') => (.ok (!expired rec s.clock.now), s')

/-- An expired record is evicted before the callback runs. -/
def enterUpdate (key : Bytes) (s : Memory jrn) : Memory jrn :=
  match s.m key with
  | none => s.tick
  | some rec => if expired rec s.clock.now then s.tick.evictLocked key else s.tick

/-- What an update does with what its callback asks for. -/
def afterUpdate (key : Bytes) (found : Bool) (res : Except Err Change) (s : Memory jrn) :
    Except Err Unit × Memory jrn :=
  match res with
  | .error e => (.error e, s)
  | .ok .nothing => (.ok (), s)
  | .ok (.put next) =>
      s.commit (.put key (fromRecord next)) (fun s => s.putLocked key (clone next))
  | .ok .delete =>
      if found then s.commit (.delete key) (fun s => s.evictLocked key) else (.ok (), s)

def update (key : Bytes) (fn : UpdateFn σ) (vars : σ) (s : Memory jrn) :
    (σ × Except Err Unit) × Memory jrn :=
  if s.isDead then ((vars, .error .closed), s)
  else
    let cur := s.holds key
    let called := fn vars (cur.getD .zero) cur.isSome
    let out := afterUpdate key cur.isSome called.2 (s.enterUpdate key)
    ((called.1, out.1), out.2)

/-- A batch goes shard by shard, which leaves the last record of each key. -/
def multiWrite (muts : List (Bytes × Rec)) (s : Memory jrn) : Except Err Unit × Memory jrn :=
  if s.isDead then (.error .closed, s)
  else if muts = [] then (.ok (), s)
  else s.commit (.batch (muts.map (fun mu => ⟨mu.1, fromRecord mu.2, false⟩)))
    (fun s => muts.foldl (fun s mu => s.putLocked mu.1 (clone mu.2)) s)

def flushAll (s : Memory jrn) : Except Err Unit × Memory jrn :=
  if s.isDead then (.error .closed, s)
  else s.commit .flushAll (fun s => { s with m := fun _ => none })

end Memory

def memoryEngine (jrn : Journal) (walks : Walks (Memory jrn)) : Engine where
  Store := Memory jrn
  get := Memory.get
  put := Memory.put
  delete := Memory.delete
  update := Memory.update
  multiWrite := Memory.multiWrite
  scan cursor count fn vars s := (walks.scan cursor count fn vars s, s)
  len s := (walks.len s, s)
  flushAll := Memory.flushAll
  storeStats s := (walks.stats s, s)

/-- A request that fails may still be carried out. -/
structure Fault where
  err : Err
  carriedOut : Bool

structure Lsm where
  closed : Bool
  engine : Map
  clock : Clock
  /-- What the requests fail with, by their number. -/
  faults : ℕ → Option Fault
  requests : ℕ

/-- A bytes field of a message that is empty or absent is decoded as nil. -/
def decodeBytes (v : Bytes) : Option Bytes := if v = [] then none else some v

def toRecord (r : Record) : Rec := ⟨decodeBytes r.value, r.expireAt⟩

namespace Lsm

variable {σ : Type}

/-- The record of the engine that is live at the next look at the clock. -/
def holds (s : Lsm) (key : Bytes) : Option Record := live s.clock.now (s.engine key)

def tick (s : Lsm) : Lsm := { s with clock := s.clock.next }

def request (rpc : Rpc) (s : Lsm) : Except Err Reply × Lsm :=
  let done := rpc.whole s.engine
  let sent := { s with requests := s.requests + 1 }
  match s.faults s.requests with
  | none => (.ok done.2, { sent with engine := done.1 })
  | some fault =>
      (.error fault.err, if fault.carriedOut then { sent with engine := done.1 } else sent)

/-- A request whose answer carries nothing. -/
def command (rpc : Rpc) (s : Lsm) : Except Err Unit × Lsm :=
  ((s.request rpc).1.map (fun _ => ()), (s.request rpc).2)

def read (key : Bytes) (s : Lsm) : Except Err (Option Rec) × Lsm :=
  match s.tick.request (.get key s.clock.now) with
  | (.error e, s') => (.error e, s')
  | (.ok (.found rec), s') => (.ok (rec.map toRecord), s')
  | (.ok _, s') => (.ok none, s')

def get (key : Bytes) (s : Lsm) : Except Err (Option Rec) × Lsm :=
  if s.closed then (.error .closed, s) else s.read key

def put (key : Bytes) (rec : Rec) (s : Lsm) : Except Err Unit × Lsm :=
  if s.closed then (.error .closed, s) else s.command (.put key (fromRecord rec))

def delete (key : Bytes) (s : Lsm) : Except Err Bool × Lsm :=
  if s.closed then (.error .closed, s)
  else
    match s.tick.request (.delete key s.clock.now) with
    | (.error e, s') => (.error e, s')
    | (.ok (.existed b), s') => (.ok b, s')
    | (.ok _, s') => (.ok false, s')

def afterUpdate (key : Bytes) (found : Bool) (res : Except Err Change) (s : Lsm) :
    Except Err Unit × Lsm :=
  match res with
  | .error e => (.error e, s)
  | .ok .nothing => (.ok (), s)
  | .ok (.put next) => s.command (.put key (fromRecord next))
  | .ok .delete =>
      if found then s.tick.command (.delete key s.clock.now) else (.ok (), s)

/-- Two requests with the callback between them. -/
def update (key : Bytes) (fn : UpdateFn σ) (vars : σ) (s : Lsm) : (σ × Except Err Unit) × Lsm :=
  if s.closed then ((vars, .error .closed), s)
  else
    match s.read key with
    | (.error e, s') => ((vars, .error e), s')
    | (.ok cur, s') =>
      let called := fn vars (cur.getD .zero) cur.isSome
      let out := afterUpdate key cur.isSome called.2 s'
      ((called.1, out.1), out.2)

def multiWrite (muts : List (Bytes × Rec)) (s : Lsm) : Except Err Unit × Lsm :=
  if s.closed then (.error .closed, s)
  else if muts = [] then (.ok (), s)
  else s.command (.batchWrite (muts.map (fun mu => ⟨mu.1, fromRecord mu.2, false⟩)))

def flushAll (s : Lsm) : Except Err Unit × Lsm :=
  if s.closed then (.error .closed, s) else s.command (.flushAll (.scanning []))

end Lsm

def lsmEngine (walks : Walks Lsm) : Engine where
  Store := Lsm
  get := Lsm.get
  put := Lsm.put
  delete := Lsm.delete
  update := Lsm.update
  multiWrite := Lsm.multiWrite
  scan cursor count fn vars s := (walks.scan cursor count fn vars s, s)
  len s := (walks.len s, s)
  flushAll := Lsm.flushAll
  storeStats s := (walks.stats s, s)

end RedisFromScratch.EngineValues
