import Mathlib.Logic.Function.Basic
import RedisFromScratch.LogLayout
import RedisFromScratch.Runs

/-!
Group commit. Any number of clients append, flush and sync one log; the
sections under its locks are atomic and any system call may fail. A call that
returns without an error promises that the records up to some number are in the
segment files, or in their stable part. The promise is kept as long as nobody
drains the log again after a write of records has failed: the failed drain has
taken the buffer with it, and the next one finds nothing left to write.
-/
namespace RedisFromScratch.GroupCommit

open ByteStrings FramedLogs StoreRecords LogRecords SegmentReplay SegmentLog LogLayout
open Relation Runs

inductive Pc
  | idle
  /-- In an append, past the checks for a closed or failed log. -/
  | appending (rec : LogRecord)
  /-- In a call, past its check for a closed log; the last number given out then. -/
  | calling (op : Op) (n : ℕ)
  /-- Returned without an error, which speaks for the records up to `n`. -/
  | returned (op : Op) (n : ℕ)

structure State where
  log : Log
  /-- The records appended since the log was opened. -/
  records : List LogRecord
  pc : ℕ → Pc

namespace State

@[simps] def setPc (s : State) (c : ℕ) (p : Pc) : State := { s with pc := Function.update s.pc c p }

@[simps] def setLog (s : State) (l : Log) : State := { s with log := l }

@[simps] def appendRecord (s : State) (rec : LogRecord) : State :=
  { s with log := append rec s.log, records := s.records ++ [rec] }

end State

/-- The look at the counters before the lock. -/
def fast (op : Op) (n : ℕ) (l : Log) : Bool :=
  match op with
  | .flush => decide (n ≤ l.writtenLSN)
  | .sync lsn => decide (lsn ≤ l.syncedLSN)
  | .syncAll => false
  | .close => false

/-- How far an answer without error speaks: a sync for the number it was asked
for, the others for what was appended before the call. -/
def promised (op : Op) (n : ℕ) (l : Log) : ℕ :=
  match op with
  | .sync lsn => min lsn l.lastAppended
  | _ => n

/-- The counter an answer without error rests on. -/
def mark (op : Op) (l : Log) : ℕ :=
  match op with
  | .flush => l.writtenLSN
  | _ => l.syncedLSN

/-- The second look, under the lock, leads to a drain. -/
def drains (op : Op) (l : Log) : Bool :=
  match op with
  | .flush => decide (l.writtenLSN < l.lastAppended)
  | .sync lsn => decide (l.syncedLSN < lsn)
  | .syncAll => true
  | .close => true

/-- Where a client goes after its record is in the buffer. -/
def afterAppend (l : Log) : Pc :=
  if l.maxBufferBytes ≤ l.buf.length ∧ l.closed = false then .calling .flush l.lastAppended
  else .idle

inductive Act
  | beginAppend (c : ℕ) (rec : LogRecord)
  | append (c : ℕ) (rec : LogRecord)
  | call (c : ℕ) (op : Op)
  | fast (c : ℕ)
  | section (c : ℕ) (op : Op) (φ : SysCalls)
  | finish (c : ℕ)

inductive Step : State → Act → State → Prop
  | beginAppend (s : State) (c : ℕ) (rec : LogRecord) (hpc : s.pc c = .idle)
      (hopen : s.log.closed = false) (hfatal : s.log.fatal = none) (hrange : InRange rec) :
      Step s (.beginAppend c rec) (s.setPc c (.appending rec))
  -- sequence numbers do not wrap around
  | append (s : State) (c : ℕ) (rec : LogRecord) (hpc : s.pc c = .appending rec)
      (hlsn : s.log.nextLSN + 1 < 2 ^ 64) :
      Step s (.append c rec)
        ((s.appendRecord rec).setPc c (afterAppend (SegmentLog.append rec s.log)))
  | call (s : State) (c : ℕ) (op : Op) (hpc : s.pc c = .idle) (hopen : s.log.closed = false) :
      Step s (.call c op)
        ((if op = .close then s.setLog (setClosed s.log) else s).setPc c
          (.calling op s.log.lastAppended))
  | fast (s : State) (c : ℕ) (op : Op) (n : ℕ) (hpc : s.pc c = .calling op n)
      (hfast : fast op n s.log = true) :
      Step s (.fast c) (s.setPc c (.returned op (promised op n s.log)))
  | returned (s : State) (c : ℕ) (op : Op) (n : ℕ) (φ : SysCalls)
      (hpc : s.pc c = .calling op n) (hok : (op.run φ s.log).2 = none) :
      Step s (.section c op φ) ((s.setLog (op.run φ s.log).1).setPc c
        (.returned op (promised op n (op.run φ s.log).1)))
  | failed (s : State) (c : ℕ) (op : Op) (n : ℕ) (φ : SysCalls)
      (hpc : s.pc c = .calling op n) (herr : (op.run φ s.log).2 ≠ none) :
      Step s (.section c op φ) ((s.setLog (op.run φ s.log).1).setPc c .idle)
  | finish (s : State) (c : ℕ) (op : Op) (n : ℕ) (hpc : s.pc c = .returned op n) :
      Step s (.finish c) (s.setPc c .idle)

/-- A directory a log may be opened on: whole segments whose records, numbered
from `first`, end at `start`. -/
structure Replayable (base : Dir) (first start : ℕ) (recs : List LogRecord) : Prop where
  contents : Contents base first recs
  loggable : ∀ rec ∈ recs, Loggable rec
  ends : first + recs.length = start + 1
  seqs : ∀ seg ∈ base, seg.seq < nextSeq base
  bound : start + 1 < 2 ^ 64

/-- A log just opened. -/
def Opened (base : Dir) (start : ℕ) (s : State) : Prop :=
  (∃ φ segmentSize maxBufferBytes,
    openLog φ segmentSize maxBufferBytes base start = (s.log, none)) ∧
  s.records = [] ∧ ∀ c, s.pc c = .idle

/-- Replay behind `afterLSN` applies the record numbered `lsn` in its place. -/
def AppliedBy (dir : Dir) (afterLSN lsn : ℕ) (rec : LogRecord) : Prop :=
  ∃ r, replay dir afterLSN = .ok r ∧ r.state.applied[lsn - (afterLSN + 1)]? = some (strip rec)

/-- Every call that returned without an error kept its promise. -/
def PromisesKept (first start : ℕ) (s : State) : Prop :=
  ∀ c op n, s.pc c = .returned op n → ∀ i rec, s.records[i]? = some rec → start + 1 + i ≤ n →
    (∃ seg ∈ s.log.dir, seg.Holds (if op = .flush then seg.data.length else seg.synced)
      (frameOf (start + 1 + i) rec)) ∧
    ∀ afterLSN, first ≤ afterLSN + 1 → afterLSN < start + 1 + i →
      AppliedBy s.log.dir afterLSN (start + 1 + i) rec

/-- No drain starts after a write of records has failed, no header write fails,
and no record is too large to be read back. -/
def NoDrainAfterLoss (s : State) : Act → Prop
  | .append _ rec => (payload rec).length ≤ maxRecordSize
  | .section _ op φ => drains op s.log = true → s.log.lost = false ∧ φ.header = none
  | _ => True

variable {base : Dir} {first start : ℕ} {recs records : List LogRecord} {l l' : Log}

/-- A section that drains keeps the layout, and its answer is as good as its
counter. -/
theorem run_kept {L : Layout} (h : L.Describes base start records l) (hbound : l.nextLSN < 2 ^ 64)
    {op : Op} {φ : SysCalls} (hok : drains op l = true → l.lost = false ∧ φ.header = none) :
    Kept base start records l (op.run φ l).1 ∧
      ∀ n, n ≤ l.lastAppended → (op.run φ l).2 = none →
        promised op n (op.run φ l).1 ≤ mark op (op.run φ l).1 := by
  have hlast := h.lastAppended
  cases op with
  | flush =>
    simp only [drains, decide_eq_true_eq] at hok
    dsimp only [Op.run]
    split_ifs with hle
    · exact ⟨.refl h, fun n hn _ => hn.trans hle⟩
    · obtain ⟨hlost, hheader⟩ := hok (by omega)
      obtain ⟨hkept, hdone⟩ := drainLocked_kept h hlost hbound hheader
      refine ⟨hkept, fun n hn herr => ?_⟩
      have hw := (hdone herr).2.2
      change n ≤ (drainLocked φ l).log.writtenLSN
      omega
  | sync =>
    simp only [drains, decide_eq_true_eq] at hok
    dsimp only [Op.run]
    split_ifs with hle
    · exact ⟨.refl h, fun n _ _ => (Nat.min_le_left _ _).trans hle⟩
    · obtain ⟨hlost, hheader⟩ := hok (by omega)
      obtain ⟨hkept, hdone⟩ := syncLocked_kept h hlost hbound hheader
      refine ⟨hkept, fun n _ herr => ?_⟩
      obtain ⟨L', hL'⟩ := hkept.layout
      exact (Nat.min_le_right _ _).trans (hL'.lastAppended.le.trans (hdone herr))
  | syncAll =>
    obtain ⟨hlost, hheader⟩ := hok rfl
    obtain ⟨hkept, hdone⟩ := syncLocked_kept h hlost hbound hheader
    exact ⟨hkept, fun n hn herr => (hn.trans hlast.le).trans (hdone herr)⟩
  | close =>
    obtain ⟨hlost, hheader⟩ := hok rfl
    obtain ⟨hkept, hdone⟩ := closeLocked_kept h hlost hbound hheader
    exact ⟨hkept, fun n hn herr => (hn.trans hlast.le).trans (hdone herr)⟩

/-- What a client relies on. -/
def PcOk (l : Log) : Pc → Prop
  | .idle => True
  | .appending rec => InRange rec
  | .calling _ n => n ≤ l.lastAppended
  | .returned op n => n ≤ mark op l

theorem PcOk.mono {p : Pc} (h : PcOk l p) (happended : l.lastAppended ≤ l'.lastAppended)
    (hwritten : l.writtenLSN ≤ l'.writtenLSN) (hsynced : l.syncedLSN ≤ l'.syncedLSN) :
    PcOk l' p := by
  cases p with
  | idle => trivial
  | appending => exact h
  | calling => exact h.trans happended
  | returned op => cases op <;> first | exact h.trans hwritten | exact h.trans hsynced

structure Inv (base : Dir) (start : ℕ) (s : State) : Prop where
  layout : ∃ L : Layout, L.Describes base start s.records s.log
  loggable : ∀ rec ∈ s.records, Loggable rec
  bound : s.log.nextLSN < 2 ^ 64
  pcs : ∀ c, PcOk s.log (s.pc c)

theorem Inv.setPc {s : State} (h : Inv base start s) {c : ℕ} {p : Pc} (hp : PcOk s.log p) :
    Inv base start (s.setPc c p) := by
  refine ⟨h.layout, h.loggable, h.bound, fun c' => ?_⟩
  rw [State.setPc_pc, Function.update_apply]
  split_ifs
  · exact hp
  · exact h.pcs c'

/-- The log may be replaced by what a section leaves behind. -/
theorem Inv.setLog {s : State} (h : Inv base start s)
    (hkept : Kept base start s.records s.log l') : Inv base start (s.setLog l') := by
  obtain ⟨L, hL⟩ := h.layout
  obtain ⟨L', hL'⟩ := hkept.layout
  refine ⟨⟨L', hL'⟩, h.loggable, ?_, fun c => ?_⟩
  · rw [State.setLog_log, hL'.nextLSN, ← hL.nextLSN]
    exact h.bound
  · exact (h.pcs c).mono (by rw [State.setLog_log, hL'.lastAppended, hL.lastAppended])
      hkept.written hkept.synced

theorem Inv.appendRecord {s : State} (h : Inv base start s) {rec : LogRecord}
    (hrec : Loggable rec) (hlsn : s.log.nextLSN + 1 < 2 ^ 64) :
    Inv base start (s.appendRecord rec) := by
  obtain ⟨L, hL⟩ := h.layout
  refine ⟨⟨_, hL.append rec⟩, ?_, hlsn, fun c => ?_⟩
  · intro r hr
    rcases List.mem_append.mp hr with hr | hr
    · exact h.loggable r hr
    · rw [List.mem_singleton.mp hr]
      exact hrec
  · refine (h.pcs c).mono ?_ (Nat.le_refl _) (Nat.le_refl _)
    change s.log.lastAppended ≤ s.log.nextLSN
    rw [hL.lastAppended, hL.nextLSN]
    omega

theorem Inv.step {s s' : State} {a : Act} (h : Inv base start s) (hstep : Step s a s')
    (hok : NoDrainAfterLoss s a) : Inv base start s' := by
  obtain ⟨L, hL⟩ := h.layout
  cases hstep with
  | beginAppend c rec hpc hopen hfatal hrange => exact h.setPc hrange
  | append c rec hpc hlsn =>
    have hrange : InRange rec := by
      have hc := h.pcs c
      rwa [hpc] at hc
    refine (h.appendRecord ⟨hrange, hok⟩ hlsn).setPc ?_
    unfold afterAppend
    split_ifs
    · exact Nat.le_refl _
    · trivial
  | call =>
    split_ifs with hclose
    · have hclosed : Kept base start s.records s.log (setClosed s.log) :=
        ⟨⟨L, { hL with }⟩, Nat.le_refl _, Nat.le_refl _⟩
      exact (h.setLog hclosed).setPc (Nat.le_refl _)
    · exact h.setPc (Nat.le_refl _)
  | fast c op n hpc hfast =>
    refine h.setPc ?_
    have hc := h.pcs c
    rw [hpc] at hc
    cases op with
    | flush => exact (of_decide_eq_true hfast : n ≤ s.log.writtenLSN)
    | sync lsn =>
      exact (Nat.min_le_left _ _).trans (of_decide_eq_true hfast : lsn ≤ s.log.syncedLSN)
    | syncAll | close => cases hfast
  | returned c op n φ hpc herr =>
    obtain ⟨hkept, hpromise⟩ := run_kept hL h.bound hok
    have hc := h.pcs c
    rw [hpc] at hc
    exact (h.setLog hkept).setPc (hpromise n hc herr)
  | failed => exact (h.setLog (run_kept hL h.bound hok).1).setPc trivial
  | finish => exact h.setPc trivial

/-- Opening a log on a replayable directory lays out no records. -/
theorem opened_layout (hbase : Replayable base first start recs) {φ : SysCalls}
    {segmentSize maxBufferBytes : ℕ}
    (hopen : openLog φ segmentSize maxBufferBytes base start = (l, none)) :
    (∃ L : Layout, L.Describes base start [] l) ∧ l.nextLSN = start + 1 := by
  unfold openLog SegmentLog.openSegment at hopen
  cases hheader : φ.header with
  | some =>
    rw [hheader] at hopen
    dsimp only at hopen
    split_ifs at hopen
    · cases hopen
    · cases hopen
  | none =>
    rw [hheader] at hopen
    dsimp only at hopen
    split_ifs at hopen
    · cases hopen
    · cases hopen
    · cases hopen
    · cases hopen
      refine ⟨⟨⟨[], ⟨nextSeq base, encodeSegHeader (start + 1) φ.nowMs, segHeaderSize⟩, start + 1,
        φ.nowMs, [], [], [], [], 0⟩, ?_⟩, rfl⟩
      refine ⟨⟨?_, .nil _, hbase.bound, ?_, Or.inl rfl, rfl, Nat.le_refl _, Or.inl rfl, ?_⟩, ?_,
        Nat.le_refl _, Nat.le_refl _, Nat.le_refl _, rfl, rfl, fun _ => ⟨rfl, rfl, rfl⟩,
        fun _ => rfl⟩
      · simp [newLog]
      · simp [numbered]
      · intro seg hseg
        rw [List.append_nil] at hseg
        exact hbase.seqs seg hseg
      · intro seg hseg
        cases hseg

theorem opened_inv (hbase : Replayable base first start recs) {s : State}
    (hopen : Opened base start s) : Inv base start s := by
  obtain ⟨⟨φ, segmentSize, maxBufferBytes, hlog⟩, hrecords, hidle⟩ := hopen
  obtain ⟨hlayout, hnext⟩ := opened_layout hbase hlog
  refine ⟨by rwa [hrecords], ?_, by rw [hnext]; exact hbase.bound, fun c => ?_⟩
  · intro rec hrec
    rw [hrecords] at hrec
    cases hrec
  · rw [hidle c]
    trivial

/-- Replay applies, in its place, every record the written mark covers. -/
theorem Inv.appliedBy (hbase : Replayable base first start recs) {s : State}
    (h : Inv base start s) {i : ℕ} {rec : LogRecord} (hi : s.records[i]? = some rec)
    (hle : start + 1 + i ≤ s.log.writtenLSN) {afterLSN : ℕ} (hfirst : first ≤ afterLSN + 1)
    (hafter : afterLSN < start + 1 + i) : AppliedBy s.log.dir afterLSN (start + 1 + i) rec := by
  obtain ⟨L, hL⟩ := h.layout
  have hends := hbase.ends
  have hwritten := hL.writtenLSN
  have hbound := h.bound
  rw [hL.nextLSN, hL.split] at hbound
  simp only [List.length_append] at hbound
  have hloggable : ∀ r ∈ recs ++ L.recsOld, Loggable r := by
    intro r hr
    rcases List.mem_append.mp hr with hr | hr
    · exact hbase.loggable r hr
    · exact h.loggable r (by rw [hL.split]; simp [hr])
  have holder : Contents (base ++ L.older) first (recs ++ L.recsOld) :=
    hbase.contents.append (by rw [hends]; exact hL.older)
  have hnumber : first + (recs ++ L.recsOld).length = L.firstNew start := by
    rw [List.length_append, Layout.firstNew]
    omega
  have hfirst' : first + (recs ++ L.recsOld).length = start + 1 + L.recsOld.length := hnumber
  have hreplay := replay_torn afterLSN L.newest L.recsNew L.rest (t := L.torn) holder
    hL.firstLSN (by rw [hnumber]; exact hL.newest)
    (by rw [hnumber]; exact hL.torn) hloggable
    (fun r hr => h.loggable r (by rw [hL.split]; simp [hr]))
    (fun r hr => h.loggable r (by rw [hL.split]; simp [hr])) (by omega)
  obtain ⟨last', hok, -⟩ := hreplay
  rw [← hL.dir] at hok
  refine ⟨_, hok, ?_⟩
  -- the record's place among the applied ones
  have hplace : (recs ++ L.recsOld ++ L.recsNew)[recs.length + i]? = some rec := by
    rw [List.append_assoc, List.getElem?_append_right (by omega), Nat.add_sub_cancel_left]
    rw [hL.split] at hi
    rwa [List.getElem?_append_left (by rw [List.length_append]; omega)] at hi
  simp only [advance, replayStart, List.nil_append, List.getElem?_map, List.getElem?_drop]
  rw [show afterLSN + 1 - first + (start + 1 + i - (afterLSN + 1)) = recs.length + i by omega,
    hplace]
  rfl

/-- A log on an empty directory. -/
def freshLog : State where
  log := (openLog (SysCalls.succeed 0) (64 <<< 20) (1 <<< 20) [] 0).1
  records := []
  pc := fun _ => .idle

theorem freshLog_opened : Opened [] 0 freshLog := by
  refine ⟨⟨SysCalls.succeed 0, 64 <<< 20, 1 <<< 20, Prod.ext rfl ?_⟩, rfl, fun _ => rfl⟩
  rw [openLog, openSegment_succeed 0 _ 1 (by simp [newLog])]

theorem replayable_nil : Replayable [] 1 0 [] where
  contents := .nil 1
  loggable := by simp
  ends := rfl
  seqs := by simp
  bound := by omega

theorem setPc_self {s : State} {c : ℕ} {p : Pc} (h : s.pc c = p) : s.setPc c p = s := by
  rw [State.setPc, ← h, Function.update_eq_self]

theorem setPc_setPc (s : State) (c : ℕ) (p q : Pc) : (s.setPc c p).setPc c q = s.setPc c q := by
  simp [State.setPc]

theorem setPc_setLog (s : State) (c : ℕ) (p : Pc) (l : Log) :
    (s.setPc c p).setLog l = (s.setLog l).setPc c p := rfl

/-- A whole append that does not overflow the buffer. -/
theorem append_run (ok : State → Act → Prop) (s : State) (c : ℕ) (rec : LogRecord)
    (hpc : s.pc c = .idle) (hopen : s.log.closed = false) (hfatal : s.log.fatal = none)
    (hrange : InRange rec) (hlsn : s.log.nextLSN + 1 < 2 ^ 64)
    (hroom : (append rec s.log).buf.length < s.log.maxBufferBytes)
    (hbegin : ok s (.beginAppend c rec))
    (happend : ok (s.setPc c (.appending rec)) (.append c rec)) :
    ReflTransGen (Taking Step ok) s (s.appendRecord rec) := by
  have hlast := Step.append (s.setPc c (.appending rec)) c rec (by simp) hlsn
  have hidle : afterAppend (append rec s.log) = .idle := if_neg (fun h => absurd h.1 (by
    rw [append_maxBufferBytes]
    omega))
  rw [State.setPc_log, hidle] at hlast
  have hsame : ((s.setPc c (.appending rec)).appendRecord rec).setPc c .idle =
      s.appendRecord rec :=
    (setPc_setPc (s.appendRecord rec) c (.appending rec) .idle).trans (setPc_self hpc)
  rw [hsame] at hlast
  exact (ReflTransGen.single ⟨_, Step.beginAppend s c rec hpc hopen hfatal hrange, hbegin⟩).tail
    ⟨_, hlast, happend⟩

/-- A whole call other than Close, through its section. -/
theorem call_run (ok : State → Act → Prop) (s : State) (c : ℕ) (op : Op) (φ : SysCalls)
    (hpc : s.pc c = .idle) (hopen : s.log.closed = false) (hclose : op ≠ .close)
    (hcall : ok s (.call c op))
    (hsection : ok (s.setPc c (.calling op s.log.lastAppended)) (.section c op φ)) :
    ((op.run φ s.log).2 = none → ReflTransGen (Taking Step ok) s
      ((s.setLog (op.run φ s.log).1).setPc c
        (.returned op (promised op s.log.lastAppended (op.run φ s.log).1)))) ∧
    ((op.run φ s.log).2 ≠ none → ReflTransGen (Taking Step ok) s
      (s.setLog (op.run φ s.log).1)) := by
  have hfirst := Step.call s c op hpc hopen
  rw [if_neg hclose] at hfirst
  have hbegin : ReflTransGen (Taking Step ok) s (s.setPc c (.calling op s.log.lastAppended)) :=
    .single ⟨_, hfirst, hcall⟩
  have hcalling : (s.setPc c (.calling op s.log.lastAppended)).pc c =
      .calling op s.log.lastAppended := by simp
  refine ⟨fun herr => ?_, fun herr => ?_⟩
  · have hlast := Step.returned _ c op _ φ hcalling herr
    rw [setPc_setLog, State.setPc_log, setPc_setPc] at hlast
    exact hbegin.tail ⟨_, hlast, hsection⟩
  · have hlast := Step.failed _ c op _ φ hcalling herr
    rw [setPc_setLog, State.setPc_log, setPc_setPc,
      setPc_self (show (s.setLog (op.run φ s.log).1).pc c = .idle from hpc)] at hlast
    exact hbegin.tail ⟨_, hlast, hsection⟩

/-- In every run without a drain after a loss, a call that returned without an
error has its records whole in the segment files, in their stable part unless it
was a flush, and replay applies each of them in its place. -/
theorem nil_means_durable (hbase : Replayable base first start recs) {s₀ s : State}
    (hopen : Opened base start s₀)
    (hrun : ReflTransGen (Taking Step NoDrainAfterLoss) s₀ s) : PromisesKept first start s := by
  have hinv : Inv base start s :=
    run_preserves (Inv base start) (fun _ _ h ⟨_, hstep, hok⟩ => h.step hstep hok) hrun
      (opened_inv hbase hopen)
  obtain ⟨L, hL⟩ := hinv.layout
  intro c op n hpc i rec hi hle
  have hmark : n ≤ mark op s.log := by
    have hc := hinv.pcs c
    rwa [hpc] at hc
  by_cases hflush : op = .flush
  · subst hflush
    simp only [if_true]
    exact ⟨hL.inFile hi (hle.trans hmark), fun _ hfirst hafter =>
      hinv.appliedBy hbase hi (hle.trans hmark) hfirst hafter⟩
  · have hsynced : start + 1 + i ≤ s.log.syncedLSN := by
      refine hle.trans (hmark.trans (Nat.le_of_eq ?_))
      cases op <;> first | rfl | exact absurd rfl hflush
    simp only [if_neg hflush]
    exact ⟨hL.stable hi hsynced, fun _ hfirst hafter =>
      hinv.appliedBy hbase hi (hsynced.trans hL.marks) hfirst hafter⟩

def setK : LogRecord := .put [107] ⟨[118], 0⟩

theorem setK_loggable : Loggable setK := by
  refine ⟨by simp [setK, InRange, Int64Range], ?_⟩
  decide +kernel

theorem freshLog_log : freshLog.log =
    { segmentSize := 64 <<< 20, maxBufferBytes := 1 <<< 20, buf := [], nextLSN := 1,
      lastAppended := 0, writtenLSN := 0, syncedLSN := 0, segSeq := 1, segLen := segHeaderSize,
      fileOpen := true, fatal := none, closed := false,
      dir := [⟨1, encodeSegHeader 1 0, segHeaderSize⟩], lost := false } := by
  have hopen := openSegment_succeed (l := newLog (64 <<< 20) (1 <<< 20) [] 0) 0 1 1
    (by simp [newLog])
  exact congrArg Prod.fst hopen

theorem freshLog_append (ok : State → Act → Prop) (hbegin : ∀ s c, ok s (.beginAppend c setK))
    (happend : ∀ s c, ok s (.append c setK)) :
    ReflTransGen (Taking Step ok) freshLog (freshLog.appendRecord setK) := by
  have hlog := freshLog_log
  refine append_run ok freshLog 0 setK rfl (by rw [hlog]) (by rw [hlog]) setK_loggable.1
    (by rw [hlog]; decide) ?_ (hbegin _ _) (happend _ _)
  rw [hlog]
  decide +kernel

theorem freshLog_append_twice : ReflTransGen (Taking Step (fun _ _ => True)) freshLog
    ((freshLog.appendRecord setK).appendRecord setK) := by
  have hlog := freshLog_log
  refine (freshLog_append _ (fun _ _ => trivial) (fun _ _ => trivial)).trans
    (append_run _ _ 1 setK rfl ?_ ?_ setK_loggable.1 ?_ ?_ trivial trivial)
  all_goals rw [State.appendRecord_log, hlog]
  · rfl
  · rfl
  · decide
  · decide +kernel

/-- The one record of a fresh log, synced. -/
theorem freshLog_sync :
    ((Op.sync 1).run (SysCalls.succeed 0) (freshLog.appendRecord setK).log).2 = none ∧
      promised (.sync 1) (freshLog.appendRecord setK).log.lastAppended
        ((Op.sync 1).run (SysCalls.succeed 0) (freshLog.appendRecord setK).log).1 = 1 := by
  have hlog := freshLog_log
  have hne := encode_ne_nil (frameOf 1 setK)
  have hlen : ¬ 67108864 ≤ segHeaderSize + (framing.encode (frameOf 1 setK)).length := by
    decide +kernel
  simp [Op.run, syncLocked, drainLocked, SysCalls.succeed, promised, hlog, hne, hlen]

/-- A whole append and sync on a fresh log. -/
theorem freshLog_sync_run (ok : State → Act → Prop) (hbegin : ∀ s c, ok s (.beginAppend c setK))
    (happend : ∀ s c, ok s (.append c setK)) (hcall : ∀ s c, ok s (.call c (.sync 1)))
    (hsection : ∀ s c, s.log.lost = false → ok s (.section c (.sync 1) (SysCalls.succeed 0))) :
    ∃ s, ReflTransGen (Taking Step ok) freshLog s ∧ s.pc 0 = .returned (.sync 1) 1 ∧
      s.records = [setK] := by
  have hlog := freshLog_log
  have hsync := (call_run ok (freshLog.appendRecord setK) 0 (.sync 1) (.succeed 0) rfl
    (by simp [hlog]) (by simp) (hcall _ _)
    (hsection _ _ (by simp [hlog]))).1 freshLog_sync.1
  refine ⟨_, (freshLog_append ok hbegin happend).trans hsync, ?_, rfl⟩
  rw [State.setPc_pc, Function.update_self, freshLog_sync.2]

/-- A synced record is durable. -/
theorem sync_after_append_durable : ∃ s, ReflTransGen (Taking Step NoDrainAfterLoss) freshLog s ∧
    s.pc 0 = .returned (.sync 1) 1 ∧ s.records = [setK] ∧ PromisesKept 1 0 s := by
  obtain ⟨s, hrun, hpc, hrecords⟩ := freshLog_sync_run NoDrainAfterLoss
    (fun _ _ => trivial) (fun _ _ => setK_loggable.2) (fun _ _ => trivial)
    (fun _ _ hlost _ => ⟨hlost, rfl⟩)
  exact ⟨s, hrun, hpc, hrecords, nil_means_durable replayable_nil freshLog_opened hrun⟩

/-- Two clients append; the first one's sync takes both records and fails to
write them; the second one's sync finds an empty buffer and reports success. -/
theorem sync_nil_for_lost_record : ∃ s₀ s, Opened [] 0 s₀ ∧
    ReflTransGen (Taking Step (fun _ _ => True)) s₀ s ∧ ¬ PromisesKept 1 0 s := by
  have hlog := freshLog_log
  have hne := encode_ne_nil (frameOf 1 setK)
  let broken : SysCalls := { SysCalls.succeed 0 with write := some 0 }
  let s₂ := (freshLog.appendRecord setK).appendRecord setK
  have hfails : (Op.sync 1).run broken s₂.log =
      (markLost (latch (.write 1) (takeBuf s₂.log)), some (.write 1)) := by
    simp [Op.run, syncLocked, drainLocked, broken, s₂, hlog, hne, writeFile,
      markLost, latch, takeBuf]
  let s₃ := s₂.setLog (markLost (latch (.write 1) (takeBuf s₂.log)))
  have hempty : (Op.sync 2).run (SysCalls.succeed 0) s₃.log = (s₃.log, none) := by
    simp [Op.run, syncLocked, drainLocked, s₃, s₂, hlog]
  have hlost : ReflTransGen (Taking Step (fun _ _ => True)) s₂ s₃ := by
    have hcall := (call_run (fun _ _ => True) s₂ 0 (.sync 1) broken rfl
      (by simp [s₂, hlog]) (by simp) trivial trivial).2
    rw [hfails] at hcall
    exact hcall (by simp)
  have hnil := (call_run (fun _ _ => True) s₃ 1 (.sync 2) (.succeed 0) rfl
    (by simp [s₃, s₂, hlog]) (by simp) trivial trivial).1
  rw [hempty] at hnil
  refine ⟨freshLog, _, freshLog_opened,
    (freshLog_append_twice.trans hlost).trans (hnil rfl), ?_⟩
  intro hkept
  obtain ⟨⟨seg, hseg, _, _, before, after, -, hin⟩, -⟩ :=
    hkept 1 (.sync 2) 2 (by simp [promised, s₃, s₂, hlog]) 1 setK rfl (by omega)
  have hsynced : seg.synced = segHeaderSize := by
    have : seg ∈ freshLog.log.dir := hseg
    rw [hlog] at this
    rw [List.mem_singleton.mp this]
  rw [if_neg (by simp), hsynced] at hin
  have := List.length_pos_iff.mpr (encode_ne_nil (frameOf (0 + 1 + 1) setK))
  omega

end RedisFromScratch.GroupCommit
