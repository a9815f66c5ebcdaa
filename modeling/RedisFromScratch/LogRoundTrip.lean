import RedisFromScratch.GroupCommit

/-!
What the log accepts and what replay reads back. Appends put no bound on a
record, replay does. Records within replay's bound, written and rotated without
a failing section, come back all and in order; one above it makes the log
unreadable.
-/
namespace RedisFromScratch.LogRoundTrip

open ByteStrings ByteCoding FramedLogs StoreRecords LogRecords SegmentReplay SegmentLog LogLayout
open GroupCommit Relation Runs

/-- Writes and rotations meet no error. -/
def SectionsSucceed (s : State) : Act → Prop
  | .section _ op φ => (op.run φ s.log).2 = none
  | _ => True

/-- Every section succeeds, and no record is above replay's bound. -/
def NoFailure (s : State) : Act → Prop
  | .append _ rec => (payload rec).length ≤ maxRecordSize
  | a => SectionsSucceed s a

variable {base : Dir} {start : ℕ} {records : List LogRecord} {l : Log}

/-- The same calls with a header write that succeeds. -/
@[simps] def headerWritten (φ : SysCalls) : SysCalls := { φ with header := none }

/-- A segment that was opened got its header. -/
theorem openSegment_header {φ : SysCalls} {seq firstLSN : ℕ}
    (h : (SegmentLog.openSegment φ seq firstLSN l).2 = none) :
    SegmentLog.openSegment φ seq firstLSN l =
      SegmentLog.openSegment (headerWritten φ) seq firstLSN l := by
  unfold SegmentLog.openSegment at h ⊢
  cases hheader : φ.header with
  | none => rfl
  | some =>
    rw [hheader] at h
    split_ifs at h

theorem rotateLocked_header {φ : SysCalls} {firstLSN : ℕ}
    (h : (rotateLocked φ firstLSN l).2 = none) :
    rotateLocked φ firstLSN l = rotateLocked (headerWritten φ) firstLSN l := by
  unfold rotateLocked at h ⊢
  by_cases hsync : φ.rotateSync = false ∨ l.fileOpen = false
  · rw [if_pos hsync] at h
    cases h
  · rw [if_neg hsync] at h ⊢
    rw [if_neg (show ¬ ((headerWritten φ).rotateSync = false ∨ _) from hsync)]
    by_cases hclose : φ.close = false
    · rw [if_pos hclose] at h
      cases h
    · rw [if_neg hclose] at h ⊢
      rw [if_neg (show ¬ (headerWritten φ).close = false from hclose)]
      exact openSegment_header h

theorem drainLocked_header {φ : SysCalls} (h : (drainLocked φ l).err = none) :
    drainLocked φ l = drainLocked (headerWritten φ) l := by
  by_cases hempty : l.buf = []
  · rw [drainLocked, drainLocked, if_pos hempty, if_pos hempty]
  rw [drainLocked, if_neg hempty] at h ⊢
  rw [drainLocked, if_neg hempty]
  by_cases hfile : (takeBuf l).fileOpen = false
  · rw [if_pos hfile, if_pos hfile]
  rw [if_neg hfile] at h ⊢
  rw [if_neg hfile, headerWritten_write]
  cases hwrite : φ.write with
  | some => rfl
  | none =>
    rw [hwrite] at h
    dsimp only at h ⊢
    split_ifs at h ⊢
    · rw [rotateLocked_header h]
    · rfl

/-- A section without an error keeps the layout and loses nothing. -/
theorem run_noFailure {L : Layout} (hL : L.Describes base start records l)
    (hlost : l.lost = false) (hbound : l.nextLSN < 2 ^ 64) {op : Op} {φ : SysCalls}
    (hok : (op.run φ l).2 = none) :
    op.run φ l = op.run (headerWritten φ) l ∧ (op.run φ l).1.lost = false := by
  have hdrain : (drainLocked φ l).err = none → drainLocked φ l = drainLocked (headerWritten φ) l ∧
      (drainLocked φ l).log.lost = false := by
    intro herr
    have hsame := drainLocked_header herr
    refine ⟨hsame, ?_⟩
    rw [hsame] at herr ⊢
    exact ((drainLocked_kept hL hlost hbound rfl).2 herr).1
  have hsync : (syncLocked φ l).2 = none → syncLocked φ l = syncLocked (headerWritten φ) l ∧
      (syncLocked φ l).1.lost = false := by
    intro herr
    unfold syncLocked at herr ⊢
    rcases hd : drainLocked φ l with ⟨l', upto, err⟩
    rw [hd] at herr hdrain
    cases err with
    | some => cases herr
    | none =>
      obtain ⟨hsame, hlive⟩ := hdrain rfl
      rw [← hsame]
      dsimp only at herr hlive ⊢
      rw [headerWritten_fsync]
      refine ⟨rfl, ?_⟩
      split_ifs <;> exact hlive
  cases op with
  | flush =>
    dsimp only [Op.run] at hok ⊢
    split_ifs at hok ⊢
    · exact ⟨rfl, hlost⟩
    · obtain ⟨hsame, hlive⟩ := hdrain hok
      exact ⟨by rw [hsame], hlive⟩
  | sync =>
    dsimp only [Op.run] at hok ⊢
    split_ifs at hok ⊢
    · exact ⟨rfl, hlost⟩
    · exact hsync hok
  | syncAll => exact hsync hok
  | close =>
    change (closeLocked φ l).2 = none at hok
    change closeLocked φ l = closeLocked (headerWritten φ) l ∧ (closeLocked φ l).1.lost = false
    unfold closeLocked at hok ⊢
    rcases hd : drainLocked φ l with ⟨l', upto, err⟩
    rw [hd] at hok hdrain
    cases err with
    | some => cases hok
    | none =>
      obtain ⟨hsame, hlive⟩ := hdrain rfl
      rw [← hsame]
      dsimp only at hok hlive ⊢
      rw [headerWritten_fsync, headerWritten_close]
      refine ⟨rfl, ?_⟩
      split_ifs <;> exact hlive

theorem step_noFailure {s s' : State} {a : Act} (h : Inv base start s)
    (hlost : s.log.lost = false) (hstep : Step s a s') (hok : NoFailure s a) :
    Inv base start s' ∧ s'.log.lost = false := by
  obtain ⟨L, hL⟩ := h.layout
  cases hstep with
  | beginAppend c rec hpc hopen hfatal hrange =>
    exact ⟨h.step (.beginAppend s c rec hpc hopen hfatal hrange) trivial, hlost⟩
  | append c rec hpc hlsn => exact ⟨h.step (.append s c rec hpc hlsn) hok, hlost⟩
  | call c op hpc hopen =>
    refine ⟨h.step (.call s c op hpc hopen) trivial, ?_⟩
    split_ifs <;> exact hlost
  | fast c op n hpc hfast => exact ⟨h.step (.fast s c op n hpc hfast) trivial, hlost⟩
  | returned c op n φ hpc herr =>
    obtain ⟨hsame, hlive⟩ := run_noFailure hL hlost h.bound hok
    refine ⟨?_, hlive⟩
    rw [hsame] at herr ⊢
    exact h.step (.returned s c op n (headerWritten φ) hpc herr) (fun _ => ⟨hlost, rfl⟩)
  | failed c op n φ hpc herr => exact absurd hok herr
  | finish c op n hpc => exact ⟨h.step (.finish s c op n hpc) trivial, hlost⟩

/-- Once everything appended is written, the files are whole segments of exactly
the appended records. -/
theorem contents_written {s : State} (h : Inv [] 0 s) (hlost : s.log.lost = false)
    (hwritten : s.log.writtenLSN = s.log.lastAppended) : Contents s.log.dir 1 s.records := by
  obtain ⟨L, hL⟩ := h.layout
  obtain ⟨htorn, hmark, -⟩ := hL.intact hlost
  have hlast := hL.lastAppended
  have hsplit := hL.split
  have hlen := congrArg List.length hsplit
  simp only [List.length_append] at hlen
  have hrest : L.rest = [] := List.length_eq_zero_iff.mp (by omega)
  have hnewest : WholeSegment L.newest (1 + L.recsOld.length) L.recsNew := by
    refine ⟨L.firstLSN, L.createdMs, hL.firstLSN, ?_⟩
    rw [hL.newest, htorn, List.append_nil, Layout.firstNew]
  rw [hrest, List.append_nil] at hsplit
  rw [hL.dir, hsplit, List.nil_append]
  exact hL.older.append (.single hnewest)

/-- Whatever is appended to a fresh log, written and rotated without a failing
section, replay hands over all of it in order and truncates nothing. -/
theorem appended_records_replay {s₀ s : State} (hopen : Opened [] 0 s₀)
    (hrun : ReflTransGen (Taking Step NoFailure) s₀ s)
    (hwritten : s.log.writtenLSN = s.log.lastAppended) :
    ∃ r, replay s.log.dir 0 = .ok r ∧ r.truncated = false ∧
      r.state.applied = s.records.map strip := by
  have hlost₀ : s₀.log.lost = false := by
    obtain ⟨⟨φ, segmentSize, maxBufferBytes, hlog⟩, -⟩ := hopen
    have hcounters := openSegment_counters φ (nextSeq []) (0 + 1)
      (newLog segmentSize maxBufferBytes [] 0)
    rw [← openLog, hlog] at hcounters
    exact hcounters.2.2.2
  obtain ⟨hinv, hlost⟩ : Inv [] 0 s ∧ s.log.lost = false :=
    run_preserves (fun s => Inv [] 0 s ∧ s.log.lost = false)
      (fun _ _ h hstep => hstep.elim (fun _ hs => step_noFailure h.1 h.2 hs.1 hs.2)) hrun
      ⟨opened_inv replayable_nil hopen, hlost₀⟩
  have hbound : 1 + s.records.length < 2 ^ 64 := by
    obtain ⟨L, hL⟩ := hinv.layout
    have := hinv.bound
    rw [hL.nextLSN] at this
    omega
  refine ⟨_, replay_contents 0 (contents_written hinv hlost hwritten) hinv.loggable hbound, rfl, ?_⟩
  simp [advance, replayStart]

/-- One record, appended and synced. -/
theorem appended_record_replays : ∃ s, ReflTransGen (Taking Step NoFailure) freshLog s ∧
    s.records = [setK] ∧ ∃ r, replay s.log.dir 0 = .ok r ∧ r.truncated = false ∧
      r.state.applied = s.records.map strip := by
  have hlog := freshLog_log
  have hne := encode_ne_nil (frameOf 1 setK)
  have hlen : ¬ 67108864 ≤ segHeaderSize + (framing.encode (frameOf 1 setK)).length := by
    decide +kernel
  have hsync := (call_run NoFailure (freshLog.appendRecord setK) 0 (.sync 1) (.succeed 0) rfl
    (by simp [hlog]) (by simp) trivial freshLog_sync.1).1 freshLog_sync.1
  have hrun := (freshLog_append NoFailure (fun _ _ => trivial)
    (fun _ _ => setK_loggable.2)).trans hsync
  refine ⟨_, hrun, rfl, appended_records_replay freshLog_opened hrun ?_⟩
  simp [Op.run, syncLocked, drainLocked, SysCalls.succeed, hlog, hne, hlen]

/-- A record above the bound is taken for a damaged one. -/
theorem readRecord_large (f : Frame) (rest : Bytes) (hlarge : maxRecordSize < f.payload.length)
    (hfield : f.payload.length < 2 ^ 32) : readRecord (f.encode ++ rest) = .damaged := by
  have hlen := f.encode_length
  have hheader : headerSize ≤ (f.encode ++ rest).length := by
    rw [List.length_append, hlen]
    omega
  have hplen : ofLe (((f.encode ++ rest).drop 4).take 4) = f.payload.length := by
    rw [Frame.encode, Frame.body, List.append_assoc, List.drop_left' (by simp), List.append_assoc,
      List.take_left' (by simp), ofLe_le 4 _ hfield]
  have hne : f.encode ++ rest ≠ [] := by
    intro hnil
    rw [hnil, List.length_nil, headerSize] at hheader
    omega
  rw [readRecord, if_neg hne, if_neg (by omega)]
  rw [hplen, if_pos hlarge]

/-- A record that fills its segment, appended and flushed: a new segment has
been started. -/
theorem flush_full (rec : LogRecord)
    (hfull : 67108864 ≤ segHeaderSize + (framing.encode (frameOf 1 rec)).length) :
    ∃ synced, ((Op.flush).run (.succeed 0) (freshLog.appendRecord rec).log).2 = none ∧
      ((Op.flush).run (.succeed 0) (freshLog.appendRecord rec).log).1.writtenLSN = 1 ∧
      ((Op.flush).run (.succeed 0) (freshLog.appendRecord rec).log).1.lastAppended = 1 ∧
      ((Op.flush).run (.succeed 0) (freshLog.appendRecord rec).log).1.dir =
        [⟨1, encodeSegHeader 1 0 ++ framing.encode (frameOf 1 rec), synced⟩,
          ⟨2, encodeSegHeader 2 0, segHeaderSize⟩] := by
  have hlog := freshLog_log
  have hne := encode_ne_nil (frameOf 1 rec)
  refine ⟨segHeaderSize + (framing.encode (frameOf 1 rec)).length, ?_⟩
  simp [Op.run, drainLocked, rotateLocked, SegmentLog.openSegment, SysCalls.succeed, hlog, hne,
    hfull]

/-- A log whose first segment is one record above the bound cannot be replayed. -/
theorem replay_large {f : Frame} (hlarge : maxRecordSize < f.payload.length)
    (hfield : f.payload.length < 2 ^ 32) (synced afterLSN : ℕ) {next : Segment}
    (hnext : (readSegHeader next.data).isSome) :
    replay [⟨1, encodeSegHeader 1 0 ++ framing.encode f, synced⟩, next] afterLSN =
      .error (.tornMidLog 1 segHeaderSize) := by
  have hread : framing.read ((encodeSegHeader 1 0 ++ framing.encode f).drop segHeaderSize) =
      .damaged := by
    rw [List.drop_left' (by simp), ← List.append_nil (framing.encode f), framing_read,
      framing_encode]
    exact readRecord_large f [] hlarge hfield
  have hheaders : ∀ seg ∈ ([⟨1, encodeSegHeader 1 0 ++ framing.encode f, synced⟩, next] : Dir),
      (readSegHeader seg.data).isSome := by
    simp [readSegHeader_encoded 1 0 (framing.encode f) (by decide), hnext]
  rw [replay, if_pos hheaders, replayFrom, replaySegment, Framing.scan_damaged _ _ _ hread]
  rfl

/-- A record above the bound is accepted, written and rotated without an error,
and the log cannot be replayed. -/
theorem large_record_run {rec : LogRecord} (hrange : InRange rec)
    (hlarge : maxRecordSize < (payload rec).length) (hfield : (payload rec).length < 2 ^ 32) :
    ∃ s, ReflTransGen (Taking Step SectionsSucceed) freshLog s ∧ s.records = [rec] ∧
      s.log.writtenLSN = s.log.lastAppended ∧
      replay s.log.dir 0 = .error (.tornMidLog 1 segHeaderSize) := by
  have hlog := freshLog_log
  have hlen : (framing.encode (frameOf 1 rec)).length = headerSize + (payload rec).length :=
    Frame.encode_length _
  have hmore : 2 ^ 30 < (payload rec).length := hlarge
  obtain ⟨synced, hok, hwritten, hlast, hdir⟩ := flush_full rec (by omega)
  -- the buffer is over its limit, so the append goes on to a flush
  have hover : afterAppend (append rec freshLog.log) = .calling .flush 1 := by
    have hbuf : (append rec freshLog.log).buf = framing.encode (frameOf 1 rec) := by
      rw [append_buf, hlog, List.nil_append]
    have hmax : (append rec freshLog.log).maxBufferBytes = 1048576 := by
      rw [append_maxBufferBytes, hlog]
      rfl
    rw [afterAppend, hbuf, hlen, hmax, append_closed, append_lastAppended, hlog,
      if_pos ⟨by omega, rfl⟩]
  have hbegin := Step.beginAppend freshLog 0 rec rfl (by rw [hlog]) (by rw [hlog]) hrange
  have happend := Step.append (freshLog.setPc 0 (.appending rec)) 0 rec (by simp)
    (by rw [State.setPc_log, hlog]; decide)
  rw [State.setPc_log, hover] at happend
  have hflush := Step.returned (((freshLog.setPc 0 (.appending rec)).appendRecord
    rec).setPc 0 (.calling .flush 1)) 0 .flush 1 (.succeed 0) (by simp) hok
  refine ⟨_, ((ReflTransGen.single ⟨_, hbegin, trivial⟩).tail ⟨_, happend, trivial⟩).tail
    ⟨_, hflush, hok⟩, rfl, hwritten.trans hlast.symm, ?_⟩
  change replay ((Op.flush).run (.succeed 0) (freshLog.appendRecord rec).log).1.dir 0 = _
  have hnext : (readSegHeader (encodeSegHeader 2 0)).isSome := by
    have hsecond := readSegHeader_encoded 2 0 [] (by decide)
    rw [List.append_nil] at hsecond
    rw [hsecond]
    rfl
  rw [hdir]
  exact replay_large (f := frameOf 1 rec) hlarge hfield synced 0 hnext

/-- The delete of a key of one gibibyte. -/
def hugeDelete : LogRecord := .delete (List.replicate (2 ^ 30) 0)

theorem hugeDelete_length : (payload hugeDelete).length = 2 ^ 30 + 5 := by
  have hprefix : (uvarint (2 ^ 30)).length = 5 := by simp [uvarint]
  rw [hugeDelete, payload, appendDeletePayload, List.length_append, List.length_replicate, hprefix]
  omega

/-- The log accepts it. -/
theorem accepted_record_unreadable : ∃ s,
    ReflTransGen (Taking Step SectionsSucceed) freshLog s ∧ s.records = [hugeDelete] ∧
      s.log.writtenLSN = s.log.lastAppended ∧
      replay s.log.dir 0 = .error (.tornMidLog 1 segHeaderSize) :=
  large_record_run trivial (by rw [hugeDelete_length, maxRecordSize]; omega)
    (by rw [hugeDelete_length]; omega)

end RedisFromScratch.LogRoundTrip
