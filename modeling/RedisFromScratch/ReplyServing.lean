import RedisFromScratch.ReplyWriter
import RedisFromScratch.Runs

/-!
The command loop of one connection over a log that other connections share.
Commands append to the log first and reply afterwards; replies collect in the
buffered writer; the end of a batch flushes the log and then the replies.
The socket's history records, for every chunk handed over, how far the log file
had come at that moment.
-/
namespace RedisFromScratch.ReplyServing

open ByteStrings BufferedWriter ReplyWriter Relation Runs

def maxBatch : ℕ := 1024

def flushThreshold : ℕ := 256 <<< 10

/-- The configured buffer when nothing else is said: 16 KiB. -/
def defaultReplyBufferSize : ℤ := 16384

/-- What follows a reply: the next command of the batch, or `finish`. Finishing
`again` runs it twice; `more` keeps the connection. -/
inductive After
  | batch (batched : ℕ)
  | finish (again more : Bool)

/-- Where the connection's goroutine is. -/
inductive Phase
  | reading
  /-- Inside a handler: so many store writes to come, the last one at `lsn`. -/
  | executing (lsn writes : ℕ) (ops : List WriterOp) (next : After)
  | replying (lsn : ℕ) (ops : List WriterOp) (next : After)
  | batching (batched : ℕ)
  | finishing (again more : Bool)
  | flushing (again more : Bool)
  | closed

structure State where
  /-- The last sequence number given out. -/
  appended : ℕ
  /-- The last sequence number whose record is in the segment file. -/
  written : ℕ
  writer : Writer ReplyByte
  phase : Phase
  /-- Chunks given to the socket, each with `written` at that moment. -/
  sent : List (List ReplyByte × ℕ)

/-- A fresh connection, over a log written as far as `lsn`. -/
def init (replyBufferSize : ℤ) (lsn : ℕ) : State where
  appended := lsn
  written := lsn
  writer := newWriter replyBufferSize
  phase := .reading
  sent := []

namespace State

/-- Take over the outcome of a call on the writer. -/
def emit (s : State) (out : Writer ReplyByte × List (List ReplyByte)) : State :=
  { s with writer := out.1, sent := s.sent ++ out.2.map (fun c => (c, s.written)) }

def goto (s : State) (p : Phase) : State := { s with phase := p }

end State

def After.phase : After → Phase
  | .batch batched => .batching batched
  | .finish again more => .finishing again more

/-- Where `finish` returns to. -/
def afterFinish (ok again more : Bool) : Phase :=
  if again then .finishing false more else if ok && more then .reading else .closed

inductive Step : State → State → Prop
  /-- Another connection appends a record. -/
  | append (s : State) : Step s { s with appended := s.appended + 1 }
  /-- The background flush or another connection drains the log. -/
  | drain (s : State) (n : ℕ) (hlow : s.written ≤ n) (hhigh : n ≤ s.appended) :
      Step s { s with written := n }
  | command (s : State) (writes : ℕ) (ops : List WriterOp) (next : After)
      (hphase : s.phase = .reading) (hnext : next = .batch 1 ∨ next = .finish false false) :
      Step s (s.goto (.executing 0 writes ops next))
  /-- The read ended the connection, or the client had been killed. -/
  | readDone (s : State) (p : Phase) (hphase : s.phase = .reading)
      (hp : p = .closed ∨ p = .batching 1 ∨ p = .finishing false false) : Step s (s.goto p)
  | protocolError (s : State) (msg : Bytes) (hphase : s.phase = .reading) :
      Step s (s.goto (.replying 0 (writeError msg) (.finish false false)))
  | nextCommand (s : State) (batched writes : ℕ) (ops : List WriterOp) (next : After)
      (hphase : s.phase = .batching batched) (hmax : batched < maxBatch)
      (hbuffered : s.writer.buffered < flushThreshold)
      (hnext : next = .batch (batched + 1) ∨ next = .finish false false) :
      Step s (s.goto (.executing 0 writes ops next))
  | nextProtocolError (s : State) (batched : ℕ) (msg : Bytes)
      (hphase : s.phase = .batching batched) (hmax : batched < maxBatch)
      (hbuffered : s.writer.buffered < flushThreshold) :
      Step s (s.goto (.replying 0 (writeError msg) (.finish true false)))
  | batchDone (s : State) (batched : ℕ) (more : Bool) (hphase : s.phase = .batching batched) :
      Step s (s.goto (.finishing false more))
  /-- The handler's next store write gets the next sequence number. -/
  | journal (s : State) (lsn writes : ℕ) (ops : List WriterOp) (next : After)
      (hphase : s.phase = .executing lsn (writes + 1) ops next) :
      Step s { s with
        appended := s.appended + 1
        phase := .executing (s.appended + 1) writes ops next }
  | executed (s : State) (lsn : ℕ) (ops : List WriterOp) (next : After)
      (hphase : s.phase = .executing lsn 0 ops next) : Step s (s.goto (.replying lsn ops next))
  | reply (s : State) (lsn : ℕ) (op : WriterOp) (ops : List WriterOp) (next : After)
      (sink : ℕ → Outcome) (hphase : s.phase = .replying lsn (op :: ops) next) :
      Step s ((s.emit (s.writer.writeLoop op.direct sink (op.tagged lsn))).goto
        (.replying lsn ops next))
  | replied (s : State) (lsn : ℕ) (next : After) (hphase : s.phase = .replying lsn [] next) :
      Step s (s.goto next.phase)
  /-- FlushWAL returned nil: everything appended so far is in the file. -/
  | flushWAL (s : State) (again more : Bool) (hphase : s.phase = .finishing again more) :
      Step s { s with written := s.appended, phase := .flushing again more }
  | flushWALFailed (s : State) (again more : Bool) (hphase : s.phase = .finishing again more) :
      Step s (s.goto (afterFinish false again more))
  | flushReplies (s : State) (again more : Bool) (out : Outcome)
      (hphase : s.phase = .flushing again more) :
      Step s ((s.emit (s.writer.flush out)).goto
        (afterFinish (s.writer.pending = [] || !(s.writer.flush out).1.failed) again more))
  /-- A panic, a kill or a shutdown takes the connection down. -/
  | drop (s : State) : Step s (s.goto .closed)

/-- No reply byte went out ahead of the record it acknowledges. -/
def AcknowledgedAfterWritten (s : State) : Prop := ∀ e ∈ s.sent, ∀ x ∈ e.1, x.lsn ≤ e.2

/-- Writing this slice now hands over no byte of an unwritten record: the slice
fits beside what is pending; or everything pending is written, and so is the
slice unless it waits in the buffer emptied for it. -/
def RoomOrWritten (s : State) (p : List ReplyByte) : Prop :=
  p.length ≤ s.writer.available ∨
    (∀ x ∈ s.writer.pending, x.lsn ≤ s.written) ∧
      ((s.writer.available = 0 ∧ p.length ≤ s.writer.size) ∨ ∀ x ∈ p, x.lsn ≤ s.written)

/-- The condition on a step that writes a part of a reply. -/
def RepliesFit (s s' : State) : Prop :=
  ∀ lsn op ops next, s.phase = .replying lsn (op :: ops) next →
    s'.phase = .replying lsn ops next → RoomOrWritten s (op.tagged lsn)

/-- The sequence number the running command's reply is going to carry. -/
def Phase.lsn : Phase → ℕ
  | .executing lsn _ _ _ => lsn
  | .replying lsn _ _ => lsn
  | _ => 0

def Phase.Flushing : Phase → Prop
  | .flushing _ _ => True
  | _ => False

/-- Sequence numbers in use have been given out, and a flush of the replies
finds all of theirs in the file. -/
structure Ordered (s : State) : Prop where
  sent : AcknowledgedAfterWritten s
  pending : ∀ x ∈ s.writer.pending, x.lsn ≤ s.appended
  current : s.phase.lsn ≤ s.appended
  flushing : s.phase.Flushing → ∀ x ∈ s.writer.pending, x.lsn ≤ s.written

theorem ordered_init (replyBufferSize : ℤ) (lsn : ℕ) : Ordered (init replyBufferSize lsn) := by
  have hempty : (newWriter replyBufferSize).pending = [] := by
    unfold newWriter
    split <;> rfl
  refine ⟨fun e he => absurd he List.not_mem_nil, ?_, Nat.zero_le _, False.elim⟩
  intro x hx
  change x ∈ (newWriter replyBufferSize).pending at hx
  rw [hempty] at hx
  cases hx

/-- What a call on the writer hands over, when its chunks are all written. -/
theorem AcknowledgedAfterWritten.emit {s : State} (h : AcknowledgedAfterWritten s)
    {out : Writer ReplyByte × List (List ReplyByte)}
    (hout : ∀ c ∈ out.2, ∀ x ∈ c, x.lsn ≤ s.written) : AcknowledgedAfterWritten (s.emit out) := by
  intro e he x hx
  rcases List.mem_append.mp he with he | he
  · exact h e he x hx
  · obtain ⟨c, hc, rfl⟩ := List.mem_map.mp he
    exact hout c hc x hx

/-- With room, or with everything written, a write hands over nothing early. -/
theorem RoomOrWritten.chunks {s : State} {p : List ReplyByte} (h : RoomOrWritten s p)
    {direct : Bool} {sink : ℕ → Outcome} {c : List ReplyByte}
    (hc : c ∈ (s.writer.writeLoop direct sink p).2) {x : ReplyByte} (hx : x ∈ c) :
    x.lsn ≤ s.written := by
  rcases h with hfit | ⟨hpending, ⟨hfull, hfit⟩ | hp⟩
  · cases hfailed : s.writer.failed with
    | true =>
      rw [Writer.writeLoop, if_pos hfailed] at hc
      cases hc
    | false =>
      rw [Writer.writeLoop_of_fits hfailed hfit] at hc
      cases hc
  · rw [Writer.writeLoop_of_full hfull hfit hc] at hx
    exact hpending x hx
  · rcases Writer.writeLoop_items x (Or.inr ⟨c, hc, hx⟩) with hx | hx
    · exact hpending x hx
    · exact hp x hx

theorem Ordered.goto {s : State} (h : Ordered s) {p : Phase} (hlsn : p.lsn ≤ s.appended)
    (hflushing : ¬ p.Flushing) : Ordered (s.goto p) :=
  ⟨h.sent, h.pending, hlsn, fun hp => absurd hp hflushing⟩

/-- Leaving `finish` promises nothing. -/
theorem Ordered.leave {s : State} (h : Ordered s) (ok again more : Bool) :
    Ordered (s.goto (afterFinish ok again more)) := by
  unfold afterFinish
  split
  · exact h.goto (Nat.zero_le _) id
  · split <;> exact h.goto (Nat.zero_le _) id

theorem Ordered.reply {s : State} (h : Ordered s) {lsn : ℕ} {op : WriterOp} {ops : List WriterOp}
    {next : After} (sink : ℕ → Outcome) (hphase : s.phase = .replying lsn (op :: ops) next)
    (hroom : RoomOrWritten s (op.tagged lsn)) :
    Ordered ((s.emit (s.writer.writeLoop op.direct sink (op.tagged lsn))).goto
      (.replying lsn ops next)) := by
  have hlsn : lsn ≤ s.appended := by
    have := h.current
    rwa [hphase] at this
  refine ⟨h.sent.emit (fun c hc x hx => hroom.chunks hc hx), ?_, hlsn, False.elim⟩
  intro x hx
  rcases Writer.writeLoop_items x (Or.inl hx) with hx | hx
  · exact h.pending x hx
  · rw [lsn_of_mem_tagged hx]
    exact hlsn

theorem Ordered.flushReplies {s : State} (h : Ordered s) {again more : Bool} (out : Outcome)
    (hphase : s.phase = .flushing again more) (ok : Bool) :
    Ordered ((s.emit (s.writer.flush out)).goto (afterFinish ok again more)) := by
  have hwritten : ∀ x ∈ s.writer.pending, x.lsn ≤ s.written := by
    apply h.flushing
    rw [hphase]
    trivial
  have hkeep : Ordered ((s.emit (s.writer.flush out)).goto .closed) := by
    refine ⟨h.sent.emit ?_, ?_, Nat.zero_le _, False.elim⟩
    · intro c hc x hx
      rw [Writer.mem_of_flush_chunk hc] at hx
      exact hwritten x hx
    · intro x hx
      exact h.pending x (Writer.mem_of_flush_pending hx)
  exact hkeep.leave ok again more

theorem Ordered.step {s s' : State} (h : Ordered s) (hstep : Step s s')
    (hfit : RepliesFit s s') : Ordered s' := by
  cases hstep with
  | append =>
    exact ⟨h.sent, fun x hx => Nat.le_succ_of_le (h.pending x hx), Nat.le_succ_of_le h.current,
      h.flushing⟩
  | drain n hlow =>
    exact ⟨h.sent, h.pending, h.current, fun hp x hx => Nat.le_trans (h.flushing hp x hx) hlow⟩
  | command | protocolError | nextCommand | nextProtocolError | batchDone | drop =>
    exact h.goto (Nat.zero_le _) id
  | readDone p hphase hp => rcases hp with rfl | rfl | rfl <;> exact h.goto (Nat.zero_le _) id
  | journal =>
    exact ⟨h.sent, fun x hx => Nat.le_succ_of_le (h.pending x hx), Nat.le_refl _, False.elim⟩
  | executed lsn ops next hphase =>
    have hlsn := h.current
    rw [hphase] at hlsn
    exact h.goto hlsn id
  | reply lsn op ops next sink hphase => exact h.reply sink hphase (hfit lsn op ops next hphase rfl)
  | replied lsn next => cases next <;> exact h.goto (Nat.zero_le _) id
  | flushWAL => exact ⟨h.sent, h.pending, Nat.zero_le _, fun _ => h.pending⟩
  | flushWALFailed again more => exact h.leave false again more
  | flushReplies again more out hphase => exact h.flushReplies out hphase _

/-- The part of a reply that fits is written without a word to the socket. -/
theorem reply_run {s : State} {lsn : ℕ} (ops rest : List WriterOp) (next : After)
    (hphase : s.phase = .replying lsn (ops ++ rest) next) (hfailed : s.writer.failed = false)
    (hfit : (ops.flatMap WriterOp.bytes).length ≤ s.writer.available) :
    ∃ w : Writer ReplyByte, ReflTransGen (Guarded Step RepliesFit) s
        { s with writer := w, phase := .replying lsn rest next } ∧
      w.pending = s.writer.pending ++ ops.flatMap (fun op => op.tagged lsn) ∧
      w.size = s.writer.size ∧ w.failed = false := by
  induction ops generalizing s with
  | nil =>
    refine ⟨s.writer, ?_, by simp, rfl, hfailed⟩
    have hsame : { s with phase := .replying lsn rest next } = s := by
      rw [List.nil_append] at hphase
      rw [← hphase]
    rw [hsame]
  | cons op ops ih =>
    rw [List.flatMap_cons, List.length_append] at hfit
    have hfirst : (op.tagged lsn).length ≤ s.writer.available := by
      rw [tagged_length]
      omega
    have hwrite : s.writer.writeLoop op.direct (fun _ => none) (op.tagged lsn) =
        (s.writer.copy (op.tagged lsn), []) := Writer.writeLoop_of_fits hfailed hfirst
    have hstep := Step.reply s lsn op (ops ++ rest) next (fun _ => none) hphase
    rw [hwrite] at hstep
    have hcopied : (s.writer.copy (op.tagged lsn)).pending =
        s.writer.pending ++ op.tagged lsn := by
      simp only [Writer.copy, List.take_of_length_le hfirst]
    have hroom : (ops.flatMap WriterOp.bytes).length ≤
        (s.writer.copy (op.tagged lsn)).available := by
      unfold Writer.available at hfit ⊢
      rw [hcopied, List.length_append, tagged_length]
      change _ ≤ s.writer.size - _
      omega
    obtain ⟨w, hrun, hpending, hsize, hok⟩ := ih
      (s := (s.emit (s.writer.copy (op.tagged lsn), [])).goto (.replying lsn (ops ++ rest) next))
      rfl hfailed hroom
    refine ⟨w, .head ⟨hstep, ?_⟩ ?_, ?_, hsize, hok⟩
    · intro lsn' op' ops' next' hbefore _
      rw [hphase] at hbefore
      cases hbefore
      exact Or.inl hfirst
    · have hsent : (s.emit (s.writer.copy (op.tagged lsn), [])).sent = s.sent := by
        simp [State.emit]
      convert hrun using 1
      simp [State.goto, State.emit]
    · rw [hpending]
      change (s.writer.copy (op.tagged lsn)).pending ++ _ = _
      rw [hcopied, List.flatMap_cons, List.append_assoc]

/-- The reply of a SET that was carried out: `+OK`. -/
def okReply : List WriterOp := writeSimpleString [79, 75]

/-- SET at the head of a batch, up to the moment its reply is in the buffer. -/
theorem set_run (replyBufferSize : ℤ) (hsize : 5 ≤ replyBufferSize) :
    ∃ w : Writer ReplyByte, ReflTransGen (Guarded Step RepliesFit) (init replyBufferSize 1)
        ⟨2, 1, w, .replying 2 [] (.batch 1), []⟩ ∧
      w.pending = [⟨43, 2⟩, ⟨79, 2⟩, ⟨75, 2⟩, ⟨13, 2⟩, ⟨10, 2⟩] ∧
      w.size = replyBufferSize.toNat ∧ w.failed = false := by
  have hwriter : newWriter replyBufferSize = Writer.new replyBufferSize.toNat (by omega) := by
    unfold newWriter
    rw [dif_neg (by omega)]
  let w := newWriter replyBufferSize
  obtain ⟨w', hrun, hpending, hw, hok⟩ := reply_run okReply [] (.batch 1)
    (s := ⟨2, 1, w, .replying 2 okReply (.batch 1), []⟩) rfl
    (by simp [w, hwriter, Writer.new])
    (by
      simp [w, hwriter, Writer.new, Writer.available, okReply, writeSimpleString, WriterOp.bytes,
        crlf]
      omega)
  refine ⟨w', ?_, ?_, ?_, hok⟩
  · refine .head ⟨.command _ 1 okReply (.batch 1) rfl (Or.inl rfl), fun _ _ _ _ h => by cases h⟩ ?_
    refine .head ⟨.journal _ 0 0 okReply (.batch 1) rfl, fun _ _ _ _ h => by cases h⟩ ?_
    exact .head ⟨.executed _ 2 okReply (.batch 1) rfl, fun _ _ _ _ h => by cases h⟩ hrun
  · rw [hpending]
    simp [w, hwriter, Writer.new, okReply, writeSimpleString, WriterOp.tagged, WriterOp.bytes,
      crlf, typeSimpleString]
  · rw [hw]
    simp [w, hwriter, Writer.new]

end RedisFromScratch.ReplyServing
