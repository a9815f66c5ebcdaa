import RedisFromScratch.CommandPeeking
import RedisFromScratch.ReplyServing

/-!
The command loop of one connection with its reader. A command that waits for the
client is read with an empty reply buffer; the rest of a pipeline is read while
replies pile up, but only as long as a whole command is already buffered, and such
a read never calls the socket. What commands reply, and how the socket takes it, is
left open, and so are the pieces the client's bytes arrive in.
-/
namespace RedisFromScratch.CommandLoop

open ByteStrings ReplyWriter BufferedWriter BufferedReader StreamParsers ArgumentArena RespReader
open RespGrammar CommandRoundTrip CommandPeeking Relation Runs
open ReplyServing (maxBatch flushThreshold)

/-- What follows a reply: the next command of the batch, or the end of the connection,
with a call of `finish` on the way and possibly a second one. -/
inductive After
  | batch (batched : ℕ)
  | finish (again : Bool)

/-- Where the connection's goroutine is. -/
inductive Phase
  | reading
  | batching (batched : ℕ)
  /-- The loop condition held; the next command of the batch is read. -/
  | batchReading (batched : ℕ)
  | replying (ops : List WriterOp) (next : After)
  | finishing (again more : Bool)
  | closed

structure State where
  conn : Conn
  writer : Writer UInt8
  phase : Phase

theorem defaultReplyBuffer_pos : 0 < 16 <<< 10 := by decide

theorem toNat_pos_of_not_nonpos {n : ℤ} (h : ¬ n ≤ 0) : 0 < n.toNat := by omega

def newReplyWriter (bufSize : ℤ) : Writer UInt8 :=
  if h : bufSize ≤ 0 then .new (16 <<< 10) defaultReplyBuffer_pos
  else .new bufSize.toNat (toNat_pos_of_not_nonpos h)

/-- A connection that was just accepted; the source is what its client will do. -/
def init (lim : Limits) (replyBufferSize : ℤ) (source : List (Event UInt8 ReadError)) : State where
  conn := newReader lim source
  writer := newReplyWriter replyBufferSize
  phase := .reading

/-- The text that goes back before the connection is closed. -/
def protocolError (p : String) : List WriterOp :=
  writeError (ofString ("ERR Protocol error: " ++ p))

/-- Whether the connection survives an error of the socket: only a timeout that finds
no command in flight, before the idle deadline. -/
def survives (e : ReadError) (inFlight idle : Bool) : Bool :=
  match e with
  | .timeout => !inFlight && !idle
  | _ => false

def After.phase : After → Phase
  | .batch batched => .batching batched
  | .finish again => .finishing again false

/-- Where `finish` returns to. -/
def afterFinish (ok again more : Bool) : Phase :=
  if again then .finishing false more else if ok && more then .reading else .closed

/-- The condition of the batch loop. -/
def continues (s : State) (batched : ℕ) : Prop :=
  batched < maxBatch ∧ s.writer.buffered < flushThreshold ∧ hasCompleteCommand s.conn = true

/-- The state after a read, at some phase. -/
def State.afterRead (s : State) (p : Phase) : State :=
  { s with conn := (readCommand s.conn).2, phase := p }

inductive Step : State → State → Prop
  | command (s : State) (args : List Slice) (ops : List WriterOp) (next : After)
      (hphase : s.phase = .reading) (hread : (readCommand s.conn).1 = .ok (some args))
      (hnext : next = .batch 1 ∨ next = .finish false) : Step s (s.afterRead (.replying ops next))
  | noop (s : State) (hphase : s.phase = .reading) (hread : (readCommand s.conn).1 = .ok none) :
      Step s (s.afterRead (.batching 1))
  | rejected (s : State) (p : String) (hphase : s.phase = .reading)
      (hread : (readCommand s.conn).1 = .rejected p) :
      Step s (s.afterRead (.replying (protocolError p) (.finish false)))
  | failed (s : State) (e : ReadError) (idle : Bool) (hphase : s.phase = .reading)
      (hread : (readCommand s.conn).1 = .failed e) :
      Step s (s.afterRead
        (if survives e (readCommand s.conn).2.inFlight idle then .reading else .closed))
  | batchOn (s : State) (batched : ℕ) (hphase : s.phase = .batching batched)
      (hon : continues s batched) : Step s { s with phase := .batchReading batched }
  | batchDone (s : State) (batched : ℕ) (hphase : s.phase = .batching batched)
      (hdone : ¬ continues s batched) : Step s { s with phase := .finishing false true }
  | nextCommand (s : State) (batched : ℕ) (args : List Slice) (ops : List WriterOp) (next : After)
      (hphase : s.phase = .batchReading batched)
      (hread : (readCommand s.conn).1 = .ok (some args))
      (hnext : next = .batch (batched + 1) ∨ next = .finish false) :
      Step s (s.afterRead (.replying ops next))
  | nextNoop (s : State) (batched : ℕ) (hphase : s.phase = .batchReading batched)
      (hread : (readCommand s.conn).1 = .ok none) : Step s (s.afterRead (.batching batched))
  -- handleReadError has called finish once when serveConn calls it
  | nextRejected (s : State) (batched : ℕ) (p : String)
      (hphase : s.phase = .batchReading batched)
      (hread : (readCommand s.conn).1 = .rejected p) :
      Step s (s.afterRead (.replying (protocolError p) (.finish true)))
  | nextFailed (s : State) (batched : ℕ) (e : ReadError) (idle : Bool)
      (hphase : s.phase = .batchReading batched)
      (hread : (readCommand s.conn).1 = .failed e) :
      Step s (s.afterRead
        (.finishing false (survives e (readCommand s.conn).2.inFlight idle)))
  | reply (s : State) (op : WriterOp) (ops : List WriterOp) (next : After)
      (sink : ℕ → BufferedWriter.Outcome)
      (hphase : s.phase = .replying (op :: ops) next) :
      Step s { s with
        writer := (s.writer.writeLoop op.direct sink op.bytes).1
        phase := .replying ops next }
  | replied (s : State) (next : After) (hphase : s.phase = .replying [] next) :
      Step s { s with phase := next.phase }
  /-- The log could not be flushed, or the deadline not be set. -/
  | finishFailed (s : State) (again more : Bool) (hphase : s.phase = .finishing again more) :
      Step s { s with phase := afterFinish false again more }
  | finished (s : State) (again more : Bool) (out : BufferedWriter.Outcome)
      (hphase : s.phase = .finishing again more) :
      Step s { s with
        writer := (s.writer.flush out).1
        phase := afterFinish (s.writer.pending = [] || !(s.writer.flush out).1.failed) again more }
  /-- A panic, a kill, a shutdown or a reply that asked for it ends the connection. -/
  | drop (s : State) : Step s { s with phase := .closed }

/-- The source is called while a command is read, so the read may have to wait. -/
def CallsSocket (r : Conn) : Prop := (readCommand r).2.br.reads ≠ r.br.reads

/-- A read of what is buffered completely returns, or rejects, without the socket. -/
theorem readCommand_of_complete (r : Conn) (h : hasCompleteCommand r = true) :
    ((∃ args, (readCommand r).1 = .ok args) ∨ ∃ p, (readCommand r).1 = .rejected p) ∧
      (readCommand r).2.br.source = r.br.source ∧ ¬ CallsSocket r := by
  obtain ⟨hout, hbr, -⟩ := readCommand_run r
  have hdecided : (readOne r.lim r.arena.reset).parse r.br.size r.br.buf ≠ .short :=
    readOne_decided r.arena.reset h
  have hbuffered := run_fromBuffer (readOne r.lim r.arena.reset) r.br rfl
  unfold CallsSocket
  cases hparse : (readOne r.lim r.arena.reset).parse r.br.size r.br.buf with
  | done x =>
    rw [hparse] at hbuffered
    obtain ⟨n, hrun, -⟩ := hbuffered
    rw [hout, hbr, hrun]
    exact ⟨Or.inl ⟨x.1, rfl⟩, rfl, fun hreads => hreads rfl⟩
  | rejected p =>
    rw [hparse] at hbuffered
    obtain ⟨n, hrun⟩ := hbuffered
    rw [hout, hbr, hrun]
    exact ⟨Or.inr ⟨p, rfl⟩, rfl, fun hreads => hreads rfl⟩
  | short => exact absurd hparse hdecided

/-- Nothing is pending where a read may wait; where replies may be pending, a whole
command is buffered. -/
def Prompt (s : State) : Prop :=
  match s.phase with
  | .reading => s.writer.pending = []
  | .batchReading _ => hasCompleteCommand s.conn = true
  | _ => True

theorem prompt_init (lim : Limits) (replyBufferSize : ℤ) (source : List (Event UInt8 ReadError)) :
    Prompt (init lim replyBufferSize source) := by
  change (newReplyWriter replyBufferSize).pending = []
  unfold newReplyWriter
  split <;> rfl

/-- `finish` leads to the next blocking read only if it has left nothing pending. -/
theorem prompt_afterFinish {s : State} {ok : Bool} (again more : Bool)
    (hempty : ok = true → s.writer.pending = []) :
    Prompt { s with phase := afterFinish ok again more } := by
  unfold afterFinish
  split
  · trivial
  split
  · rename_i hmore
    exact hempty (Bool.and_eq_true_iff.mp hmore).1
  · trivial

theorem flushed_empty {w : Writer UInt8} {out : BufferedWriter.Outcome}
    (h : (w.pending = [] || !(w.flush out).1.failed) = true) : (w.flush out).1.pending = [] := by
  rcases Bool.or_eq_true_iff.mp h with hempty | hok
  · have hskip : w.failed = true ∨ w.pending = [] := Or.inr (of_decide_eq_true hempty)
    unfold Writer.flush
    rw [if_pos hskip]
    exact of_decide_eq_true hempty
  · exact w.flush_pending out (by simpa using hok)

theorem Prompt.step {s s' : State} (h : Prompt s) (hstep : Step s s') : Prompt s' := by
  cases hstep with
  | command | noop | rejected | batchDone | nextCommand | nextNoop | nextRejected | nextFailed
  | reply | drop => trivial
  | failed e idle hphase =>
    split
    · unfold Prompt at h
      rw [hphase] at h
      exact h
    · trivial
  | batchOn batched hphase hon => exact hon.2.2
  | replied next => cases next <;> trivial
  | finishFailed again more => exact prompt_afterFinish again more (fun h => by cases h)
  | finished again more out =>
    exact @prompt_afterFinish { s with writer := (s.writer.flush out).1 } _ again more flushed_empty

/-- The reads of the loop: at its head, and inside a batch. -/
def Reads (s : State) : Prop := s.phase = .reading ∨ ∃ batched, s.phase = .batchReading batched

theorem Prompt.empty_when_waiting {s : State} (h : Prompt s) (hreads : Reads s)
    (hcalls : CallsSocket s.conn) : s.writer.pending = [] := by
  unfold Prompt at h
  rcases hreads with hphase | ⟨batched, hphase⟩
  · rw [hphase] at h
    exact h
  · rw [hphase] at h
    exact absurd hcalls (readCommand_of_complete s.conn h).2.2

/-- A command that the peek finds complete is read without the socket; a complete
well-formed command is found; and in every run of the loop, whatever the client sends
and in whatever pieces, a read that calls the socket has an empty reply buffer. -/
theorem never_waits_holding_a_reply :
    (∀ r : Conn, r.lim = defaultLimits → hasCompleteCommand r = true →
      ((∃ args, (readCommand r).1 = .ok args) ∨ ∃ p, (readCommand r).1 = .rejected p) ∧
        (readCommand r).2.br.source = r.br.source ∧ ¬ CallsSocket r) ∧
    (∀ r : Conn, r.lim = defaultLimits → ∀ cmd rest, Complete r.lim r.br.size cmd →
      r.br.buf = cmd ++ rest → hasCompleteCommand r = true) ∧
    (∀ replyBufferSize source s, ReflTransGen Step (init defaultLimits replyBufferSize source) s →
      Reads s → CallsSocket s.conn → s.writer.pending = []) := by
  refine ⟨fun r _ h => readCommand_of_complete r h, ?_, ?_⟩
  · intro r _ cmd rest hcomplete hbuf
    unfold hasCompleteCommand
    rw [hbuf]
    exact hasComplete_of_complete hcomplete rest
  · intro replyBufferSize source s hrun hreads hcalls
    have hprompt := run_preserves Prompt (fun _ _ h hstep => h.step hstep) hrun
      (prompt_init defaultLimits replyBufferSize source)
    exact hprompt.empty_when_waiting hreads hcalls

/-- With PING buffered the next read stays away from the socket; the first read of a
connection waits, and holds nothing back. -/
theorem ping_read_promptly :
    (∃ r : Conn, r.lim = defaultLimits ∧
      r.br.buf = [42, 49, 13, 10, 36, 52, 13, 10, 80, 73, 78, 71, 13, 10] ∧
      hasCompleteCommand r = true ∧ ¬ CallsSocket r) ∧
    ∃ s, ReflTransGen Step (init defaultLimits 0 []) s ∧ Reads s ∧ CallsSocket s.conn ∧
      s.writer.pending = [] := by
  constructor
  · have hlimits : WithinLimits defaultLimits 16384 [[80, 73, 78, 71]] := by
      refine ⟨by decide, by decide, ?_, ?_⟩
      · intro a ha
        cases List.mem_singleton.mp ha
        decide
      · intro a ha
        cases List.mem_singleton.mp ha
        decide
    have hcomplete : Complete defaultLimits 16384 _ :=
      .multibulk (multibulk_written hlimits (List.cons_ne_nil _ _))
    let r : Conn :=
      { br := ⟨16384, by decide, [42, 49, 13, 10, 36, 52, 13, 10, 80, 73, 78, 71, 13, 10],
          by decide, [], 0⟩
        lim := defaultLimits
        arena := .new
        inFlight := false }
    have hfound : hasCompleteCommand r = true :=
      never_waits_holding_a_reply.2.1 r rfl _ [] hcomplete (by decide)
    exact ⟨r, rfl, rfl, hfound, (never_waits_holding_a_reply.1 r rfl hfound).2.2⟩
  · have hcalls : CallsSocket (init defaultLimits 0 []).conn := by
      change (0 + 1 : ℕ) ≠ 0
      decide
    exact ⟨_, .refl, Or.inl rfl, hcalls,
      never_waits_holding_a_reply.2.2 0 [] _ .refl (Or.inl rfl) hcalls⟩

end RedisFromScratch.CommandLoop
