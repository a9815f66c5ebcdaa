import RedisFromScratch.RespGrammar

/-!
Commands on the wire. ReadCommand decodes exactly the multibulk grammar, whatever
the pieces the bytes arrive in, and reading repeatedly inverts WriteCommand: a
pipeline that went through a buffered writer comes back command by command.
-/
namespace RedisFromScratch.CommandRoundTrip

open ByteStrings ReplyWriter BufferedWriter BufferedReader StreamParsers ArgumentArena RespReader
open SignedDecimals RespGrammar

/-- The whole of ReadCommand as one parser. -/
def readOne (lim : Limits) (a : Arena) : Read (Option (List Slice) × Arena) := do
  let first ← peekByte
  readAfter lim a first

/-- ReadCommand is the run of that parser, with what it put into the arena. -/
theorem readCommand_run (r : Conn) :
    (readCommand r).1 = ((readOne r.lim r.arena.reset).run r.br).1.map Prod.fst ∧
      (readCommand r).2.br = ((readOne r.lim r.arena.reset).run r.br).2 ∧
      (readCommand r).2.lim = r.lim ∧
      ∀ x, ((readOne r.lim r.arena.reset).run r.br).1 = .ok x → (readCommand r).2.arena = x.2 := by
  have hrun : (readOne r.lim r.arena.reset).run r.br =
      andThen id r.br.peek (fun first br => (readAfter r.lim r.arena.reset first).run br) := rfl
  rw [hrun]
  unfold readCommand andThen
  rcases r.br.peek with ⟨got, br⟩
  cases got with
  | failed | blocked => exact ⟨rfl, rfl, rfl, fun x h => by cases h⟩
  | ok first =>
    dsimp only
    rcases (readAfter r.lim r.arena.reset first).run br with ⟨out, br'⟩
    cases out with
    | ok => exact ⟨rfl, rfl, rfl, fun y h => by cases h; rfl⟩
    | failed | rejected | blocked => exact ⟨rfl, rfl, rfl, fun x h => by cases h⟩

/-- What ReadCommand returns, and with it what is left, depends on what is ahead. -/
theorem readCommand_ok_iff (r : Conn) (args : Option (List Slice)) (a : Arena) (rest : Bytes) :
    ((readCommand r).1 = .ok args ∧ (readCommand r).2.arena = a ∧
      (readCommand r).2.br.ahead = rest) ↔
    (readOne r.lim r.arena.reset).parse r.br.size r.br.ahead = .done (args, a) rest := by
  obtain ⟨hout, hbr, -, harena⟩ := readCommand_run r
  rw [← run_ok_iff, hout, hbr, Outcome.map_eq_ok_iff]
  constructor
  · rintro ⟨⟨x, hx, rfl⟩, rfl, hrest⟩
    rw [harena x hx]
    exact ⟨hx, hrest⟩
  · rintro ⟨hx, hrest⟩
    exact ⟨⟨_, hx, rfl⟩, harena _ hx, hrest⟩

/-- A read that returns leaves the buffer's size and the limits. -/
theorem readCommand_keeps (r : Conn) {args : Option (List Slice)}
    (hok : (readCommand r).1 = .ok args) :
    (readCommand r).2.br.size = r.br.size ∧ (readCommand r).2.lim = r.lim := by
  obtain ⟨-, hbr, hlim, -⟩ := readCommand_run r
  have hagrees := run_agrees (readOne r.lim r.arena.reset) r.br rfl
  rw [(readCommand_ok_iff r args _ _).mp ⟨hok, rfl, rfl⟩] at hagrees
  rw [hbr]
  exact ⟨hagrees.2.2, hlim⟩

theorem readOne_parse_cons (lim : Limits) (a : Arena) (size : ℕ) (first : UInt8) (s : Bytes) :
    (readOne lim a).parse size (first :: s) = (readAfter lim a first).parse size (first :: s) := by
  unfold readOne
  rw [Parser.parse_bind]
  rfl

/-- Reading a multibulk returns slices that hold the arguments, all at once. -/
theorem readCommand_multibulk_iff (r : Conn) {s : Bytes} (hstar : r.br.ahead = typeArray :: s)
    (args : List Bytes) (rest : Bytes) :
    (∃ slices, (readCommand r).1 = .ok (some slices) ∧
      slices.map (readCommand r).2.arena.deref = args ∧ (readCommand r).2.br.ahead = rest) ↔
    ∃ bs, Multibulk r.lim r.br.size args bs ∧ r.br.ahead = bs ++ rest := by
  constructor
  · rintro ⟨slices, hok, rfl, rfl⟩
    have hparse := (readCommand_ok_iff r (some slices) _ _).mp ⟨hok, rfl, rfl⟩
    rw [hstar, readOne_parse_cons] at hparse
    obtain ⟨args, bs, hmulti, hs, hput⟩ := readMultibulk_done_iff.mp hparse
    obtain ⟨rfl, harena⟩ := Prod.mk.inj hput
    rw [harena, Arena.deref_putAll, hstar]
    exact ⟨bs, hmulti, hs⟩
  · rintro ⟨bs, hmulti, hs⟩
    have hparse : (readMultibulk r.lim r.arena.reset).parse r.br.size (typeArray :: s) =
        .done (some (r.arena.reset.putAll args).1, (r.arena.reset.putAll args).2) rest :=
      readMultibulk_done_iff.mpr ⟨args, bs, hmulti, hstar ▸ hs, rfl⟩
    have hone := readOne_parse_cons r.lim r.arena.reset r.br.size typeArray s
    rw [show readAfter r.lim r.arena.reset typeArray = readMultibulk r.lim r.arena.reset from rfl,
      hparse, ← hstar, ← readCommand_ok_iff] at hone
    obtain ⟨hok, harena, hrest⟩ := hone
    refine ⟨_, hok, ?_, hrest⟩
    rw [harena, Arena.deref_putAll]

/-- What WriteCommand writes: an array header, and a header and the bytes of each argument. -/
def writeCommand (args : List Bytes) : List WriterOp :=
  writeHeader typeArray args.length ++
    args.flatMap fun a => writeHeader typeBulkString a.length ++ [.raw a, .raw crlf]

/-- The bytes that go out while operations are written and then flushed. -/
def send (w : Writer UInt8) : List WriterOp → List Bytes
  | [] => (w.flush none).2
  | op :: ops =>
      (w.writeLoop op.direct (fun _ => none) op.bytes).2 ++
        send (w.writeLoop op.direct (fun _ => none) op.bytes).1 ops

theorem send_stream (w : Writer UInt8) (ops : List WriterOp) (hw : w.failed = false) :
    (send w ops).flatten = w.pending ++ ops.flatMap WriterOp.bytes := by
  induction ops generalizing w with
  | nil =>
    rw [send, (w.flush_stream hw).2]
    simp
  | cons op ops ih =>
    obtain ⟨hok, hstream⟩ := w.writeLoop_stream op.direct op.bytes hw
    rw [send, List.flatten_append, ih _ hok, ← List.append_assoc, hstream, List.flatMap_cons,
      List.append_assoc]

/-- The reader's limits, and the buffer's room for the lines with the counts. -/
structure WithinLimits (lim : Limits) (size : ℕ) (args : List Bytes) : Prop where
  count : (args.length : ℤ) ≤ lim.maxMultiBulkLen
  countLine : (appendInt args.length).length + 2 ≤ size
  bulk : ∀ a ∈ args, (a.length : ℤ) ≤ lim.maxBulkSize
  bulkLine : ∀ a ∈ args, (appendInt a.length).length + 2 ≤ size

theorem frames_written {lim : Limits} {size : ℕ} {args : List Bytes}
    (hbulk : ∀ a ∈ args, (a.length : ℤ) ≤ lim.maxBulkSize)
    (hline : ∀ a ∈ args, (appendInt a.length).length + 2 ≤ size) :
    Frames lim size args ((args.flatMap fun a =>
      writeHeader typeBulkString a.length ++ [.raw a, .raw crlf]).flatMap WriterOp.bytes) := by
  induction args with
  | nil => exact .nil
  | cons a args ih =>
    rw [List.flatMap_cons, List.flatMap_append]
    refine .cons ⟨appendInt a.length, decimal_appendInt _, hline a List.mem_cons_self,
      hbulk a List.mem_cons_self, ?_⟩ (ih ?_ ?_)
    · simp [writeHeader, WriterOp.bytes]
    · exact fun b hb => hbulk b (List.mem_cons_of_mem a hb)
    · exact fun b hb => hline b (List.mem_cons_of_mem a hb)

theorem multibulk_written {lim : Limits} {size : ℕ} {args : List Bytes}
    (h : WithinLimits lim size args) (hsome : args ≠ []) :
    Multibulk lim size args ((writeCommand args).flatMap WriterOp.bytes) := by
  refine ⟨appendInt args.length, _, decimal_appendInt _, h.countLine, hsome, h.count,
    frames_written h.bulk h.bulkLine, ?_⟩
  simp [writeCommand, writeHeader, WriterOp.bytes]

/-- An array of no arguments is read as a no-op. -/
theorem readCommand_empty (r : Conn) {rest : Bytes}
    (hsize : (appendInt 0).length + 2 ≤ r.br.size)
    (hahead : r.br.ahead = (writeCommand []).flatMap WriterOp.bytes ++ rest) :
    (readCommand r).1 = .ok none ∧ (readCommand r).2.br.ahead = rest := by
  have hbytes : (writeCommand []).flatMap WriterOp.bytes = typeArray :: (appendInt 0 ++ crlf) := by
    simp [writeCommand, writeHeader, WriterOp.bytes]
  have hcount : (readCount "multibulk").parse r.br.size (appendInt 0 ++ crlf ++ rest) =
      .done 0 rest :=
    readCount_done_iff.mpr ⟨appendInt 0, decimal_appendInt 0, by decide, hsize, rfl⟩
  have hparse : (readOne r.lim r.arena.reset).parse r.br.size r.br.ahead =
      .done (none, r.arena.reset) rest := by
    rw [hahead, hbytes, List.cons_append, readOne_parse_cons]
    change (readMultibulk r.lim r.arena.reset).parse r.br.size _ = _
    rw [readMultibulk_parse, hcount]
    rfl
  obtain ⟨hok, -, hrest⟩ := (readCommand_ok_iff r none r.arena.reset rest).mpr hparse
  exact ⟨hok, hrest⟩

/-- The arguments of a command, taken out of the arena before the next read. A no-op
has none. -/
def argsRead (out : Outcome ReadError String (Option (List Slice)) × Conn) :
    Outcome ReadError String (List Bytes) :=
  match out with
  | (.ok args, r) => .ok ((args.getD []).map r.arena.deref)
  | (.failed e, _) => .failed e
  | (.rejected p, _) => .rejected p
  | (.blocked, _) => .blocked

/-- Read so many times, and keep what each time returned. -/
def readCommands : ℕ → Conn → List (Outcome ReadError String (List Bytes)) × Conn
  | 0, r => ([], r)
  | n + 1, r =>
      (argsRead (readCommand r) :: (readCommands n (readCommand r).2).1,
        (readCommands n (readCommand r).2).2)

theorem argsRead_of_ok {out : Outcome ReadError String (Option (List Slice)) × Conn}
    {args : Option (List Slice)} (h : out.1 = .ok args) :
    argsRead out = .ok ((args.getD []).map out.2.arena.deref) := by
  rcases out with ⟨got, r⟩
  cases h
  rfl

/-- One command that was written is read back. -/
theorem readCommand_written (r : Conn) {args : List Bytes} {rest : Bytes}
    (h : WithinLimits r.lim r.br.size args)
    (hahead : r.br.ahead = (writeCommand args).flatMap WriterOp.bytes ++ rest) :
    argsRead (readCommand r) = .ok args ∧ (readCommand r).2.br.ahead = rest ∧
      (readCommand r).2.br.size = r.br.size ∧ (readCommand r).2.lim = r.lim := by
  by_cases hsome : args = []
  · subst hsome
    obtain ⟨hok, hrest⟩ := readCommand_empty r h.countLine hahead
    exact ⟨argsRead_of_ok hok, hrest, readCommand_keeps r hok⟩
  · have hmulti := multibulk_written h hsome
    obtain ⟨s, hstar⟩ : ∃ s, r.br.ahead = typeArray :: s := by
      rw [hahead]
      exact ⟨_, rfl⟩
    obtain ⟨slices, hok, hargs, hrest⟩ :=
      (readCommand_multibulk_iff r hstar args rest).mpr ⟨_, hmulti, hahead⟩
    refine ⟨?_, hrest, readCommand_keeps r hok⟩
    rw [argsRead_of_ok hok]
    exact congrArg _ hargs

/-- A pipeline is read back command by command. -/
theorem readCommands_written (r : Conn) (cmds : List (List Bytes)) {rest : Bytes}
    (h : ∀ c ∈ cmds, WithinLimits r.lim r.br.size c)
    (hahead : r.br.ahead = (cmds.flatMap writeCommand).flatMap WriterOp.bytes ++ rest) :
    (readCommands cmds.length r).1 = cmds.map .ok ∧
      (readCommands cmds.length r).2.br.ahead = rest := by
  induction cmds generalizing r with
  | nil => exact ⟨rfl, hahead⟩
  | cons c cmds ih =>
    rw [List.flatMap_cons, List.flatMap_append, List.append_assoc] at hahead
    obtain ⟨hread, hafter, hsize, hlim⟩ :=
      readCommand_written r (h c List.mem_cons_self) hahead
    obtain ⟨hothers, hrest⟩ := ih (readCommand r).2
      (fun c' hc' => by
        rw [hsize, hlim]
        exact h c' (List.mem_cons_of_mem c hc')) hafter
    refine ⟨?_, hrest⟩
    rw [List.length_cons, readCommands, hread, hothers, List.map_cons]

/-- ReadCommand returns arguments exactly where the stream begins with a multibulk of
them, and consumes that; and repeated reads return what WriteCommand has written, for
every writer's buffer and every way the stream is cut into pieces. -/
theorem read_inverts_write :
    (∀ (r : Conn) (s : Bytes), r.br.ahead = typeArray :: s → ∀ (args : List Bytes) (rest : Bytes),
      (∃ slices, (readCommand r).1 = .ok (some slices) ∧
        slices.map (readCommand r).2.arena.deref = args ∧ (readCommand r).2.br.ahead = rest) ↔
      ∃ bs, Multibulk r.lim r.br.size args bs ∧ r.br.ahead = bs ++ rest) ∧
    (∀ (r : Conn) (w : Writer UInt8) (cmds : List (List Bytes)) (rest : Bytes),
      w.failed = false → w.pending = [] → (∀ c ∈ cmds, WithinLimits r.lim r.br.size c) →
      r.br.ahead = (send w (cmds.flatMap writeCommand)).flatten ++ rest →
      (readCommands cmds.length r).1 = cmds.map .ok ∧
        (readCommands cmds.length r).2.br.ahead = rest) := by
  refine ⟨fun r s hstar args rest => readCommand_multibulk_iff r hstar args rest, ?_⟩
  intro r w cmds rest hok hempty hlimits hahead
  rw [send_stream w _ hok, hempty, List.nil_append] at hahead
  exact readCommands_written r cmds hlimits hahead

/-- PING in two pieces: it is read as a command of one argument and nothing is left. -/
theorem ping_read_back :
    ∃ r : Conn, r.br.buf = [] ∧
      r.br.source = [.data 42 [49, 13, 10, 36, 52, 13], .data 10 [80, 73, 78, 71, 13, 10]] ∧
      (∃ slices, (readCommand r).1 = .ok (some slices) ∧
        slices.map (readCommand r).2.arena.deref = [[80, 73, 78, 71]] ∧
        (readCommand r).2.br.ahead = []) ∧
      (readCommands 1 r).1 = [.ok [[80, 73, 78, 71]]] ∧ (readCommands 1 r).2.br.ahead = [] := by
  have hlimits : WithinLimits defaultLimits 16384 [[80, 73, 78, 71]] := by
    refine ⟨by decide, by decide, ?_, ?_⟩
    · intro a ha
      cases List.mem_singleton.mp ha
      decide
    · intro a ha
      cases List.mem_singleton.mp ha
      decide
  refine ⟨newReader defaultLimits
    [.data 42 [49, 13, 10, 36, 52, 13], .data 10 [80, 73, 78, 71, 13, 10]], rfl, rfl, ?_, ?_⟩
  · exact (read_inverts_write.1 _ _ rfl _ _).mpr
      ⟨_, multibulk_written hlimits (List.cons_ne_nil _ _), by decide⟩
  · refine read_inverts_write.2 _ (Writer.new 16 (by decide)) [[[80, 73, 78, 71]]] [] rfl rfl ?_ ?_
    · intro c hc
      cases List.mem_singleton.mp hc
      exact hlimits
    · rw [send_stream _ _ rfl]
      decide

end RedisFromScratch.CommandRoundTrip
