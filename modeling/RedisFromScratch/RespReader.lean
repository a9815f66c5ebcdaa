import RedisFromScratch.ArgumentArena
import RedisFromScratch.ReplyWriter
import RedisFromScratch.StreamParsers
import Mathlib.Algebra.Order.Ring.Int

/-!
The request reader of internal/resp. ReadCommand takes one command off the
connection, a multibulk or a line of words, into the argument arena.
HasCompleteCommand looks at the buffered bytes only, with a parser of its own that
consumes nothing.
-/
namespace RedisFromScratch.RespReader

open ByteStrings ReplyWriter BufferedReader StreamParsers ArgumentArena

/-- What a read from the socket can fail with. -/
inductive ReadError
  | eof
  | unexpectedEOF
  | timeout
  | other
  deriving DecidableEq, Repr

/-- The end of the stream inside a value is not an orderly close. -/
def ioOrUnexpected : ReadError → ReadError
  | .eof => .unexpectedEOF
  | e => e

/-- The limits are 64-bit integers. -/
structure Limits where
  maxBulkSize : ℤ
  maxMultiBulkLen : ℤ
  maxInlineSize : ℤ
  readBufferSize : ℤ
  bulkRange : maxBulkSize < 2 ^ 63
  multiBulkRange : maxMultiBulkLen < 2 ^ 63

def defaultLimits : Limits where
  maxBulkSize := 512 <<< 20
  maxMultiBulkLen := 1 <<< 20
  maxInlineSize := 64 <<< 10
  readBufferSize := 16 <<< 10
  bulkRange := by decide
  multiBulkRange := by decide

/-- The digits of a decimal, read into an unsigned accumulator that may not pass the limit. -/
def parseDigits (limit : ℕ) : ℕ → Bytes → Option ℕ
  | v, [] => some v
  | v, c :: rest =>
      if c < 48 ∨ 57 < c then none
      else if (limit - (c - 48).toNat) / 10 < v then none
      else parseDigits limit (v * 10 + (c - 48).toNat) rest

/-- `int64(v)` of an unsigned 64-bit number. -/
def toInt64 (v : ℕ) : ℤ := if v < 2 ^ 63 then v else v - 2 ^ 64

/-- The negative is taken through unsigned arithmetic: `-int64(v-1) - 1`. -/
def negated (v : ℕ) : ℤ := -toInt64 ((v + (2 ^ 64 - 1)) % 2 ^ 64) - 1

def parseInt : Bytes → Option ℤ
  | [] => none
  | c :: rest =>
      if c = 45 ∨ c = 43 then
        if rest = [] then none
        else if c = 45 then (parseDigits (2 ^ 63) 0 rest).map negated
        else (parseDigits (2 ^ 63 - 1) 0 rest).map toInt64
      else (parseDigits (2 ^ 63 - 1) 0 (c :: rest)).map toInt64

/-- A read of the connection: fails as the socket does, or rejects with the text of
a protocol error. -/
abbrev Read := Parser UInt8 ReadError String

def readLine : Read Bytes := do
  match ← readSlice 10 ioOrUnexpected with
  | none => .reject "too big inline request"
  | some line =>
    if line.length < 2 ∨ line.getD (line.length - 2) 0 ≠ 13 then
      .reject "unbalanced line terminator"
    else pure (line.take (line.length - 2))

/-- What the range check of `readCount` and `peekCount` lets through. -/
def intRange (v : ℤ) : Prop := ¬ (v > 2 ^ 63 - 1 ∨ v < -(2 ^ 63 - 1))

instance (v : ℤ) : Decidable (intRange v) := inferInstanceAs (Decidable (¬ _))

def readCount (what : String) : Read ℤ := do
  let line ← readLine
  match parseInt line with
  | none => .reject ("invalid " ++ what ++ " length")
  | some v => if intRange v then pure v else .reject ("invalid " ++ what ++ " length")

def readBulk (lim : Limits) (a : Arena) : Read (Slice × Arena) := do
  let t ← readByte
  if t ≠ typeBulkString then
    .reject ("expected '$', got '" ++ String.singleton (Char.ofNat t.toNat) ++ "'")
  else do
    let n ← readCount "bulk"
    if n < 0 ∨ n > lim.maxBulkSize then .reject "invalid bulk length"
    else do
      let (buf, a) := a.alloc n.toNat
      let bs ← readFull n.toNat ioOrUnexpected
      let tail ← readFull 2 ioOrUnexpected
      if tail.getD 0 0 ≠ 13 ∨ tail.getD 1 0 ≠ 10 then
        .reject "bulk string not terminated by CRLF"
      else pure (buf, a.write buf bs)

def readBulks (lim : Limits) : ℕ → Arena → Read (List Slice × Arena)
  | 0, a => pure ([], a)
  | n + 1, a => do
      let (arg, a) ← readBulk lim a
      let (args, a) ← readBulks lim n a
      pure (arg :: args, a)

def isSpace (b : UInt8) : Bool :=
  b == 32 || b == 9 || b == 13 || b == 10 || b == 11 || b == 12

/-- Where the words of a line start and stop; a word may have begun already. -/
def words : ℕ → Option ℕ → Bytes → List (ℕ × ℕ)
  | _, none, [] => []
  | i, some start, [] => [(start, i)]
  | i, none, b :: rest =>
      if isSpace b then words (i + 1) none rest else words (i + 1) (some i) rest
  | i, some start, b :: rest =>
      if isSpace b then (start, i) :: words (i + 1) none rest
      else words (i + 1) (some start) rest

/-- A command without arguments is a no-op, which is `none`. -/
def argsOrNil (args : List Slice) : Option (List Slice) := if args = [] then none else some args

def readInline (lim : Limits) (a : Arena) : Read (Option (List Slice) × Arena) := do
  let line ← readLine
  if line.length > lim.maxInlineSize then .reject "too big inline request"
  else
    let (buf, a) := a.put line
    let args := (words 0 none line).map fun w => ⟨buf.block, buf.start + w.1, w.2 - w.1⟩
    pure (argsOrNil args, a)

def readMultibulk (lim : Limits) (a : Arena) : Read (Option (List Slice) × Arena) := do
  let _ ← readByte
  let n ← readCount "multibulk"
  if n ≤ 0 then pure (none, a)
  else if n > lim.maxMultiBulkLen then .reject "invalid multibulk length"
  else do
    let (args, a) ← readBulks lim n.toNat a
    pure (some args, a)

/-- A command whose first byte has been seen. -/
def readAfter (lim : Limits) (a : Arena) (first : UInt8) : Read (Option (List Slice) × Arena) :=
  if first ≠ typeArray then readInline lim a else readMultibulk lim a

structure Conn where
  br : Reader UInt8 ReadError
  lim : Limits
  arena : Arena
  inFlight : Bool

/-- The smallest buffer bufio makes. -/
def minReadBufferSize : ℕ := 16

def newReader (lim : Limits) (source : List (Event UInt8 ReadError)) : Conn :=
  let lim := if lim.maxBulkSize ≤ 0 then defaultLimits else lim
  let lim := if lim.readBufferSize ≤ 0 then
    { lim with readBufferSize := defaultLimits.readBufferSize } else lim
  { br := .new (max minReadBufferSize lim.readBufferSize.toNat)
      (Nat.lt_of_lt_of_le (by decide) (Nat.le_max_left _ _)) source
    lim
    arena := .new
    inFlight := false }

/-- A command, a no-op, a protocol error, or what the socket failed with. Between the
first byte and the return the command is in flight. -/
def readCommand (r : Conn) : Outcome ReadError String (Option (List Slice)) × Conn :=
  let a := r.arena.reset
  match r.br.peek with
  | (.failed e, br) => (.failed e, { r with br, arena := a, inFlight := false })
  | (.blocked, br) => (.blocked, { r with br, arena := a, inFlight := false })
  | (.ok first, br) =>
    match (readAfter r.lim a first).run br with
    | (.ok (args, a), br) => (.ok args, { r with br, arena := a, inFlight := false })
    -- an error inside a command is the end of the connection
    | (.failed e, br) => (.failed e, { r with br, arena := a, inFlight := true })
    | (.rejected p, br) => (.rejected p, { r with br, arena := a, inFlight := true })
    | (.blocked, br) => (.blocked, { r with br, arena := a, inFlight := true })

/-- The bytes before the first CRLF and those behind it. -/
def splitCrlf : Bytes → Option (Bytes × Bytes)
  | [] => none
  | [_] => none
  | b :: c :: rest =>
      if b = 13 ∧ c = 10 then some ([], rest)
      else (splitCrlf (c :: rest)).map (fun p => (b :: p.1, p.2))

/-- A count that does not parse is zero here: the real reader will reject it. -/
def peekCount (buf : Bytes) : Option (ℤ × Bytes) :=
  (splitCrlf buf).map fun p =>
    match parseInt p.1 with
    | none => (0, p.2)
    | some v => if intRange v then (v, p.2) else (0, p.2)

def peekBulks (lim : Limits) : ℕ → Bytes → Bool
  | 0, _ => true
  | _ + 1, [] => false
  | n + 1, t :: rest =>
      if t ≠ typeBulkString then true
      else
        match peekCount rest with
        | none => false
        | some (size, tail) =>
          if size < 0 ∨ size > lim.maxBulkSize then true
          else if (tail.length : ℤ) < size + 2 then false
          else peekBulks lim n (tail.drop (size + 2).toNat)

def hasComplete (lim : Limits) : Bytes → Bool
  | [] => false
  | first :: rest =>
      if first ≠ typeArray then (first :: rest).contains 10
      else
        match peekCount rest with
        | none => false
        | some (count, rest) =>
          if count ≤ 0 then true
          else if count > lim.maxMultiBulkLen then true
          else peekBulks lim count.toNat rest

def hasCompleteCommand (r : Conn) : Bool := hasComplete r.lim r.br.buf

end RedisFromScratch.RespReader
