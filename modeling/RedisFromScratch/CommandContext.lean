import RedisFromScratch.RespReader
import RedisFromScratch.StatePrograms

/-!
What a command handler works with. The storage engine, the clock, the other
clients and the parts of the language's library that stay open are the fields of
an environment, so that whatever is said of a handler holds for every engine, every
state it can be in and every error it can return. A slice can be nil, and a nil
slice is not the same as an empty one.
-/
namespace RedisFromScratch.CommandContext

open ByteStrings ReplyWriter RespReader StatePrograms

/-- What a store call can fail with: the sentinels of the callbacks first. -/
inductive Err
  | notInteger
  | notFloat
  | incrOverflow
  | nanOrInf
  | stringTooLong
  | closed
  | canceled
  | deadlineExceeded
  | other (text : Bytes)
  deriving DecidableEq, Repr

/-- A value, which is a slice and may be nil, and its expiry in Unix milliseconds. -/
structure Rec where
  value : Option Bytes
  expireAt : ℤ
  deriving DecidableEq, Repr

def Rec.zero : Rec := ⟨none, 0⟩

def Rec.bytes (r : Rec) : Bytes := r.value.getD []

/-- What an update callback asks for. -/
inductive Change
  | nothing
  | put (r : Rec)
  | delete
  deriving DecidableEq, Repr

/-- A callback with the variables it captures; it is called with the current record
and whether there is one. -/
abbrev UpdateFn (σ : Type) := σ → Rec → Bool → σ × Except Err Change

/-- Called for each record of a page; the flag asks for more. -/
abbrev ScanFn (σ : Type) := σ → Option Bytes → Rec → σ × Bool

/-- The state of a connection that commands read or change. -/
structure ConnState where
  id : ℕ
  remoteAddr : Bytes
  localAddr : Bytes
  proto : Version
  authenticated : Bool
  name : Bytes
  lastCommand : Bytes
  lastInteraction : ℤ
  commandCount : ℕ
  closeAfterReply : Bool
  deriving DecidableEq, Repr

structure StoreStats where
  keys : ℤ
  volatileKeys : ℤ
  memoryBytes : ℤ
  deriving DecidableEq, Repr

/-- A storage engine, as the command layer sees it. -/
structure Engine where
  Store : Type
  get : Bytes → Store → Except Err (Option Rec) × Store
  put : Bytes → Rec → Store → Except Err Unit × Store
  delete : Bytes → Store → Except Err Bool × Store
  update : {σ : Type} → Bytes → UpdateFn σ → σ → Store → (σ × Except Err Unit) × Store
  multiWrite : List (Bytes × Rec) → Store → Except Err Unit × Store
  scan : {σ : Type} → ℕ → ℤ → ScanFn σ → σ → Store → (σ × Except Err ℕ) × Store
  len : Store → Except Err ℤ × Store
  flushAll : Store → Except Err Unit × Store
  storeStats : Store → Except Err StoreStats × Store

/-- The rest of what a handler can reach, and the library functions it calls. -/
structure Host where
  Config : Type
  /-- The clock, the other clients, the random source and the statistics. -/
  Ambient : Type
  Float : Type
  /-- strings.ToLower -/
  lower : Bytes → Bytes
  equalFold : Bytes → Bytes → Bool
  matchPattern : Bytes → Bytes → Bool → Bool
  isTrivialPattern : Bytes → Bool
  parseFloat : Bytes → Option Float
  zeroFloat : Float
  isNaN : Float → Bool
  isInf : Float → Bool
  isNegative : Float → Bool
  addFloat : Float → Float → Float
  /-- The shortest decimal that reads back, without an exponent. -/
  formatFloat : Float → Bytes
  configGet : Config → Bytes → Option Bytes
  /-- The parameters in the order a walk of the map happens to meet them. -/
  configAll : Config → List (Bytes × Bytes)
  /-- The text of the error, if there is one. -/
  configSet : Bytes → Bytes → Config → Option Bytes × Config
  requirePass : Config → Bytes
  nowMs : Ambient → ℤ × Ambient
  /-- Seconds and microseconds. -/
  now : Ambient → (ℤ × ℤ) × Ambient
  random : Ambient → ℕ × Ambient
  /-- The connections besides the calling one. -/
  others : Ambient → List ConnState
  killClient : ℕ → Ambient → Bool × Ambient
  /-- Whole seconds since a connection was accepted. -/
  ageSeconds : Ambient → ConnState → ℤ
  version : Bytes
  lastSave : Ambient → ℤ
  /-- Whether a snapshot fails, and with what text. -/
  snapshotError : Ambient → Option Bytes
  /-- A walk of the keyspace that needs more pages has not returned yet. -/
  pages : ℕ

structure Env extends Engine, Host where
  /-- The INFO reply for the requested sections. -/
  info : List Bytes → Store → Config → Ambient → Bytes

/-- The running state of the server that commands can change. -/
structure Running where
  shutdownReq : Option Bool
  shutdownSave : Bool
  persistence : Bool
  bgsaveActive : Bool
  /-- Snapshots that were started. -/
  snapshots : ℕ
  deriving DecidableEq, Repr

structure World (E : Env) where
  store : E.Store
  config : E.Config
  ambient : E.Ambient
  running : Running
  conn : ConnState
  /-- The dialect of the reply writer. -/
  ver : Version
  /-- What was given to the reply writer. -/
  out : List WriterOp

abbrev M (E : Env) := Prog (World E)

inductive Flag
  | write
  | readonly
  | admin
  | fast
  | noAuth
  | loading
  deriving DecidableEq, Repr

/-- A command of the table without its handler. -/
structure CommandInfo where
  name : Bytes
  /-- The number of arguments; a negative one is the least number. -/
  arity : ℤ
  flags : List Flag
  firstKey : ℤ
  lastKey : ℤ
  keyStep : ℤ
  summary : Bytes
  since : Bytes
  deriving DecidableEq, Repr

def arityOK (arity argc : ℤ) : Bool := if arity ≥ 0 then argc = arity else argc ≥ -arity

/-- The arguments, the name of the command first, the name it was resolved to and
the registry that has dispatched it. -/
structure Call where
  args : List Bytes
  name : Bytes
  table : List CommandInfo

/-- A handler writes a reply; the error it returns ends the connection. -/
abbrev Handler (E : Env) := Call → M E (Option Err)

namespace Call

def argc (c : Call) : ℕ := c.args.length

/-- An argument that is absent is nil. -/
def arg (c : Call) (i : ℕ) : Option Bytes := c.args[i]?

def argString (c : Call) (i : ℕ) : Bytes := (c.arg i).getD []

/-- strconv.ParseInt in base ten accepts what the protocol's own parser accepts. -/
def intArg (c : Call) (i : ℕ) : Option ℤ := parseInt (c.argString i)

end Call

section Parts

variable {E : Env} {α : Type}

def onStore (f : E.Store → α × E.Store) : M E α :=
  acting fun w => ((f w.store).1, { w with store := (f w.store).2 })

def onConfig (f : E.Config → α × E.Config) : M E α :=
  acting fun w => ((f w.config).1, { w with config := (f w.config).2 })

def onAmbient (f : E.Ambient → α × E.Ambient) : M E α :=
  acting fun w => ((f w.ambient).1, { w with ambient := (f w.ambient).2 })

def onRunning (f : Running → α × Running) : M E α :=
  acting fun w => ((f w.running).1, { w with running := (f w.running).2 })

def onConn (f : ConnState → ConnState) : M E Unit :=
  changing fun w => { w with conn := f w.conn }

/-- A call on the reply writer, in its dialect. -/
def write (f : Version → List WriterOp) : M E Unit :=
  changing fun w => { w with out := w.out ++ f w.ver }

def setVersion (ver : Version) : M E Unit := changing fun w => { w with ver }

def nowMs : M E ℤ := onAmbient E.nowMs

end Parts

section Replies

variable {E : Env}

/-- Write and return no error. -/
def reply (f : Version → List WriterOp) : M E (Option Err) := do
  write f
  pure none

def ok : M E (Option Err) := reply fun _ => writeSimpleString (ofString "OK")

def int (n : ℤ) : M E (Option Err) := reply fun _ => writeInt n

def bulk (b : Option Bytes) : M E (Option Err) := reply fun ver => writeBulk ver b

def bulkString (s : Bytes) : M E (Option Err) := reply fun _ => writeBulkString s

def null : M E (Option Err) := reply writeNull

def bool (b : Bool) : M E (Option Err) := reply fun ver => writeBool ver b

def simpleString (s : Bytes) : M E (Option Err) := reply fun _ => writeSimpleString s

def errCode (code text : Bytes) : M E (Option Err) :=
  reply fun _ => writeError (code ++ ofString " " ++ text)

def err (text : Bytes) : M E (Option Err) := errCode (ofString "ERR") text

/-- The one reply that was written is an error. -/
def RepliesError (w w' : World E) : Prop := ∃ text, w'.out = w.out ++ writeError text

end Replies

def codeNoAuth : Bytes := ofString "NOAUTH"

def msgNotInteger : Bytes := ofString "value is not an integer or out of range"

def msgNotFloat : Bytes := ofString "value is not a valid float"

def msgIncrOverflow : Bytes := ofString "increment or decrement would overflow"

def msgInvalidExpire (name : Bytes) : Bytes :=
  ofString "invalid expire time in '" ++ name ++ ofString "' command"

def msgNoAuth : Bytes := ofString "Authentication required."

def msgAuthNotSet : Bytes :=
  ofString ("Client sent AUTH, but no password is set. " ++
    "Did you mean AUTH <username> <password>?")

def msgWrongPass : Bytes := ofString "invalid username-password pair or user is disabled."

def msgOffsetRange : Bytes := ofString "offset is out of range"

def msgStringTooLong : Bytes :=
  ofString "string exceeds maximum allowed size (proto-max-bulk-len)"

def msgSingleDB : Bytes :=
  ofString "this server implements a single database; SELECT accepts only index 0"

section Errors

variable {E : Env}

def errWrongArgs (c : Call) : M E (Option Err) :=
  err (ofString "wrong number of arguments for '" ++ c.name ++ ofString "' command")

def errSyntax : M E (Option Err) := err (ofString "syntax error")

def errNotInteger : M E (Option Err) := err msgNotInteger

/-- An engine or callback error becomes a reply; none of them ends the connection. -/
def storeErr : Err → M E (Option Err)
  | .notInteger => err msgNotInteger
  | .notFloat => err msgNotFloat
  | .incrOverflow => err msgIncrOverflow
  | .nanOrInf => err (ofString "increment would produce NaN or Infinity")
  | .stringTooLong => err msgStringTooLong
  | .closed => err (ofString "server is shutting down")
  | .canceled => err (ofString "request cancelled")
  | .deadlineExceeded => err (ofString "storage engine timed out")
  | .other text => err (ofString "internal error: " ++ text)

end Errors

end RedisFromScratch.CommandContext
