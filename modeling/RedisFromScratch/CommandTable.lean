import RedisFromScratch.ServerCommands
import Mathlib.Data.List.Sort

/-!
The command table and the dispatcher. A command is resolved, its arguments are
counted and the connection's authentication is checked before its handler runs;
each of the three can turn the command down with an error reply.
-/
namespace RedisFromScratch.CommandTable

open ByteStrings ReplyWriter RespReader StatePrograms CommandContext
open StringCommands GenericCommands ConnectionCommands ServerCommands

variable {E : Env}

structure Command (E : Env) extends CommandInfo where
  handler : Call → Prog (Server E) (Option Err)

def noKeys : ℤ × ℤ × ℤ := (0, 0, 0)

/-- A command whose handler reaches the names of the table. -/
def onTable (name : String) (arity : ℤ) (flags : List Flag) (keys : ℤ × ℤ × ℤ)
    (summary since : String) (handler : Call → Prog (Server E) (Option Err)) : Command E where
  name := ofString name
  arity := arity
  flags := flags
  firstKey := keys.1
  lastKey := keys.2.1
  keyStep := keys.2.2
  summary := ofString summary
  since := ofString since
  handler := handler

def command (name : String) (arity : ℤ) (flags : List Flag) (keys : ℤ × ℤ × ℤ)
    (summary since : String) (handler : Handler E) : Command E :=
  onTable name arity flags keys summary since (fun c => lift (handler c))

def registerConnection : List (Command E) :=
  [command "ping" (-1) [.fast, .loading] noKeys
      "Ping the server" "1.0.0" cmdPing,
    command "echo" 2 [.fast] noKeys
      "Echo the given string" "1.0.0" cmdEcho,
    command "hello" (-1) [.fast, .noAuth, .loading] noKeys
      "Handshake and optionally switch protocol version" "6.0.0" cmdHello,
    command "auth" (-2) [.fast, .noAuth, .loading] noKeys
      "Authenticate" "1.0.0" cmdAuth,
    command "select" 2 [.fast, .loading] noKeys
      "Select a database" "1.0.0" cmdSelect,
    command "swapdb" 3 [.write, .fast] noKeys
      "Swap two databases" "4.0.0" cmdSwapDB,
    command "quit" (-1) [.fast, .noAuth, .loading] noKeys
      "Close the connection" "1.0.0" cmdQuit,
    command "reset" 1 [.fast, .noAuth, .loading] noKeys
      "Reset the connection to its initial state" "6.2.0" cmdReset,
    command "client" (-2) [.admin, .loading] noKeys
      "Inspect and control connections" "2.4.0" cmdClient]

def registerString : List (Command E) :=
  [command "get" 2 [.readonly, .fast] (1, 1, 1)
      "Return the string value of a key" "1.0.0" cmdGet,
    command "set" (-3) [.write] (1, 1, 1)
      "Set the string value of a key" "1.0.0" cmdSet,
    command "setnx" 3 [.write, .fast] (1, 1, 1)
      "Set the value of a key only when it does not exist" "1.0.0" cmdSetNX,
    command "setex" 4 [.write] (1, 1, 1)
      "Set the value and expiration of a key in seconds" "2.0.0" cmdSetEX,
    command "psetex" 4 [.write] (1, 1, 1)
      "Set the value and expiration of a key in milliseconds" "2.6.0" cmdPSetEX,
    command "getset" 3 [.write, .fast] (1, 1, 1)
      "Set a key and return its old value" "1.0.0" cmdGetSet,
    command "getdel" 2 [.write, .fast] (1, 1, 1)
      "Return the value of a key and delete it" "6.2.0" cmdGetDel,
    command "getex" (-2) [.write, .fast] (1, 1, 1)
      "Return the value of a key and change its expiration" "6.2.0" cmdGetEx,
    command "mget" (-2) [.readonly, .fast] (1, -1, 1)
      "Return the values of several keys" "1.0.0" cmdMGet,
    command "mset" (-3) [.write] (1, -1, 2)
      "Set several keys" "1.0.1" cmdMSet,
    command "msetnx" (-3) [.write] (1, -1, 2)
      "Set several keys only when none of them exist" "1.0.1" cmdMSetNX,
    command "append" 3 [.write, .fast] (1, 1, 1)
      "Append a value to a key" "2.0.0" cmdAppend,
    command "strlen" 2 [.readonly, .fast] (1, 1, 1)
      "Return the length of the value stored at a key" "2.2.0" cmdStrlen,
    command "incr" 2 [.write, .fast] (1, 1, 1)
      "Increment the integer value of a key by one" "1.0.0" cmdIncr,
    command "decr" 2 [.write, .fast] (1, 1, 1)
      "Decrement the integer value of a key by one" "1.0.0" cmdDecr,
    command "incrby" 3 [.write, .fast] (1, 1, 1)
      "Increment the integer value of a key" "1.0.0" cmdIncrBy,
    command "decrby" 3 [.write, .fast] (1, 1, 1)
      "Decrement the integer value of a key" "1.0.0" cmdDecrBy,
    command "incrbyfloat" 3 [.write, .fast] (1, 1, 1)
      "Increment the float value of a key" "2.6.0" cmdIncrByFloat,
    command "getrange" 4 [.readonly] (1, 1, 1)
      "Return a substring of the value at a key" "2.4.0" cmdGetRange,
    command "substr" 4 [.readonly] (1, 1, 1)
      "Deprecated alias for GETRANGE" "1.0.0" cmdGetRange,
    command "setrange" 4 [.write] (1, 1, 1)
      "Overwrite part of the value at a key" "2.2.0" cmdSetRange]

def registerGeneric : List (Command E) :=
  [command "del" (-2) [.write] (1, -1, 1)
      "Delete one or more keys" "1.0.0" cmdDel,
    command "unlink" (-2) [.write, .fast] (1, -1, 1)
      "Delete one or more keys, reclaiming memory lazily" "4.0.0" cmdDel,
    command "exists" (-2) [.readonly, .fast] (1, -1, 1)
      "Count how many of the given keys exist" "1.0.0" cmdExists,
    command "touch" (-2) [.readonly, .fast] (1, -1, 1)
      "Count how many of the given keys exist, updating their access time" "3.2.1" cmdExists,
    command "type" 2 [.readonly, .fast] (1, 1, 1)
      "Return the type of the value stored at a key" "1.0.0" cmdType,
    command "expire" (-3) [.write, .fast] (1, 1, 1)
      "Set a key's time to live in seconds" "1.0.0" (expireCmd .ex),
    command "pexpire" (-3) [.write, .fast] (1, 1, 1)
      "Set a key's time to live in milliseconds" "2.6.0" (expireCmd .px),
    command "expireat" (-3) [.write, .fast] (1, 1, 1)
      "Set the expiration of a key as a Unix timestamp in seconds" "1.2.0" (expireCmd .exat),
    command "pexpireat" (-3) [.write, .fast] (1, 1, 1)
      "Set the expiration of a key as a Unix timestamp in milliseconds" "2.6.0" (expireCmd .pxat),
    command "ttl" 2 [.readonly, .fast] (1, 1, 1)
      "Return a key's remaining time to live in seconds" "1.0.0" (ttlCmd 1000),
    command "pttl" 2 [.readonly, .fast] (1, 1, 1)
      "Return a key's remaining time to live in milliseconds" "2.6.0" (ttlCmd 1),
    command "expiretime" 2 [.readonly, .fast] (1, 1, 1)
      "Return the absolute expiry of a key in seconds" "7.0.0" (expireTimeCmd 1000),
    command "pexpiretime" 2 [.readonly, .fast] (1, 1, 1)
      "Return the absolute expiry of a key in milliseconds" "7.0.0" (expireTimeCmd 1),
    command "persist" 2 [.write, .fast] (1, 1, 1)
      "Remove a key's expiration" "2.2.0" cmdPersist,
    command "keys" 2 [.readonly] noKeys
      "Return all keys matching a pattern" "1.0.0" cmdKeys,
    command "scan" (-2) [.readonly] noKeys
      "Incrementally iterate the keyspace" "2.8.0" cmdScan,
    command "randomkey" 1 [.readonly] noKeys
      "Return a random key" "1.0.0" cmdRandomKey,
    command "dbsize" 1 [.readonly, .fast] noKeys
      "Return the number of keys" "1.0.0" cmdDBSize,
    command "rename" 3 [.write] (1, 2, 1)
      "Rename a key" "1.0.0" cmdRename,
    command "renamenx" 3 [.write, .fast] (1, 2, 1)
      "Rename a key only when the destination does not exist" "1.0.0" cmdRenameNX,
    command "copy" (-3) [.write] (1, 2, 1)
      "Copy a key" "6.2.0" cmdCopy,
    command "flushdb" (-1) [.write] noKeys
      "Remove every key" "1.0.0" cmdFlush,
    command "flushall" (-1) [.write] noKeys
      "Remove every key" "1.0.0" cmdFlush]

def registerServer : List (Command E) :=
  [command "info" (-1) [.readonly, .loading] noKeys
      "Report server statistics" "1.0.0" cmdInfo,
    onTable "command" (-1) [.loading, .noAuth] noKeys
      "Describe the command table" "2.8.13" cmdCommand,
    command "config" (-2) [.admin, .loading] noKeys
      "Read and change configuration" "2.0.0" cmdConfig,
    command "save" 1 [.admin] noKeys
      "Write a snapshot synchronously" "1.0.0" cmdSave,
    command "bgsave" (-1) [.admin] noKeys
      "Write a snapshot in the background" "1.0.0" cmdBGSave,
    command "bgrewriteaof" 1 [.admin] noKeys
      "Compact the write-ahead log" "1.0.0" cmdBGRewriteAOF,
    command "lastsave" 1 [.readonly, .fast] noKeys
      "Report the last snapshot time" "1.0.0" cmdLastSave,
    command "shutdown" (-1) [.admin, .noAuth, .loading] noKeys
      "Stop the server" "1.0.0" cmdShutdown,
    command "time" 1 [.readonly, .fast] noKeys
      "Report server time" "2.6.0" cmdTime,
    command "debug" (-2) [.admin] noKeys
      "Internal diagnostics" "1.0.0" cmdDebug,
    command "object" (-2) [.readonly] noKeys
      "Inspect a key's representation" "2.2.3" cmdObject,
    command "memory" (-2) [.readonly] noKeys
      "Report memory usage" "4.0.0" cmdMemory,
    command "wait" 3 [.fast] noKeys
      "Wait for replication acknowledgements" "3.0.0" cmdWait,
    command "failover" (-1) [.admin] noKeys
      "Trigger a failover" "6.2.0" cmdFailover]

def newTable : List (Command E) :=
  registerConnection ++ registerString ++ registerGeneric ++ registerServer

/-- The sorted names the table is made with. -/
def newNames (E : Env) : List Bytes :=
  ((newTable (E := E)).map (fun cmd => cmd.name)).insertionSort (· ≤ ·)

def maxCommandName : ℕ := 32

def foldByte (b : UInt8) : UInt8 := if 65 ≤ b ∧ b ≤ 90 then b + 32 else b

def lookupFast (table : List (Command E)) (name : Bytes) : Option (Command E) :=
  if name.length = 0 ∨ name.length > maxCommandName then none
  else table.find? (fun cmd => cmd.name == name.map foldByte)

/-- The first arguments, each cut to 32 bytes. -/
def argPreview : ℕ → List Bytes → Bytes
  | _, [] => []
  | i, arg :: rest =>
      if i = 3 then ofString ", ..."
      else
        (if i > 0 then ofString ", " else []) ++ ofString "'" ++
          (if arg.length > 32 then arg.take 32 ++ ofString "..." else arg) ++ ofString "'" ++
          argPreview (i + 1) rest

def msgUnknownCommand (name : Bytes) (args : List Bytes) : Bytes :=
  ofString "unknown command '" ++ name ++ ofString "', with args beginning with: " ++
    argPreview 0 args

def touch (name : Bytes) : M E Unit := do
  let now ← onAmbient E.now
  onConn fun conn => { conn with
    lastCommand := name
    lastInteraction := now.1
    commandCount := conn.commandCount + 1 }

/-- A command that was resolved. -/
def runCommand (cmd : Command E) (c : Call) : Prog (Server E) (Option Err) :=
  if !arityOK cmd.arity c.argc then lift (errWrongArgs c)
  else do
    let conn ← reading fun s => s.world.conn
    if !conn.authenticated && .noAuth ∉ cmd.flags then lift (errCode codeNoAuth msgNoAuth)
    else do
      let res ← cmd.handler c
      lift (touch cmd.name)
      pure res

def dispatch (table : List (Command E)) : List Bytes → Prog (Server E) (Option Err)
  | [] => pure none
  | arg :: args =>
      match lookupFast table arg with
      | none => lift (err (msgUnknownCommand (E.lower arg) args))
      | some cmd =>
          runCommand cmd ⟨arg :: args, cmd.name, table.map (fun cmd => cmd.toCommandInfo)⟩

section Dispatch

variable {table : List (Command E)} {arg : Bytes} {args : List Bytes}

theorem dispatch_of_none (h : lookupFast table arg = none) :
    dispatch table (arg :: args) = lift (err (msgUnknownCommand (E.lower arg) args)) := by
  rw [dispatch, h]

theorem dispatch_of_some {cmd : Command E} (h : lookupFast table arg = some cmd) :
    dispatch table (arg :: args) =
      runCommand cmd ⟨arg :: args, cmd.name, table.map (fun cmd => cmd.toCommandInfo)⟩ := by
  rw [dispatch, h]

theorem mem_of_lookupFast {cmd : Command E} (h : lookupFast table arg = some cmd) :
    cmd ∈ table ∧ cmd.name = arg.map foldByte := by
  unfold lookupFast at h
  split at h
  · cases h
  · exact ⟨List.mem_of_find?_eq_some h, by simpa using List.find?_some h⟩

end Dispatch

end RedisFromScratch.CommandTable
