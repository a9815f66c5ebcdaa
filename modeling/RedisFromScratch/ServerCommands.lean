import RedisFromScratch.ConnectionCommands

/-!
The commands on the server itself. COMMAND is the one handler that reaches the
registry's own list of names, which it hands on as a slice; its programs run on the
server's state with the array behind that slice, all others on the rest of it.
-/
namespace RedisFromScratch.ServerCommands

open ByteStrings ReplyWriter RespReader StatePrograms CommandContext StringCommands
open GenericCommands ConnectionCommands

variable {E : Env} {α : Type}

def cmdInfo : Handler E := fun c => do
  let text ← reading fun w =>
    E.info ((c.args.drop 1).map E.lower) w.store w.config w.ambient
  reply fun ver => writeVerbatim ver (ofString "txt") text

structure Server (E : Env) where
  world : World E
  /-- The array behind the sorted names; it has no spare capacity. -/
  names : List Bytes

/-- A program that does not see the names. -/
def lift (m : M E α) : Prog (Server E) α := fun s =>
  (m s.world).map (fun p => (p.1, { s with world := p.2 }))

def lookup (E : Env) (c : Call) (name : Bytes) : Option CommandInfo :=
  c.table.find? (fun cmd => cmd.name == E.lower name)

def infoFlags (cmd : CommandInfo) : List Bytes :=
  (if .write ∈ cmd.flags then [ofString "write", ofString "denyoom"] else []) ++
    (if .readonly ∈ cmd.flags then [ofString "readonly"] else []) ++
    (if .admin ∈ cmd.flags then [ofString "admin", ofString "noscript"] else []) ++
    (if .fast ∈ cmd.flags then [ofString "fast"] else []) ++
    (if .loading ∈ cmd.flags then [ofString "loading"] else [])

/-- A command as an array of ten: its name, arity, flags and keys, and four empty arrays. -/
def commandInfo (cmd : CommandInfo) : List WriterOp :=
  writeArrayHeader 10 ++ writeBulkString cmd.name ++ writeInt cmd.arity ++
    writeArrayHeader (infoFlags cmd).length ++ (infoFlags cmd).flatMap writeSimpleString ++
    writeInt cmd.firstKey ++ writeInt cmd.lastKey ++ writeInt cmd.keyStep ++
    writeArrayHeader 0 ++ writeArrayHeader 0 ++ writeArrayHeader 0 ++ writeArrayHeader 0

/-- A name that is not registered is a nil pointer, and following it panics. -/
def withCommand (c : Call) (name : Bytes) (k : CommandInfo → M E α) : M E α :=
  match lookup E c name with
  | some cmd => k cmd
  | none => panicking

def writeInfos (c : Call) : List Bytes → M E (Option Err)
  | [] => pure none
  | name :: rest => do
      withCommand c name (fun cmd => write fun _ => commandInfo cmd)
      writeInfos c rest

/-- All commands, in the order of the names. -/
def describeAll (c : Call) (names : List Bytes) : M E (Option Err) := do
  write fun _ => writeArrayHeader c.table.length
  writeInfos c names

def describeEach (c : Call) : List Bytes → M E (Option Err)
  | [] => pure none
  | name :: rest => do
      write fun ver =>
        match lookup E c name with
        | some cmd => commandInfo cmd
        | none => writeNullArray ver
      describeEach c rest

def writeDocs (c : Call) : List Bytes → M E (Option Err)
  | [] => pure none
  | name :: rest => do
      withCommand c name (fun cmd => write fun ver =>
        writeBulkString cmd.name ++ writeMapHeader ver 3 ++
          writeBulkString (ofString "summary") ++ writeBulkString cmd.summary ++
          writeBulkString (ofString "since") ++ writeBulkString cmd.since ++
          writeBulkString (ofString "arity") ++ writeInt cmd.arity)
      writeDocs c rest

/-- The registered ones among the arguments of COMMAND DOCS, in lower case. -/
def docsNames (E : Env) (c : Call) : List Bytes :=
  ((c.args.drop 2).filter (fun arg => (lookup E c arg).isSome)).map E.lower

/-- Appending to an empty slice of an array writes into the array, as long as there is
room; from then on it goes to a new one. -/
def appendInPlace (backing items : List Bytes) : List Bytes :=
  items.take backing.length ++ backing.drop items.length

def writeAllDocs (c : Call) (names : List Bytes) : M E (Option Err) := do
  write fun ver => writeMapHeader ver names.length
  writeDocs c names

def commandDocs (c : Call) : Prog (Server E) (Option Err) :=
  if c.argc > 2 then do
    changing fun s => { s with names := appendInPlace s.names (docsNames E c) }
    lift (writeAllDocs c (docsNames E c))
  else do
    let names ← reading Server.names
    lift (writeAllDocs c names)

/-- The positions `i`, `i + step` and so on up to `last` and below `argc`. -/
def keyPositions (last argc step : ℤ) : ℕ → ℤ → List ℤ
  | 0, _ => []
  | n + 1, i => if i ≤ last ∧ i < argc then i :: keyPositions last argc step n (i + step) else []

def commandGetKeys : Handler E := fun c =>
  if c.argc < 3 then
    err (ofString "Unknown subcommand or wrong number of arguments for 'GETKEYS'")
  else
    match lookup E c (c.argString 2) with
    | none => err (ofString "Invalid command specified")
    | some cmd =>
      let argc : ℤ := c.argc - 2
      if !arityOK cmd.arity argc then
        err (ofString "Invalid number of arguments specified for command")
      else if cmd.firstKey = 0 then err (ofString "The command has no key arguments")
      else
        let last := if cmd.lastKey < 0 then argc + cmd.lastKey else cmd.lastKey
        let keys := (keyPositions last argc (max cmd.keyStep 1) c.argc cmd.firstKey).map
          (fun i => c.arg (i + 2).toNat)
        if keys = [] then err (ofString "Invalid arguments specified for command")
        else bulks keys

def cmdCommand (c : Call) : Prog (Server E) (Option Err) := do
  let names ← reading Server.names
  if c.argc = 1 then lift (describeAll c names)
  else if E.lower (c.argString 1) = ofString "count" then lift (int c.table.length)
  else if E.lower (c.argString 1) = ofString "docs" then commandDocs c
  else if E.lower (c.argString 1) = ofString "info" then
    if c.argc = 2 then lift (describeAll c names)
    else lift do
      write fun _ => writeArrayHeader (c.args.drop 2).length
      describeEach c (c.args.drop 2)
  else if E.lower (c.argString 1) = ofString "list" then lift do
    write fun _ => writeArrayHeader c.table.length ++ names.flatMap writeBulkString
    pure none
  else if E.lower (c.argString 1) = ofString "getkeys" then lift (commandGetKeys c)
  else lift (err (ofString "Unknown subcommand '" ++ c.argString 1 ++ ofString "'"))

def writePairs : List (Bytes × Bytes) → List WriterOp
  | [] => []
  | (k, v) :: rest => writeBulkString k ++ writeBulkString v ++ writePairs rest

/-- The names and values of CONFIG SET in turn. -/
def settings : List Bytes → List (Bytes × Bytes)
  | name :: value :: rest => (name, value) :: settings rest
  | _ => []

def configSetAll : List (Bytes × Bytes) → M E (Option Err)
  | [] => ok
  | (name, value) :: rest => do
      match ← onConfig (E.configSet name value) with
      | some text => err (ofString "CONFIG SET failed - " ++ text)
      | none => configSetAll rest

def configGet (c : Call) : M E (Option Err) := do
  let all ← reading fun w => E.configAll w.config
  let matched := all.filter (fun kv => (c.args.drop 2).any (fun p => E.matchPattern p kv.1 true))
  reply fun ver => writeMapHeader ver matched.length ++ writePairs matched

/-- Every name is looked up before any value is set. -/
def configSet (c : Call) : M E (Option Err) := do
  let config ← reading World.config
  match (settings (c.args.drop 2)).find? (fun kv => (E.configGet config kv.1).isNone) with
  | some (name, _) =>
    err (ofString "Unknown option or number of arguments for CONFIG SET - '" ++ name ++
      ofString "'")
  | none => configSetAll (settings (c.args.drop 2))

def cmdConfig : Handler E := fun c =>
  let sub := E.lower (c.argString 1)
  if sub = ofString "get" then if c.argc < 3 then errWrongArgs c else configGet c
  else if sub = ofString "set" then
    if c.argc < 4 ∨ c.argc % 2 ≠ 0 then errWrongArgs c else configSet c
  else if sub = ofString "resetstat" then ok
  else if sub = ofString "rewrite" then err (ofString "The server is running without a config file")
  else
    err (ofString "Unknown CONFIG subcommand or wrong number of arguments for '" ++
      c.argString 1 ++ ofString "'")

def errNoPersistence : Bytes := ofString "persistence is disabled on this server"

/-- Take a snapshot and wait for it. -/
def save : M E (Option Bytes) := do
  let running ← reading World.running
  if running.persistence then do
    onRunning fun r => ((), { r with snapshots := r.snapshots + 1 })
    reading fun w => E.snapshotError w.ambient
  else pure (some errNoPersistence)

/-- Start a snapshot unless one is being taken already. -/
def backgroundSave : M E (Option Bytes) := do
  let running ← reading World.running
  if !running.persistence then pure (some errNoPersistence)
  else if running.bgsaveActive then
    pure (some (ofString "background save already in progress"))
  else do
    onRunning fun r => ((), { r with bgsaveActive := true, snapshots := r.snapshots + 1 })
    pure none

def cmdSave : Handler E := fun _ => do
  match ← save with
  | some text => err text
  | none => ok

def cmdBGSave : Handler E := fun _ => do
  match ← backgroundSave with
  | some text => err text
  | none => simpleString (ofString "Background saving started")

def cmdBGRewriteAOF : Handler E := fun _ => do
  match ← backgroundSave with
  | some text => err text
  | none => simpleString (ofString "Background append only file rewriting started")

def cmdLastSave : Handler E := fun _ => do
  let running ← reading World.running
  let last ← reading fun w => E.lastSave w.ambient
  int (if running.persistence then last else 0)

/-- Whether to save, or nothing if an option is not one of SHUTDOWN's. -/
def parseShutdownOptions (E : Env) : List Bytes → Bool → Option Bool
  | [], save => some save
  | opt :: rest, save =>
      if E.lower opt = ofString "nosave" then parseShutdownOptions E rest false
      else if E.lower opt = ofString "save" then parseShutdownOptions E rest true
      else if E.lower opt = ofString "now" ∨ E.lower opt = ofString "force" then
        parseShutdownOptions E rest save
      else none

/-- The channel holds one request; a second one is dropped. -/
def shutdown (save : Bool) : M E Unit := onRunning fun r =>
  ((), { r with shutdownSave := save, shutdownReq := r.shutdownReq.or (some save) })

/-- A shutdown that is accepted is not replied to. -/
def cmdShutdown : Handler E := fun c =>
  match parseShutdownOptions E (c.args.drop 1) true with
  | none => errSyntax
  | some save => do
    shutdown save
    closeAfterReply
    pure none

def cmdTime : Handler E := fun _ => do
  let now ← onAmbient E.now
  reply fun _ => writeArrayHeader 2 ++ writeBulkString (appendInt now.1) ++
    writeBulkString (appendInt now.2)

/-- A sleep delays the reply and nothing else. -/
def debugSleep : Handler E := fun c =>
  if c.argc ≠ 3 then errWrongArgs c
  else
    match floatArg E c 2 with
    | none => errSyntax
    | some secs => if E.isNegative secs then errSyntax else ok

def debugObject : Handler E := fun c =>
  if c.argc ≠ 3 then errWrongArgs c
  else do
    match ← onStore (E.get (c.argString 2)) with
    | .error e => storeErr e
    | .ok none => err (ofString "no such key")
    | .ok (some rec) =>
      simpleString (ofString "Value at:0x0 refcount:1 encoding:raw serializedlength:" ++
        appendInt rec.bytes.length ++ ofString " lru:0 lru_seconds_idle:0")

def debugIgnored : List Bytes :=
  [ofString "jmap", ofString "set-active-expire", ofString "quicklist-packed-threshold",
    ofString "stringmatch-len", ofString "change-repl-id"]

def cmdDebug : Handler E := fun c =>
  let sub := E.lower (c.argString 1)
  if sub = ofString "sleep" then debugSleep c
  else if sub ∈ debugIgnored then ok
  else if sub = ofString "object" then debugObject c
  else if sub = ofString "help" then
    reply fun _ => writeArrayHeader 2 ++
      writeSimpleString (ofString "DEBUG SLEEP <seconds> -- stall this connection") ++
      writeSimpleString (ofString "DEBUG OBJECT <key> -- describe a key's representation")
  else
    err (ofString "DEBUG subcommand '" ++ c.argString 1 ++
      ofString "' not supported by this server")

def unknownSubcommand (c : Call) : M E (Option Err) :=
  err (ofString "Unknown subcommand or wrong number of arguments for '" ++ c.argString 1 ++
    ofString "'")

def objectReply (c : Call) (rec : Rec) : M E (Option Err) :=
  let sub := E.lower (c.argString 1)
  if sub = ofString "encoding" then
    bulkString (if (parseStrictInt rec.bytes).isSome then ofString "int" else ofString "raw")
  else if sub = ofString "refcount" then int 1
  else if sub = ofString "idletime" then int 0
  else if sub = ofString "freq" then
    err (ofString "An LFU maxmemory policy is not selected, access frequency not tracked")
  else unknownSubcommand c

def cmdObject : Handler E := fun c =>
  if c.argc < 3 then
    if E.lower (c.argString 1) = ofString "help" then
      reply fun _ => writeArrayHeader 1 ++
        writeSimpleString (ofString "OBJECT <ENCODING|REFCOUNT|IDLETIME|FREQ> <key>")
    else errWrongArgs c
  else do
    match ← onStore (E.get (c.argString 2)) with
    | .error e => storeErr e
    | .ok none => err (ofString "no such key")
    | .ok (some rec) => objectReply c rec

def memoryUsage : Handler E := fun c =>
  if c.argc < 3 then errWrongArgs c
  else do
    match ← onStore (E.get (c.argString 2)) with
    | .error e => storeErr e
    | .ok none => null
    | .ok (some rec) => int ((c.argString 2).length + rec.bytes.length + 64)

def memoryStats : M E (Option Err) := do
  match ← onStore E.storeStats with
  | .error e => storeErr e
  | .ok st =>
    reply fun ver => writeMapHeader ver 3 ++
      writeBulkString (ofString "keys.count") ++ writeInt st.keys ++
      writeBulkString (ofString "keys.volatile") ++ writeInt st.volatileKeys ++
      writeBulkString (ofString "dataset.bytes") ++ writeInt st.memoryBytes

def cmdMemory : Handler E := fun c =>
  let sub := E.lower (c.argString 1)
  if sub = ofString "usage" then memoryUsage c
  else if sub = ofString "doctor" then
    bulkString (ofString ("Memory reporting here is estimated, not measured. " ++
      "Run with a heap profile for real numbers."))
  else if sub = ofString "stats" then memoryStats
  else unknownSubcommand c

/-- There are no replicas to wait for. -/
def cmdWait : Handler E := fun _ => int 0

def cmdFailover : Handler E := fun c =>
  if c.argc > 1 ∧ E.lower (c.argString 1) = ofString "abort" then
    err (ofString "No failover in progress.")
  else err (ofString "FAILOVER requires connected replicas; this server is standalone")

end RedisFromScratch.ServerCommands
