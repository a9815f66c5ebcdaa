import RedisFromScratch.GenericCommands

/-!
The commands on connections: the handshake and authentication, and looking at and
closing connections. None of them reaches the store.
-/
namespace RedisFromScratch.ConnectionCommands

open ByteStrings ReplyWriter RespReader StatePrograms CommandContext GenericCommands

variable {E : Env}

def cmdPing : Handler E := fun c =>
  if c.argc = 1 then simpleString (ofString "PONG")
  else if c.argc = 2 then bulk (c.arg 1)
  else errWrongArgs c

def cmdEcho : Handler E := fun c => bulk (c.arg 1)

/-- Without a password every one is right. -/
def checkPassword (given : Bytes) : M E Bool := reading fun w =>
  E.requirePass w.config = [] ∨ given = E.requirePass w.config

def setName (name : Bytes) : M E Unit := onConn fun conn => { conn with name }

def setAuthenticated (b : Bool) : M E Unit := onConn fun conn => { conn with authenticated := b }

def wrongPass : M E (Option Err) := errCode (ofString "WRONGPASS") msgWrongPass

/-- The options of HELLO take effect one by one. -/
def helloOptions (done : M E (Option Err)) : List Bytes → M E (Option Err)
  | [] => done
  | opt :: rest =>
      if E.lower opt = ofString "auth" then
        match rest with
        | _ :: password :: rest => do
          let good ← checkPassword password
          if good then do
            setAuthenticated true
            helloOptions done rest
          else wrongPass
        | _ => errSyntax
      else if E.lower opt = ofString "setname" then
        match rest with
        | name :: rest => do
          setName name
          helloOptions done rest
        | [] => errSyntax
      else errSyntax

def versionOf (n : ℤ) : Option Version :=
  if n = 2 then some .resp2 else if n = 3 then some .resp3 else none

def versionNumber : Version → ℤ
  | .resp2 => 2
  | .resp3 => 3

/-- Seven pairs about the server. -/
def writeHello (requested : Version) (id : ℕ) : M E (Option Err) := do
  write fun ver => writeMapHeader ver 7
  write fun _ => writeBulkString (ofString "server")
  write fun _ => writeBulkString (ofString "redis-from-scratch")
  write fun _ => writeBulkString (ofString "version")
  write fun _ => writeBulkString E.version
  write fun _ => writeBulkString (ofString "proto")
  write fun _ => writeInt (versionNumber requested)
  write fun _ => writeBulkString (ofString "id")
  write fun _ => writeInt id
  write fun _ => writeBulkString (ofString "mode")
  write fun _ => writeBulkString (ofString "standalone")
  write fun _ => writeBulkString (ofString "role")
  write fun _ => writeBulkString (ofString "master")
  write fun _ => writeBulkString (ofString "modules")
  write fun _ => writeArrayHeader 0
  pure none

/-- The dialect changes once the handshake is known to succeed; the reply is in the
new one already. -/
def finishHello (requested : Version) : M E (Option Err) := do
  let conn ← reading World.conn
  if conn.authenticated then do
    onConn fun conn => { conn with proto := requested }
    setVersion requested
    writeHello requested conn.id
  else errCode codeNoAuth msgNoAuth

def cmdHello : Handler E := fun c => do
  let conn ← reading World.conn
  match c.args.drop 1 with
  | [] => finishHello conn.proto
  | arg :: rest =>
    match parseInt arg with
    | none => err (ofString "Protocol version is not an integer or out of range")
    | some n =>
      match versionOf n with
      | none => errCode (ofString "NOPROTO") (ofString "unsupported protocol version")
      | some v => helloOptions (finishHello v) rest

def authenticate (password : Bytes) : M E (Option Err) := do
  let config ← reading World.config
  if E.requirePass config = [] then err msgAuthNotSet
  else do
    let good ← checkPassword password
    if good then do
      setAuthenticated true
      ok
    else wrongPass

/-- There is one user, the default one. -/
def cmdAuth : Handler E := fun c =>
  if c.argc = 2 then authenticate (c.argString 1)
  else if c.argc = 3 then
    if E.lower (c.argString 1) ≠ ofString "default" then wrongPass
    else authenticate (c.argString 2)
  else errWrongArgs c

def cmdSelect : Handler E := fun c =>
  match parseInt (c.argString 1) with
  | none => err msgNotInteger
  | some n => if n ≠ 0 then err msgSingleDB else ok

def cmdSwapDB : Handler E := fun _ => err msgSingleDB

def closeAfterReply : M E Unit := onConn fun conn => { conn with closeAfterReply := true }

def cmdQuit : Handler E := fun _ => do
  closeAfterReply
  ok

def cmdReset : Handler E := fun _ => do
  let config ← reading World.config
  onConn fun conn => { conn with proto := .resp2 }
  setVersion .resp2
  setName []
  setAuthenticated (E.requirePass config = [])
  simpleString (ofString "RESET")

/-- All connections in the order of their numbers. -/
def clients : M E (List ConnState) := reading fun w =>
  (w.conn :: E.others w.ambient).mergeSort (fun a b => a.id ≤ b.id)

/-- A line of CLIENT LIST. -/
def formatClientLine (conn : ConnState) : M E Bytes := do
  let now ← onAmbient E.now
  let age ← reading fun w => E.ageSeconds w.ambient conn
  pure (ofString "id=" ++ appendInt conn.id ++ ofString " addr=" ++ conn.remoteAddr ++
    ofString " laddr=" ++ conn.localAddr ++ ofString " name=" ++ conn.name ++
    ofString " age=" ++ appendInt age ++
    ofString " idle=" ++ appendInt (now.1 - conn.lastInteraction) ++
    ofString " db=0 resp=" ++ appendInt (versionNumber conn.proto) ++
    ofString " cmd=" ++ (if conn.lastCommand ≠ [] then conn.lastCommand else ofString "NULL") ++
    ofString " numcmds=" ++ appendInt conn.commandCount)

def clientLines : List ConnState → M E Bytes
  | [] => pure []
  | conn :: rest => do
      let line ← formatClientLine conn
      let others ← clientLines rest
      pure (line ++ [10] ++ others)

structure KillFilter where
  byID : Option ℕ
  byAddr : Bytes
  skipMe : Bool
  maxAge : Option ℤ

inductive KillError
  | syntaxError
  | badID

/-- Filters come in pairs; a type or a user excludes nobody. -/
def parseKillFilters (E : Env) : List Bytes → KillFilter → Except KillError KillFilter
  | [], f => .ok f
  | [_], _ => .error .syntaxError
  | opt :: value :: rest, f =>
      if E.lower opt = ofString "id" then
        match parseUint value with
        | none => .error .badID
        | some n => parseKillFilters E rest { f with byID := some n }
      else if E.lower opt = ofString "addr" ∨ E.lower opt = ofString "laddr" then
        parseKillFilters E rest { f with byAddr := value }
      else if E.lower opt = ofString "skipme" then
        parseKillFilters E rest { f with skipMe := E.equalFold value (ofString "yes") }
      else if E.lower opt = ofString "maxage" then
        match parseInt value with
        | none => .error .syntaxError
        | some n =>
          if n < 0 then .error .syntaxError
          else parseKillFilters E rest { f with maxAge := some n }
      else if E.lower opt = ofString "type" ∨ E.lower opt = ofString "user" then
        parseKillFilters E rest f
      else .error .syntaxError

def spared (f : KillFilter) (self : ℕ) (age : ℤ) (conn : ConnState) : Bool :=
  (f.skipMe && conn.id == self) || f.byID.any (· != conn.id) ||
    (f.byAddr != [] && conn.remoteAddr != f.byAddr) || f.maxAge.any (age < ·)

def killMatching (f : KillFilter) (self : ℕ) : List ConnState → ℤ → M E (Option Err)
  | [], killed => int killed
  | conn :: rest, killed => do
      let age ← reading fun w => E.ageSeconds w.ambient conn
      if spared f self age conn then killMatching f self rest killed
      else do
        let found ← onAmbient (E.killClient conn.id)
        killMatching f self rest (if found then killed + 1 else killed)

def clientKill : Handler E := fun c =>
  if c.argc = 3 then do
    let all ← clients
    match all.find? (fun conn => conn.remoteAddr == c.argString 2) with
    | some conn => do
      let _ ← onAmbient (E.killClient conn.id)
      ok
    | none => err (ofString "No such client address in client list")
  else
    match parseKillFilters E (c.args.drop 2) ⟨none, [], true, none⟩ with
    | .error .syntaxError => errSyntax
    | .error .badID => err (ofString "client-id should be greater than 0")
    | .ok f => do
      let self ← reading World.conn
      let all ← clients
      killMatching f self.id all 0

def cmdClient : Handler E := fun c =>
  let sub := E.lower (c.argString 1)
  if sub = ofString "id" then do
    let conn ← reading World.conn
    int conn.id
  else if sub = ofString "getname" then do
    let conn ← reading World.conn
    if conn.name ≠ [] then bulkString conn.name else null
  else if sub = ofString "setname" then
    if c.argc ≠ 3 then errWrongArgs c
    else if (c.argString 2).any (fun b => b == 32 || b == 10 || b == 13) then
      err (ofString "Client names cannot contain spaces, newlines or special characters.")
    else do
      setName (c.argString 2)
      ok
  else if sub = ofString "info" then do
    let conn ← reading World.conn
    let line ← formatClientLine conn
    bulkString line
  else if sub = ofString "list" then do
    let all ← clients
    let lines ← clientLines all
    bulkString lines
  else if sub = ofString "kill" then clientKill c
  else if sub = ofString "no-evict" ∨ sub = ofString "no-touch" then ok
  else if sub = ofString "setinfo" then if c.argc ≠ 4 then errWrongArgs c else ok
  else
    err (ofString "Unknown CLIENT subcommand or wrong number of arguments for '" ++
      c.argString 1 ++ ofString "'")

end RedisFromScratch.ConnectionCommands
