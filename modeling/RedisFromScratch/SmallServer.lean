import RedisFromScratch.CommandTable
import RedisFromScratch.EngineValues

/-!
A small server to run commands on: a password that may be empty, a clock that stands
still, no other clients, and either storage engine without a log. Keywords are folded
byte by byte.
-/
namespace RedisFromScratch.SmallServer

open ByteStrings ReplyWriter CommandContext CommandTable ServerCommands EngineValues

def smallHost : Host where
  Config := Bytes
  Ambient := Unit
  Float := ℤ
  lower := List.map foldByte
  equalFold a b := a.map foldByte == b.map foldByte
  matchPattern pattern text _ := pattern == text
  isTrivialPattern pattern := pattern == ofString "*"
  parseFloat := RespReader.parseInt
  zeroFloat := 0
  isNaN _ := false
  isInf _ := false
  isNegative n := n < 0
  addFloat a b := a + b
  formatFloat := appendInt
  configGet config name := if name = ofString "requirepass" then some config else none
  configAll config := [(ofString "requirepass", config)]
  configSet _ value _ := (none, value)
  requirePass config := config
  nowMs _ := (0, ())
  now _ := ((0, 0), ())
  random _ := (0, ())
  others _ := []
  killClient _ _ := (false, ())
  ageSeconds _ _ := 0
  version := ofString "0.1.0"
  lastSave _ := 0
  snapshotError _ := none
  pages := 1

def noWalks (S : Type) : Walks S where
  scan _ _ _ vars _ := (vars, .ok 0)
  len _ := .ok 0
  stats _ := .ok ⟨0, 0, 0⟩

def noJournal : Journal where
  State := Unit
  log _ _ := (.ok 0, ())
  await _ _ := (.ok (), ())

def onEngine (engine : Engine) : Env where
  toEngine := engine
  toHost := smallHost
  info _ _ _ _ := []

def memoryEnv : Env := onEngine (memoryEngine noJournal (noWalks _))

def lsmEnv : Env := onEngine (lsmEngine (noWalks _))

def still : Clock := ⟨fun _ => 0, 0⟩

/-- A memory store with these records. -/
def memoryWith (m : Bytes → Option Rec) : Memory noJournal := ⟨m, still, (), false⟩

/-- The client of an engine with these records, all of whose requests succeed. -/
def lsmWith (m : EngineRequests.Map) : Lsm := ⟨false, m, still, fun _ => none, 0⟩

def smallConn (authenticated : Bool) : ConnState where
  id := 1
  remoteAddr := []
  localAddr := []
  proto := .resp2
  authenticated := authenticated
  name := []
  lastCommand := []
  lastInteraction := 0
  commandCount := 0
  closeAfterReply := false

def smallWorld (engine : Engine) (store : engine.Store) (pass : Bytes) (authenticated : Bool) :
    World (onEngine engine) where
  store := store
  config := pass
  ambient := ()
  running := ⟨none, false, false, false, 0⟩
  conn := smallConn authenticated
  ver := .resp2
  out := []

/-- A memory store behind the server, and the table as it is made. -/
def smallServer (m : Bytes → Option Rec) (pass : Bytes) (authenticated : Bool) :
    Server memoryEnv where
  world := smallWorld _ (memoryWith m) pass authenticated
  names := newNames memoryEnv

end RedisFromScratch.SmallServer
