import RedisFromScratch.StringCommands

/-!
The commands on keys whatever they hold: deleting, counting, expiring, walking,
renaming and copying. A walk of the whole keyspace takes as many pages as it needs.
-/
namespace RedisFromScratch.GenericCommands

open ByteStrings ReplyWriter RespReader StatePrograms CommandContext StringCommands

variable {E : Env}

/-- Delete keys in turn and reply how many were there. -/
def delLoop : List Bytes → ℤ → M E (Option Err)
  | [], n => int n
  | key :: rest, n => do
      match ← onStore (E.delete key) with
      | .error e => storeErr e
      | .ok removed => delLoop rest (if removed then n + 1 else n)

def cmdDel : Handler E := fun c => delLoop (c.args.drop 1) 0

/-- A key that is listed twice is counted twice. -/
def existsLoop : List Bytes → ℤ → M E (Option Err)
  | [], n => int n
  | key :: rest, n => do
      match ← onStore (E.get key) with
      | .error e => storeErr e
      | .ok rec => existsLoop rest (if rec.isSome then n + 1 else n)

def cmdExists : Handler E := fun c => existsLoop (c.args.drop 1) 0

def cmdType : Handler E := fun c => do
  match ← onStore (E.get (c.argString 1)) with
  | .error e => storeErr e
  | .ok none => simpleString (ofString "none")
  | .ok (some _) => simpleString (ofString "string")

structure ExpireFlags where
  nx : Bool
  xx : Bool
  gt : Bool
  lt : Bool

def parseExpireOptions (E : Env) : List Bytes → ExpireFlags → Option ExpireFlags
  | [], f => some f
  | opt :: rest, f =>
      if E.lower opt = ofString "nx" then parseExpireOptions E rest { f with nx := true }
      else if E.lower opt = ofString "xx" then parseExpireOptions E rest { f with xx := true }
      else if E.lower opt = ofString "gt" then parseExpireOptions E rest { f with gt := true }
      else if E.lower opt = ofString "lt" then parseExpireOptions E rest { f with lt := true }
      else none

/-- An expiry in the past deletes at once. A key without one never expires, so GT
does not apply to it. -/
def expireUpdate (f : ExpireFlags) (expireAt now : ℤ) : UpdateFn Bool := fun applied cur found =>
  if !found || (f.nx && cur.expireAt != 0) || (f.xx && cur.expireAt == 0) ||
      (f.gt && (cur.expireAt == 0 || expireAt ≤ cur.expireAt)) ||
      (f.lt && cur.expireAt != 0 && expireAt ≥ cur.expireAt) then (applied, .ok .nothing)
  else if expireAt ≤ now then (true, .ok .delete)
  else (true, .ok (.put ⟨cur.value, expireAt⟩))

/-- The reply of a handler whose callback has noted whether it did anything. -/
def boolReply (out : Bool × Except Err Unit) : M E (Option Err) :=
  match out with
  | (_, .error e) => storeErr e
  | (b, .ok ()) => bool b

def expireCmd (unit : ExpiryUnit) : Handler E := fun c =>
  match c.intArg 2 with
  | none => errNotInteger
  | some n => do
    let nowMs₁ ← nowMs
    match absoluteExpiry unit n nowMs₁ with
    | none => err (msgInvalidExpire c.name)
    | some expireAt =>
      match parseExpireOptions E (c.args.drop 3) ⟨false, false, false, false⟩ with
      | none => errSyntax
      | some f =>
        if (f.nx && (f.xx || f.gt || f.lt)) || (f.gt && f.lt) then
          err (ofString "NX and XX, GT or LT options at the same time are not compatible")
        else do
          let now ← nowMs
          let out ← onStore (E.update (c.argString 1) (expireUpdate f expireAt now) false)
          boolReply out

/-- Seconds are rounded up. -/
def ttlCmd (divisor : ℤ) : Handler E := fun c => do
  match ← onStore (E.get (c.argString 1)) with
  | .error e => storeErr e
  | .ok none => int (-2)
  | .ok (some rec) =>
    if rec.expireAt = 0 then int (-1)
    else do
      let now ← nowMs
      let remaining := max (rec.expireAt - now) 0
      if divisor = 1000 then int ((remaining + 999).tdiv 1000) else int remaining

def expireTimeCmd (divisor : ℤ) : Handler E := fun c => do
  match ← onStore (E.get (c.argString 1)) with
  | .error e => storeErr e
  | .ok none => int (-2)
  | .ok (some rec) => if rec.expireAt = 0 then int (-1) else int (rec.expireAt.tdiv divisor)

def persistUpdate : UpdateFn Bool := fun cleared cur found =>
  if !found || cur.expireAt == 0 then (cleared, .ok .nothing)
  else (true, .ok (.put ⟨cur.value, 0⟩))

def cmdPersist : Handler E := fun c => do
  let out ← onStore (E.update (c.argString 1) persistUpdate false)
  boolReply out

def keysScanBudget : ℕ := 1000000

/-- The keys a walk has collected, and whether there were too many. -/
structure KeysVars where
  keys : List (Option Bytes)
  exceeded : Bool

def keysScan (E : Env) (pattern : Bytes) : ScanFn KeysVars := fun vars key _ =>
  if !E.isTrivialPattern pattern && !E.matchPattern pattern (key.getD []) false then (vars, true)
  else if vars.keys.length ≥ keysScanBudget then ({ vars with exceeded := true }, false)
  else ({ vars with keys := vars.keys ++ [key] }, true)

/-- Bulk strings one after another. -/
def writeBulks : List (Option Bytes) → M E Unit
  | [] => pure ()
  | key :: rest => do
      write fun ver => writeBulk ver key
      writeBulks rest

/-- An array of bulk strings. -/
def bulks (keys : List (Option Bytes)) : M E (Option Err) := do
  write fun _ => writeArrayHeader keys.length
  writeBulks keys
  pure none

/-- Pages of a thousand until the cursor is back at zero. -/
def keysLoop (pattern : Bytes) : ℕ → ℕ → KeysVars → M E (Option Err)
  | 0, _, _ => panicking -- the walk is still going on
  | pages + 1, cursor, vars => do
      match ← onStore (E.scan cursor 1000 (keysScan E pattern) vars) with
      | (_, .error e) => storeErr e
      | (vars, .ok next) =>
        if vars.exceeded then
          err (ofString "KEYS matched more than " ++ appendInt keysScanBudget ++
            ofString " keys; use SCAN instead")
        else if next = 0 then bulks vars.keys
        else keysLoop pattern pages next vars

def cmdKeys : Handler E := fun c => keysLoop (c.argString 1) E.pages 0 ⟨[], false⟩

/-- strconv.ParseUint in base ten. -/
def parseUint (s : Bytes) : Option ℕ := if s = [] then none else parseDigits (2 ^ 64 - 1) 0 s

structure ScanOptions where
  pattern : Option Bytes
  count : ℤ
  wantType : Bytes

/-- Every option takes the next argument with it. -/
def parseScanOptions (E : Env) : List Bytes → ScanOptions → Option ScanOptions
  | [], o => some o
  | [_], _ => none
  | opt :: value :: rest, o =>
      if E.lower opt = ofString "match" then
        parseScanOptions E rest { o with pattern := some value }
      else if E.lower opt = ofString "count" then
        match parseInt value with
        | none => none
        | some n =>
          if n < 1 then none else parseScanOptions E rest { o with count := min n 100000 }
      else if E.lower opt = ofString "type" then
        parseScanOptions E rest { o with wantType := E.lower value }
      else none

def scanScan (E : Env) (pattern : Option Bytes) : ScanFn (List (Option Bytes)) :=
  fun keys key _ =>
    match pattern with
    | none => (keys ++ [key], true)
    | some p =>
      if E.isTrivialPattern p || E.matchPattern p (key.getD []) false then (keys ++ [key], true)
      else (keys, true)

/-- A page: the next cursor and the keys. -/
def page (next : ℕ) (keys : List (Option Bytes)) : M E (Option Err) := do
  write fun _ => writeArrayHeader 2
  write fun _ => writeBulkString (appendInt next)
  bulks keys

def cmdScan : Handler E := fun c =>
  match parseUint (c.argString 1) with
  | none => err (ofString "invalid cursor")
  | some cursor =>
    match parseScanOptions E (c.args.drop 2) ⟨none, 10, []⟩ with
    | none => errSyntax
    | some o =>
      if o.wantType ≠ [] ∧ o.wantType ≠ ofString "string" then page 0 []
      else do
        match ← onStore (E.scan cursor o.count (scanScan E o.pattern) []) with
        | (_, .error e) => storeErr e
        | (keys, .ok next) => page next keys

def firstKey : ScanFn (Option Bytes) := fun _ key _ => (key, false)

/-- The first key at or after one of the cursors. -/
def randomKeyLoop : List ℕ → M E (Option Err)
  | [] => null
  | cursor :: rest => do
      match ← onStore (E.scan cursor 1 firstKey none) with
      | (_, .error e) => storeErr e
      | (some found, .ok _) => bulk (some found)
      | (none, .ok _) => randomKeyLoop rest

def cmdRandomKey : Handler E := fun _ => do
  let start ← onAmbient E.random
  randomKeyLoop [start % 1024, 0]

def cmdDBSize : Handler E := fun _ => do
  match ← onStore E.len with
  | .error e => storeErr e
  | .ok n => int n

/-- Write the record unless the key is there and may not be replaced. -/
def copyUpdate (rec : Rec) (replace : Bool) : UpdateFn Bool := fun wrote _ found =>
  if found && !replace then (wrote, .ok .nothing) else (true, .ok (.put rec))

/-- What renaming came to. -/
structure Renamed where
  moved : Bool
  existed : Bool
  err : Option Err

def removeSource (src : Bytes) : M E Renamed := do
  match ← onStore (E.delete src) with
  | .error e => pure ⟨true, true, some e⟩
  | .ok _ => pure ⟨true, true, none⟩

/-- Write the destination, then remove the source. -/
def renameKey (nx : Bool) (c : Call) : M E Renamed := do
  let src := c.argString 1
  let dst := c.argString 2
  match ← onStore (E.get src) with
  | .error e => pure ⟨false, false, some e⟩
  | .ok none => pure ⟨false, false, none⟩
  | .ok (some rec) =>
    if src = dst then pure ⟨!nx, true, none⟩
    else if nx then do
      match ← onStore (E.update dst (copyUpdate rec false) false) with
      | (_, .error e) => pure ⟨false, true, some e⟩
      | (false, .ok ()) => pure ⟨false, true, none⟩
      | (true, .ok ()) => removeSource src
    else do
      match ← onStore (E.put dst rec) with
      | .error e => pure ⟨false, true, some e⟩
      | .ok () => removeSource src

/-- What RENAME and RENAMENX reply; only the last step differs. -/
def renamed (done : Bool → M E (Option Err)) (r : Renamed) : M E (Option Err) :=
  match r.err with
  | some e => storeErr e
  | none => if r.existed then done r.moved else err (ofString "no such key")

def cmdRename : Handler E := fun c => do
  let r ← renameKey false c
  renamed (fun _ => ok) r

def cmdRenameNX : Handler E := fun c => do
  let r ← renameKey true c
  renamed bool r

inductive CopyError
  | syntaxError
  | otherDB

def parseCopyOptions (E : Env) : List Bytes → Bool → Except CopyError Bool
  | [], replace => .ok replace
  | opt :: rest, replace =>
      if E.lower opt = ofString "replace" then parseCopyOptions E rest true
      else if E.lower opt = ofString "db" then
        match rest with
        | [] => .error .syntaxError
        | index :: rest =>
          if index ≠ ofString "0" then .error .otherDB else parseCopyOptions E rest replace
      else .error .syntaxError

def cmdCopy : Handler E := fun c =>
  match parseCopyOptions E (c.args.drop 3) false with
  | .error .syntaxError => errSyntax
  | .error .otherDB => err msgSingleDB
  | .ok replace =>
    if c.argString 1 = c.argString 2 then
      err (ofString "source and destination objects are the same")
    else do
      match ← onStore (E.get (c.argString 1)) with
      | .error e => storeErr e
      | .ok none => int 0
      | .ok (some rec) => do
        let out ← onStore (E.update (c.argString 2) (copyUpdate rec replace) false)
        boolReply out

def flushOption (E : Env) (opt : Bytes) : Bool :=
  E.lower opt = ofString "async" ∨ E.lower opt = ofString "sync"

def cmdFlush : Handler E := fun c =>
  if (c.args.drop 1).all (flushOption E) then do
    match ← onStore E.flushAll with
    | .error e => storeErr e
    | .ok () => ok
  else errSyntax

end RedisFromScratch.GenericCommands
