import RedisFromScratch.CommandContext

/-!
The string commands, handler by handler. Whatever a handler reads and writes in one
step goes through the store's update callback, and what the reply needs of it is
captured there.
-/
namespace RedisFromScratch.StringCommands

open ByteStrings ReplyWriter RespReader StatePrograms CommandContext

variable {E : Env}

def maxInt64 : ℤ := 2 ^ 63 - 1

def minInt64 : ℤ := -2 ^ 63

def cmdGet : Handler E := fun c => do
  match ← onStore (E.get (c.argString 1)) with
  | .error e => storeErr e
  | .ok none => null
  | .ok (some rec) => bulk rec.value

inductive ExpiryUnit
  | ex
  | px
  | exat
  | pxat
  deriving DecidableEq, Repr

def expiryUnit (s : Bytes) : Option ExpiryUnit :=
  if s = ofString "ex" then some .ex
  else if s = ofString "px" then some .px
  else if s = ofString "exat" then some .exat
  else if s = ofString "pxat" then some .pxat
  else none

/-- Addition of 64-bit integers that saturates. -/
def addClamped (a b : ℤ) : ℤ :=
  if b > 0 ∧ a > maxInt64 - b then maxInt64
  else if b < 0 ∧ a < minInt64 - b then minInt64
  else a + b

/-- An expiry argument as a Unix time in milliseconds. -/
def absoluteExpiry (unit : ExpiryUnit) (n nowMs : ℤ) : Option ℤ :=
  match unit with
  | .ex =>
      if n > maxInt64.tdiv 1000 ∨ n < minInt64.tdiv 1000 then none
      else some (addClamped nowMs (n * 1000))
  | .px => some (addClamped nowMs n)
  | .exat =>
      if n > maxInt64.tdiv 1000 ∨ n < minInt64.tdiv 1000 then none else some (n * 1000)
  | .pxat => some n

structure SetFlags where
  nx : Bool
  xx : Bool
  get : Bool
  keepTTL : Bool
  hasExp : Bool
  expireAt : ℤ

def SetFlags.zero : SetFlags := ⟨false, false, false, false, false, 0⟩

/-- The options of SET. An expiry takes the next argument with it. -/
def parseSetOptions (E : Env) (now : ℤ) : List Bytes → SetFlags → Option SetFlags
  | [], f => some f
  | opt :: rest, f =>
      if E.lower opt = ofString "nx" then
        if f.xx then none else parseSetOptions E now rest { f with nx := true }
      else if E.lower opt = ofString "xx" then
        if f.nx then none else parseSetOptions E now rest { f with xx := true }
      else if E.lower opt = ofString "get" then parseSetOptions E now rest { f with get := true }
      else if E.lower opt = ofString "keepttl" then
        if f.hasExp then none else parseSetOptions E now rest { f with keepTTL := true }
      else
        match expiryUnit (E.lower opt), rest with
        | some unit, value :: rest =>
            if f.hasExp || f.keepTTL then none
            else
              match (parseInt value).bind (fun n => absoluteExpiry unit n now) with
              | none => none
              | some expireAt =>
                  parseSetOptions E now rest { f with hasExp := true, expireAt }
        | _, _ => none

/-- The first expiry option of SET before the last argument, and where it stands. -/
def firstExpiry (E : Env) (c : Call) : Option (ℕ × ExpiryUnit) :=
  (List.range (c.argc - 1)).findSome? fun i =>
    if i < 3 then none else (expiryUnit (E.lower (c.argString i))).map (fun unit => (i, unit))

def indexOfExpiryValue (E : Env) (c : Call) : ℕ :=
  match firstExpiry E c with
  | some (i, _) => i + 1
  | none => 0

def isRelativeExpiry (E : Env) (c : Call) : Bool :=
  match firstExpiry E c with
  | some (_, .ex) => true
  | some (_, .px) => true
  | _ => false

/-- `append([]byte(nil), v...)`: nothing appended to nil is nil. -/
def appendToNil (v : Option Bytes) : Option Bytes :=
  match v with
  | some (b :: bs) => some (b :: bs)
  | _ => none

structure SetVars where
  prev : Option Bytes
  prevSet : Bool
  wrote : Bool

def setUpdate (f : SetFlags) (val : Option Bytes) : UpdateFn SetVars := fun vars cur found =>
  let vars :=
    if f.get && found then { vars with prev := appendToNil cur.value, prevSet := true } else vars
  if (f.nx && found) || (f.xx && !found) then (vars, .ok .nothing)
  else
    let expireAt :=
      if f.hasExp then f.expireAt else if f.keepTTL && found then cur.expireAt else 0
    ({ vars with wrote := true }, .ok (.put ⟨val, expireAt⟩))

def cmdSet : Handler E := fun c => do
  let now ← nowMs
  match parseSetOptions E now (c.args.drop 3) .zero with
  | none => errSyntax
  | some f =>
    if f.hasExp ∧ (c.intArg (indexOfExpiryValue E c)).getD 0 ≤ 0 ∧ isRelativeExpiry E c then
      err (msgInvalidExpire (ofString "set"))
    else do
      match ← onStore (E.update (c.argString 1) (setUpdate f (c.arg 2)) ⟨none, false, false⟩) with
      | (_, .error e) => storeErr e
      | (vars, .ok ()) =>
        if f.get then if vars.prevSet then bulk vars.prev else null
        else if vars.wrote then ok
        else null

def setNXUpdate (val : Option Bytes) : UpdateFn Bool := fun wrote _ found =>
  if found then (wrote, .ok .nothing) else (true, .ok (.put ⟨val, 0⟩))

def cmdSetNX : Handler E := fun c => do
  match ← onStore (E.update (c.argString 1) (setNXUpdate (c.arg 2)) false) with
  | (_, .error e) => storeErr e
  | (wrote, .ok ()) => bool wrote

def setWithTTL (unitMs : ℤ) : Handler E := fun c =>
  match c.intArg 2 with
  | none => errNotInteger
  | some n =>
    if n ≤ 0 then err (msgInvalidExpire c.name)
    else if n > maxInt64.tdiv unitMs then err (msgInvalidExpire c.name)
    else do
      let now ← nowMs
      match ← onStore (E.put (c.argString 1) ⟨c.arg 3, addClamped now (n * unitMs)⟩) with
      | .error e => storeErr e
      | .ok () => ok

def cmdSetEX : Handler E := setWithTTL 1000

def cmdPSetEX : Handler E := setWithTTL 1

/-- The value a callback has found, if it has. -/
structure Found where
  value : Option Bytes
  found : Bool

def getSetUpdate (val : Option Bytes) : UpdateFn Found := fun vars cur found =>
  (if found then ⟨appendToNil cur.value, true⟩ else vars, .ok (.put ⟨val, 0⟩))

def getDelUpdate : UpdateFn Found := fun vars cur found =>
  if found then (⟨appendToNil cur.value, true⟩, .ok .delete) else (vars, .ok .nothing)

/-- The reply that GETSET, GETDEL and GETEX end with. -/
def foundReply (out : Found × Except Err Unit) : M E (Option Err) :=
  match out with
  | (_, .error e) => storeErr e
  | (vars, .ok ()) => if vars.found then bulk vars.value else null

def cmdGetSet : Handler E := fun c => do
  let out ← onStore (E.update (c.argString 1) (getSetUpdate (c.arg 2)) ⟨none, false⟩)
  foundReply out

def cmdGetDel : Handler E := fun c => do
  let out ← onStore (E.update (c.argString 1) getDelUpdate ⟨none, false⟩)
  foundReply out

structure GetExFlags where
  hasExp : Bool
  persist : Bool
  expireAt : ℤ

inductive GetExError
  | syntaxError
  | notInteger
  | invalidExpire

/-- The options of GETEX, or the error that is replied at the first bad one. -/
def parseGetExOptions (E : Env) (now : ℤ) : List Bytes → GetExFlags → Except GetExError GetExFlags
  | [], f => .ok f
  | opt :: rest, f =>
      if E.lower opt = ofString "persist" then
        if f.hasExp then .error .syntaxError
        else parseGetExOptions E now rest { f with persist := true }
      else
        match expiryUnit (E.lower opt), rest with
        | some unit, value :: rest =>
            if f.persist || f.hasExp then .error .syntaxError
            else
              match parseInt value with
              | none => .error .notInteger
              | some n =>
                if (unit = .ex ∨ unit = .px) ∧ n ≤ 0 then .error .invalidExpire
                else
                  match absoluteExpiry unit n now with
                  | none => .error .syntaxError
                  | some expireAt =>
                      parseGetExOptions E now rest { f with hasExp := true, expireAt }
        | _, _ => .error .syntaxError

def getExUpdate (f : GetExFlags) : UpdateFn Found := fun vars cur found =>
  if found then
    (⟨appendToNil cur.value, true⟩, .ok (
      if f.persist && cur.expireAt != 0 then .put ⟨cur.value, 0⟩
      else if f.hasExp then .put ⟨cur.value, f.expireAt⟩
      else .nothing))
  else (vars, .ok .nothing)

def cmdGetEx : Handler E := fun c => do
  let now ← nowMs
  match parseGetExOptions E now (c.args.drop 2) ⟨false, false, 0⟩ with
  | .error .syntaxError => errSyntax
  | .error .notInteger => errNotInteger
  | .error .invalidExpire => err (msgInvalidExpire (ofString "getex"))
  | .ok f => do
    let out ← onStore (E.update (c.argString 1) (getExUpdate f) ⟨none, false⟩)
    foundReply out

/-- The nulls that fill up an array that was announced. -/
def writeNulls : ℕ → M E Unit
  | 0 => pure ()
  | n + 1 => do
      write writeNull
      writeNulls n

/-- The elements of an MGET. After an error the rest is filled up and the connection ends. -/
def mgetElements : List Bytes → M E (Option Err)
  | [] => pure none
  | key :: rest => do
      match ← onStore (E.get key) with
      | .error e => do
        writeNulls (rest.length + 1)
        pure (some e)
      | .ok none => do
        write writeNull
        mgetElements rest
      | .ok (some rec) => do
        write fun ver => writeBulk ver rec.value
        mgetElements rest

def cmdMGet : Handler E := fun c => do
  write fun _ => writeArrayHeader (c.args.drop 1).length
  mgetElements (c.args.drop 1)

/-- Keys and values in turn. -/
def pairs : List Bytes → List (Bytes × Rec)
  | key :: value :: rest => (key, ⟨some value, 0⟩) :: pairs rest
  | _ => []

def cmdMSet : Handler E := fun c =>
  if c.argc % 2 ≠ 1 then errWrongArgs c
  else do
    match ← onStore (E.multiWrite (pairs (c.args.drop 1))) with
    | .error e => storeErr e
    | .ok () => ok

/-- Whether one of the keys is there already, looked up until one is. -/
def anyExists : List (Bytes × Rec) → M E (Except Err Bool)
  | [] => pure (.ok false)
  | (key, _) :: rest => do
      match ← onStore (E.get key) with
      | .error e => pure (.error e)
      | .ok (some _) => pure (.ok true)
      | .ok none => anyExists rest

def cmdMSetNX : Handler E := fun c =>
  if c.argc % 2 ≠ 1 then errWrongArgs c
  else do
    match ← anyExists (pairs (c.args.drop 1)) with
    | .error e => storeErr e
    | .ok true => int 0
    | .ok false => do
      match ← onStore (E.multiWrite (pairs (c.args.drop 1))) with
      | .error e => storeErr e
      | .ok () => int 1

/-- The largest value the server will hold. -/
def maxValueLen : M E ℤ := reading fun w =>
  match (E.configGet w.config (ofString "proto-max-bulk-len")).bind parseInt with
  | some n => if n > 0 then n else defaultLimits.maxBulkSize
  | none => defaultLimits.maxBulkSize

def appendUpdate (suffix : Bytes) (maxLen : ℤ) : UpdateFn ℤ := fun newLen cur _ =>
  if (cur.bytes.length : ℤ) + suffix.length > maxLen then (newLen, .error .stringTooLong)
  else
    let next := cur.bytes ++ suffix
    (next.length, .ok (.put ⟨some next, cur.expireAt⟩))

/-- The reply of a handler that has computed a number in its callback. -/
def intReply (out : ℤ × Except Err Unit) : M E (Option Err) :=
  match out with
  | (_, .error e) => storeErr e
  | (n, .ok ()) => int n

def cmdAppend : Handler E := fun c => do
  let maxLen ← maxValueLen
  let out ← onStore (E.update (c.argString 1) (appendUpdate (c.argString 2) maxLen) 0)
  intReply out

def cmdStrlen : Handler E := fun c => do
  match ← onStore (E.get (c.argString 1)) with
  | .error e => storeErr e
  | .ok none => int 0
  | .ok (some rec) => int rec.bytes.length

/-- No leading zeros and at most twenty bytes. -/
def parseStrictInt (b : Bytes) : Option ℤ :=
  if b.length = 0 ∨ b.length > 20 then none
  else
    let neg := b.getD 0 0 = 45
    if neg ∧ b.length = 1 then none
    else
      let i := if neg then 1 else 0
      if b.getD i 0 = 48 ∧ b.length - i > 1 then none
      else
        match parseInt b with
        | none => none
        | some v => if neg ∧ v > 0 then none else some v

def incrUpdate (delta : ℤ) : UpdateFn ℤ := fun result cur found =>
  match if found then parseStrictInt cur.bytes else some 0 with
  | none => (result, .error .notInteger)
  | some base =>
    if (delta > 0 ∧ base > maxInt64 - delta) ∨ (delta < 0 ∧ base < minInt64 - delta) then
      (result, .error .incrOverflow)
    else (base + delta, .ok (.put ⟨some (appendInt (base + delta)), cur.expireAt⟩))

def incrBy (delta : ℤ) : Handler E := fun c => do
  let out ← onStore (E.update (c.argString 1) (incrUpdate delta) 0)
  intReply out

def cmdIncr : Handler E := incrBy 1

def cmdDecr : Handler E := incrBy (-1)

def cmdIncrBy : Handler E := fun c =>
  match c.intArg 2 with
  | none => errNotInteger
  | some n => incrBy n c

def cmdDecrBy : Handler E := fun c =>
  match c.intArg 2 with
  | none => errNotInteger
  | some n => if n = minInt64 then err msgIncrOverflow else incrBy (-n) c

/-- A float argument; infinities in words and NaN are refused. -/
def floatArg (E : Env) (c : Call) (i : ℕ) : Option E.Float :=
  let s := c.argString i
  if s = ofString "inf" ∨ s = ofString "+inf" ∨ s = ofString "infinity" ∨
      s = ofString "+infinity" then none
  else
    match E.parseFloat s with
    | none => none
    | some v => if E.isNaN v then none else some v

def formatFloat (E : Env) (f : E.Float) : Bytes :=
  if E.formatFloat f = ofString "-0" then ofString "0" else E.formatFloat f

def incrFloatUpdate (E : Env) (delta : E.Float) : UpdateFn Bytes :=
  fun result cur found =>
    match if found then E.parseFloat cur.bytes else some E.zeroFloat with
    | none => (result, .error .notFloat)
    | some base =>
      let sum := E.addFloat base delta
      if E.isNaN sum || E.isInf sum then (result, .error .nanOrInf)
      else (formatFloat E sum, .ok (.put ⟨some (formatFloat E sum), cur.expireAt⟩))

def cmdIncrByFloat : Handler E := fun c =>
  match floatArg E c 2 with
  | none => err msgNotFloat
  | some delta => do
    match ← onStore (E.update (c.argString 1) (incrFloatUpdate E delta) []) with
    | (_, .error e) => storeErr e
    | (result, .ok ()) => bulkString result

/-- Inclusive indices, negative ones from the end. -/
def resolveRange (start stop length : ℤ) : Option (ℤ × ℤ) :=
  if length = 0 then none
  else
    let start := if start < 0 then max (start + length) 0 else start
    let stop := if stop < 0 then max (stop + length) 0 else stop
    let stop := if stop ≥ length then length - 1 else stop
    if start > stop ∨ start ≥ length then none else some (start, stop)

def cmdGetRange : Handler E := fun c =>
  match c.intArg 2, c.intArg 3 with
  | some start, some stop => do
    match ← onStore (E.get (c.argString 1)) with
    | .error e => storeErr e
    | .ok none => bulkString []
    | .ok (some rec) =>
      match resolveRange start stop rec.bytes.length with
      | none => bulkString []
      | some (lo, hi) => bulk (some ((rec.bytes.drop lo.toNat).take (hi + 1 - lo).toNat))
  | _, _ => errNotInteger

/-- A sum of 64-bit integers wraps around. -/
def wrap64 (n : ℤ) : ℤ := (n + 2 ^ 63) % 2 ^ 64 - 2 ^ 63

/-- The longest slice that make can allocate on a 64-bit machine. -/
def maxAlloc : ℤ := 2 ^ 48

structure RangeVars where
  newLen : ℤ
  /-- The offset lies outside the buffer, or no buffer is that long: the callback panics. -/
  outside : Bool

def setRangeUpdate (offset : ℤ) (patch : Bytes) : UpdateFn RangeVars := fun vars cur _ =>
  if patch.length = 0 then ({ vars with newLen := cur.bytes.length }, .ok .nothing)
  else
    let size := max (cur.bytes.length : ℤ) (wrap64 (offset + patch.length))
    if offset > size ∨ size > maxAlloc then ({ vars with outside := true }, .ok .nothing)
    else
      let grown := cur.bytes ++ List.replicate (size.toNat - cur.bytes.length) 0
      let next := grown.take offset.toNat ++ patch ++ grown.drop (offset.toNat + patch.length)
      ({ vars with newLen := size }, .ok (.put ⟨some next, cur.expireAt⟩))

def cmdSetRange : Handler E := fun c =>
  match c.intArg 2 with
  | none => errNotInteger
  | some offset =>
    if offset < 0 then err msgOffsetRange
    else do
      let maxLen ← maxValueLen
      if wrap64 (offset + (c.argString 3).length) > maxLen then err msgStringTooLong
      else do
        let out ← onStore
          (E.update (c.argString 1) (setRangeUpdate offset (c.argString 3)) ⟨0, false⟩)
        if out.1.outside then panicking else intReply (out.1.newLen, out.2)

end RedisFromScratch.StringCommands
