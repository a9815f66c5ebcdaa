import RedisFromScratch.LsmScans

/-!
The commands that scan, run by any number of clients on one store. A command is
what it makes of the scans it has had and the scan it makes next; commands of
different clients take turns between their scans. Beside the store stands what it
does not keep: which cursors were returned to which client.
-/
namespace RedisFromScratch.ScanCommands

open ByteStrings StoreRecords LsmScans

inductive Reply
  | page (cursor : ℕ) (keys : List Bytes)
  | keys (keys : List Bytes)
  | bulk (key : Bytes)
  | null
  | error (text : String)

def storeErr : ScanError → Reply
  | .closed => .error "ERR server is shutting down"
  | .rpc ⟨.deadlineExceeded, _⟩ => .error "ERR storage engine timed out"
  | err => .error ("ERR internal error: " ++ err.text)

def keysScanBudget : ℕ := 1000000

/-- The keys of a page that are wanted, until there are too many. -/
def gather (wanted : Bytes → Bool) : List Bytes → List (Bytes × Record) → List Bytes × Bool
  | keys, [] => (keys, false)
  | keys, (key, _) :: rest =>
      if !wanted key then gather wanted keys rest
      else if keysScanBudget ≤ keys.length then (keys, true)
      else gather wanted (keys ++ [key]) rest

/-- A command between two scans: the scan it makes next, and what it has so far. -/
inductive Task
  | scan (cursor : ℕ) (count : ℤ) (wanted : Bytes → Bool)
  | keys (wanted : Bytes → Bool) (cursor : ℕ) (keys : List Bytes)
  | randomKey (cursor : ℕ) (rest : List ℕ)
  -- a caller of the store itself
  | call (cursor : ℕ) (count : ℤ)

def cmdScan (cursor : ℕ) (count : ℤ) (wanted : Bytes → Bool) (wantType : String) : Task ⊕ Reply :=
  if wantType ≠ "" ∧ wantType ≠ "string" then .inr (.page 0 [])
  else .inl (.scan cursor count wanted)

def cmdKeys (wanted : Bytes → Bool) : Task ⊕ Reply := .inl (.keys wanted 0 [])

def cmdRandomKey (drawn : ℕ) : Task ⊕ Reply := .inl (.randomKey (drawn % 1024) [0])

inductive Command
  | scan (cursor : ℕ) (count : ℤ) (wanted : Bytes → Bool) (wantType : String)
  | keys (wanted : Bytes → Bool)
  | randomKey (drawn : ℕ)
  | call (cursor : ℕ) (count : ℤ)

def Command.begin : Command → Task ⊕ Reply
  | .scan cursor count wanted wantType => cmdScan cursor count wanted wantType
  | .keys wanted => cmdKeys wanted
  | .randomKey drawn => cmdRandomKey drawn
  | .call cursor count => .inl (.call cursor count)

def Task.cursor : Task → ℕ
  | .scan cursor _ _ => cursor
  | .keys _ cursor _ => cursor
  | .randomKey cursor _ => cursor
  | .call cursor _ => cursor

def Task.count : Task → ℤ
  | .scan _ count _ => count
  | .keys _ _ _ => 1000
  | .randomKey _ _ => 1
  | .call _ count => count

/-- A random key that has found nothing goes on to the next start. -/
def tryNext : List ℕ → Task ⊕ Reply
  | [] => .inr .null
  | cursor :: rest => .inl (.randomKey cursor rest)

/-- What a command does with the result of its scan. -/
def Task.after : Task → Except ScanError (ℕ × List (Bytes × Record)) → Task ⊕ Reply
  | _, .error err => .inr (storeErr err)
  | .scan _ _ wanted, .ok (next, entries) =>
      .inr (.page next ((entries.map Prod.fst).filter wanted))
  | .keys wanted _ sofar, .ok (next, entries) =>
      let (found, overBudget) := gather wanted sofar entries
      if overBudget then
        .inr (.error ("ERR KEYS matched more than " ++ toString keysScanBudget ++
          " keys; use SCAN instead"))
      else if next = 0 then .inr (.keys found)
      else .inl (.keys wanted next found)
  -- an empty key comes over the wire as no key
  | .randomKey _ rest, .ok (_, entries) =>
      match entries with
      | (key, _) :: _ => if key = [] then tryNext rest else .inr (.bulk key)
      | [] => tryNext rest
  | .call _ _, .ok (next, entries) => .inr (.page next (entries.map Prod.fst))

/-- The cursor a scan names that the command has not got from a scan of its own. -/
def Task.named : Task → Option ℕ
  | .keys _ _ _ => none
  | t => some t.cursor

/-- The client itself has chosen the cursor and is told the next one. -/
def Task.own : Task → Bool
  | .scan _ _ _ => true
  | .call _ _ => true
  | _ => false

/-- A cursor that was returned to a client. It is spent when a scan of the client
with it has succeeded. -/
structure Grant where
  client : ℕ
  entry : CursorEntry
  spent : Bool

structure World where
  store : Store
  now : ℤ
  running : ℕ → Option Task
  /-- The cursors that were returned, which the program does not keep. -/
  given : ℕ → Option Grant

def start (now : ℤ) : World where
  store := ⟨fun _ => none, 0, false⟩
  now := now
  running := fun _ => none
  given := fun _ => none

def spend (given : ℕ → Option Grant) (c cursor : ℕ) (id : ℕ) : Option Grant :=
  if id = cursor then
    (given id).map (fun g => if g.client = c then { g with spent := true } else g)
  else given id

/-- What clients have been given after a scan that client `c` has made itself. -/
def handOver (w : World) (c : ℕ) (t : Task) (v : Visit) : ℕ → Option Grant :=
  match (scan w.store t.cursor t.count v).2, response w.store t.cursor t.count v with
  | .ok (next, _), some resp =>
      if next = 0 then spend w.given c t.cursor
      else Function.update (spend w.given c t.cursor) next
        (some ⟨c, ⟨resp.nextStart, v.issuedAt⟩, false⟩)
  | _, _ => w.given

def World.scanned (w : World) (c : ℕ) (t : Task) (v : Visit) : World where
  store := (scan w.store t.cursor t.count v).1
  now := v.swept
  running := Function.update w.running c
    (t.after (scan w.store t.cursor t.count v).2).getLeft?
  given := if t.own then handOver w c t v else w.given

inductive Act
  | begin (c : ℕ) (cmd : Command)
  | scan (c : ℕ) (v : Visit)
  | tick
  | close

/-- Commands of different clients take turns between their scans. -/
inductive Step : World → Act → World → Prop
  | begin (w : World) (c : ℕ) (cmd : Command) (hidle : w.running c = none) :
      Step w (.begin c cmd)
        { w with running := Function.update w.running c cmd.begin.getLeft? }
  | scan (w : World) (c : ℕ) (t : Task) (v : Visit) (ht : w.running c = some t)
      (hsince : w.now ≤ v.since) (hissued : v.since ≤ v.issuedAt) (hswept : v.issuedAt ≤ v.swept) :
      Step w (.scan c v) (w.scanned c t v)
  | tick (w : World) (now : ℤ) (h : w.now ≤ now) : Step w .tick { w with now := now }
  | close (w : World) : Step w .close { w with store := { w.store with closed := true } }

end RedisFromScratch.ScanCommands
