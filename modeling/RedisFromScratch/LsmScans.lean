import RedisFromScratch.StoreRecords
import Mathlib.Algebra.Order.Ring.Int
import Mathlib.Logic.Function.Basic

/-!
Scans of the store that keeps its records in the engine. A scan hands out a small
number for the key to resume from and keeps the pair in a table. The entry is taken
out of the table before the engine is asked, and entries older than the lifetime are
swept whenever a number is handed out.
-/
namespace RedisFromScratch.LsmScans

open ByteStrings StoreRecords

/-- Ten minutes, in nanoseconds. -/
def cursorTTL : ℤ := 600000000000

structure CursorEntry where
  start : Bytes
  issuedAt : ℤ
  deriving DecidableEq

structure Store where
  cursors : ℕ → Option CursorEntry
  cursorN : ℕ
  closed : Bool

structure ScanRequest where
  start : Bytes
  limit : ℕ
  nowMs : ℤ

structure ScanResponse where
  entries : List (Bytes × Record)
  nextStart : Bytes
  hasMore : Bool

inductive Code
  | unavailable
  | dataLoss
  | deadlineExceeded
  | other

/-- An error of the transport. -/
structure Status where
  code : Code
  text : String

def wrap (op : String) (err : Status) : String :=
  match err.code with
  | .unavailable => "lsm: " ++ op ++ ": storage engine is unreachable: " ++ err.text
  | .dataLoss => "lsm: " ++ op ++ ": storage engine reported corruption: " ++ err.text
  | .deadlineExceeded => "lsm: " ++ op ++ ": context deadline exceeded: " ++ err.text
  | .other => "lsm: " ++ op ++ ": " ++ err.text

inductive ScanError
  | closed
  | unknown (cursor : ℕ)
  | expired (cursor : ℕ)
  | rpc (err : Status)

def ScanError.text : ScanError → String
  | .closed => "store: closed"
  | .unknown cursor => "lsm: scan cursor " ++ toString cursor ++ " is unknown or has expired"
  | .expired cursor => "lsm: scan cursor " ++ toString cursor ++ " expired after 10m0s"
  | .rpc err => wrap "scan" err

/-- What a scan meets on its way: the clock when it looks its cursor up, the clock
it sends along, the engine, and the clock when it stores the next cursor and when it
sweeps. -/
structure Visit where
  since : ℤ
  nowMs : ℤ
  reply : ScanRequest → Except Status ScanResponse
  issuedAt : ℤ
  swept : ℤ

def Store.delete (s : Store) (cursor : ℕ) : Store :=
  { s with cursors := Function.update s.cursors cursor none }

/-- The key a cursor stands for. A cursor that is in the table is taken out. -/
def resolve (s : Store) (cursor : ℕ) (now : ℤ) : Store × Except ScanError Bytes :=
  if cursor = 0 then (s, .ok [])
  else match s.cursors cursor with
    | none => (s, .error (.unknown cursor))
    | some e =>
      if now - e.issuedAt > cursorTTL then (s.delete cursor, .error (.expired cursor))
      else (s.delete cursor, .ok e.start)

/-- The request of a scan that has found where to start. -/
def scanRequest (start : Bytes) (count : ℤ) (nowMs : ℤ) : ScanRequest where
  start := start
  limit := ((if count ≤ 0 then 10 else count) % 2 ^ 32).toNat
  nowMs := nowMs

def expireCursors (s : Store) (now : ℤ) : Store :=
  { s with cursors := fun id =>
      (s.cursors id).filter (fun e => !decide (e.issuedAt < now - cursorTTL)) }

def nextCursor (s : Store) (start : Bytes) (issuedAt swept : ℤ) : Store × ℕ :=
  let id := (s.cursorN + 1) % 2 ^ 64
  let stored := { s with
    cursorN := id
    cursors := Function.update s.cursors id (some ⟨start, issuedAt⟩) }
  (expireCursors stored swept, id)

/-- A scan, with the entries its caller is shown. -/
def scan (s : Store) (cursor : ℕ) (count : ℤ) (v : Visit) :
    Store × Except ScanError (ℕ × List (Bytes × Record)) :=
  if s.closed then (s, .error .closed)
  else match resolve s cursor v.since with
    | (s, .error err) => (s, .error err)
    | (s, .ok start) =>
      match v.reply (scanRequest start count v.nowMs) with
      | .error err => (s, .error (.rpc err))
      | .ok resp =>
        if resp.hasMore then
          let (s, next) := nextCursor s resp.nextStart v.issuedAt v.swept
          (s, .ok (next, resp.entries))
        else (s, .ok (0, resp.entries))

/-- What the engine answers a scan of an open store, if it is asked and answers. -/
def response (s : Store) (cursor : ℕ) (count : ℤ) (v : Visit) : Option ScanResponse :=
  match (resolve s cursor v.since).2 with
  | .error _ => none
  | .ok start => (v.reply (scanRequest start count v.nowMs)).toOption

section Tables

variable {s : Store} {cursor id : ℕ} {count : ℤ} {e : CursorEntry} {v : Visit}

theorem delete_of_ne (h : id ≠ cursor) : (s.delete cursor).cursors id = s.cursors id :=
  Function.update_of_ne h ..

/-- A cursor that is looked up stays out of the table, if it was in it. -/
theorem resolve_store (now : ℤ) :
    (resolve s cursor now).1 = s ∨ (resolve s cursor now).1 = s.delete cursor := by
  unfold resolve
  split
  · exact Or.inl rfl
  · cases s.cursors cursor with
    | none => exact Or.inl rfl
    | some =>
      dsimp only
      split
      · exact Or.inr rfl
      · exact Or.inr rfl

theorem resolve_cursorN (now : ℤ) : (resolve s cursor now).1.cursorN = s.cursorN := by
  rcases resolve_store now with hsame | hdeleted
  · rw [hsame]
  · rw [hdeleted]
    rfl

theorem resolve_of_ne (now : ℤ) (h : id ≠ cursor) :
    (resolve s cursor now).1.cursors id = s.cursors id := by
  rcases resolve_store now with hsame | hdeleted
  · rw [hsame]
  · rw [hdeleted]
    exact delete_of_ne h

theorem resolve_live {now : ℤ} (h0 : cursor ≠ 0) (he : s.cursors cursor = some e)
    (hlive : now - e.issuedAt ≤ cursorTTL) : (resolve s cursor now).2 = .ok e.start := by
  rw [resolve, if_neg h0, he]
  dsimp only
  rw [if_neg (by omega)]

theorem expireCursors_live {now : ℤ} (he : s.cursors id = some e)
    (hlive : now - e.issuedAt ≤ cursorTTL) : (expireCursors s now).cursors id = some e := by
  have hkeep : (!decide (e.issuedAt < now - cursorTTL)) = true := by
    rw [Bool.not_eq_true', decide_eq_false_iff_not]
    omega
  change (s.cursors id).filter _ = some e
  rw [he, Option.filter_some, if_pos hkeep]

theorem scan_of_closed (h : s.closed = true) : scan s cursor count v = (s, .error .closed) :=
  if_pos h

theorem scan_of_silent (hopen : s.closed = false) (h : response s cursor count v = none) :
    ∃ err, scan s cursor count v = ((resolve s cursor v.since).1, .error err) := by
  have hopen : ¬ s.closed = true := by rw [hopen]; decide
  rw [scan, if_neg hopen]
  rw [response] at h
  generalize resolve s cursor v.since = looked at h ⊢
  obtain ⟨s₁, found⟩ := looked
  cases found with
  | error err => exact ⟨err, rfl⟩
  | ok start =>
    dsimp only at h ⊢
    cases hreply : v.reply (scanRequest start count v.nowMs) with
    | error err => exact ⟨.rpc err, rfl⟩
    | ok =>
      rw [hreply] at h
      cases h

theorem scan_of_response (hopen : s.closed = false) {resp : ScanResponse}
    (h : response s cursor count v = some resp) :
    scan s cursor count v =
      if resp.hasMore then
        ((nextCursor (resolve s cursor v.since).1 resp.nextStart v.issuedAt v.swept).1,
          .ok ((nextCursor (resolve s cursor v.since).1 resp.nextStart v.issuedAt v.swept).2,
            resp.entries))
      else ((resolve s cursor v.since).1, .ok (0, resp.entries)) := by
  have hopen : ¬ s.closed = true := by rw [hopen]; decide
  rw [scan, if_neg hopen]
  rw [response] at h
  generalize resolve s cursor v.since = looked at h ⊢
  obtain ⟨s₁, found⟩ := looked
  cases found with
  | error => cases h
  | ok start =>
    dsimp only at h ⊢
    cases hreply : v.reply (scanRequest start count v.nowMs) with
    | error =>
      rw [hreply] at h
      cases h
    | ok =>
      rw [hreply] at h
      cases h
      rfl

theorem response_of_ok {found : ℕ × List (Bytes × Record)}
    (h : (scan s cursor count v).2 = .ok found) :
    s.closed = false ∧ ∃ resp, response s cursor count v = some resp := by
  cases hclosed : s.closed with
  | true =>
    rw [scan_of_closed hclosed] at h
    cases h
  | false =>
    refine ⟨rfl, Option.ne_none_iff_exists'.mp (fun hnone => ?_)⟩
    obtain ⟨err, hscan⟩ := scan_of_silent hclosed hnone
    rw [hscan] at h
    cases h

theorem nextCursor_self {start : Bytes} {issuedAt swept : ℤ} (h : swept - issuedAt ≤ cursorTTL) :
    (nextCursor s start issuedAt swept).1.cursors (nextCursor s start issuedAt swept).2 =
      some ⟨start, issuedAt⟩ :=
  expireCursors_live (Function.update_self ..) h

theorem nextCursor_of_ne {start : Bytes} {issuedAt swept : ℤ}
    (hne : id ≠ (s.cursorN + 1) % 2 ^ 64) (he : s.cursors id = some e)
    (hlive : swept - e.issuedAt ≤ cursorTTL) :
    (nextCursor s start issuedAt swept).1.cursors id = some e := by
  refine expireCursors_live ?_ hlive
  exact (Function.update_of_ne hne ..).trans he

/-- A scan keeps the live entries it does not name. -/
theorem scan_keeps (hne : id ≠ cursor) (hnew : id ≠ (s.cursorN + 1) % 2 ^ 64)
    (he : s.cursors id = some e) (hlive : v.swept - e.issuedAt ≤ cursorTTL) :
    (scan s cursor count v).1.cursors id = some e := by
  have hlooked : (resolve s cursor v.since).1.cursors id = some e :=
    (resolve_of_ne v.since hne).trans he
  cases hclosed : s.closed with
  | true =>
    rw [scan_of_closed hclosed]
    exact he
  | false =>
    cases hresp : response s cursor count v with
    | none =>
      obtain ⟨err, hscan⟩ := scan_of_silent hclosed hresp
      rw [hscan]
      exact hlooked
    | some =>
      rw [scan_of_response hclosed hresp]
      split
      · refine nextCursor_of_ne ?_ hlooked hlive
        rw [resolve_cursorN]
        exact hnew
      · exact hlooked

/-- A scan stores where the engine has said to go on. -/
theorem scan_stores {next : ℕ} {entries : List (Bytes × Record)} {resp : ScanResponse}
    (h : (scan s cursor count v).2 = .ok (next, entries)) (hnext : next ≠ 0)
    (hresp : response s cursor count v = some resp) (hlive : v.swept - v.issuedAt ≤ cursorTTL) :
    (scan s cursor count v).1.cursors next = some ⟨resp.nextStart, v.issuedAt⟩ := by
  obtain ⟨hopen, -⟩ := response_of_ok h
  rw [scan_of_response hopen hresp] at h ⊢
  split at h
  · next hmore =>
    cases h
    rw [if_pos hmore]
    exact nextCursor_self hlive
  · cases h
    exact absurd rfl hnext

/-- The number a scan returns is zero or the next one. -/
theorem scan_numbers :
    (scan s cursor count v).1.cursorN = s.cursorN ∧
      (∀ next entries, (scan s cursor count v).2 = .ok (next, entries) → next = 0) ∨
    (scan s cursor count v).1.cursorN = (s.cursorN + 1) % 2 ^ 64 ∧
      ∀ next entries, (scan s cursor count v).2 = .ok (next, entries) →
        next = (s.cursorN + 1) % 2 ^ 64 := by
  cases hclosed : s.closed with
  | true =>
    rw [scan_of_closed hclosed]
    exact Or.inl ⟨rfl, nofun⟩
  | false =>
    cases hresp : response s cursor count v with
    | none =>
      obtain ⟨err, hscan⟩ := scan_of_silent hclosed hresp
      rw [hscan]
      exact Or.inl ⟨resolve_cursorN v.since, nofun⟩
    | some =>
      rw [scan_of_response hclosed hresp]
      have hnumber : (resolve s cursor v.since).1.cursorN = s.cursorN := resolve_cursorN v.since
      split
      · refine Or.inr ⟨?_, ?_⟩
        · exact congrArg (fun n => (n + 1) % 2 ^ 64) hnumber
        · intro next entries h
          cases h
          exact congrArg (fun n => (n + 1) % 2 ^ 64) hnumber
      · refine Or.inl ⟨hnumber, ?_⟩
        intro next entries h
        cases h
        rfl

end Tables

end RedisFromScratch.LsmScans
