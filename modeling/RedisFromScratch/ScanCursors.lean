import RedisFromScratch.ScanCommands
import RedisFromScratch.Runs

/-!
A cursor that was returned to a client stands for its key as long as every scan that
names it is the client's own and is answered by the engine. A random key starts from
a number that may be any client's cursor, and a scan whose request fails has already
taken its cursor out of the table.
-/
namespace RedisFromScratch.ScanCursors

open ByteStrings StoreRecords LsmScans ScanCommands Relation Runs

/-- A returned cursor that is not spent and whose lifetime has not ended. -/
def Live (w : World) (id : ℕ) (g : Grant) : Prop :=
  w.given id = some g ∧ g.spent = false ∧ w.now - g.entry.issuedAt ≤ cursorTTL

/-- A scan that names a live cursor is made by the client the cursor was returned
to and the engine answers it; and cursors have not run out. -/
def Regular (w : World) (a : Act) : Prop :=
  ∀ c v t, a = .scan c v → w.running c = some t →
    w.store.cursorN + 1 < 2 ^ 64 ∧
    ∀ cursor g, t.named = some cursor → Live w cursor g →
      t.own = true ∧ g.client = c ∧
      ∀ start, (resolve w.store cursor v.since).2 = .ok start →
        ∃ resp, v.reply (scanRequest start t.count v.nowMs) = .ok resp

structure Kept (w : World) : Prop where
  held : ∀ id g, Live w id g → w.store.cursors id = some g.entry
  fresh : ∀ id, w.store.cursorN < id → w.given id = none
  zero : w.given 0 = none
  keys : ∀ c wanted cursor found, w.running c = some (.keys wanted cursor found) →
    w.given cursor = none ∧ cursor ≤ w.store.cursorN

theorem kept_start (now : ℤ) : Kept (start now) :=
  ⟨fun _ _ h => (by cases h.1), fun _ _ => rfl, rfl, nofun⟩

section Scanned

variable {w : World} {c : ℕ} {t : Task} {v : Visit} {id : ℕ} {g : Grant}

theorem spend_none {given : ℕ → Option Grant} {cursor : ℕ} (h : given id = none) :
    spend given c cursor id = none := by
  rw [spend]
  split
  · rw [h]
    rfl
  · exact h

theorem spend_unspent {given : ℕ → Option Grant} {cursor : ℕ}
    (h : spend given c cursor id = some g) (hunspent : g.spent = false) :
    given id = some g ∧ (id = cursor → g.client ≠ c) := by
  rw [spend] at h
  split at h
  · obtain ⟨g₀, hg₀, hg⟩ := Option.map_eq_some_iff.mp h
    split at hg
    · subst hg
      cases hunspent
    · next hclient =>
      subst hg
      exact ⟨hg₀, fun _ => hclient⟩
  · next hne => exact ⟨h, fun heq => absurd heq hne⟩

/-- The number a scan returns, when numbers have not run out. -/
theorem scanned_numbers (hroom : w.store.cursorN + 1 < 2 ^ 64) :
    (w.scanned c t v).store.cursorN = w.store.cursorN ∧
      (∀ next entries, (scan w.store t.cursor t.count v).2 = .ok (next, entries) → next = 0) ∨
    (w.scanned c t v).store.cursorN = w.store.cursorN + 1 ∧
      ∀ next entries, (scan w.store t.cursor t.count v).2 = .ok (next, entries) →
        next = w.store.cursorN + 1 := by
  rw [← Nat.mod_eq_of_lt hroom]
  exact scan_numbers

theorem handOver_cases :
    (handOver w c t v = w.given ∧
      ∀ next entries, (scan w.store t.cursor t.count v).2 ≠ .ok (next, entries)) ∨
    ∃ next entries resp, (scan w.store t.cursor t.count v).2 = .ok (next, entries) ∧
      response w.store t.cursor t.count v = some resp ∧
      handOver w c t v = if next = 0 then spend w.given c t.cursor
        else Function.update (spend w.given c t.cursor) next
          (some ⟨c, ⟨resp.nextStart, v.issuedAt⟩, false⟩) := by
  cases hscan : (scan w.store t.cursor t.count v).2 with
  | error =>
    refine Or.inl ⟨?_, fun _ _ => nofun⟩
    rw [handOver, hscan]
  | ok pair =>
    obtain ⟨next, entries⟩ := pair
    obtain ⟨-, resp, hresp⟩ := response_of_ok hscan
    refine Or.inr ⟨next, entries, resp, rfl, hresp, ?_⟩
    rw [handOver, hscan, hresp]

/-- What is given after a scan: a cursor that was given before, unless its client has
just scanned with it, or the one the scan has returned. -/
theorem scanned_given (h : (w.scanned c t v).given id = some g) (hunspent : g.spent = false) :
    w.given id = some g ∧
      (id = t.cursor → t.own = true → g.client = c → ∀ next entries,
        (scan w.store t.cursor t.count v).2 ≠ .ok (next, entries)) ∨
    ∃ resp entries, response w.store t.cursor t.count v = some resp ∧ id ≠ 0 ∧
      (scan w.store t.cursor t.count v).2 = .ok (id, entries) ∧
      g = ⟨c, ⟨resp.nextStart, v.issuedAt⟩, false⟩ := by
  change (if t.own then handOver w c t v else w.given) id = some g at h
  cases hown : t.own with
  | false =>
    rw [hown] at h
    exact Or.inl ⟨h, fun _ hfalse => nomatch hfalse⟩
  | true =>
    rw [hown, if_pos rfl] at h
    rcases handOver_cases with ⟨hsame, hfails⟩ | ⟨next, entries, resp, hscan, hresp, hgiven⟩
    · rw [hsame] at h
      exact Or.inl ⟨h, fun _ _ _ => hfails⟩
    rw [hgiven] at h
    by_cases hid : next ≠ 0 ∧ id = next
    · obtain ⟨hnext, rfl⟩ := hid
      rw [if_neg hnext, Function.update_self] at h
      cases h
      exact Or.inr ⟨resp, entries, hresp, hnext, hscan, rfl⟩
    · have hspend : spend w.given c t.cursor id = some g := by
        split at h
        · exact h
        · next hnext => rwa [Function.update_of_ne (fun heq => hid ⟨hnext, heq⟩)] at h
      obtain ⟨hg, hclient⟩ := spend_unspent hspend hunspent
      exact Or.inl ⟨hg, fun hcursor _ heq => absurd heq (hclient hcursor)⟩

theorem scanned_given_none (h : w.given id = none)
    (hnew : ∀ entries, (scan w.store t.cursor t.count v).2 = .ok (id, entries) → id = 0) :
    (w.scanned c t v).given id = none := by
  change (if t.own then handOver w c t v else w.given) id = none
  split
  · rcases handOver_cases with ⟨hsame, -⟩ | ⟨next, entries, resp, hscan, -, hgiven⟩
    · rw [hsame]
      exact h
    rw [hgiven]
    split
    · exact spend_none h
    · next hnext =>
      have hid : id ≠ next := by
        rintro rfl
        exact hnext (hnew entries hscan)
      rw [Function.update_of_ne hid]
      exact spend_none h
  · exact h

/-- Only a listing of keys goes on with a listing of keys, from the cursor it has
just got. -/
theorem after_keys {result : Except ScanError (ℕ × List (Bytes × Record))}
    {wanted : Bytes → Bool} {cursor : ℕ} {found : List Bytes}
    (h : t.after result = .inl (.keys wanted cursor found)) :
    t.own = false ∧ ∃ entries, result = .ok (cursor, entries) := by
  cases result with
  | error => cases t <;> cases h
  | ok pair =>
    obtain ⟨next, entries⟩ := pair
    cases t with
    | scan | call => cases h
    | randomKey start rest =>
      simp only [Task.after] at h
      split at h
      · split at h
        · cases rest <;> cases h
        · cases h
      · cases rest <;> cases h
    | keys =>
      simp only [Task.after] at h
      split at h
      · cases h
      · split at h
        · cases h
        · cases h
          exact ⟨rfl, entries, rfl⟩

theorem Kept.ne_zero (h : Kept w) (hgiven : w.given id = some g) : id ≠ 0 := by
  rintro rfl
  cases h.zero.symm.trans hgiven

theorem Kept.le_cursorN (h : Kept w) (hgiven : w.given id = some g) : id ≤ w.store.cursorN := by
  by_contra hgt
  cases (h.fresh id (by omega)).symm.trans hgiven

theorem Kept.named (h : Kept w) (ht : w.running c = some t)
    (hgiven : w.given t.cursor = some g) : t.named = some t.cursor := by
  cases t with
  | keys wanted cursor found => cases (h.keys c wanted cursor found ht).1.symm.trans hgiven
  | scan | randomKey | call => rfl

/-- A live cursor that a regular scan names is scanned with success. -/
theorem named_is_scanned (h : Kept w) (ht : w.running c = some t)
    (hreg : Regular w (.scan c v)) (hopen : w.store.closed = false) (hlive : Live w t.cursor g)
    (hlife : v.since - g.entry.issuedAt ≤ cursorTTL) :
    t.own = true ∧ g.client = c ∧
      ∃ next entries, (scan w.store t.cursor t.count v).2 = .ok (next, entries) := by
  obtain ⟨hown, hclient, hreply⟩ := (hreg c v t rfl ht).2 t.cursor g (h.named ht hlive.1) hlive
  have hresolve := resolve_live (h.ne_zero hlive.1) (h.held _ g hlive) hlife
  obtain ⟨resp, hresp⟩ := hreply _ hresolve
  have hanswer : response w.store t.cursor t.count v = some resp := by
    rw [response, hresolve]
    dsimp only
    rw [hresp]
    rfl
  refine ⟨hown, hclient, ?_⟩
  rw [scan_of_response hopen hanswer]
  split
  · exact ⟨_, _, rfl⟩
  · exact ⟨_, _, rfl⟩

theorem held_scanned (h : Kept w) (ht : w.running c = some t) (hreg : Regular w (.scan c v))
    (hnow : w.now ≤ v.swept) (hsince : v.since ≤ v.swept)
    (hlive : Live (w.scanned c t v) id g) :
    (w.scanned c t v).store.cursors id = some g.entry := by
  obtain ⟨hgiven, hunspent, hlife⟩ := hlive
  change v.swept - g.entry.issuedAt ≤ cursorTTL at hlife
  rcases scanned_given hgiven hunspent with ⟨hold, hnot⟩ | ⟨resp, entries, hresp, hid, hscan, rfl⟩
  · have hlive : Live w id g := ⟨hold, hunspent, by omega⟩
    have hentry := h.held id g hlive
    by_cases hcursor : id = t.cursor
    · subst hcursor
      cases hclosed : w.store.closed with
      | true =>
        change (scan w.store t.cursor t.count v).1.cursors t.cursor = some g.entry
        rw [scan_of_closed hclosed]
        exact hentry
      | false =>
        obtain ⟨hown, hclient, next, entries, hok⟩ :=
          named_is_scanned h ht hreg hclosed hlive (by omega)
        exact absurd hok (hnot rfl hown hclient next entries)
    · refine scan_keeps hcursor ?_ hentry hlife
      have hle := h.le_cursorN hold
      rw [Nat.mod_eq_of_lt (hreg c v t rfl ht).1]
      omega
  · exact scan_stores hscan hid hresp hlife

theorem kept_scanned (h : Kept w) (ht : w.running c = some t) (hreg : Regular w (.scan c v))
    (hnow : w.now ≤ v.swept) (hsince : v.since ≤ v.swept) : Kept (w.scanned c t v) := by
  have hnumbers := scanned_numbers (c := c) (t := t) (v := v) (hreg c v t rfl ht).1
  have hreturned : ∀ next entries, (scan w.store t.cursor t.count v).2 = .ok (next, entries) →
      next = 0 ∨ next = w.store.cursorN + 1 ∧
        (w.scanned c t v).store.cursorN = w.store.cursorN + 1 := by
    intro next entries hscan
    rcases hnumbers with ⟨-, hzero⟩ | ⟨hcount, hnext⟩
    · exact Or.inl (hzero next entries hscan)
    · exact Or.inr ⟨hnext next entries hscan, hcount⟩
  have hgrows : w.store.cursorN ≤ (w.scanned c t v).store.cursorN := by omega
  refine ⟨fun id g => held_scanned h ht hreg hnow hsince, fun id hid => ?_, ?_, ?_⟩
  · refine scanned_given_none (h.fresh id (by omega)) (fun entries hscan => ?_)
    rcases hreturned id entries hscan with hzero | ⟨hnext, hcount⟩
    · exact hzero
    · omega
  · exact scanned_given_none h.zero (fun _ _ => rfl)
  · intro c' wanted cursor found hkeys
    change Function.update w.running c _ c' = _ at hkeys
    by_cases hc : c' = c
    · subst hc
      rw [Function.update_self, Sum.getLeft?_eq_some_iff] at hkeys
      obtain ⟨hown, entries, hscan⟩ := after_keys hkeys
      have hgiven : (w.scanned c' t v).given = w.given := by
        change (if t.own then _ else _) = _
        rw [hown]
        rfl
      rw [hgiven]
      rcases hreturned cursor entries hscan with rfl | ⟨rfl, hcount⟩
      · exact ⟨h.zero, Nat.zero_le _⟩
      · exact ⟨h.fresh _ (Nat.lt_succ_self _), hcount.ge⟩
    · rw [Function.update_of_ne hc] at hkeys
      obtain ⟨hnone, hle⟩ := h.keys c' wanted cursor found hkeys
      refine ⟨scanned_given_none hnone (fun entries hscan => ?_), hle.trans hgrows⟩
      rcases hreturned cursor entries hscan with hzero | ⟨hnext, -⟩
      · exact hzero
      · omega

end Scanned

theorem begin_keys {cmd : Command} {wanted : Bytes → Bool} {cursor : ℕ} {found : List Bytes}
    (h : cmd.begin = .inl (.keys wanted cursor found)) : cursor = 0 := by
  cases cmd with
  | scan =>
    rw [Command.begin, cmdScan] at h
    split at h <;> cases h
  | keys =>
    cases h
    rfl
  | randomKey | call => cases h

theorem kept_step {w w' : World} {a : Act} (h : Kept w) (hstep : Step w a w')
    (hreg : Regular w a) : Kept w' := by
  cases hstep with
  | begin c =>
    refine ⟨h.held, h.fresh, h.zero, fun c' wanted cursor found hkeys => ?_⟩
    change Function.update w.running c _ c' = _ at hkeys
    by_cases hc : c' = c
    · subst hc
      rw [Function.update_self, Sum.getLeft?_eq_some_iff] at hkeys
      rw [begin_keys hkeys]
      exact ⟨h.zero, Nat.zero_le _⟩
    · rw [Function.update_of_ne hc] at hkeys
      exact h.keys c' wanted cursor found hkeys
  | scan c t v ht => exact kept_scanned h ht hreg (by omega) (by omega)
  | tick now =>
    refine ⟨fun id g hlive => ?_, h.fresh, h.zero, h.keys⟩
    obtain ⟨hgiven, hunspent, hlife⟩ := hlive
    change now - g.entry.issuedAt ≤ cursorTTL at hlife
    exact h.held id g ⟨hgiven, hunspent, by omega⟩
  | close => exact ⟨h.held, h.fresh, h.zero, h.keys⟩

/-- In every run in which each scan that names a live cursor is made by the client
the cursor was returned to, and is answered, a cursor that was returned to a client
stands for its key until a scan of the client with it has succeeded or its lifetime
ends. -/
theorem cursor_stays_resolvable (now₀ : ℤ) (w : World)
    (hrun : ReflTransGen (Taking Step Regular) (start now₀) w) (id : ℕ) (g : Grant)
    (hlive : Live w id g) : (resolve w.store id w.now).2 = .ok g.entry.start := by
  have h := run_preserves Kept
    (fun _ _ h hstep => hstep.elim (fun _ hs => kept_step h hs.1 hs.2)) hrun (kept_start now₀)
  exact resolve_live (h.ne_zero hlive.1) (h.held id g hlive) hlive.2.2

theorem regular_begin {w : World} {c : ℕ} {cmd : Command} : Regular w (.begin c cmd) := nofun

theorem regular_scan {w : World} {c : ℕ} {t : Task} {v : Visit} (ht : w.running c = some t)
    (hroom : w.store.cursorN + 1 < 2 ^ 64)
    (hgiven : ∀ cursor, t.named = some cursor → w.given cursor = none) :
    Regular w (.scan c v) := by
  intro c' v' t' ha ht'
  cases ha
  cases ht.symm.trans ht'
  refine ⟨hroom, fun cursor g hnamed hlive => ?_⟩
  cases (hgiven cursor hnamed).symm.trans hlive.1

def everyKey : Bytes → Bool := fun _ => true

/-- The engine shows one key and has more. -/
def onePage : Visit where
  since := 0
  nowMs := 0
  reply := fun _ => .ok ⟨[([97], ⟨[1], 0⟩)], [98], true⟩
  issuedAt := 0
  swept := 0

def unreachable : Visit where
  since := 0
  nowMs := 0
  reply := fun _ => .error ⟨.unavailable, "connection refused"⟩
  issuedAt := 0
  swept := 0

def asked (w : World) (c : ℕ) (t : Task) : World :=
  { w with running := Function.update w.running c (some t) }

/-- Client 0 has scanned a page and has cursor 1 for the rest. -/
def firstPage : World :=
  (asked (start 0) 0 (.scan 0 1 everyKey)).scanned 0 (.scan 0 1 everyKey) onePage

theorem firstPage_reached : ReflTransGen (Taking Step Regular) (start 0) firstPage := by
  have hbegin : Taking Step Regular (start 0) (asked (start 0) 0 (.scan 0 1 everyKey)) :=
    ⟨_, .begin _ 0 (.scan 0 1 everyKey "") rfl, regular_begin⟩
  have hscan : Taking Step Regular (asked (start 0) 0 (.scan 0 1 everyKey)) firstPage :=
    ⟨_, .scan _ 0 _ onePage rfl le_rfl le_rfl le_rfl,
      regular_scan rfl (by decide) (fun _ _ => rfl)⟩
  exact (ReflTransGen.single hbegin).tail hscan

/-- Client 1 lists the keys and loses the engine on the second page. -/
theorem failed_keys_leaves_cursor : ∃ w, ReflTransGen (Taking Step Regular) firstPage w ∧
    w.store.cursorN = 2 ∧ w.store.cursors 2 = none ∧ Live w 1 ⟨0, ⟨[98], 0⟩, false⟩ ∧
    (resolve w.store 1 w.now).2 = .ok [98] := by
  obtain ⟨w, hrun, hnumber, hlost, hlive⟩ : ∃ w,
      ReflTransGen (Taking Step Regular) firstPage w ∧ w.store.cursorN = 2 ∧
      w.store.cursors 2 = none ∧ Live w 1 ⟨0, ⟨[98], 0⟩, false⟩ := by
    refine exists_run_head ⟨_, .begin _ 1 (.keys everyKey) rfl, regular_begin⟩ ?_
    refine exists_run_head ⟨_, .scan _ 1 _ onePage rfl le_rfl le_rfl le_rfl,
      regular_scan rfl (by decide) nofun⟩ ?_
    refine exists_run_head ⟨_, .scan _ 1 _ unreachable rfl le_rfl le_rfl le_rfl,
      regular_scan rfl (by decide) nofun⟩ ?_
    exact ⟨_, .refl, rfl, rfl, rfl, rfl, by decide⟩
  have hresolve := cursor_stays_resolvable 0 w (firstPage_reached.trans hrun) 1 _ hlive
  exact ⟨w, hrun, hnumber, hlost, hlive, hresolve⟩

/-- A random key of client 1 takes the cursor of client 0, and so does a scan of
client 0 that does not reach the engine. -/
theorem cursor_lost :
    (∃ w w', ReflTransGen (Taking Step (fun _ _ => True)) (start 0) w ∧
      w.running 1 = some (.randomKey 1 [0]) ∧ Live w 1 ⟨0, ⟨[98], 0⟩, false⟩ ∧
      (resolve w.store 1 w.now).2 = .ok [98] ∧ Step w (.scan 1 onePage) w' ∧
      Live w' 1 ⟨0, ⟨[98], 0⟩, false⟩ ∧ (resolve w'.store 1 w'.now).2 = .error (.unknown 1)) ∧
    ∃ w w', ReflTransGen (Taking Step (fun _ _ => True)) (start 0) w ∧
      w.running 0 = some (.scan 1 1 everyKey) ∧ Live w 1 ⟨0, ⟨[98], 0⟩, false⟩ ∧
      (resolve w.store 1 w.now).2 = .ok [98] ∧ Step w (.scan 0 unreachable) w' ∧
      Live w' 1 ⟨0, ⟨[98], 0⟩, false⟩ ∧ (resolve w'.store 1 w'.now).2 = .error (.unknown 1) := by
  have hpage : ReflTransGen (Taking Step (fun _ _ => True)) (start 0) firstPage :=
    ReflTransGen.mono (fun _ _ ⟨a, hstep, _⟩ => ⟨a, hstep, trivial⟩) _ _ firstPage_reached
  have hdraw : Taking Step (fun _ _ => True) firstPage (asked firstPage 1 (.randomKey 1 [0])) :=
    ⟨_, .begin _ 1 (.randomKey 1) rfl, trivial⟩
  have hagain : Taking Step (fun _ _ => True) firstPage
      (asked firstPage 0 (.scan 1 1 everyKey)) :=
    ⟨_, .begin _ 0 (.scan 1 1 everyKey "") rfl, trivial⟩
  have hfirst : Step (asked firstPage 1 (.randomKey 1 [0])) (.scan 1 onePage) _ :=
    .scan _ 1 _ onePage rfl le_rfl le_rfl le_rfl
  have hsecond : Step (asked firstPage 0 (.scan 1 1 everyKey)) (.scan 0 unreachable) _ :=
    .scan _ 0 _ unreachable rfl le_rfl le_rfl le_rfl
  refine ⟨⟨_, _, hpage.tail hdraw, rfl, ⟨rfl, rfl, ?_⟩, rfl, hfirst, ⟨rfl, rfl, ?_⟩, rfl⟩,
    ⟨_, _, hpage.tail hagain, rfl, ⟨rfl, rfl, ?_⟩, rfl, hsecond, ⟨rfl, rfl, ?_⟩, rfl⟩⟩
  all_goals decide

end RedisFromScratch.ScanCursors
