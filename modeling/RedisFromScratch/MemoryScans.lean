import RedisFromScratch.MemoryShards
import Mathlib.Data.List.Range

/-!
The incremental scan of the memory store. A cursor is the index of the next shard,
and zero is both the start and the end of a walk. A call takes whole shards until
its count is reached, so it always moves on, and a walk takes every shard once,
whatever happens to the store between its calls.
-/
namespace RedisFromScratch.MemoryScans

open ByteStrings SortedTables StoreRecords MemoryStore MemoryShards Relation Runs

/-- Call back for each binding until the callback declines. -/
def visitAll {σ : Type*} (fn : σ → Bytes → Record → σ × Bool) :
    σ → List (Bytes × Record) → σ × Bool
  | s, [] => (s, true)
  | s, b :: rest =>
      match fn s b.1 b.2 with
      | (s, true) => visitAll fn s rest
      | (s, false) => (s, false)

/-- The shards from `next` on. A map is walked in any order, here `order`. -/
def scanFrom {σ : Type*} (st : Store) (now count : ℤ)
    (order : List (Bytes × Record) → List (Bytes × Record))
    (fn : σ → Bytes → Record → σ × Bool) (emitted : ℕ) (s : σ) (next : ℕ) : σ × ℕ :=
  if h : next < shardCount then
    let batch := order (liveEntries (st ⟨next, h⟩) now)
    match visitAll fn s batch with
    | (s, false) => (s, next + 1)
    | (s, true) =>
        if count ≤ ((emitted + batch.length : ℕ) : ℤ) then
          (s, if shardCount ≤ next + 1 then 0 else next + 1)
        else scanFrom st now count order fn (emitted + batch.length) s (next + 1)
  else (s, 0)
  termination_by shardCount - next

/-- The conversion of a 64-bit cursor to a signed index. -/
def asInt (cursor : ℕ) : ℤ := if cursor < 2 ^ 63 then cursor else cursor - 2 ^ 64

def scan {σ : Type*} (st : Store) (now : ℤ)
    (order : List (Bytes × Record) → List (Bytes × Record))
    (fn : σ → Bytes → Record → σ × Bool) (s : σ) (cursor : ℕ) (count : ℤ) : σ × ℕ :=
  let count := if count ≤ 0 then 10 else count
  let next := asInt cursor
  if next < 0 ∨ shardCount < next then (s, 0)
  else scanFrom st now count order fn 0 s next.toNat

/-- The callback that notes every key and goes on. -/
def note (seen : List Bytes) (key : Bytes) (_ : Record) : List Bytes × Bool := (seen ++ [key], true)

theorem visitAll_note (seen : List Bytes) (batch : List (Bytes × Record)) :
    visitAll note seen batch = (seen ++ batch.map Prod.fst, true) := by
  induction batch generalizing seen with
  | nil => simp [visitAll]
  | cons b batch ih => simp [visitAll, note, ih]

section Shards

variable (order : List (Bytes × Record) → List (Bytes × Record)) (st : Store) (now : ℤ)

/-- The keys a scan visits in the shard with index `n`. -/
def shardKeys (n : ℕ) : List Bytes :=
  if h : n < shardCount then (order (liveEntries (st ⟨n, h⟩) now)).map Prod.fst else []

/-- The keys of the shards from `next` up to `stop`. -/
def rangeKeys (next stop : ℕ) : List Bytes :=
  (List.range' next (stop - next)).flatMap (shardKeys order st now)

theorem rangeKeys_cons {next stop : ℕ} (h : next < stop) :
    rangeKeys order st now next stop =
      shardKeys order st now next ++ rangeKeys order st now (next + 1) stop := by
  unfold rangeKeys
  have hlen : stop - next = (stop - (next + 1)) + 1 := by omega
  rw [hlen, List.range'_succ, List.flatMap_cons]

theorem rangeKeys_self (next : ℕ) : rangeKeys order st now next next = [] := by
  simp [rangeKeys]

/-- Where a scan stops, what it has visited by then and the cursor it returns. -/
structure StopsAt (count : ℤ) (emitted : ℕ) (seen : List Bytes) (next stop : ℕ)
    (result : List Bytes × ℕ) : Prop where
  low : next ≤ stop
  high : stop ≤ shardCount
  moves : next < shardCount → next < stop
  seen : result.1 = seen ++ rangeKeys order st now next stop
  cursor : result.2 = if shardCount ≤ stop then 0 else stop
  full : stop < shardCount → count ≤ ((emitted + (rangeKeys order st now next stop).length : ℕ) : ℤ)

theorem scanFrom_stops (count : ℤ) (emitted : ℕ) (seen : List Bytes) (next : ℕ)
    (hnext : next ≤ shardCount) :
    ∃ stop, StopsAt order st now count emitted seen next stop
      (scanFrom st now count order note emitted seen next) := by
  -- down from the last shard
  obtain ⟨left, hleft⟩ : ∃ left, next + left = shardCount := ⟨shardCount - next, by omega⟩
  induction left generalizing emitted seen next with
  | zero =>
    have heq : next = shardCount := hleft
    subst heq
    rw [scanFrom, dif_neg (lt_irrefl _)]
    refine ⟨shardCount, le_rfl, le_rfl, fun h => absurd h (lt_irrefl _), ?_, ?_, ?_⟩
    · rw [rangeKeys_self, List.append_nil]
    · rw [if_pos le_rfl]
    · exact fun h => absurd h (lt_irrefl _)
  | succ left ih =>
    have hlt : next < shardCount := by omega
    have hkeys : shardKeys order st now next =
        (order (liveEntries (st ⟨next, hlt⟩) now)).map Prod.fst := by
      unfold shardKeys
      rw [dif_pos hlt]
    have hlength : (shardKeys order st now next).length =
        (order (liveEntries (st ⟨next, hlt⟩) now)).length := by
      rw [hkeys, List.length_map]
    rw [scanFrom, dif_pos hlt]
    simp only [visitAll_note]
    rw [← hkeys, ← hlength]
    split
    · rename_i hfull
      have hone : rangeKeys order st now next (next + 1) = shardKeys order st now next := by
        rw [rangeKeys_cons order st now (Nat.lt_succ_self next), rangeKeys_self, List.append_nil]
      refine ⟨next + 1, Nat.le_succ next, hlt, fun _ => Nat.lt_succ_self next, ?_, rfl, ?_⟩
      · rw [hone]
      · intro _
        rw [hone]
        exact hfull
    · obtain ⟨stop, hstop⟩ := ih (emitted + (shardKeys order st now next).length)
        (seen ++ shardKeys order st now next) (next + 1) hlt (by omega)
      have hpast : next < stop := hstop.low
      refine ⟨stop, hpast.le, hstop.high, fun _ => hpast, ?_, hstop.cursor, ?_⟩
      · rw [hstop.seen, rangeKeys_cons order st now hpast, List.append_assoc]
      · intro hshort
        have hfull := hstop.full hshort
        rw [rangeKeys_cons order st now hpast, List.length_append, ← Nat.add_assoc]
        exact hfull

/-- A scan from a cursor that some scan has returned. -/
theorem scan_stops (seen : List Bytes) (cursor : ℕ) (hcursor : cursor < shardCount) (count : ℤ)
    (hcount : 0 < count) :
    ∃ stop, StopsAt order st now count 0 seen cursor stop
      (scan st now order note seen cursor count) := by
  have hint : asInt cursor = cursor := by
    unfold asInt
    rw [if_pos]
    exact lt_trans hcursor (by decide)
  have hvalid : ¬ ((cursor : ℤ) < 0 ∨ (shardCount : ℤ) < cursor) := by
    rintro (hneg | hbig)
    · exact absurd hneg (by omega)
    · exact absurd hcursor (by omega)
  unfold scan
  simp only [hint]
  rw [if_neg (not_le.mpr hcount), if_neg hvalid, Int.toNat_natCast]
  exact scanFrom_stops order st now count 0 seen cursor hcursor.le

variable {order} {st} {shardOf : Bytes → ShardId}

theorem mem_shardKeys (horder : ∀ l, (order l).Perm l) (hst : AllAccounted shardOf st) (n : ℕ)
    (key : Bytes) :
    key ∈ shardKeys order st now n ↔ (shardOf key : ℕ) = n ∧
      ∃ rec, st.lookup shardOf key = some rec ∧ ¬ rec.Expired now := by
  unfold shardKeys
  split
  · rename_i hn
    rw [((horder _).map Prod.fst).mem_iff, hst.mem_shard_iff, Fin.ext_iff]
  · rename_i hn
    constructor
    · intro h
      cases h
    · rintro ⟨rfl, -⟩
      exact absurd (shardOf key).isLt hn

theorem nodup_shardKeys (horder : ∀ l, (order l).Perm l) (n : ℕ) :
    (shardKeys order st now n).Nodup := by
  unfold shardKeys
  split
  · exact ((horder _).map Prod.fst).nodup_iff.mpr (nodup_liveEntries _ now)
  · exact List.nodup_nil

theorem mem_rangeKeys (horder : ∀ l, (order l).Perm l) (hst : AllAccounted shardOf st)
    (next stop : ℕ) (key : Bytes) :
    key ∈ rangeKeys order st now next stop ↔
      (next ≤ shardOf key ∧ (shardOf key : ℕ) < stop) ∧
        ∃ rec, st.lookup shardOf key = some rec ∧ ¬ rec.Expired now := by
  unfold rangeKeys
  simp only [List.mem_flatMap, mem_shardKeys now horder hst, List.mem_range'_1]
  constructor
  · rintro ⟨n, hn, rfl, hlive⟩
    exact ⟨⟨hn.1, by omega⟩, hlive⟩
  · rintro ⟨hrange, hlive⟩
    exact ⟨shardOf key, ⟨hrange.1, by omega⟩, rfl, hlive⟩

theorem nodup_rangeKeys (horder : ∀ l, (order l).Perm l) (hst : AllAccounted shardOf st)
    (next stop : ℕ) : (rangeKeys order st now next stop).Nodup := by
  refine List.nodup_flatMap.mpr ⟨fun n _ => nodup_shardKeys now horder n, ?_⟩
  have hrange : (List.range' next (stop - next)).Nodup := List.nodup_range'
  refine hrange.imp ?_
  intro n m hne key hn hm
  rw [mem_shardKeys now horder hst] at hn hm
  exact hne (hn.1.symm.trans hm.1)

end Shards

/-- A walk in progress: the store as it is now, the cursor of the next call, the
calls made, the keys visited, and the moments the walk has lived through. -/
structure Walk where
  store : Store
  cursor : ℕ
  calls : ℕ
  seen : List Bytes
  moments : List (Store × ℤ)

def begin (st : Store) : Walk := ⟨st, 0, 0, [], []⟩

/-- Zero has come back from a call. -/
def Walk.Ended (w : Walk) : Prop := 0 < w.calls ∧ w.cursor = 0

section Walks

variable (shardOf : Bytes → ShardId)

/-- Something happens to the store, or the walk makes its next call. -/
inductive Step : Walk → Walk → Prop
  | change (w : Walk) (op : Operation) (now : ℤ) :
      Step w { w with
        store := op.run shardOf w.store
        moments := w.moments ++ [(op.run shardOf w.store, now)] }
  | call (w : Walk) (now count : ℤ) (order : List (Bytes × Record) → List (Bytes × Record))
      (horder : ∀ l, (order l).Perm l) (hcount : 0 < count) (hgo : ¬ w.Ended) :
      Step w
        { store := w.store
          cursor := (scan w.store now order note w.seen w.cursor count).2
          calls := w.calls + 1
          seen := (scan w.store now order note w.seen w.cursor count).1
          moments := w.moments ++ [(w.store, now)] }

/-- Live at every moment of the walk so far. -/
def LiveThroughout (w : Walk) (key : Bytes) : Prop :=
  ∀ m ∈ w.moments, ∃ rec, m.1.lookup shardOf key = some rec ∧ ¬ rec.Expired m.2

/-- The shards below `reached` are done, and they are all that is done. -/
structure Halfway (w : Walk) (reached : ℕ) : Prop where
  accounted : AllAccounted shardOf w.store
  bound : reached ≤ shardCount
  calls : w.calls ≤ reached
  started : w.calls = 0 → reached = 0
  cursor : w.cursor = if shardCount ≤ reached then 0 else reached
  nodup : w.seen.Nodup
  below : ∀ key ∈ w.seen, (shardOf key : ℕ) < reached
  complete : ∀ key, (shardOf key : ℕ) < reached → LiveThroughout shardOf w key → key ∈ w.seen

variable {shardOf} {w w' : Walk} {reached : ℕ}

theorem LiveThroughout.before {st : Store} {now : ℤ} {key : Bytes}
    (hw : w'.moments = w.moments ++ [(st, now)]) (h : LiveThroughout shardOf w' key) :
    LiveThroughout shardOf w key ∧
      ∃ rec, st.lookup shardOf key = some rec ∧ ¬ rec.Expired now := by
  unfold LiveThroughout at h
  rw [hw] at h
  exact ⟨fun m hm => h m (List.mem_append_left _ hm), h (st, now) (by simp)⟩

theorem halfway_begin {st : Store} (hst : AllAccounted shardOf st) :
    Halfway shardOf (begin st) 0 where
  accounted := hst
  bound := Nat.zero_le _
  calls := le_rfl
  started _ := rfl
  cursor := rfl
  nodup := List.nodup_nil
  below key h := by cases h
  complete key h := absurd h (Nat.not_lt_zero _)

/-- As long as zero has not come back, the cursor is the next shard. -/
theorem Halfway.cursor_eq (h : Halfway shardOf w reached) (hgo : ¬ w.Ended) :
    w.cursor = reached ∧ reached < shardCount := by
  have hcursor := h.cursor
  have hstarted := h.started
  have hpos : 0 < shardCount := by decide
  by_cases hdone : shardCount ≤ reached
  · rw [if_pos hdone] at hcursor
    exact absurd ⟨by omega, hcursor⟩ hgo
  · rw [if_neg hdone] at hcursor
    exact ⟨hcursor, by omega⟩

theorem Halfway.call (h : Halfway shardOf w reached) (now count : ℤ)
    {order : List (Bytes × Record) → List (Bytes × Record)} (horder : ∀ l, (order l).Perm l)
    (hcount : 0 < count) (hgo : ¬ w.Ended)
    (hw : w' = ⟨w.store, (scan w.store now order note w.seen w.cursor count).2, w.calls + 1,
      (scan w.store now order note w.seen w.cursor count).1, w.moments ++ [(w.store, now)]⟩) :
    ∃ stop, Halfway shardOf w' stop := by
  obtain ⟨hcursor, hroom⟩ := h.cursor_eq hgo
  obtain ⟨stop, hstop⟩ :=
    scan_stops order w.store now w.seen w.cursor (hcursor ▸ hroom) count hcount
  rw [hcursor] at hstop hw
  have hmoves := hstop.moves hroom
  have hseen : w'.seen = w.seen ++ rangeKeys order w.store now reached stop := by
    rw [hw]
    exact hstop.seen
  have hnew := mem_rangeKeys now horder h.accounted reached stop
  refine ⟨stop, ?_⟩
  constructor
  · rw [hw]
    exact h.accounted
  · exact hstop.high
  · have hcalls := h.calls
    rw [hw]
    simp only
    omega
  · intro hzero
    rw [hw] at hzero
    cases hzero
  · rw [hw]
    exact hstop.cursor
  · rw [hseen]
    refine List.nodup_append.mpr ⟨h.nodup, nodup_rangeKeys now horder h.accounted _ _, ?_⟩
    rintro key hold _ hnewKey rfl
    have hlow := ((hnew key).mp hnewKey).1.1
    have hhigh := h.below key hold
    omega
  · intro key hkey
    rw [hseen] at hkey
    rcases List.mem_append.mp hkey with hkey | hkey
    · exact (h.below key hkey).trans hmoves
    · exact ((hnew key).mp hkey).1.2
  · intro key hbelow hlive
    obtain ⟨hbefore, hnow⟩ := hlive.before (w := w) (by rw [hw])
    rw [hseen]
    by_cases hold : (shardOf key : ℕ) < reached
    · exact List.mem_append_left _ (h.complete key hold hbefore)
    · exact List.mem_append_right _ ((hnew key).mpr ⟨⟨not_lt.mp hold, hbelow⟩, hnow⟩)

theorem Halfway.step (h : Halfway shardOf w reached) (hstep : Step shardOf w w') :
    ∃ reached', Halfway shardOf w' reached' := by
  cases hstep with
  | change op =>
    refine ⟨reached, h.accounted.run shardOf op, h.bound, h.calls, h.started, h.cursor, h.nodup,
      h.below, ?_⟩
    intro key hbelow hlive
    exact h.complete key hbelow (hlive.before rfl).1
  | call now count order horder hcount hgo => exact h.call now count horder hcount hgo rfl

theorem halfway_of_run {st : Store} (hst : AllAccounted shardOf st)
    (hrun : ReflTransGen (Step shardOf) (begin st) w) : ∃ reached, Halfway shardOf w reached :=
  run_preserves (fun w => ∃ reached, Halfway shardOf w reached)
    (fun _ _ h hstep => h.elim (fun _ h => h.step hstep)) hrun ⟨0, halfway_begin hst⟩

/-- A walk makes at most 1024 calls and has ended by then; it visits no key
twice, and once ended it has visited every key that was live all the way. -/
theorem walk_visits_once (ops : List Operation) (w : Walk)
    (hrun : ReflTransGen (Step shardOf) (begin (runAll shardOf ops)) w) :
    w.calls ≤ 1024 ∧ (w.calls = 1024 → w.Ended) ∧ w.seen.Nodup ∧
      (w.Ended → ∀ key, LiveThroughout shardOf w key → w.seen.count key = 1) := by
  obtain ⟨reached, h⟩ := halfway_of_run (runAll_accounted shardOf ops) hrun
  have hbound : reached ≤ 1024 := h.bound
  have hcalls := h.calls
  refine ⟨by omega, ?_, h.nodup, ?_⟩
  · intro hlast
    refine ⟨by omega, ?_⟩
    have hdone : shardCount ≤ reached := Nat.le_trans hlast.ge hcalls
    have hcursor := h.cursor
    rwa [if_pos hdone] at hcursor
  · intro hended key hlive
    have hdone : shardCount ≤ reached := by
      by_contra hshort
      have hcursor := h.cursor
      rw [if_neg hshort, hended.2] at hcursor
      have hpos := hended.1
      omega
    have hmem := h.complete key (lt_of_lt_of_le (shardOf key).isLt hdone) hlive
    exact List.count_eq_one_of_mem h.nodup hmem

end Walks

def firstShard : ShardId := ⟨0, by decide⟩

/-- One key, and a walk of one call that asks for two. -/
theorem one_key_walk_visits_once : ∃ w : Walk,
    ReflTransGen (Step (fun _ => firstShard))
      (begin (runAll (fun _ => firstShard) [.call (.put [107] ⟨[118], 0⟩) 5 true])) w ∧
    w.Ended ∧ w.seen.count [107] = 1 := by
  let shardOf : Bytes → ShardId := fun _ => firstShard
  let ops : List Operation := [.call (.put [107] ⟨[118], 0⟩) 5 true]
  have hlookup : ∀ key, (runAll shardOf ops).lookup shardOf key =
      if key = [107] then some ⟨[118], 0⟩ else none :=
    fun key => Store.lookup_put shardOf Store.empty [107] ⟨[118], 0⟩ key
  have haccounted := runAll_accounted shardOf ops
  have hperm : ∀ l : List (Bytes × Record), (id l).Perm l := fun l => List.Perm.refl l
  have hstep := @Step.call shardOf (begin (runAll shardOf ops)) 9 2 id hperm (by decide)
    (fun h => absurd h.1 (lt_irrefl _))
  obtain ⟨stop, hstop⟩ := scan_stops id (runAll shardOf ops) 9 [] 0 (by decide) 2 (by decide)
  -- all visited keys are the one key, so the count is not reached before the last shard
  have hall : ∀ key ∈ rangeKeys id (runAll shardOf ops) 9 0 stop, key = [107] := by
    intro key hkey
    obtain ⟨-, rec, hrec, -⟩ := (mem_rangeKeys 9 hperm haccounted 0 stop key).mp hkey
    rw [hlookup] at hrec
    by_contra hne
    rw [if_neg hne] at hrec
    cases hrec
  have hfew : (rangeKeys id (runAll shardOf ops) 9 0 stop).length ≤ 1 := by
    have hnodup := nodup_rangeKeys 9 hperm haccounted 0 stop
    rw [List.eq_replicate_of_mem hall] at hnodup
    exact List.nodup_replicate.mp hnodup
  have hend : shardCount ≤ stop := by
    by_contra hshort
    have hfull := hstop.full (by omega)
    omega
  have hcursor := hstop.cursor
  rw [if_pos hend] at hcursor
  refine ⟨_, .single hstep, ⟨Nat.succ_pos 0, hcursor⟩, ?_⟩
  refine (walk_visits_once ops _ (.single hstep)).2.2.2 ⟨Nat.succ_pos 0, hcursor⟩ [107] ?_
  intro m hm
  rw [List.mem_singleton.mp hm]
  exact ⟨⟨[118], 0⟩, by rw [begin, hlookup, if_pos rfl], by decide⟩

end RedisFromScratch.MemoryScans
