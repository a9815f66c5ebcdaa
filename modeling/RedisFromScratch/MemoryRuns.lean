import RedisFromScratch.MemoryStore
import RedisFromScratch.Runs
import Mathlib.Data.List.Sort
import Mathlib.Data.List.Dedup
import Mathlib.Tactic.Simps.Basic

/-!
Clients of the journalled memory store, interleaved. A write locks its shards
in ascending order, journals, applies and unlocks; a lookup may come back to
reclaim what it found expired; a wipe journals first and then empties the
shards one at a time. A position in the journal is a sequence number.
The clock never goes back.
-/
namespace RedisFromScratch.MemoryRuns

open ByteStrings SortedTables StoreRecords MemoryStore Relation

/-- The writing calls of the store, with their arguments. -/
inductive Call
  | put (key : Bytes) (rec : Record)
  | delete (key : Bytes)
  | update (key : Bytes) (fn : UpdateFunc)
  | multiWrite (muts : List Mutation)

/-- Where a client is inside a call. -/
inductive Pc
  | idle
  /-- Entered at `now`, with these shards still to be locked. -/
  | locking (call : Call) (now : ℤ) (todo : List ShardId)
  /-- Journalled, with these mutations still to be applied. -/
  | applying (muts : List Mutation)
  | reading (key : Bytes) (now : ℤ)
  | reclaiming (key : Bytes)
  /-- The wipe is journalled and its next shard is this one. -/
  | wiping (next : ℕ)

structure State where
  store : Store
  journal : List LogRecord
  clock : ℤ
  holder : ShardId → Option ℕ
  pc : ℕ → Pc

def init (clock : ℤ) : State where
  store := Store.empty
  journal := []
  clock := clock
  holder := fun _ => none
  pc := fun _ => .idle

section Calls

variable (shardOf : Bytes → ShardId)

/-- The shards of a batch, each once and ascending. -/
def shardOrder (muts : List Mutation) : List ShardId :=
  ((muts.map (fun m => shardOf m.key)).dedup).insertionSort (· ≤ ·)

/-- A batch is applied shard by shard, keeping its order inside a shard. -/
def byShard (muts : List Mutation) : List Mutation :=
  (shardOrder shardOf muts).flatMap (fun si => muts.filter (fun m => shardOf m.key = si))

def Call.order : Call → List ShardId
  | .put key _ => [shardOf key]
  | .delete key => [shardOf key]
  | .update key _ => [shardOf key]
  | .multiWrite muts => shardOrder shardOf muts

/-- Remove a record that has expired at `now`. -/
def evictExpired (st : Store) (key : Bytes) (now : ℤ) : Store :=
  match st.lookup shardOf key with
  | some cur => if cur.Expired now then st.drop shardOf key else st
  | none => st

def putting (key : Bytes) (rec : Record) : LogRecord × List Mutation :=
  (.put key rec, [⟨key, rec, false⟩])

def deleting (key : Bytes) : LogRecord × List Mutation :=
  (.delete key, [⟨key, Record.zero, true⟩])

/-- A call inside its critical section, up to the journal: the store it leaves,
and what it journals and is then going to apply, if anything. -/
def Call.enter (st : Store) (now : ℤ) : Call → Store × Option (LogRecord × List Mutation)
  | .put key rec => (st, some (putting key rec))
  | .delete key =>
      match st.lookup shardOf key with
      | none => (st, none)
      | some _ => (st, some (deleting key))
  | .update key fn =>
      let st := evictExpired shardOf st key now
      let cur := st.lookup shardOf key
      match fn (cur.getD Record.zero) cur.isSome with
      | .error _ => (st, none)
      | .ok (next, .put) => (st, some (putting key next))
      | .ok (_, .delete) => if cur.isSome then (st, some (deleting key)) else (st, none)
      | .ok (_, .none) => (st, none)
  | .multiWrite muts => (st, some (.batch muts, byShard shardOf muts))

theorem mem_shardOrder (muts : List Mutation) (si : ShardId) :
    si ∈ shardOrder shardOf muts ↔ ∃ m ∈ muts, shardOf m.key = si := by
  simp [shardOrder]

theorem mem_byShard {muts : List Mutation} {m : Mutation} (h : m ∈ byShard shardOf muts) :
    shardOf m.key ∈ shardOrder shardOf muts := by
  obtain ⟨si, hsi, hm⟩ := List.mem_flatMap.mp h
  rw [of_decide_eq_true (List.mem_filter.mp hm).2]
  exact hsi

/-- Regrouping a batch by shard keeps the last write of every key. -/
theorem written_byShard (muts : List Mutation) (k : Bytes) :
    Store.written k (byShard shardOf muts) = Store.written k muts := by
  have hblocks : ∀ order : List ShardId,
      Store.written k (order.flatMap (fun si => muts.filter (fun m => shardOf m.key = si))) =
        if shardOf k ∈ order then Store.written k muts else none := by
    intro order
    induction order with
    | nil => rfl
    | cons si order ih =>
      rw [List.flatMap_cons, Store.written_append, ih]
      by_cases hsi : shardOf k = si
      · subst si
        rw [Store.written_filter (fun m hm => by simp [hm])]
        by_cases hmem : shardOf k ∈ order <;> simp [hmem]
      · have hother : Store.written k (muts.filter (fun m => shardOf m.key = si)) = none := by
          apply Store.written_eq_none
          intro m hm heq
          apply hsi
          rw [← heq]
          exact of_decide_eq_true (List.mem_filter.mp hm).2
        simp [hother, hsi]
  rw [byShard, hblocks]
  split
  · rfl
  · rename_i hmem
    symm
    apply Store.written_eq_none
    intro m hm heq
    exact hmem ((mem_shardOrder shardOf muts _).mpr ⟨m, hm, congrArg shardOf heq⟩)

theorem lookup_evictExpired_of_ne (st : Store) {key k : Bytes} (now : ℤ) (hk : k ≠ key) :
    (evictExpired shardOf st key now).lookup shardOf k = st.lookup shardOf k := by
  unfold evictExpired
  split
  · split
    · simp [Store.lookup_drop, hk]
    · rfl
  · rfl

/-- Reclaiming an expired record is invisible from then on. -/
theorem live_evictExpired (st : Store) (key : Bytes) {now later : ℤ} (hle : now ≤ later)
    (k : Bytes) :
    live later ((evictExpired shardOf st key now).lookup shardOf k) =
      live later (st.lookup shardOf k) := by
  by_cases hk : k = key
  · subst k
    unfold evictExpired
    split
    · rename_i cur hcur
      split
      · rename_i hexp
        rw [Store.lookup_drop, if_pos rfl, hcur, live_of_expired (hexp.mono hle), live_none]
      · rfl
    · rfl
  · rw [lookup_evictExpired_of_ne shardOf st now hk]

/-- A call changes the store before the journal only by reclaiming its key. -/
theorem enter_store (st : Store) (now : ℤ) (c : Call) :
    (c.enter shardOf st now).1 = st ∨ ∃ key, c.order shardOf = [shardOf key] ∧
      (c.enter shardOf st now).1 = evictExpired shardOf st key now := by
  cases c with
  | put | multiWrite => exact Or.inl rfl
  | delete =>
    left
    simp only [Call.enter]
    split <;> rfl
  | update key =>
    refine Or.inr ⟨key, rfl, ?_⟩
    simp only [Call.enter]
    split
    · rfl
    · rfl
    · split <;> rfl
    · rfl

theorem live_enter (st : Store) {now later : ℤ} (hle : now ≤ later) (c : Call) (k : Bytes) :
    live later ((c.enter shardOf st now).1.lookup shardOf k) =
      live later (st.lookup shardOf k) := by
  rcases enter_store shardOf st now c with h | ⟨key, -, h⟩
  · rw [h]
  · rw [h, live_evictExpired shardOf st key hle k]

theorem lookup_enter_of_not_mem (st : Store) (now : ℤ) {c : Call} {k : Bytes}
    (hk : shardOf k ∉ c.order shardOf) :
    (c.enter shardOf st now).1.lookup shardOf k = st.lookup shardOf k := by
  rcases enter_store shardOf st now c with h | ⟨key, horder, h⟩
  · rw [h]
  · have hne : k ≠ key := by
      rintro rfl
      exact hk (by simp [horder])
    rw [h, lookup_evictExpired_of_ne shardOf st now hne]

/-- What is journalled and what is applied write the same, inside the locked shards. -/
structure Journals (c : Call) (rec : LogRecord) (muts : List Mutation) : Prop where
  notWipe : rec ≠ .flushAll
  written : ∀ k, Store.written k muts = lastWrite k rec.writes
  inside : ∀ m ∈ muts, shardOf m.key ∈ c.order shardOf

theorem journals_put {c : Call} {key : Bytes} (hc : c.order shardOf = [shardOf key])
    (rec : Record) : Journals shardOf c (.put key rec) [⟨key, rec, false⟩] where
  notWipe := LogRecord.noConfusion
  written _ := rfl
  inside m hm := by simp [hc, List.mem_singleton.mp hm]

theorem journals_delete {c : Call} {key : Bytes} (hc : c.order shardOf = [shardOf key]) :
    Journals shardOf c (.delete key) [⟨key, Record.zero, true⟩] where
  notWipe := LogRecord.noConfusion
  written _ := rfl
  inside m hm := by simp [hc, List.mem_singleton.mp hm]

theorem journals_of_enter {st st' : Store} {now : ℤ} {c : Call} {rec : LogRecord}
    {muts : List Mutation} (h : c.enter shardOf st now = (st', some (rec, muts))) :
    Journals shardOf c rec muts := by
  have hout : (c.enter shardOf st now).2 = some (rec, muts) := congrArg Prod.snd h
  cases c with
  | put key r =>
    cases Option.some.inj hout
    exact journals_put shardOf rfl r
  | delete =>
    simp only [Call.enter] at hout
    split at hout
    · cases hout
    · cases Option.some.inj hout
      exact journals_delete shardOf rfl
  | update =>
    simp only [Call.enter] at hout
    split at hout
    · cases hout
    · cases Option.some.inj hout
      exact journals_put shardOf rfl _
    · split at hout
      · cases Option.some.inj hout
        exact journals_delete shardOf rfl
      · cases hout
    · cases hout
  | multiWrite muts =>
    cases Option.some.inj hout
    exact ⟨LogRecord.noConfusion, written_byShard shardOf muts, fun m hm => mem_byShard shardOf hm⟩

end Calls

namespace State

@[simps] def setPc (s : State) (i : ℕ) (p : Pc) : State := { s with pc := Function.update s.pc i p }

@[simps] def setStore (s : State) (st : Store) : State := { s with store := st }

/-- Append a record under the next sequence number. -/
@[simps] def log (s : State) (rec : LogRecord) : State := { s with journal := s.journal ++ [rec] }

@[simps] def take (s : State) (i : ℕ) (sh : ShardId) : State :=
  { s with holder := Function.update s.holder sh (some i) }

/-- Client `i` returns, giving back every shard it holds. -/
@[simps] def unlock (s : State) (i : ℕ) : State :=
  { s with
    holder := fun sh => if s.holder sh = some i then none else s.holder sh
    pc := Function.update s.pc i .idle }

end State

/-- One atomic step of one client, or of the clock. -/
inductive Step (shardOf : Bytes → ShardId) : State → State → Prop
  | call (s : State) (i : ℕ) (c : Call) (hpc : s.pc i = .idle) (hc : c ≠ .multiWrite []) :
      Step shardOf s (s.setPc i (.locking c s.clock (c.order shardOf)))
  | lock (s : State) (i : ℕ) (c : Call) (now : ℤ) (sh : ShardId) (todo : List ShardId)
      (hpc : s.pc i = .locking c now (sh :: todo)) (hfree : s.holder sh = none) :
      Step shardOf s ((s.take i sh).setPc i (.locking c now todo))
  | journal (s : State) (i : ℕ) (c : Call) (now : ℤ) (st : Store) (rec : LogRecord)
      (muts : List Mutation) (hpc : s.pc i = .locking c now [])
      (henter : c.enter shardOf s.store now = (st, some (rec, muts))) :
      Step shardOf s (((s.setStore st).log rec).setPc i (.applying muts))
  | skip (s : State) (i : ℕ) (c : Call) (now : ℤ) (st : Store)
      (hpc : s.pc i = .locking c now [])
      (henter : c.enter shardOf s.store now = (st, none)) :
      Step shardOf s ((s.setStore st).unlock i)
  | apply (s : State) (i : ℕ) (muts : List Mutation) (hpc : s.pc i = .applying muts) :
      Step shardOf s ((s.setStore (s.store.applyAll shardOf muts)).unlock i)
  | get (s : State) (i : ℕ) (key : Bytes) (hpc : s.pc i = .idle) :
      Step shardOf s (s.setPc i (.reading key s.clock))
  | getRead (s : State) (i : ℕ) (key : Bytes) (now : ℤ) (hpc : s.pc i = .reading key now)
      (hfree : s.holder (shardOf key) = none) :
      Step shardOf s
        (s.setPc i (if (s.store.lookup shardOf key).any (fun r => decide (r.Expired now))
          then .reclaiming key else .idle))
  | getReclaim (s : State) (i : ℕ) (key : Bytes) (hpc : s.pc i = .reclaiming key)
      (hfree : s.holder (shardOf key) = none) :
      Step shardOf s ((s.setStore (evictExpired shardOf s.store key s.clock)).setPc i .idle)
  | flushAll (s : State) (i : ℕ) (hpc : s.pc i = .idle) :
      Step shardOf s ((s.log .flushAll).setPc i (.wiping 0))
  | wipe (s : State) (i : ℕ) (sh : ShardId) (hpc : s.pc i = .wiping sh)
      (hfree : s.holder sh = none) :
      Step shardOf s
        ((s.setStore (Function.update s.store sh Shard.empty)).setPc i (.wiping (sh + 1)))
  | wiped (s : State) (i : ℕ) (hpc : s.pc i = .wiping shardCount) :
      Step shardOf s (s.setPc i .idle)
  | tick (s : State) (later : ℤ) (hle : s.clock ≤ later) :
      Step shardOf s { s with clock := later }

/-- States some interleaving reaches from the empty store. -/
def Reachable (shardOf : Bytes → ShardId) (s : State) : Prop :=
  ∃ clock, ReflTransGen (Step shardOf) (init clock) s

end RedisFromScratch.MemoryRuns
