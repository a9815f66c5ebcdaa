import RedisFromScratch.SortedTables
import RedisFromScratch.StoreRecords
import Mathlib.Logic.Function.Basic
import Mathlib.Data.List.Induction

/-!
The sharded in-memory store and the loader that rebuilds it from a log.
A shard keeps its records, the index of those with an expiry and a byte count.
The seeded hash that picks a shard is a parameter: any function of the key.
Every operation is described by the lookups it changes.
-/
namespace RedisFromScratch.MemoryStore

open ByteStrings SortedTables StoreRecords

def shardCount : ℕ := 1024

abbrev ShardId := Fin shardCount

def entryOverhead : ℤ := 64

structure Shard where
  m : Table Bytes Record
  volatile : Table Bytes Unit
  bytes : ℤ

namespace Shard

def empty : Shard := ⟨Table.empty, Table.empty, 0⟩

def putLocked (sh : Shard) (key : Bytes) (rec : Record) : Shard :=
  let bytes := match sh.m.lookup key with
    | some old => sh.bytes - old.value.length
    | none => sh.bytes + (key.length + entryOverhead)
  { m := sh.m.insert key rec
    volatile := if rec.Volatile then sh.volatile.insert key () else sh.volatile.erase key
    bytes := bytes + rec.value.length }

/-- The byte count is an estimate and is clamped at zero. -/
def evictLocked (sh : Shard) (key : Bytes) (old : Record) : Shard :=
  let bytes := sh.bytes - (key.length + entryOverhead + old.value.length)
  { m := sh.m.erase key
    volatile := sh.volatile.erase key
    bytes := if bytes < 0 then 0 else bytes }

/-- Remove a key if the shard holds it. -/
def dropLocked (sh : Shard) (key : Bytes) : Shard :=
  match sh.m.lookup key with
  | some cur => sh.evictLocked key cur
  | none => sh

theorem lookup_putLocked (sh : Shard) (key : Bytes) (rec : Record) (k : Bytes) :
    (sh.putLocked key rec).m.lookup k = if k = key then some rec else sh.m.lookup k :=
  Table.lookup_insert sh.m key rec k

theorem lookup_evictLocked (sh : Shard) (key : Bytes) (old : Record) (k : Bytes) :
    (sh.evictLocked key old).m.lookup k = if k = key then none else sh.m.lookup k :=
  Table.lookup_erase sh.m key k

theorem lookup_dropLocked (sh : Shard) (key : Bytes) (k : Bytes) :
    (sh.dropLocked key).m.lookup k = if k = key then none else sh.m.lookup k := by
  unfold dropLocked
  cases h : sh.m.lookup key with
  | some cur => exact lookup_evictLocked sh key cur k
  | none =>
    by_cases hk : k = key
    · subst k
      simpa using h
    · simp [hk]

end Shard

abbrev Store := ShardId → Shard

namespace Store

variable (shardOf : Bytes → ShardId)

def empty : Store := fun _ => Shard.empty

def lookup (st : Store) (key : Bytes) : Option Record := (st (shardOf key)).m.lookup key

/-- Run a change on the shard of a key. -/
def onShard (st : Store) (key : Bytes) (f : Shard → Shard) : Store :=
  Function.update st (shardOf key) (f (st (shardOf key)))

def put (st : Store) (key : Bytes) (rec : Record) : Store :=
  st.onShard shardOf key (fun sh => sh.putLocked key rec)

def drop (st : Store) (key : Bytes) : Store :=
  st.onShard shardOf key (fun sh => sh.dropLocked key)

def apply (st : Store) (m : Mutation) : Store :=
  if m.delete then st.drop shardOf m.key else st.put shardOf m.key m.record

def applyAll (st : Store) (muts : List Mutation) : Store :=
  muts.foldl (fun st m => st.apply shardOf m) st

/-- A change on one key's shard that only touches that key. -/
theorem lookup_onShard (st : Store) (key : Bytes) (f : Shard → Shard) (v : Option Record)
    (hf : ∀ sh k, (f sh).m.lookup k = if k = key then v else sh.m.lookup k) (k : Bytes) :
    (st.onShard shardOf key f).lookup shardOf k = if k = key then v else st.lookup shardOf k := by
  unfold lookup onShard
  by_cases hs : shardOf k = shardOf key
  · rw [hs, Function.update_self]
    exact hf _ k
  · have hk : k ≠ key := fun h => hs (congrArg shardOf h)
    rw [Function.update_of_ne hs]
    simp [hk]

theorem lookup_put (st : Store) (key : Bytes) (rec : Record) (k : Bytes) :
    (st.put shardOf key rec).lookup shardOf k =
      if k = key then some rec else st.lookup shardOf k :=
  lookup_onShard shardOf st key _ (some rec) (fun sh k => sh.lookup_putLocked key rec k) k

theorem lookup_drop (st : Store) (key : Bytes) (k : Bytes) :
    (st.drop shardOf key).lookup shardOf k = if k = key then none else st.lookup shardOf k :=
  lookup_onShard shardOf st key _ none (fun sh k => sh.lookup_dropLocked key k) k

theorem lookup_apply (st : Store) (m : Mutation) (k : Bytes) :
    (st.apply shardOf m).lookup shardOf k =
      if k = m.key then m.outcome else st.lookup shardOf k := by
  unfold apply Mutation.outcome
  split
  · exact lookup_drop shardOf st m.key k
  · exact lookup_put shardOf st m.key m.record k

/-- What a group of mutations leaves at a key, if it mentions it. -/
def written (k : Bytes) (muts : List Mutation) : Option (Option Record) :=
  lastWrite k (muts.map (fun m => (m.key, m.outcome)))

theorem written_eq_none {k : Bytes} {muts : List Mutation} (h : ∀ m ∈ muts, m.key ≠ k) :
    written k muts = none := by
  apply (lastWrite_eq_none_iff k _).mpr
  intro b hb
  obtain ⟨m, hm, rfl⟩ := List.mem_map.mp hb
  exact h m hm

theorem written_append (k : Bytes) (l m : List Mutation) :
    written k (l ++ m) = (written k m).or (written k l) := by
  simp only [written, List.map_append, lastWrite_append]

theorem written_filter {k : Bytes} {muts : List Mutation} {p : Mutation → Bool}
    (h : ∀ m, m.key = k → p m = true) : written k (muts.filter p) = written k muts := by
  induction muts with
  | nil => rfl
  | cons m muts ih =>
    have hcons : ∀ l, written k (m :: l) = (written k l).or (written k [m]) :=
      fun l => written_append k [m] l
    cases hp : p m with
    | true => rw [List.filter_cons_of_pos hp, hcons, hcons muts, ih]
    | false =>
      have hne : ∀ x ∈ [m], x.key ≠ k := by
        intro x hx heq
        rw [List.mem_singleton.mp hx] at heq
        rw [h m heq] at hp
        cases hp
      rw [List.filter_cons_of_neg (by simp [hp]), ih, hcons muts, written_eq_none hne,
        Option.or_none]

theorem lookup_applyAll (st : Store) (muts : List Mutation) (k : Bytes) :
    (st.applyAll shardOf muts).lookup shardOf k =
      (written k muts).getD (st.lookup shardOf k) := by
  induction muts generalizing st with
  | nil => rfl
  | cons m muts ih =>
    have hstep : st.applyAll shardOf (m :: muts) = (st.apply shardOf m).applyAll shardOf muts := rfl
    have hlast : written k (m :: muts) =
        (written k muts).or (if k = m.key then some m.outcome else none) :=
      lastWrite_cons k (m.key, m.outcome) _
    rw [hstep, ih, hlast, lookup_apply]
    cases written k muts with
    | some => rfl
    | none => by_cases hk : k = m.key <;> simp [hk]

end Store

namespace Loader

variable (shardOf : Bytes → ShardId)

/-- Apply one recovered record. Nothing is journalled and nothing expires. -/
def apply (st : Store) : LogRecord → Store
  | .put key rec => st.put shardOf key rec
  | .delete key => st.drop shardOf key
  | .flushAll => fun _ => Shard.empty
  | .batch muts => st.applyAll shardOf muts

/-- The store a log rebuilds from nothing. -/
def replay (journal : List LogRecord) : Store := journal.foldl (apply shardOf) Store.empty

@[simp] theorem replay_concat (journal : List LogRecord) (rec : LogRecord) :
    replay shardOf (journal ++ [rec]) = apply shardOf (replay shardOf journal) rec := by
  simp [replay]

/-- Every record but a wipe acts on a key through its last write of it. -/
theorem lookup_apply (st : Store) (rec : LogRecord) (hrec : rec ≠ .flushAll) (k : Bytes) :
    (apply shardOf st rec).lookup shardOf k =
      (lastWrite k rec.writes).getD (st.lookup shardOf k) := by
  cases rec with
  | put =>
    simp only [apply, Store.lookup_put, LogRecord.writes, lastWrite_cons, lastWrite_nil]
    split <;> simp
  | delete =>
    simp only [apply, Store.lookup_drop, LogRecord.writes, lastWrite_cons, lastWrite_nil]
    split <;> simp
  | flushAll => exact absurd rfl hrec
  | batch muts => exact Store.lookup_applyAll shardOf st muts k

theorem lookup_apply_flushAll (st : Store) (k : Bytes) :
    (apply shardOf st .flushAll).lookup shardOf k = none := rfl

/-- Past its last wipe a journal acts through the last write of each key. -/
theorem lookup_replay_append (pre post : List LogRecord) (hpost : .flushAll ∉ post) (k : Bytes) :
    (replay shardOf (pre ++ post)).lookup shardOf k =
      (lastWrite k (post.flatMap LogRecord.writes)).getD
        ((replay shardOf pre).lookup shardOf k) := by
  induction post using List.reverseRecOn with
  | nil => simp
  | append_singleton post rec ih =>
    have hrec : rec ≠ .flushAll := by
      rintro rfl
      simp at hpost
    have hpost : .flushAll ∉ post := fun hmem => hpost (List.mem_append_left _ hmem)
    rw [← List.append_assoc, replay_concat, lookup_apply shardOf _ rec hrec,
      ih hpost, List.flatMap_append, lastWrite_append, List.flatMap_singleton]
    cases lastWrite k rec.writes <;> rfl

end Loader

end RedisFromScratch.MemoryStore
