import RedisFromScratch.MemoryRuns
import Mathlib.Algebra.BigOperators.Group.List.Basic
import Mathlib.Algebra.Order.BigOperators.Group.List
import Mathlib.Algebra.Order.Ring.Int
import Mathlib.Data.Set.Card

/-!
The bookkeeping of the memory store. A shard maintains an index of its volatile
keys and a byte count beside its records, one write at a time. Both stay exact
along every sequence of operations, so the byte count is never clamped, and
counting the live keys may skip the clock in shards without volatile keys.
-/
namespace RedisFromScratch.MemoryShards

open ByteStrings SortedTables StoreRecords MemoryStore MemoryRuns Relation Runs

/-- The bytes a binding is counted with. -/
def cost (b : Bytes × Record) : ℤ := b.1.length + entryOverhead + b.2.value.length

theorem cost_mk (key : Bytes) (rec : Record) :
    cost (key, rec) = key.length + entryOverhead + rec.value.length := rfl

theorem cost_nonneg (b : Bytes × Record) : 0 ≤ cost b := by
  unfold cost entryOverhead
  omega

/-- What the byte count of a shard should be. -/
def size (sh : Shard) : ℤ := (sh.m.entries.map cost).sum

theorem size_eq_cost_add {sh : Shard} {key : Bytes} {rec : Record}
    (h : sh.m.lookup key = some rec) :
    size sh = cost (key, rec) + ((sh.m.erase key).entries.map cost).sum := by
  unfold size
  rw [((Table.entries_perm_erase h).map cost).sum_eq, List.map_cons, List.sum_cons]

theorem size_putLocked (sh : Shard) (key : Bytes) (rec : Record) :
    size (sh.putLocked key rec) = cost (key, rec) + ((sh.m.erase key).entries.map cost).sum := by
  unfold size Shard.putLocked
  rw [((Table.entries_insert_perm sh.m key rec).map cost).sum_eq, List.map_cons, List.sum_cons]

/-- Taking a binding away never brings the exact count below zero. -/
theorem cost_le_size {sh : Shard} {key : Bytes} {rec : Record}
    (h : sh.m.lookup key = some rec) : cost (key, rec) ≤ size sh := by
  rw [size_eq_cost_add h]
  have hrest : 0 ≤ ((sh.m.erase key).entries.map cost).sum := by
    apply List.sum_nonneg
    intro x hx
    obtain ⟨b, -, rfl⟩ := List.mem_map.mp hx
    exact cost_nonneg b
  omega

/-- The invariant of the shard with index `si`. -/
structure Accounted (shardOf : Bytes → ShardId) (si : ShardId) (sh : Shard) : Prop where
  volatile : ∀ key, sh.volatile.lookup key = some () ↔
    ∃ rec, sh.m.lookup key = some rec ∧ rec.expireAt ≠ 0
  home : ∀ key rec, sh.m.lookup key = some rec → shardOf key = si
  bytes : sh.bytes = size sh

namespace Accounted

variable {shardOf : Bytes → ShardId} {si : ShardId} {sh : Shard}

theorem empty (shardOf : Bytes → ShardId) (si : ShardId) : Accounted shardOf si Shard.empty where
  volatile key := by simp [Shard.empty]
  home key rec h := by simp [Shard.empty] at h
  bytes := rfl

theorem putLocked (h : Accounted shardOf si sh) {key : Bytes} (hkey : shardOf key = si)
    (rec : Record) : Accounted shardOf si (sh.putLocked key rec) where
  volatile k := by
    rw [Shard.lookup_putLocked]
    unfold Shard.putLocked
    by_cases hk : k = key
    · subst hk
      by_cases hv : rec.Volatile
      · have hexpire : rec.expireAt ≠ 0 := hv
        simp [hv, hexpire]
      · have hexpire : rec.expireAt = 0 := not_not.mp hv
        simp [hv, hexpire]
    · have hold := h.volatile k
      by_cases hv : rec.Volatile <;> simp [hv, hk, hold]
  home k r hk := by
    rw [Shard.lookup_putLocked] at hk
    split at hk
    · rename_i heq
      rw [heq, hkey]
    · exact h.home k r hk
  bytes := by
    rw [size_putLocked, cost_mk]
    unfold Shard.putLocked
    cases hold : sh.m.lookup key with
    | some =>
      have hsize := size_eq_cost_add hold
      rw [cost_mk] at hsize
      simp only [h.bytes, hsize]
      omega
    | none =>
      rw [Table.entries_erase_of_lookup_none hold]
      simp only [h.bytes, size]
      omega

/-- The subtraction of an eviction is exact, so clamping it changes nothing. -/
theorem unclamped (h : Accounted shardOf si sh) {key : Bytes} {rec : Record}
    (hkey : sh.m.lookup key = some rec) : 0 ≤ sh.bytes - cost (key, rec) := by
  have hle := cost_le_size hkey
  rw [h.bytes]
  omega

theorem evictLocked (h : Accounted shardOf si sh) {key : Bytes} {old : Record}
    (hkey : sh.m.lookup key = some old) : Accounted shardOf si (sh.evictLocked key old) where
  volatile k := by
    rw [Shard.lookup_evictLocked]
    unfold Shard.evictLocked
    by_cases hk : k = key
    · simp [hk]
    · simp [hk, h.volatile k]
  home k r hk := by
    rw [Shard.lookup_evictLocked] at hk
    split at hk
    · cases hk
    · exact h.home k r hk
  bytes := by
    have hexact := h.unclamped hkey
    have hsize := size_eq_cost_add hkey
    rw [cost_mk] at hexact hsize
    have hrest : sh.bytes - (key.length + entryOverhead + old.value.length) =
        ((sh.m.erase key).entries.map cost).sum := by
      rw [h.bytes, hsize]
      omega
    unfold Shard.evictLocked
    simp only
    rw [if_neg (by omega)]
    exact hrest

theorem dropLocked (h : Accounted shardOf si sh) (key : Bytes) :
    Accounted shardOf si (sh.dropLocked key) := by
  unfold Shard.dropLocked
  cases hkey : sh.m.lookup key with
  | some => exact h.evictLocked hkey
  | none => exact h

end Accounted

/-- The invariant of the whole store. -/
def AllAccounted (shardOf : Bytes → ShardId) (st : Store) : Prop :=
  ∀ si, Accounted shardOf si (st si)

namespace AllAccounted

variable {shardOf : Bytes → ShardId} {st : Store}

theorem empty (shardOf : Bytes → ShardId) : AllAccounted shardOf Store.empty :=
  fun si => Accounted.empty shardOf si

theorem update (h : AllAccounted shardOf st) {si : ShardId} {sh : Shard}
    (hsh : Accounted shardOf si sh) : AllAccounted shardOf (Function.update st si sh) := by
  intro sj
  by_cases hj : sj = si
  · subst hj
    rwa [Function.update_self]
  · rw [Function.update_of_ne hj]
    exact h sj

theorem put (h : AllAccounted shardOf st) (key : Bytes) (rec : Record) :
    AllAccounted shardOf (st.put shardOf key rec) :=
  h.update ((h (shardOf key)).putLocked rfl rec)

theorem drop (h : AllAccounted shardOf st) (key : Bytes) :
    AllAccounted shardOf (st.drop shardOf key) :=
  h.update ((h (shardOf key)).dropLocked key)

theorem apply (h : AllAccounted shardOf st) (m : Mutation) :
    AllAccounted shardOf (st.apply shardOf m) := by
  unfold Store.apply
  split
  · exact h.drop m.key
  · exact h.put m.key m.record

theorem applyAll (h : AllAccounted shardOf st) (muts : List Mutation) :
    AllAccounted shardOf (st.applyAll shardOf muts) := by
  induction muts generalizing st with
  | nil => exact h
  | cons m muts ih => exact ih (h.apply m)

theorem evictExpired (h : AllAccounted shardOf st) (key : Bytes) (now : ℤ) :
    AllAccounted shardOf (evictExpired shardOf st key now) := by
  unfold MemoryRuns.evictExpired
  split
  · split
    · exact h.drop key
    · exact h
  · exact h

theorem enter (h : AllAccounted shardOf st) (c : Call) (now : ℤ) :
    AllAccounted shardOf (c.enter shardOf st now).1 := by
  rcases enter_store shardOf st now c with hst | ⟨key, -, hst⟩
  · rwa [hst]
  · rw [hst]
    exact h.evictExpired key now

theorem load (h : AllAccounted shardOf st) (rec : LogRecord) :
    AllAccounted shardOf (Loader.apply shardOf st rec) := by
  cases rec with
  | put key r => exact h.put key r
  | delete key => exact h.drop key
  | flushAll => exact fun si => Accounted.empty shardOf si
  | batch muts => exact h.applyAll muts

end AllAccounted

/-- The operations of the store one after another, each with the clock readings
it makes and whether the journal took its record. -/
inductive Operation
  | call (c : Call) (now : ℤ) (journalled : Bool)
  /-- Found expired at `now`, a record is looked at again at `later`. -/
  | get (key : Bytes) (now later : ℤ)
  | flushAll (journalled : Bool)
  | load (rec : LogRecord)

section Operations

variable (shardOf : Bytes → ShardId)

def Operation.run (st : Store) : Operation → Store
  | .call c now journalled =>
      match c.enter shardOf st now with
      | (st, none) => st
      | (st, some (_, muts)) => if journalled then st.applyAll shardOf muts else st
  | .get key now later =>
      if (st.lookup shardOf key).any (fun rec => decide (rec.Expired now))
      then evictExpired shardOf st key later else st
  | .flushAll journalled => if journalled then fun _ => Shard.empty else st
  | .load rec => Loader.apply shardOf st rec

/-- The store a sequence of operations leaves. -/
def runAll (ops : List Operation) : Store := ops.foldl (Operation.run shardOf) Store.empty

theorem AllAccounted.run {st : Store} (h : AllAccounted shardOf st) (op : Operation) :
    AllAccounted shardOf (op.run shardOf st) := by
  cases op with
  | call c now journalled =>
    have hentered := h.enter c now
    simp only [Operation.run]
    split
    · rename_i st' heq
      rwa [heq] at hentered
    · rename_i st' rec muts heq
      rw [heq] at hentered
      split
      · exact hentered.applyAll muts
      · exact hentered
  | get key now later =>
    simp only [Operation.run]
    split
    · exact h.evictExpired key later
    · exact h
  | flushAll =>
    simp only [Operation.run]
    split
    · exact fun si => Accounted.empty shardOf si
    · exact h
  | load rec => exact h.load rec

theorem runAll_accounted (ops : List Operation) : AllAccounted shardOf (runAll shardOf ops) := by
  have hrun : ∀ st, AllAccounted shardOf st →
      AllAccounted shardOf (ops.foldl (Operation.run shardOf) st) := by
    induction ops with
    | nil => exact fun st h => h
    | cons op ops ih => exact fun st h => ih _ (h.run shardOf op)
  exact hrun Store.empty (AllAccounted.empty shardOf)

/-- Clients that interleave inside their calls keep the same invariant. -/
theorem AllAccounted.step {s s' : State} (h : AllAccounted shardOf s.store)
    (hstep : Step shardOf s s') : AllAccounted shardOf s'.store := by
  cases hstep with
  | call | lock | get | getRead | flushAll | wiped | tick => exact h
  | journal i c now st rec muts hpc henter | skip i c now st hpc henter =>
    have hentered := h.enter c now
    rwa [henter] at hentered
  | apply i muts => exact h.applyAll muts
  | getReclaim i key => exact h.evictExpired key s.clock
  | wipe i sh => exact h.update (Accounted.empty shardOf sh)

end Operations

/-- The live bindings of a shard. -/
def liveEntries (sh : Shard) (now : ℤ) : List (Bytes × Record) :=
  sh.m.entries.filter (fun b => ¬ b.2.Expired now)

theorem mem_liveEntries {sh : Shard} {now : ℤ} {key : Bytes} {rec : Record} :
    (key, rec) ∈ liveEntries sh now ↔ sh.m.lookup key = some rec ∧ ¬ rec.Expired now := by
  simp [liveEntries, Table.mem_entries_iff]

theorem nodup_liveEntries (sh : Shard) (now : ℤ) :
    ((liveEntries sh now).map Prod.fst).Nodup :=
  sh.m.nodup_keys.sublist (List.filter_sublist.map _)

/-- One shard's part of the count. -/
def shardLen (sh : Shard) (now : ℤ) : ℕ :=
  if sh.volatile.entries.length = 0 then sh.m.entries.length
  else sh.m.entries.countP (fun b => ¬ b.2.Expired now)

def len (st : Store) (now : ℤ) : ℕ :=
  ((List.finRange shardCount).map (fun si => shardLen (st si) now)).sum

/-- Without volatile keys nothing has expired, whatever the clock says. -/
theorem Accounted.shardLen_eq {shardOf : Bytes → ShardId} {si : ShardId} {sh : Shard}
    (h : Accounted shardOf si sh) (now : ℤ) : shardLen sh now = (liveEntries sh now).length := by
  unfold shardLen liveEntries
  split
  · rename_i hnone
    have hall : ∀ b ∈ sh.m.entries, ¬ b.2.Expired now := by
      rintro ⟨key, rec⟩ hb hexp
      have hlookup := (sh.m.mem_entries_iff key rec).mp hb
      have hindexed := (h.volatile key).mpr ⟨rec, hlookup, hexp.1⟩
      have hmem := (sh.volatile.mem_entries_iff key ()).mpr hindexed
      rw [List.length_eq_zero_iff.mp hnone] at hmem
      cases hmem
    rw [List.filter_eq_self.mpr (fun b hb => decide_eq_true (hall b hb))]
  · rw [List.countP_eq_length_filter]

/-- The live keys, shard by shard. -/
def liveKeys (st : Store) (now : ℤ) : List Bytes :=
  (List.finRange shardCount).flatMap (fun si => (liveEntries (st si) now).map Prod.fst)

namespace AllAccounted

variable {shardOf : Bytes → ShardId} {st : Store}

/-- A key is found in the shard its hash selects and in no other. -/
theorem mem_shard_iff (h : AllAccounted shardOf st) (si : ShardId) (now : ℤ) (key : Bytes) :
    key ∈ (liveEntries (st si) now).map Prod.fst ↔
      shardOf key = si ∧ ∃ rec, st.lookup shardOf key = some rec ∧ ¬ rec.Expired now := by
  constructor
  · intro hmem
    obtain ⟨⟨k, rec⟩, hb, rfl⟩ := List.mem_map.mp hmem
    obtain ⟨hlookup, hlive⟩ := mem_liveEntries.mp hb
    have hhome := (h si).home k rec hlookup
    refine ⟨hhome, rec, ?_, hlive⟩
    unfold Store.lookup
    rw [hhome]
    exact hlookup
  · rintro ⟨rfl, rec, hlookup, hlive⟩
    exact List.mem_map.mpr ⟨(key, rec), mem_liveEntries.mpr ⟨hlookup, hlive⟩, rfl⟩

theorem nodup_liveKeys (h : AllAccounted shardOf st) (now : ℤ) : (liveKeys st now).Nodup := by
  refine List.nodup_flatMap.mpr ⟨fun si _ => nodup_liveEntries (st si) now, ?_⟩
  refine (List.nodup_finRange shardCount).imp ?_
  intro si sj hne key hi hj
  have hhome := ((h.mem_shard_iff si now key).mp hi).1
  exact hne (hhome.symm.trans ((h.mem_shard_iff sj now key).mp hj).1)

theorem len_eq_length (h : AllAccounted shardOf st) (now : ℤ) :
    len st now = (liveKeys st now).length := by
  have hshard : ∀ si ∈ List.finRange shardCount, shardLen (st si) now =
      ((liveEntries (st si) now).map Prod.fst).length := by
    intro si _
    rw [(h si).shardLen_eq, List.length_map]
  unfold len liveKeys
  rw [List.map_congr_left hshard, List.length_flatMap]

theorem len_eq_ncard (h : AllAccounted shardOf st) (now : ℤ) :
    len st now =
      {key | ∃ rec, st.lookup shardOf key = some rec ∧ ¬ rec.Expired now}.ncard := by
  have hset : {key | ∃ rec, st.lookup shardOf key = some rec ∧ ¬ rec.Expired now} =
      ((liveKeys st now).toFinset : Set Bytes) := by
    ext key
    simp [liveKeys, h.mem_shard_iff]
  rw [hset, Set.ncard_coe_finset, List.toFinset_card_of_nodup (h.nodup_liveKeys now),
    h.len_eq_length]

end AllAccounted

/-- After any sequence of operations every shard's index and byte count are
exact, no eviction clamps the count, and `len` counts the unexpired keys. -/
theorem store_accounted (shardOf : Bytes → ShardId) (ops : List Operation) :
    (∀ si, Accounted shardOf si (runAll shardOf ops si)) ∧
    (∀ si key rec, (runAll shardOf ops si).m.lookup key = some rec →
      0 ≤ (runAll shardOf ops si).bytes - cost (key, rec)) ∧
    ∀ now, len (runAll shardOf ops) now =
      {key | ∃ rec, (runAll shardOf ops).lookup shardOf key = some rec ∧
        ¬ rec.Expired now}.ncard := by
  have h := runAll_accounted shardOf ops
  refine ⟨h, ?_, ?_⟩
  · intro si key rec hkey
    exact (h si).unclamped hkey
  · intro now
    exact h.len_eq_ncard now

end RedisFromScratch.MemoryShards
