import RedisFromScratch.LockScripts
import RedisFromScratch.LsmClient
import RedisFromScratch.MemoryRuns
import RedisFromScratch.SortInts

/-!
The shard locks of the memory store and the stripe locks of the engine's client.
Every call is written out as the locks it takes and gives back on each of its
paths, with data deciding which path it goes; update functions and scan callbacks
do not call the store. A batch locks its distinct shards upwards, everything else
holds one lock at a time, and every path to a return gives back what it took.
-/
namespace RedisFromScratch.StoreLocks

open ByteStrings StoreRecords LockScripts SortInts Relation
open LockPrograms (Mode)
open MemoryStore (ShardId shardCount)
open LsmClient (Stripe stripeCount)

inductive Lock
  /-- Guards the flag of a closed memory store. -/
  | dead
  | shard (si : ShardId)
  | stripe (i : Stripe)
  deriving DecidableEq, Repr

abbrev Code := Script Lock

section Memory

/-- Fail if the store is closed. -/
def alive (next : Code) : Code :=
  .lock .shared .dead (.unlock .shared .dead (.either .done next))

/-- The deferred function of a call that may have unlocked its shard already. -/
def unlockIf (locked : Bool) (si : ShardId) : Code :=
  if locked then .unlock .exclusive (.shard si) .done else .done

def get (si : ShardId) : Code :=
  alive (.lock .shared (.shard si) (.unlock .shared (.shard si)
    -- found and live, or absent, or expired and to be reclaimed
    (.either .done (.either .done
      (.lock .exclusive (.shard si) (.unlock .exclusive (.shard si) .done))))))

def put (si : ShardId) : Code :=
  alive (.lock .exclusive (.shard si)
    -- the journal fails, or the record is put
    (.either (.unlock .exclusive (.shard si) .done) (.unlock .exclusive (.shard si) .done)))

def delete (si : ShardId) : Code :=
  alive (.lock .exclusive (.shard si)
    -- absent, the journal fails, or removed and unlocked before the wait
    (.either (unlockIf true si) (.either (unlockIf true si)
      (.unlock .exclusive (.shard si) (unlockIf false si)))))

def update (si : ShardId) : Code :=
  alive (.lock .exclusive (.shard si)
    (.either
      -- the function fails
      (unlockIf true si)
      (.either
        -- a put, which the journal may refuse
        (.either (unlockIf true si) (.unlock .exclusive (.shard si) (unlockIf false si)))
        (.either
          -- a delete of nothing, or one that the journal may refuse
          (.either (unlockIf true si)
            (.either (unlockIf true si) (.unlock .exclusive (.shard si) (unlockIf false si))))
          -- no action
          (unlockIf true si)))))

/-- A batch over shards in the order its map of shards hands them out. -/
def multiWrite (keys : List Bytes) (visited : List ShardId) : Code :=
  alive (if keys = [] then .done else
    (lockAll ((sortInts visited).map Lock.shard)
      -- the journal fails, or the batch is applied
      (.either (unlockAll ((sortInts visited).map Lock.shard).reverse .done)
        (unlockAll ((sortInts visited).map Lock.shard).reverse .done))))

-- kept folded: no proof needs its thousand members
@[irreducible] def allShards : List ShardId := List.finRange shardCount

/-- One shard after the other. -/
def eachShard (m : Mode) : List ShardId → Code
  | [] => .done
  | si :: shards => .lock m (.shard si) (.unlock m (.shard si) (eachShard m shards))

def scanShards : List ShardId → Code
  | [] => .done
  | si :: shards => .lock .shared (.shard si) (.unlock .shared (.shard si)
      -- the callback stops the scan, or enough is emitted
      (.either .done (.either .done (scanShards shards))))

def scan (cursor : ℕ) : Code := alive (scanShards ((allShards).drop cursor))

def flushAll : Code :=
  alive (.either .done (eachShard .exclusive (allShards)))

def len : Code := alive (eachShard .shared (allShards))

def stats : Code := alive (eachShard .shared (allShards))

def shardAt (r : ℕ) : ShardId := ⟨r % shardCount, Nat.mod_lt r (by decide)⟩

/-- Probe shards drawn at random until enough keys are found. -/
def probeShards : ℕ → Code
  | 0 => .done
  | n + 1 => .either .done (.pick (fun r =>
      .lock .shared (.shard (shardAt r))
        (.unlock .shared (.shard (shardAt r)) (probeShards n))))

def sampleVolatile : Code := alive (.either .done (probeShards 32))

end Memory

section Lsm

/-- Fail if the store is closed. -/
def unlessClosed (next : Code) : Code := .either .done next

/-- Return from a call that has deferred its unlock. -/
def unlockStripe (i : Stripe) : Code := .unlock .exclusive (.stripe i) .done

def lsmPut (i : Stripe) : Code := unlessClosed (.lock .exclusive (.stripe i) (unlockStripe i))

def lsmDelete (i : Stripe) : Code :=
  unlessClosed (.lock .exclusive (.stripe i) (.either (unlockStripe i) (unlockStripe i)))

def lsmUpdate (i : Stripe) : Code :=
  unlessClosed (.lock .exclusive (.stripe i)
    (.either
      -- the read fails
      (unlockStripe i)
      (.either
        -- the function fails
        (unlockStripe i)
        (.either
          -- a put, a delete of nothing, a delete, and no action
          (unlockStripe i)
          (.either (unlockStripe i) (.either (unlockStripe i) (unlockStripe i)))))))

/-- The stripes of some keys as they first come up. -/
def distinctStripes (stripeOf : Bytes → Stripe) (keys : List Bytes) : List Stripe :=
  keys.foldl (fun idx key => if stripeOf key ∈ idx then idx else idx ++ [stripeOf key]) []

def lsmMultiWrite (keys : List Bytes) (idx : List Stripe) : Code :=
  unlessClosed (if keys = [] then .done else
    (lockAll ((sortInts idx).map Lock.stripe)
      (.either (unlockAll ((sortInts idx).map Lock.stripe).reverse .done)
        (unlockAll ((sortInts idx).map Lock.stripe).reverse .done))))

end Lsm

variable (shardOf : Bytes → ShardId) (stripeOf : Bytes → Stripe)

/-- A call on one of the stores. The map of a batch hands its shards out in some order. -/
inductive Call
  | get (key : Bytes)
  | put (key : Bytes)
  | delete (key : Bytes)
  | update (key : Bytes)
  | multiWrite (keys : List Bytes) (visited : List ShardId)
      (hvisited : visited.Perm (keys.map shardOf).dedup)
  | scan (cursor : ℕ)
  | flushAll
  | len
  | stats
  | sampleVolatile
  | lsmPut (key : Bytes)
  | lsmDelete (key : Bytes)
  | lsmUpdate (key : Bytes)
  | lsmMultiWrite (keys : List Bytes)

variable {shardOf}

def Call.code : Call shardOf → Code
  | .get key => StoreLocks.get (shardOf key)
  | .put key => StoreLocks.put (shardOf key)
  | .delete key => StoreLocks.delete (shardOf key)
  | .update key => StoreLocks.update (shardOf key)
  | .multiWrite keys visited _ => StoreLocks.multiWrite keys visited
  | .scan cursor => StoreLocks.scan cursor
  | .flushAll => StoreLocks.flushAll
  | .len => StoreLocks.len
  | .stats => StoreLocks.stats
  | .sampleVolatile => StoreLocks.sampleVolatile
  | .lsmPut key => StoreLocks.lsmPut (stripeOf key)
  | .lsmDelete key => StoreLocks.lsmDelete (stripeOf key)
  | .lsmUpdate key => StoreLocks.lsmUpdate (stripeOf key)
  | .lsmMultiWrite keys => StoreLocks.lsmMultiWrite keys (distinctStripes stripeOf keys)

def rank : Lock → ℕ
  | .dead => 0
  | .shard si => 1 + si
  | .stripe i => 1 + shardCount + i

theorem rank_le (l : Lock) : rank l ≤ 1 + shardCount + stripeCount := by
  cases l with
  | dead => exact Nat.zero_le _
  | shard | stripe =>
    simp only [rank]
    omega

theorem disciplined_alive {next : Code} (h : Disciplined rank [] next) :
    Disciplined rank [] (alive next) :=
  ⟨by simp, List.mem_cons_self, rfl, h⟩

/-- Taking one lock and giving it back. -/
theorem disciplined_one (m : Mode) (l : Lock) {next : Code} (h : Disciplined rank [] next) :
    Disciplined rank [] (.lock m l (.unlock m l next)) :=
  ⟨by simp, List.mem_cons_self, by rwa [List.erase_cons_head]⟩

theorem disciplined_unlock {l : Lock} {next : Code} (h : Disciplined rank [] next) :
    Disciplined rank [(.exclusive, l)] (.unlock .exclusive l next) :=
  ⟨List.mem_cons_self, by rwa [List.erase_cons_head]⟩

theorem disciplined_unlockIf (si : ShardId) :
    Disciplined rank [(.exclusive, .shard si)] (unlockIf true si) := disciplined_unlock rfl

theorem disciplined_get (si : ShardId) : Disciplined rank [] (get si) :=
  disciplined_alive (disciplined_one _ _ ⟨rfl, rfl, disciplined_one _ _ rfl⟩)

theorem disciplined_put (si : ShardId) : Disciplined rank [] (put si) :=
  disciplined_alive ⟨by simp, disciplined_unlock rfl, disciplined_unlock rfl⟩

theorem disciplined_delete (si : ShardId) : Disciplined rank [] (delete si) :=
  disciplined_alive
    ⟨by simp, disciplined_unlockIf si, disciplined_unlockIf si, disciplined_unlock rfl⟩

theorem disciplined_update (si : ShardId) : Disciplined rank [] (update si) := by
  have hlocked := disciplined_unlockIf si
  have hearly : Disciplined rank [(.exclusive, .shard si)]
      (.unlock .exclusive (.shard si) (unlockIf false si)) := disciplined_unlock rfl
  exact disciplined_alive
    ⟨by simp, hlocked, ⟨hlocked, hearly⟩, ⟨hlocked, hlocked, hearly⟩, hlocked⟩

/-- A batch locks its distinct indices upwards. -/
theorem disciplined_sorted {n : ℕ} {idx : List (Fin n)} (hnodup : idx.Nodup)
    {lock : Fin n → Lock} (hlock : ∀ i j, i < j → rank (lock i) < rank (lock j)) :
    Disciplined rank [] (lockAll ((sortInts idx).map lock)
      (.either (unlockAll ((sortInts idx).map lock).reverse .done)
        (unlockAll ((sortInts idx).map lock).reverse .done))) := by
  have hasc : ((sortInts idx).map lock).Pairwise (fun a b => rank a < rank b) := by
    rw [List.pairwise_map]
    exact (sortInts_ascending hnodup).imp (fun hlt => hlock _ _ hlt)
  exact @disciplined_batch _ _ rank _ hasc (fun next => .either next next) (fun _ _ h => ⟨h, h⟩)

theorem disciplined_multiWrite (keys : List Bytes) {visited : List ShardId}
    (hnodup : visited.Nodup) : Disciplined rank [] (multiWrite keys visited) := by
  apply disciplined_alive
  split
  · rfl
  · exact disciplined_sorted hnodup (fun i j hlt => Nat.add_lt_add_left hlt 1)

theorem disciplined_eachShard (m : Mode) (shards : List ShardId) :
    Disciplined rank [] (eachShard m shards) := by
  induction shards with
  | nil => rfl
  | cons si shards ih => exact disciplined_one _ _ ih

theorem disciplined_scanShards (shards : List ShardId) :
    Disciplined rank [] (scanShards shards) := by
  induction shards with
  | nil => rfl
  | cons si shards ih => exact disciplined_one _ _ ⟨rfl, rfl, ih⟩

theorem disciplined_probeShards (n : ℕ) : Disciplined rank [] (probeShards n) := by
  induction n with
  | zero => rfl
  | succ n ih => exact ⟨rfl, fun r => disciplined_one _ _ ih⟩

theorem disciplined_lsmUpdate (i : Stripe) : Disciplined rank [] (lsmUpdate i) := by
  have hunlock : Disciplined rank [(.exclusive, .stripe i)] (unlockStripe i) :=
    disciplined_unlock rfl
  exact ⟨rfl, by simp, hunlock, hunlock, hunlock, hunlock, hunlock, hunlock⟩

theorem mem_foldl_distinct (keys : List Bytes) (idx : List Stripe) (hidx : idx.Nodup) :
    (keys.foldl (fun idx key => if stripeOf key ∈ idx then idx else idx ++ [stripeOf key])
        idx).Nodup ∧
      ∀ i, i ∈ keys.foldl (fun idx key => if stripeOf key ∈ idx then idx
        else idx ++ [stripeOf key]) idx ↔ i ∈ idx ∨ i ∈ keys.map stripeOf := by
  induction keys generalizing idx with
  | nil => exact ⟨hidx, by simp⟩
  | cons key keys ih =>
    rw [List.foldl_cons]
    by_cases hdup : stripeOf key ∈ idx
    · rw [if_pos hdup]
      refine ⟨(ih idx hidx).1, fun i => ?_⟩
      rw [(ih idx hidx).2, List.map_cons, List.mem_cons]
      constructor
      · rintro (hi | hi)
        · exact Or.inl hi
        · exact Or.inr (Or.inr hi)
      · rintro (hi | rfl | hi)
        · exact Or.inl hi
        · exact Or.inl hdup
        · exact Or.inr hi
    · have hnew : (idx ++ [stripeOf key]).Nodup :=
        List.nodup_append.mpr ⟨hidx, List.nodup_singleton _, by
          intro a ha b hb hab
          rw [List.mem_singleton] at hb
          exact hdup (hb ▸ hab ▸ ha)⟩
      rw [if_neg hdup]
      refine ⟨(ih _ hnew).1, fun i => ?_⟩
      rw [(ih _ hnew).2, List.map_cons, List.mem_cons, List.mem_append, List.mem_singleton,
        or_assoc]

theorem distinctStripes_perm (keys : List Bytes) :
    (distinctStripes stripeOf keys).Perm (keys.map stripeOf).dedup := by
  obtain ⟨hnodup, hmem⟩ := mem_foldl_distinct stripeOf keys [] List.nodup_nil
  unfold distinctStripes
  rw [List.perm_ext_iff_of_nodup hnodup (List.nodup_dedup _)]
  intro i
  rw [List.mem_dedup, hmem]
  simp

theorem disciplined_lsmMultiWrite (keys : List Bytes) :
    Disciplined rank [] (lsmMultiWrite keys (distinctStripes stripeOf keys)) := by
  have hnodup : (distinctStripes stripeOf keys).Nodup :=
    (distinctStripes_perm stripeOf keys).nodup_iff.mpr (List.nodup_dedup _)
  refine ⟨rfl, ?_⟩
  split
  · rfl
  · exact disciplined_sorted hnodup (fun i j hlt => Nat.add_lt_add_left hlt (1 + shardCount))

theorem disciplined_code (c : Call shardOf) : Disciplined rank [] (c.code stripeOf) := by
  cases c with
  | get => exact disciplined_get _
  | put => exact disciplined_put _
  | delete => exact disciplined_delete _
  | update => exact disciplined_update _
  | multiWrite keys visited hvisited =>
    exact disciplined_multiWrite keys (hvisited.nodup_iff.mpr (List.nodup_dedup _))
  | scan => exact disciplined_alive (disciplined_scanShards _)
  | flushAll => exact disciplined_alive ⟨rfl, disciplined_eachShard .exclusive _⟩
  | len | stats => exact disciplined_alive (disciplined_eachShard .shared _)
  | sampleVolatile => exact disciplined_alive ⟨rfl, disciplined_probeShards _⟩
  | lsmPut => exact ⟨rfl, by simp, disciplined_unlock rfl⟩
  | lsmDelete => exact ⟨rfl, by simp, disciplined_unlock rfl, disciplined_unlock rfl⟩
  | lsmUpdate => exact disciplined_lsmUpdate _
  | lsmMultiWrite keys => exact disciplined_lsmMultiWrite stripeOf keys

/-- The order in which a batch locks is the one the interleaved model of the
memory store names. -/
theorem sortInts_visited {muts : List Mutation} {visited : List ShardId}
    (h : visited.Perm ((muts.map Mutation.key).map shardOf).dedup) :
    sortInts visited = MemoryRuns.shardOrder shardOf muts := by
  rw [List.map_map] at h
  exact sortInts_eq_insertionSort h

theorem sortInts_distinctStripes (call : LsmClient.Call) :
    sortInts (distinctStripes stripeOf call.keys) = call.stripes stripeOf :=
  sortInts_eq_insertionSort (distinctStripes_perm stripeOf call.keys)

/-- No set of goroutines on the stores waits for itself, and a call that has
returned holds nothing. -/
theorem stores_never_deadlock (shardOf : Bytes → ShardId) (stripeOf : Bytes → Stripe)
    {I : Type*} [DecidableEq I] (s : I → Goroutine Lock)
    (hrun : ReflTransGen (Step (@Call.code shardOf stripeOf)) (fun _ => Goroutine.idle) s) :
    (∀ G : Set I, G.Nonempty → ¬ ∀ i ∈ G, ∃ j ∈ G, WaitsFor s i j) ∧
      (∀ i, (s i).script = .done → (s i).held = []) ∧
      ∀ i m l next, (s i).script = .unlock m l next → (m, l) ∈ (s i).held := by
  have horderly := orderly_of_run rank_le (disciplined_code stripeOf) hrun
  exact ⟨horderly.unblocked, horderly.released, horderly.matched⟩

/-- A batch with a key twice holds its stripe, and a put waits for it. -/
theorem put_waits_for_batch : ∃ s : ℕ → Goroutine Lock,
    ReflTransGen (Step (@Call.code (fun _ => ⟨0, by decide⟩) LsmClient.oneStripe))
      (fun _ => Goroutine.idle) s ∧
    WaitsFor s 1 0 ∧ ¬ ∀ i ∈ ({0, 1} : Set ℕ), ∃ j ∈ ({0, 1} : Set ℕ), WaitsFor s i j := by
  let code := @Call.code (fun _ => ⟨0, by decide⟩) LsmClient.oneStripe
  let stripe : Lock := .stripe ⟨0, by decide⟩
  let unlocked : Code := .unlock .exclusive stripe .done
  let s₀ : ℕ → Goroutine Lock := fun _ => Goroutine.idle
  let s₁ := Function.update s₀ 0 ⟨[], code (.lsmMultiWrite [[107], [107]])⟩
  let s₂ := Function.update s₁ 0 ⟨[], .lock .exclusive stripe (.either unlocked unlocked)⟩
  let s₃ := Function.update s₂ 0 ⟨[(.exclusive, stripe)], .either unlocked unlocked⟩
  let s₄ := Function.update s₃ 1 ⟨[], code (.lsmPut [107])⟩
  let s₅ := Function.update s₄ 1 ⟨[], .lock .exclusive stripe unlocked⟩
  have h₁ : Step code s₀ s₁ := .call s₀ 0 _ rfl
  have h₂ : Step code s₁ s₂ := .right s₁ 0 _ _ rfl
  have h₃ : Step code s₂ s₃ := .lock s₂ 0 .exclusive stripe _ rfl (by
    intro j m hmem
    by_cases hj : j = 0
    · subst hj
      cases hmem
    · rw [show s₂ j = Goroutine.idle by simp [s₂, s₁, s₀, hj]] at hmem
      cases hmem)
  have h₄ : Step code s₃ s₄ := .call s₃ 1 _ rfl
  have h₅ : Step code s₄ s₅ := .right s₄ 1 _ _ rfl
  have hrun : ReflTransGen (Step code) s₀ s₅ :=
    .head h₁ (.head h₂ (.head h₃ (.head h₄ (.single h₅))))
  refine ⟨s₅, hrun, ⟨.exclusive, stripe, unlocked, .exclusive, rfl, List.mem_cons_self⟩, ?_⟩
  exact (stores_never_deadlock _ _ s₅ hrun).1 {0, 1} ⟨0, Or.inl rfl⟩

end RedisFromScratch.StoreLocks
