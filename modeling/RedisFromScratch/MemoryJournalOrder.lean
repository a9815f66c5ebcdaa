import RedisFromScratch.MemoryAgreement

/-!
The journal order decides what memory holds. Without wipes this is
unconditional at every moment no lock is held. With wipes it needs every put to
stay out of the shards a journalled wipe has not reached, and a run that breaks
this rule loses an acknowledged put in memory while a restart brings it back.
The loader may use any hash of its own: a content does not depend on it.
-/
namespace RedisFromScratch.MemoryJournalOrder

open ByteStrings SortedTables StoreRecords MemoryStore MemoryRuns MemoryAgreement Relation Runs

section

variable (shardOf : Bytes → ShardId)

/-- A process with another hash seed rebuilds the same content. -/
theorem lookup_replay_hash (shardOf' : Bytes → ShardId) (journal : List LogRecord) (k : Bytes) :
    (Loader.replay shardOf' journal).lookup shardOf' k =
      (Loader.replay shardOf journal).lookup shardOf k := by
  induction journal using List.reverseRecOn with
  | nil => rfl
  | append_singleton journal rec ih =>
    rw [Loader.replay_concat, Loader.replay_concat]
    by_cases hrec : rec = .flushAll
    · subst rec
      rw [Loader.lookup_apply_flushAll, Loader.lookup_apply_flushAll]
    · rw [Loader.lookup_apply shardOf' _ rec hrec, Loader.lookup_apply shardOf _ rec hrec, ih]

theorem locked_init (clock : ℤ) : Locked shardOf (init clock) where
  locking _ _ _ _ hpc := Pc.noConfusion hpc
  applying _ _ hpc := Pc.noConfusion hpc

theorem agreement_init (clock : ℤ) : Agreement shardOf (init clock) where
  wiped _ _ := rfl
  agrees _ _ := rfl

/-- With nothing left to wipe or to apply, memory is what the journal says. -/
theorem Agreement.of_settled_shard {s : State} (h : Agreement shardOf s) {k : Bytes}
    (hwipe : ¬ PendingWipe s (shardOf k)) (hpending : pending s (shardOf k) = [])
    (shardOf' : Bytes → ShardId) :
    live s.clock (s.store.lookup shardOf k) =
      live s.clock ((Loader.replay shardOf' s.journal).lookup shardOf' k) := by
  have hagrees := h.agrees k hwipe
  unfold settled at hagrees
  rw [hpending] at hagrees
  rw [lookup_replay_hash shardOf]
  exact hagrees

/-- A client starts wiping only by journalling the wipe. -/
theorem not_pendingWipe_step {s s' : State} (hnone : ∀ sh, ¬ PendingWipe s sh)
    (hstep : Step shardOf s s') (hwipe : .flushAll ∉ s'.journal) (sh : ShardId) :
    ¬ PendingWipe s' sh := by
  rintro ⟨j, hj⟩
  have hkeep : ∀ i p, ¬ Wipes sh p → Wipes sh (Function.update s.pc i p j) → False := by
    intro i p hp hw
    by_cases hji : j = i
    · subst j
      rw [Function.update_self] at hw
      exact hp hw
    · rw [Function.update_of_ne hji] at hw
      exact hnone sh ⟨j, hw⟩
  cases hstep with
  | call i | lock i | journal i | skip i | apply i | get i | getReclaim i | wiped i =>
    exact hkeep i _ id hj
  | getRead i =>
    refine hkeep i _ ?_ hj
    split <;> exact id
  | flushAll => exact hwipe (by simp)
  | wipe i sh' hpc => exact hnone sh' ⟨i, by rw [hpc]; exact Nat.le_refl _⟩
  | tick => exact hnone sh ⟨j, hj⟩

/-- Until a wipe is journalled no client is wiping, and memory agrees. -/
theorem unwiped_run {clock : ℤ} {s : State} (hrun : ReflTransGen (Step shardOf) (init clock) s) :
    .flushAll ∉ s.journal →
      Locked shardOf s ∧ Agreement shardOf s ∧ ∀ sh, ¬ PendingWipe s sh := by
  refine run_preserves
    (fun s => .flushAll ∉ s.journal →
      Locked shardOf s ∧ Agreement shardOf s ∧ ∀ sh, ¬ PendingWipe s sh)
    ?_ hrun (fun _ => ⟨locked_init shardOf clock, agreement_init shardOf clock, ?_⟩)
  · intro s s' ih hstep hwipe
    have hbefore : .flushAll ∉ s.journal := by
      intro hmem
      apply hwipe
      cases hstep <;> first | exact hmem | exact List.mem_append_left _ hmem
    obtain ⟨hl, ha, hnone⟩ := ih hbefore
    exact ⟨hl.step hstep, ha.step hl hstep (fun _ _ w _ _ => hnone _),
      not_pendingWipe_step shardOf hnone hstep hwipe⟩
  · rintro sh ⟨j, hj⟩
    exact hj

/-- Every interleaving of puts, deletes, updates, batches and lookups leaves
memory equal to its journal at each moment no shard is locked. -/
theorem memory_equals_journal (s : State) (hreach : Reachable shardOf s)
    (hwipe : .flushAll ∉ s.journal) (hquiet : ∀ sh, s.holder sh = none)
    (shardOf' : Bytes → ShardId) (k : Bytes) :
    live s.clock (s.store.lookup shardOf k) =
      live s.clock ((Loader.replay shardOf' s.journal).lookup shardOf' k) := by
  obtain ⟨clock, hrun⟩ := hreach
  obtain ⟨-, hagree, hnone⟩ := unwiped_run shardOf hrun hwipe
  exact Agreement.of_settled_shard shardOf hagree (hnone _) (pending_of_free (hquiet _)) shardOf'

section Calls

variable (cond : State → State → Prop)

/-- One client's whole put, from a moment when no shard is locked. -/
theorem put_run {s : State} {i : ℕ} (key : Bytes) (rec : Record) (hpc : s.pc i = .idle)
    (hfree : ∀ sh, s.holder sh = none) (hsame : ∀ a b : State, b.journal = a.journal → cond a b)
    (hput : ∀ a b : State, (PendingWipe a (shardOf key) → PendingWipe s (shardOf key)) →
      b.journal = a.journal ++ [.put key rec] → cond a b) :
    ∃ t, ReflTransGen (Guarded (Step shardOf) cond) s t ∧
      t.store = s.store.put shardOf key rec ∧ t.journal = s.journal ++ [.put key rec] ∧
      t.clock = s.clock ∧ (∀ sh, t.holder sh = none) ∧ t.pc = s.pc := by
  let s1 := s.setPc i (.locking (.put key rec) s.clock [shardOf key])
  let s2 := (s1.take i (shardOf key)).setPc i (.locking (.put key rec) s.clock [])
  let s3 := ((s2.setStore s2.store).log (.put key rec)).setPc i (.applying [⟨key, rec, false⟩])
  have h1 : Step shardOf s s1 := .call s i (.put key rec) hpc (by simp)
  have h2 : Step shardOf s1 s2 :=
    .lock s1 i (.put key rec) s.clock (shardOf key) [] (by simp [s1]) (hfree _)
  have h3 : Step shardOf s2 s3 :=
    .journal s2 i (.put key rec) s.clock s2.store _ _ (by simp [s2]) rfl
  have h4 : Step shardOf s3 _ := .apply s3 i [⟨key, rec, false⟩] (by simp [s3])
  have hwipe : PendingWipe s2 (shardOf key) → PendingWipe s (shardOf key) := by
    have h01 : PendingWipe s1 (shardOf key) ↔ PendingWipe s (shardOf key) :=
      pendingWipe_update rfl (shardOf key) (by simp [hpc, Wipes])
    have h12 : PendingWipe s2 (shardOf key) ↔ PendingWipe s1 (shardOf key) :=
      pendingWipe_update rfl (shardOf key) (by simp [s1, Wipes])
    exact fun h => h01.mp (h12.mp h)
  have hrun : ReflTransGen (Guarded (Step shardOf) cond) s s3 :=
    ((ReflTransGen.single ⟨h1, hsame _ _ rfl⟩).tail ⟨h2, hsame _ _ rfl⟩).tail
      ⟨h3, hput _ _ hwipe rfl⟩
  refine ⟨_, hrun.tail ⟨h4, hsame _ _ rfl⟩, rfl, rfl, rfl, ?_, ?_⟩
  · intro sh
    by_cases hsh : sh = shardOf key
    · simp [s3, s2, hsh]
    · simp [s3, s2, s1, hsh, hfree]
  · funext j
    by_cases hji : j = i
    · simp [hji, hpc]
    · simp [s3, s2, s1, hji]

/-- The loop over the shards, from shard `n` to its end. -/
theorem wipe_run (hsame : ∀ a b : State, b.journal = a.journal → cond a b) {i n : ℕ}
    (hn : n ≤ shardCount) {s : State} (hpc : s.pc i = .wiping n)
    (hfree : ∀ sh, s.holder sh = none) :
    ReflTransGen (Guarded (Step shardOf) cond) s
      ((s.setStore (fun sh => if n ≤ sh then Shard.empty else s.store sh)).setPc i .idle) := by
  induction hd : shardCount - n generalizing n s with
  | zero =>
    have hn : n = shardCount := by omega
    subst n
    have hstore : (fun sh : ShardId => if shardCount ≤ sh then Shard.empty else s.store sh) =
        s.store := by
      funext sh
      exact if_neg (Nat.not_le.mpr sh.isLt)
    rw [hstore]
    exact .single ⟨.wiped s i hpc, hsame _ _ rfl⟩
  | succ d ih =>
    have hlt : n < shardCount := by omega
    have hstep : Step shardOf s _ := .wipe s i ⟨n, hlt⟩ hpc (hfree _)
    have hrest := ih (n := n + 1) (by omega)
      (s := (s.setStore (Function.update s.store ⟨n, hlt⟩ Shard.empty)).setPc i (.wiping (n + 1)))
      (by simp) hfree (by omega)
    refine .head ⟨hstep, hsame _ _ rfl⟩ ?_
    convert hrest using 1
    have hstore : (fun sh : ShardId => if n ≤ sh then Shard.empty else s.store sh) =
        fun sh : ShardId => if n + 1 ≤ sh then Shard.empty
          else Function.update s.store ⟨n, hlt⟩ Shard.empty sh := by
      funext sh
      by_cases hsh : sh = ⟨n, hlt⟩
      · subst sh
        simp
      · have hne : (sh : ℕ) ≠ n := fun heq => hsh (Fin.ext heq)
        have hiff : n ≤ sh ↔ n + 1 ≤ sh := by omega
        simp [hsh, hiff]
    simp [State.setPc, State.setStore, hstore]

end Calls

/-- A hash for runs on fixed inputs. -/
def lengthHash (key : Bytes) : ShardId := ⟨key.length % shardCount, Nat.mod_lt _ (by decide)⟩

/-- One put, and memory and journal both hold it. -/
theorem memory_equals_journal_after_put :
    ∃ s, Reachable lengthHash s ∧ s.journal = [.put [107] ⟨[118], 0⟩] ∧
      live s.clock (s.store.lookup lengthHash [107]) = some ⟨[118], 0⟩ ∧
      live s.clock (s.store.lookup lengthHash [107]) =
        live s.clock ((Loader.replay lengthHash s.journal).lookup lengthHash [107]) := by
  obtain ⟨s, hrun, hstore, hjournal, hclock, hfree, -⟩ :=
    put_run lengthHash (fun _ _ => True) (s := init 0) (i := 0)
      [107] ⟨[118], 0⟩ rfl (fun _ => rfl) (fun _ _ _ => trivial) (fun _ _ _ _ => trivial)
  have hreach : Reachable lengthHash s := ⟨0, guarded_run_is_run hrun⟩
  refine ⟨s, hreach, hjournal, ?_, ?_⟩
  · rw [hclock, hstore]
    decide
  · exact memory_equals_journal lengthHash s hreach (by simp [hjournal, init]) hfree _ _

end

end RedisFromScratch.MemoryJournalOrder
