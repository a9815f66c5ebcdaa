import RedisFromScratch.SnapshotWalks

/-!
Batches over restarts. A kill loses the records still in user space, while an
image that was renamed into place survives; the next process loads it and
replays the records behind its number. An image published before the records it
reflects have left user space can bring back half of a batch. When publication
waits for them, what comes back is always a whole number of records.
-/
namespace RedisFromScratch.SnapshotBatches

open ByteStrings SortedTables StoreRecords MemoryStore MemoryAgreement MemoryJournalOrder
open SnapshotWalks Relation Runs
open MemoryRuns hiding State Step init Reachable

structure State where
  /-- The hash of the running process; a new process draws a new one. -/
  shardOf : Bytes → ShardId
  run : SnapshotWalks.State
  /-- How many journalled records are in the segment files. -/
  flushed : ℕ
  /-- The newest image that was renamed into place. -/
  published : Option Walk

def init (shardOf : Bytes → ShardId) (clock : ℤ) : State :=
  ⟨shardOf, SnapshotWalks.init clock, 0, none⟩

/-- The records a kill leaves. -/
def State.log (s : State) : List LogRecord := s.run.mem.journal.take s.flushed

/-- The store of a process that opens the directory: the image, and the log
behind it. -/
def State.reopened (s : State) (shardOf : Bytes → ShardId) : Store :=
  match s.published with
  | none => Loader.replay shardOf s.log
  | some w => recovered shardOf w s.log

inductive Step : State → State → Prop
  -- any calls but a wipe
  | run (s : State) (r : SnapshotWalks.State) (hstep : SnapshotWalks.Step s.shardOf s.run r)
      (hwipe : .flushAll ∉ r.mem.journal) : Step s { s with run := r }
  | flush (s : State) (n : ℕ) (hlow : s.flushed ≤ n) (hhigh : n ≤ s.run.mem.journal.length) :
      Step s { s with flushed := n }
  | publish (s : State) (w : Walk) (hwalk : s.run.walk = some w) (hdone : w.Done) :
      Step s { s with published := some w }
  -- numbers go on behind the log, which has to reach the image's number
  | reopen (s : State) (shardOf : Bytes → ShardId)
      (hlsn : ∀ w, s.published = some w → w.lsn ≤ s.flushed) :
      Step s { s with
        shardOf := shardOf
        run := ⟨⟨s.reopened shardOf, s.log, s.run.mem.clock, fun _ => none, fun _ => .idle⟩, none⟩ }

/-- What comes back is a whole number of records: no batch is torn apart. -/
def AllOrNothing (s : State) : Prop :=
  ∀ (shardOf : Bytes → ShardId) (now : ℤ), s.run.mem.clock ≤ now →
    ∃ n ≤ s.run.mem.journal.length,
      (∀ k, live now ((s.reopened shardOf).lookup shardOf k) =
        live now ((Loader.replay shardOf (s.run.mem.journal.take n)).lookup shardOf k)) ∧
      ∀ i muts, s.run.mem.journal[i]? = some (.batch muts) → i < n →
        ∀ k v, Store.written k muts = some v →
          (∀ j rec, i < j → j < n → s.run.mem.journal[j]? = some rec → ¬ Writes rec k) →
          live now ((s.reopened shardOf).lookup shardOf k) = live now v

/-- An image is published once the records it reflects are in the segment files. -/
def PublishesFlushed (s s' : State) : Prop :=
  ∀ w, s'.published = some w → s.published ≠ some w → ∀ sh, w.readAt sh ≤ s.flushed

/-- The image and the log behind its number are the log. -/
structure Sound (s : State) (w : Walk) : Prop where
  lsn : w.lsn ≤ s.flushed
  same : ∀ (shardOf : Bytes → ShardId) (k : Bytes), live s.run.mem.clock
    ((recovered shardOf w s.log).lookup shardOf k) =
      live s.run.mem.clock ((Loader.replay shardOf s.log).lookup shardOf k)

structure Inv (s : State) : Prop where
  wipe : .flushAll ∉ s.run.mem.journal
  placed : Placed s.shardOf s.run.mem.store
  locked : Locked s.shardOf s.run.mem
  agrees : Agreement s.shardOf s.run.mem
  unwiped : ∀ sh, ¬ PendingWipe s.run.mem sh
  walk : ∀ w, s.run.walk = some w → WalkInv s.shardOf s.run.mem w
  flushed : s.flushed ≤ s.run.mem.journal.length
  sound : ∀ w, s.published = some w → Sound s w

theorem lookup_recovered_append (shardOf : Bytes → ShardId) (w : Walk) {log more : List LogRecord}
    (hno : .flushAll ∉ log ++ more) (hlsn : w.lsn ≤ log.length) (k : Bytes) :
    (recovered shardOf w (log ++ more)).lookup shardOf k =
      (lastWrite k (more.flatMap LogRecord.writes)).getD
        ((recovered shardOf w log).lookup shardOf k) := by
  rw [lookup_recovered shardOf w hno, List.drop_append_of_le_length hlsn, List.flatMap_append,
    lastWrite_append, lookup_recovered shardOf w (fun hin => hno (List.mem_append_left _ hin))]
  cases lastWrite k (more.flatMap LogRecord.writes) <;> rfl

/-- More records behind a sound image keep it sound. -/
theorem Sound.grow {s s' : State} {w : Walk} (h : Sound s w) (hle : s.flushed ≤ s'.flushed)
    (hclock : s.run.mem.clock ≤ s'.run.mem.clock) (hlog : s.log <+: s'.log)
    (hlen : s.log.length = s.flushed) (hno : .flushAll ∉ s'.log) : Sound s' w := by
  refine ⟨h.lsn.trans hle, fun shardOf k => ?_⟩
  obtain ⟨more, hmore⟩ := hlog
  rw [← hmore] at hno ⊢
  rw [lookup_recovered_append shardOf w hno (by rw [hlen]; exact h.lsn),
    Loader.lookup_replay_append shardOf _ _ (fun hin => hno (List.mem_append_right _ hin))]
  cases lastWrite k (more.flatMap LogRecord.writes) with
  | some => rfl
  | none => exact live_eq_mono hclock (h.same shardOf k)

theorem placed_replay (shardOf : Bytes → ShardId) (journal : List LogRecord) :
    Placed shardOf (Loader.replay shardOf journal) := by
  induction journal using List.reverseRecOn with
  | nil => exact fun _ _ _ => rfl
  | append_singleton journal rec ih =>
    rw [Loader.replay_concat]
    cases rec with
    | put key r => exact ih.onShard (fun sh k => sh.lookup_putLocked key r k)
    | delete key => exact ih.drop key
    | flushAll => exact fun _ _ _ => rfl
    | batch muts => exact ih.applyAll muts

theorem inv_init (shardOf : Bytes → ShardId) (clock : ℤ) : Inv (init shardOf clock) where
  wipe := List.not_mem_nil
  placed _ _ _ := rfl
  locked := locked_init shardOf clock
  agrees := agreement_init shardOf clock
  unwiped := by
    rintro sh ⟨j, hj⟩
    exact hj
  walk _ hw := by cases hw
  flushed := Nat.le_refl _
  sound _ hw := by cases hw

variable {s s' : State}

theorem Inv.log_length (h : Inv s) : s.log.length = s.flushed := List.length_take_of_le h.flushed

/-- One step of the clients or of a walk. -/
theorem Inv.run (h : Inv s) {r : SnapshotWalks.State} (hstep : SnapshotWalks.Step s.shardOf s.run r)
    (hwipe : .flushAll ∉ r.mem.journal) : Inv { s with run := r } := by
  cases hstep with
  | mem m hm =>
    obtain ⟨hjournal, hclock⟩ := mem_step_grows hm
    have hlog : State.log { s with run := s.run.setMem m } = s.log := by
      obtain ⟨more, hmore⟩ := hjournal
      change m.journal.take s.flushed = s.run.mem.journal.take s.flushed
      rw [← hmore, List.take_append_of_le_length h.flushed]
    have hkeeps : s.log <+: State.log { s with run := s.run.setMem m } := ⟨[], by simp [hlog]⟩
    refine ⟨hwipe, h.placed.step hm, h.locked.step hm,
      h.agrees.step h.locked hm (fun _ _ w _ _ => h.unwiped _),
      not_pendingWipe_step s.shardOf h.unwiped hm hwipe,
      fun w hw => (h.walk w hw).grow hjournal hclock, h.flushed.trans hjournal.length_le,
      fun w hw => (h.sound w hw).grow (Nat.le_refl _) hclock hkeeps h.log_length ?_⟩
    rw [hlog]
    exact fun hin => h.wipe (List.mem_of_mem_take hin)
  | begin =>
    refine ⟨h.wipe, h.placed, h.locked, h.agrees, h.unwiped, fun w hw => ?_, h.flushed,
      fun w hw => ⟨(h.sound w hw).lsn, (h.sound w hw).same⟩⟩
    cases hw
    exact WalkInv.begin _
  | copy w sh hwalk hnext hfree =>
    refine ⟨h.wipe, h.placed, h.locked, h.agrees, h.unwiped, fun w' hw => ?_, h.flushed,
      fun w hw => ⟨(h.sound w hw).lsn, (h.sound w hw).same⟩⟩
    cases hw
    exact (h.walk w hwalk).copy h.placed h.agrees hnext hfree (h.unwiped sh)

theorem Inv.flush (h : Inv s) {n : ℕ} (hlow : s.flushed ≤ n)
    (hhigh : n ≤ s.run.mem.journal.length) : Inv { s with flushed := n } := by
  refine ⟨h.wipe, h.placed, h.locked, h.agrees, h.unwiped, h.walk, hhigh, fun w hw => ?_⟩
  refine (h.sound w hw).grow hlow le_rfl (List.take_prefix_take_left hlow) h.log_length ?_
  exact fun hin => h.wipe (List.mem_of_mem_take hin)

theorem Inv.publish (h : Inv s) {w : Walk} (hwalk : s.run.walk = some w) (hdone : w.Done)
    (hflushed : ∀ sh, w.readAt sh ≤ s.flushed) : Inv { s with published := some w } := by
  refine ⟨h.wipe, h.placed, h.locked, h.agrees, h.unwiped, h.walk, h.flushed, fun w' hw => ?_⟩
  cases hw
  have hw := h.walk w hwalk
  have hzero : ((⟨0, by decide⟩ : ShardId) : ℕ) < w.next := by
    rw [hdone]
    decide
  refine ⟨(hw.bound _ hzero).1.trans (hflushed _), fun shardOf k => ?_⟩
  exact hw.recovers hdone h.wipe
    (fun k i rec hlt _ _ => Nat.lt_of_lt_of_le hlt (hflushed _)) shardOf k le_rfl

/-- What a new process has in memory is the log it found. -/
theorem Inv.reopened (h : Inv s) (shardOf : Bytes → ShardId) (k : Bytes) {now : ℤ}
    (hnow : s.run.mem.clock ≤ now) :
    live now ((s.reopened shardOf).lookup shardOf k) =
      live now ((Loader.replay shardOf s.log).lookup shardOf k) := by
  unfold State.reopened
  cases hp : s.published with
  | none => rfl
  | some w => exact live_eq_mono hnow ((h.sound w hp).same shardOf k)

theorem Inv.reopen (h : Inv s) (shardOf : Bytes → ShardId) :
    Inv { s with
      shardOf := shardOf
      run := ⟨⟨s.reopened shardOf, s.log, s.run.mem.clock, fun _ => none, fun _ => .idle⟩,
        none⟩ } := by
  have hlog : s.log.take s.flushed = s.log := by rw [State.log, List.take_take, Nat.min_self]
  have hplaced : Placed shardOf (s.reopened shardOf) := by
    unfold State.reopened
    split <;> exact placed_replay shardOf _
  refine ⟨fun hin => h.wipe (List.mem_of_mem_take hin), hplaced,
    ⟨fun _ _ _ _ hpc => Pc.noConfusion hpc, fun _ _ hpc => Pc.noConfusion hpc⟩, ⟨?_, ?_⟩, ?_,
    fun w hw => (by cases hw), h.log_length.ge, fun w hw => ?_⟩
  · rintro k ⟨j, hj⟩
    exact hj.elim
  · intro k _
    exact h.reopened shardOf k le_rfl
  · rintro sh ⟨j, hj⟩
    exact hj
  · obtain ⟨hlsn, hsame⟩ := h.sound w hw
    refine ⟨hlsn, ?_⟩
    change ∀ shardOf k, live s.run.mem.clock
      ((recovered shardOf w (s.log.take s.flushed)).lookup shardOf k) = live s.run.mem.clock
        ((Loader.replay shardOf (s.log.take s.flushed)).lookup shardOf k)
    rw [hlog]
    exact hsame

theorem Inv.step (h : Inv s) (hstep : Step s s') (hcond : PublishesFlushed s s') : Inv s' := by
  cases hstep with
  | run r hr hwipe => exact h.run hr hwipe
  | flush n hlow hhigh => exact h.flush hlow hhigh
  | publish w hwalk hdone =>
    by_cases hsame : s.published = some w
    · exact ⟨h.wipe, h.placed, h.locked, h.agrees, h.unwiped, h.walk, h.flushed,
        fun w' hw => ⟨(h.sound w' (hsame.trans hw)).lsn, (h.sound w' (hsame.trans hw)).same⟩⟩
    · exact h.publish hwalk hdone (hcond w rfl hsame)
  | reopen shardOf => exact h.reopen shardOf

/-- What a batch leaves at a key that no later record writes. -/
theorem lookup_replay_batch (shardOf : Bytes → ShardId) {journal : List LogRecord}
    (hno : .flushAll ∉ journal) {i n : ℕ} {muts : List Mutation}
    (hget : journal[i]? = some (.batch muts)) (hlt : i < n) {k : Bytes} {v : Option Record}
    (hv : Store.written k muts = some v)
    (hlast : ∀ j rec, i < j → j < n → journal[j]? = some rec → ¬ Writes rec k) :
    (Loader.replay shardOf (journal.take n)).lookup shardOf k = v := by
  rw [lookup_replay_take shardOf hno (Nat.succ_le_of_lt hlt)
    (fun j rec hj hjn => hlast j rec (Nat.lt_of_succ_le hj) hjn), List.take_add_one, hget,
    Option.toList_some, Loader.replay_concat, Loader.lookup_apply shardOf _ _ (by simp)]
  change (Store.written k muts).getD _ = v
  rw [hv]
  rfl

/-- The runs of one process, inside those over restarts. -/
theorem process_run (cond : State → State → Prop) {r : SnapshotWalks.State}
    (hrun : ReflTransGen (SnapshotWalks.Step s.shardOf) s.run r) (hwipe : .flushAll ∉ r.mem.journal)
    (hcond : ∀ a b : State, b.published = a.published → cond a b) :
    ReflTransGen (Guarded Step cond) s { s with run := r } := by
  induction hrun with
  | refl => exact .refl
  | tail _ hstep ih =>
    have hgrows := run_mem (.single hstep)
    refine (ih (fun hin => hwipe ?_)).tail ⟨.run _ _ hstep hwipe, hcond _ _ rfl⟩
    refine (List.IsPrefix.subset ?_) hin
    exact run_preserves (fun m => _ <+: m.journal) (fun _ _ h hm => h.trans (mem_step_grows hm).1)
      hgrows List.prefix_rfl

/-- Two keys of two shards. -/
def pairBatch : List Mutation := [⟨[], ⟨[118], 0⟩, false⟩, ⟨[1], ⟨[118], 0⟩, false⟩]

theorem pairBatch_run : ∃ m,
    ReflTransGen (Guarded (MemoryRuns.Step lengthHash) (fun _ _ => True)) (MemoryRuns.init 0) m ∧
      m.journal = [.batch pairBatch] ∧ m.clock = 0 ∧ ∀ sh, m.holder sh = none := by
  let c : Call := .multiWrite pairBatch
  let a : ShardId := lengthHash []
  let b : ShardId := lengthHash [1]
  have horder : c.order lengthHash = [a, b] := by decide
  let s1 := (MemoryRuns.init 0).setPc 0 (.locking c 0 [a, b])
  let s2 := (s1.take 0 a).setPc 0 (.locking c 0 [b])
  let s3 := (s2.take 0 b).setPc 0 (.locking c 0 [])
  let s4 := ((s3.setStore s3.store).log (.batch pairBatch)).setPc 0
    (.applying (byShard lengthHash pairBatch))
  have h1 : MemoryRuns.Step lengthHash (MemoryRuns.init 0) s1 := by
    have h : MemoryRuns.Step lengthHash (MemoryRuns.init 0) _ :=
      .call (MemoryRuns.init 0) 0 c rfl (by simp [c, pairBatch])
    rw [horder] at h
    exact h
  have h2 : MemoryRuns.Step lengthHash s1 s2 := .lock s1 0 c 0 a [b] (by simp [s1]) rfl
  have h3 : MemoryRuns.Step lengthHash s2 s3 := .lock s2 0 c 0 b [] (by simp [s2]) rfl
  have h4 : MemoryRuns.Step lengthHash s3 s4 :=
    .journal s3 0 c 0 s3.store _ _ (by simp [s3]) rfl
  have h5 : MemoryRuns.Step lengthHash s4 _ :=
    .apply s4 0 (byShard lengthHash pairBatch) (by simp [s4])
  refine ⟨_, ((((ReflTransGen.single ⟨h1, trivial⟩).tail ⟨h2, trivial⟩).tail ⟨h3, trivial⟩).tail
    ⟨h4, trivial⟩).tail ⟨h5, trivial⟩, rfl, rfl, ?_⟩
  intro sh
  by_cases hb : sh = b
  · simp [s4, s3, hb]
  · by_cases ha : sh = a
    · have hab : a ≠ b := by decide
      simp [s4, s3, s2, ha, hab]
    · simp [s4, s3, s2, s1, ha, hb, MemoryRuns.init]

/-- In every run that publishes an image only once the records it reflects have
left user space, a kill at any moment leaves every batch whole or absent. -/
theorem batches_recover_whole (shardOf : Bytes → ShardId) (clock : ℤ) (s : State)
    (hrun : ReflTransGen (Guarded Step PublishesFlushed) (init shardOf clock) s) :
    AllOrNothing s := by
  have h : Inv s := run_preserves Inv (fun _ _ h hstep => h.step hstep.1 hstep.2) hrun
    (inv_init shardOf clock)
  intro shardOf' now hnow
  refine ⟨s.flushed, h.flushed, fun k => h.reopened shardOf' k hnow, ?_⟩
  intro i muts hget hlt k v hv hlast
  rw [h.reopened shardOf' k hnow, State.log, lookup_replay_batch shardOf' h.wipe hget hlt hv hlast]

/-- A batch, flushed and then published in an image. -/
theorem flushed_batch_recovers_whole : ∃ s : State,
    ReflTransGen (Guarded Step PublishesFlushed) (init lengthHash 0) s ∧
      s.run.mem.journal = [.batch pairBatch] ∧ s.flushed = 1 ∧ s.published.isSome ∧
      AllOrNothing s := by
  have hsame : ∀ a b : State, b.published = a.published → PublishesFlushed a b := by
    intro a b heq w hw hne
    exact absurd (heq ▸ hw) hne
  obtain ⟨m, hbatch, hjournal, -, hfree⟩ := pairBatch_run
  have hlift := lift_run (fun _ _ => True) none hbatch (fun _ _ _ => trivial)
  have hbegin : SnapshotWalks.Step lengthHash ⟨m, none⟩ _ :=
    .begin ⟨m, none⟩ (fun w hw => by cases hw)
  obtain ⟨w, hcopy, hdone, -, hread, -⟩ := copy_run lengthHash (fun _ _ => True)
    (s := SnapshotWalks.State.setWalk ⟨m, none⟩ _) (w := Walk.begin m.journal.length) rfl
    (Nat.zero_le _) hfree (fun _ _ _ => trivial)
  have hprocess := process_run PublishesFlushed (s := init lengthHash 0)
    (guarded_run_is_run ((hlift.tail ⟨hbegin, trivial⟩).trans hcopy)) (by simp [hjournal]) hsame
  have hlen : m.journal.length = 1 := by rw [hjournal, List.length_singleton]
  have hflush := hprocess.tail ⟨.flush _ 1 (Nat.zero_le _) hlen.ge, hsame _ _ rfl⟩
  have hall := hflush.tail ⟨.publish _ w rfl hdone, fun w' hw _ sh => by
    cases hw
    rw [hread sh (Nat.zero_le _)]
    exact hlen.le⟩
  exact ⟨_, hall, hjournal, rfl, rfl, batches_recover_whole lengthHash 0 _ hall⟩

/-- A snapshot copies the first shard, a batch of two shards is journalled and
applied, the snapshot copies the rest and is renamed into place; the kill finds
the batch's record still in user space. The second key comes back alone. -/
theorem snapshot_tears_batch : ∃ s : State,
    ReflTransGen Step (init lengthHash 0) s ∧ s.run.mem.journal = [.batch pairBatch] ∧
      ¬ AllOrNothing s := by
  obtain ⟨m, hbatch, hjournal, hclock, hfree⟩ := pairBatch_run
  let w₁ : Walk := (Walk.begin 0).copy (lengthHash []) Shard.empty 0
  have hbegin : SnapshotWalks.Step lengthHash (SnapshotWalks.init 0) _ :=
    .begin (SnapshotWalks.init 0) (fun w hw => by cases hw)
  have hfirst : SnapshotWalks.Step lengthHash ⟨MemoryRuns.init 0, some (Walk.begin 0)⟩
      ⟨MemoryRuns.init 0, some w₁⟩ :=
    .copy ⟨MemoryRuns.init 0, some (Walk.begin 0)⟩ (Walk.begin 0) (lengthHash []) rfl rfl
      rfl
  have hlift := lift_run (fun _ _ => True) (some w₁) hbatch (fun _ _ _ => trivial)
  obtain ⟨w, hcopy, hdone, -, hread, hkeep, -⟩ := copy_run lengthHash (fun _ _ => True)
    (s := ⟨m, some w₁⟩) (w := w₁) rfl (by decide) hfree
    (fun _ _ _ => trivial)
  have hprocess : ReflTransGen (SnapshotWalks.Step lengthHash) (SnapshotWalks.init 0) _ :=
    ((ReflTransGen.single hbegin).tail hfirst).trans (guarded_run_is_run (hlift.trans hcopy))
  have hno : LogRecord.flushAll ∉ m.journal := by simp [hjournal]
  have hall := (process_run (fun _ _ => True) (s := init lengthHash 0) hprocess hno
    (fun _ _ _ => trivial)).tail ⟨.publish _ w rfl hdone, trivial⟩
  refine ⟨_, guarded_run_is_run hall, hjournal, fun hwhole => ?_⟩
  obtain ⟨n, hn, hsame, -⟩ := hwhole lengthHash 0 hclock.le
  -- the image has shard 0 before the batch and shard 1 after it
  have hcopied := fun k hk => ((walk_run hprocess).2 hno w rfl).copied k hk
  have hback : ∀ k, live 0 ((recovered lengthHash w []).lookup lengthHash k) = live 0 (w.at k) := by
    intro k
    rw [lookup_recovered lengthHash w List.not_mem_nil, List.drop_nil]
    rfl
  have hold : live 0 (w.at []) = none := by
    have h := hcopied [] (by rw [hdone]; decide)
    rw [hkeep _ (by decide)] at h
    change live m.clock _ = live m.clock _ at h
    rw [hclock] at h
    exact h
  have hnew : live 0 (w.at [1]) = some ⟨[118], 0⟩ := by
    have h := hcopied [1] (by rw [hdone]; decide)
    rw [hread _ (by decide)] at h
    change live m.clock _ = live m.clock ((Loader.replay _ (m.journal.take m.journal.length)).lookup
      _ _) at h
    rw [hclock, hjournal] at h
    exact h.trans (by decide)
  have hcase := fun k => (hback k).symm.trans (hsame k)
  change ∀ k, _ = live 0 ((Loader.replay lengthHash (m.journal.take n)).lookup _ k) at hcase
  change n ≤ m.journal.length at hn
  rw [hjournal] at hn hcase
  obtain rfl | rfl : n = 0 ∨ n = 1 := by
    simp only [List.length_singleton] at hn
    omega
  · exact absurd (hnew.symm.trans (hcase [1])) (by decide)
  · exact absurd (hold.symm.trans (hcase [])) (by decide)

end RedisFromScratch.SnapshotBatches
