import RedisFromScratch.SnapshotWalks

/-!
Snapshots and wipes. A wipe is journalled before it empties the first shard, so
a snapshot may bear a number above the wipe's and still copy a shard the wipe
has not reached. As long as no shard is copied while a journalled wipe is still
to empty it, every key of an image was written behind each wipe it covers.
-/
namespace RedisFromScratch.SnapshotWipes

open ByteStrings SortedTables StoreRecords MemoryStore MemoryAgreement MemoryJournalOrder
open SnapshotWalks Relation Runs
open MemoryRuns hiding State Step init Reachable

/-- The journal writes a key between two positions. -/
def WrittenIn (journal : List LogRecord) (k : Bytes) (low high : ℕ) : Prop :=
  ∃ i rec, low < i ∧ i < high ∧ journal[i]? = some rec ∧ Writes rec k

theorem WrittenIn.mono {journal journal' : List LogRecord} {k : Bytes} {low high high' : ℕ}
    (h : WrittenIn journal k low high) (hjournal : journal <+: journal') (hle : high ≤ high') :
    WrittenIn journal' k low high' := by
  obtain ⟨i, rec, hlow, hhigh, hget, hw⟩ := h
  refine ⟨i, rec, hlow, hhigh.trans_le hle, ?_, hw⟩
  obtain ⟨more, rfl⟩ := hjournal
  rw [List.getElem?_append_left (List.getElem?_eq_some_iff.mp hget).1, hget]

section

variable (shardOf : Bytes → ShardId)

/-- A key memory holds, or that the holder of its shard is about to write. -/
def Touched (m : MemoryRuns.State) (k : Bytes) : Prop :=
  m.store.lookup shardOf k ≠ none ∨ ∃ mu ∈ pending m (shardOf k), mu.key = k

/-- Outside the shards still to be wiped, a key in memory was written behind
every journalled wipe. -/
def BehindWipes (m : MemoryRuns.State) : Prop :=
  ∀ f, m.journal[f]? = some .flushAll → ∀ k, ¬ PendingWipe m (shardOf k) → Touched shardOf m k →
    WrittenIn m.journal k f m.journal.length

/-- No shard is copied while a journalled wipe is still to empty it. -/
def CopiesWiped (s s' : SnapshotWalks.State) : Prop :=
  ∀ w w', s.walk = some w → s'.walk = some w' → w'.next = w.next + 1 →
    ∀ sh : ShardId, w.next = sh → ¬ PendingWipe s.mem sh

/-- Every key of an image was written behind each wipe the image's number
covers, and before its shard was copied. -/
def NothingErased (s : SnapshotWalks.State) : Prop :=
  ∀ w, s.walk = some w → ∀ b ∈ w.image, ∀ f, s.mem.journal[f]? = some .flushAll → f + 1 ≤ w.lsn →
    WrittenIn s.mem.journal b.1 f (w.readAt (shardOf b.1))

end

variable {shardOf : Bytes → ShardId} {m m' : MemoryRuns.State}

/-- Steps that neither journal nor bring a key into memory. -/
theorem BehindWipes.of_touched (h : BehindWipes shardOf m) (hjournal : m'.journal = m.journal)
    (hwipe : ∀ sh, PendingWipe m' sh ↔ PendingWipe m sh)
    (htouched : ∀ k, Touched shardOf m' k → Touched shardOf m k) : BehindWipes shardOf m' := by
  intro f hf k hk ht
  rw [hjournal] at hf ⊢
  exact h f hf k (fun hp => hk ((hwipe _).mpr hp)) (htouched k ht)

theorem BehindWipes.of_move (h : BehindWipes shardOf m) {i : ℕ} {p : Pc}
    (hmuts : muts p = muts (m.pc i)) (hwipes : ∀ sh, Wipes sh p ↔ Wipes sh (m.pc i)) :
    BehindWipes shardOf (m.setPc i p) := by
  refine h.of_touched rfl (fun sh => pendingWipe_update rfl sh (hwipes sh)) (fun k ht => ?_)
  unfold Touched at ht
  rw [pending_setPc hmuts] at ht
  exact ht

theorem lookup_evictExpired_ne_none {st : Store} {key k : Bytes} {now : ℤ}
    (h : (evictExpired shardOf st key now).lookup shardOf k ≠ none) :
    st.lookup shardOf k ≠ none := by
  unfold evictExpired at h
  split at h
  · split at h
    · rw [Store.lookup_drop] at h
      split at h
      · exact absurd rfl h
      · exact h
    · exact h
  · exact h

theorem lookup_enter_ne_none {st : Store} {c : Call} {k : Bytes} {now : ℤ}
    (h : (c.enter shardOf st now).1.lookup shardOf k ≠ none) : st.lookup shardOf k ≠ none := by
  rcases enter_store shardOf st now c with heq | ⟨key, -, heq⟩
  · rwa [heq] at h
  · rw [heq] at h
    exact lookup_evictExpired_ne_none h

theorem written_ne_none {k : Bytes} {ms : List Mutation} (h : ∃ mu ∈ ms, mu.key = k) :
    Store.written k ms ≠ none := by
  obtain ⟨mu, hmu, rfl⟩ := h
  intro hnone
  exact (lastWrite_eq_none_iff mu.key _).mp hnone _ (List.mem_map_of_mem hmu) rfl

theorem BehindWipes.skip (h : BehindWipes shardOf m) {i : ℕ} {c : Call}
    {now : ℤ} {st : Store} (hpc : m.pc i = .locking c now [])
    (henter : c.enter shardOf m.store now = (st, none)) :
    BehindWipes shardOf ((m.setStore st).unlock i) := by
  have hst : st = (c.enter shardOf m.store now).1 := by rw [henter]
  refine h.of_touched rfl
    (fun sh' => pendingWipe_update rfl sh' (by rw [hpc]; exact Iff.rfl)) (fun k ht => ?_)
  rcases ht with ht | ht
  · change st.lookup shardOf k ≠ none at ht
    rw [hst] at ht
    exact Or.inl (lookup_enter_ne_none ht)
  · right
    rw [pending_unlock, State.setStore_holder, pending_setStore] at ht
    split at ht
    · obtain ⟨mu, hmu, -⟩ := ht
      cases hmu
    · exact ht

theorem BehindWipes.apply (h : BehindWipes shardOf m) (hl : Locked shardOf m) {i : ℕ}
    {ms : List Mutation} (hpc : m.pc i = .applying ms) :
    BehindWipes shardOf ((m.setStore (m.store.applyAll shardOf ms)).unlock i) := by
  refine h.of_touched rfl
    (fun sh' => pendingWipe_update rfl sh' (by rw [hpc]; exact Iff.rfl)) (fun k ht => ?_)
  rcases ht with ht | ht
  · change (m.store.applyAll shardOf ms).lookup shardOf k ≠ none at ht
    rw [Store.lookup_applyAll] at ht
    by_cases hin : ∃ mu ∈ ms, mu.key = k
    · right
      obtain ⟨mu, hmu, rfl⟩ := hin
      rw [pending_of_held (hl.applying i ms hpc mu hmu), hpc]
      exact ⟨mu, hmu, rfl⟩
    · left
      rw [Store.written_eq_none (fun mu hmu heq => hin ⟨mu, hmu, heq⟩)] at ht
      exact ht
  · right
    rw [pending_unlock, State.setStore_holder, pending_setStore] at ht
    split at ht
    · obtain ⟨mu, hmu, -⟩ := ht
      cases hmu
    · exact ht

/-- A record journalled under its locks is behind every wipe there is. -/
theorem BehindWipes.journal (h : BehindWipes shardOf m) {i : ℕ} {c : Call} {now : ℤ} {st : Store}
    {rec : LogRecord} {ms : List Mutation}
    (hpc : m.pc i = .locking c now [])
    (henter : c.enter shardOf m.store now = (st, some (rec, ms))) :
    BehindWipes shardOf (((m.setStore st).log rec).setPc i (.applying ms)) := by
  have hj := journals_of_enter shardOf henter
  have hst : st = (c.enter shardOf m.store now).1 := by rw [henter]
  intro f hf k hk ht
  change (m.journal ++ [rec])[f]? = _ at hf
  have hold : f < m.journal.length ∧ m.journal[f]? = some .flushAll := by
    rcases Nat.lt_or_ge f m.journal.length with hlt | hge
    · rw [List.getElem?_append_left hlt] at hf
      exact ⟨hlt, hf⟩
    · rw [List.getElem?_append_right hge] at hf
      cases hz : f - m.journal.length with
      | zero =>
        rw [hz] at hf
        exact absurd (Option.some.inj hf) hj.notWipe
      | succ =>
        rw [hz] at hf
        cases hf
  have hwipe : ¬ PendingWipe m (shardOf k) := fun hp =>
    hk ((pendingWipe_update (p := .applying ms) rfl _ (by rw [hpc]; exact Iff.rfl)).mpr hp)
  by_cases hin : ∃ mu ∈ ms, mu.key = k
  -- the record itself writes the key
  · refine ⟨m.journal.length, rec, hold.1, by simp, by simp, ?_⟩
    have hwritten := written_ne_none hin
    rw [hj.written] at hwritten
    obtain ⟨v, hv⟩ := Option.ne_none_iff_exists'.mp hwritten
    exact ⟨v, mem_of_lastWrite hv⟩
  · refine (h f hold.2 k hwipe ?_).mono (List.prefix_append _ _) (by simp)
    rcases ht with ht | ⟨mu, hmu, hkey⟩
    · change st.lookup shardOf k ≠ none at ht
      rw [hst] at ht
      exact Or.inl (lookup_enter_ne_none ht)
    · right
      by_cases hmine : m.holder (shardOf k) = some i
      · refine absurd ⟨mu, ?_, hkey⟩ hin
        have hmine' : (((m.setStore st).log rec).setPc i (.applying ms)).holder (shardOf k) =
            some i := hmine
        rw [pending_of_held hmine', State.setPc_pc, Function.update_self] at hmu
        exact hmu
      · rw [pending_setPc_of_not_held (by simpa using hmine), pending_log,
          pending_setStore] at hmu
        exact ⟨mu, hmu, hkey⟩

theorem BehindWipes.wipe (h : BehindWipes shardOf m) {i : ℕ} {sh : ShardId}
    (hpc : m.pc i = .wiping sh) (hfree : m.holder sh = none) :
    BehindWipes shardOf
      ((m.setStore (Function.update m.store sh Shard.empty)).setPc i (.wiping (sh + 1))) := by
  intro f hf k hk ht
  have hpend : ∀ sh', pending
      ((m.setStore (Function.update m.store sh Shard.empty)).setPc i (.wiping (sh + 1))) sh' =
        pending m sh' := by
    intro sh'
    rw [pending_setPc (by rw [State.setStore_pc, hpc]; rfl), pending_setStore]
  unfold Touched at ht
  rw [hpend] at ht
  by_cases hsh : shardOf k = sh
  -- the shard is empty and nobody is writing to it
  · rcases ht with ht | ⟨mu, hmu, -⟩
    · exact absurd (by simp [Store.lookup, hsh, Shard.empty]) ht
    · rw [pending_of_free (hsh ▸ hfree)] at hmu
      cases hmu
  · have hdone : Wipes (shardOf k) (.wiping (sh + 1)) ↔ Wipes (shardOf k) (m.pc i) := by
      rw [hpc]
      have hval : (shardOf k : ℕ) ≠ sh := fun heq => hsh (Fin.ext heq)
      simp only [Wipes]
      omega
    refine h f hf k (fun hp => hk ((pendingWipe_update rfl _ hdone).mpr hp)) (ht.imp_left ?_)
    intro hlook
    simpa [Store.lookup, hsh] using hlook

theorem BehindWipes.step (h : BehindWipes shardOf m) (hl : Locked shardOf m)
    (hstep : MemoryRuns.Step shardOf m m') : BehindWipes shardOf m' := by
  cases hstep with
  | call i c hpc | get i key hpc =>
    exact h.of_move (by rw [hpc]; rfl) (fun sh => by rw [hpc]; exact Iff.rfl)
  | lock i c now sh todo hpc =>
    refine h.of_touched rfl
      (fun sh' => pendingWipe_update rfl sh' (by rw [hpc]; exact Iff.rfl)) (fun k ht => ?_)
    refine ht.imp_right ?_
    rintro ⟨mu, hmu, hkey⟩
    refine ⟨mu, ?_, hkey⟩
    by_cases hsh : shardOf k = sh
    · rw [pending_of_held (i := i) (by simp [hsh]), State.setPc_pc, Function.update_self] at hmu
      cases hmu
    · unfold pending at hmu ⊢
      simp only [State.setPc_holder, State.take_holder, Function.update_of_ne hsh] at hmu
      cases hh : m.holder (shardOf k) with
      | none =>
        rw [hh] at hmu
        exact hmu
      | some j =>
        rw [hh] at hmu
        have hsame := muts_update (s := m) (i := i) (p := .locking c now todo)
          (by rw [hpc]; rfl) j
        change mu ∈ muts (Function.update m.pc i (.locking c now todo) j) at hmu
        rw [hsame] at hmu
        exact hmu
  | journal i c now st rec ms hpc henter => exact h.journal hpc henter
  | skip i c now st hpc henter => exact h.skip hpc henter
  | apply i ms hpc => exact h.apply hl hpc
  | getRead i key now hpc => refine h.of_move ?_ (fun sh => ?_) <;> rw [hpc] <;> split <;> rfl
  | getReclaim i key hpc =>
    refine h.of_touched rfl
      (fun sh => pendingWipe_update (p := .idle) rfl sh (by rw [hpc]; exact Iff.rfl))
      (fun k ht => ?_)
    refine ht.imp (fun hlook => lookup_evictExpired_ne_none hlook) (fun hpend => ?_)
    rwa [pending_setPc (by rw [State.setStore_pc, hpc]; rfl), pending_setStore] at hpend
  | flushAll i =>
    intro f _ k hk
    exact absurd ⟨i, by simp [Wipes]⟩ hk
  | wipe i sh hpc hfree => exact h.wipe hpc hfree
  | wiped i hpc =>
    refine h.of_move (by rw [hpc]; rfl) (fun sh => ?_)
    rw [hpc]
    simp only [Wipes, false_iff]
    omega
  | tick => exact h.of_touched rfl (fun _ => Iff.rfl) (fun _ ht => ht)

/-- What was copied is behind the wipes of its moment. -/
structure ImageInv (shardOf : Bytes → ShardId) (m : MemoryRuns.State) (w : Walk) : Prop where
  lsn : w.lsn ≤ m.journal.length
  bound : ∀ sh : ShardId, (sh : ℕ) < w.next → w.lsn ≤ w.readAt sh ∧
    w.readAt sh ≤ m.journal.length
  behind : ∀ b ∈ w.image, (shardOf b.1 : ℕ) < w.next ∧ ∀ f, m.journal[f]? = some .flushAll →
    f < w.readAt (shardOf b.1) → WrittenIn m.journal b.1 f (w.readAt (shardOf b.1))

theorem ImageInv.grow {w : Walk} (h : ImageInv shardOf m w) (hjournal : m.journal <+: m'.journal) :
    ImageInv shardOf m' w where
  lsn := h.lsn.trans hjournal.length_le
  bound sh hsh := ⟨(h.bound sh hsh).1, (h.bound sh hsh).2.trans hjournal.length_le⟩
  behind b hb := by
    obtain ⟨hlt, hbehind⟩ := h.behind b hb
    refine ⟨hlt, fun f hf hlow => ?_⟩
    obtain ⟨more, hmore⟩ := hjournal
    have hshort := (h.bound _ hlt).2
    rw [← hmore, List.getElem?_append_left (by omega)] at hf
    exact (hbehind f hf hlow).mono ⟨more, hmore⟩ (Nat.le_refl _)

theorem ImageInv.copy {w : Walk} (h : ImageInv shardOf m w) (hplaced : Placed shardOf m.store)
    (hbehind : BehindWipes shardOf m) {sh : ShardId} (hnext : w.next = sh)
    (hwipe : ¬ PendingWipe m sh) :
    ImageInv shardOf m (w.copy sh (m.store sh) m.journal.length) := by
  refine ⟨h.lsn, ?_, ?_⟩
  · intro sh' hlt
    rcases Walk.copied_cases hnext hlt with hlt | rfl
    · rw [Walk.readAt_copy_before hnext hlt]
      exact h.bound sh' hlt
    · rw [Walk.readAt_copy_self]
      exact ⟨h.lsn, Nat.le_refl _⟩
  · intro b hb
    rw [Walk.copy_next]
    rcases List.mem_append.mp hb with hb | hb
    · obtain ⟨hlt, hold⟩ := h.behind b hb
      rw [Walk.readAt_copy_before hnext hlt]
      exact ⟨by omega, hold⟩
    · have hlook : (m.store sh).m.lookup b.1 = some b.2 :=
        ((m.store sh).m.mem_entries_iff _ _).mp hb
      have hsh : shardOf b.1 = sh := by
        by_contra hne
        rw [hplaced sh b.1 hne] at hlook
        cases hlook
      refine ⟨by rw [hsh]; omega, fun f hf _ => ?_⟩
      rw [hsh, Walk.readAt_copy_self]
      refine hbehind f hf b.1 (hsh ▸ hwipe) (Or.inl ?_)
      rw [Store.lookup, hsh, hlook]
      exact Option.some_ne_none _

/-- As long as no shard is copied while a journalled wipe is still to empty it,
no image holds a key that a wipe below its number has erased. -/
theorem snapshot_keeps_wipes (clock : ℤ) (s : SnapshotWalks.State)
    (hrun : ReflTransGen (Guarded (SnapshotWalks.Step shardOf) CopiesWiped)
      (SnapshotWalks.init clock) s) : NothingErased shardOf s := by
  have hinv : Placed shardOf s.mem.store ∧ Locked shardOf s.mem ∧ BehindWipes shardOf s.mem ∧
      ∀ w, s.walk = some w → ImageInv shardOf s.mem w := by
    refine run_preserves (fun s => Placed shardOf s.mem.store ∧ Locked shardOf s.mem ∧
      BehindWipes shardOf s.mem ∧ ∀ w, s.walk = some w → ImageInv shardOf s.mem w) ?_ hrun
      ⟨fun _ _ _ => rfl, locked_init shardOf clock,
        fun _ hf => absurd hf (by simp [SnapshotWalks.init, MemoryRuns.init]),
        fun _ hw => absurd hw (by simp [SnapshotWalks.init])⟩
    rintro s s' ⟨hplaced, hlocked, hbehind, hwalk⟩ ⟨hstep, hcond⟩
    cases hstep with
    | mem m hm =>
      exact ⟨hplaced.step hm, hlocked.step hm, hbehind.step hlocked hm,
        fun w hw => (hwalk w hw).grow (mem_step_grows hm).1⟩
    | begin =>
      refine ⟨hplaced, hlocked, hbehind, fun w hw => ?_⟩
      cases hw
      exact ⟨Nat.le_refl _, fun sh hsh => absurd hsh (Nat.not_lt_zero _), fun b hb => by cases hb⟩
    | copy w sh hw hnext =>
      refine ⟨hplaced, hlocked, hbehind, fun w' hw' => ?_⟩
      cases hw'
      exact (hwalk w hw).copy hplaced hbehind hnext (hcond w _ hw rfl rfl sh hnext)
  intro w hw b hb f hf hle
  obtain ⟨-, hbound, hbehind⟩ := hinv.2.2.2 w hw
  obtain ⟨hlt, hold⟩ := hbehind b hb
  exact hold f hf (Nat.lt_of_lt_of_le hle (hbound _ hlt).1)

/-- A key put into a fresh store, and its journal. -/
theorem one_put : ∃ m, ReflTransGen (Guarded (MemoryRuns.Step lengthHash) (fun _ _ => True))
    (MemoryRuns.init 0) m ∧ m.journal = [.put [107] ⟨[118], 0⟩] ∧
      m.store.lookup lengthHash [107] = some ⟨[118], 0⟩ ∧ (∀ sh, m.holder sh = none) ∧
      ∀ i, m.pc i = .idle := by
  obtain ⟨m, hrun, hstore, hjournal, -, hfree, hpc⟩ :=
    put_run lengthHash (fun _ _ => True) (s := MemoryRuns.init 0) (i := 0)
      [107] ⟨[118], 0⟩ rfl (fun _ => rfl) (fun _ _ _ => trivial) (fun _ _ _ _ => trivial)
  refine ⟨m, hrun, hjournal, ?_, hfree, fun i => by rw [hpc]; rfl⟩
  rw [hstore, Store.lookup_put, if_pos rfl]

/-- Walking after a wipe has finished: the key is gone from the image. -/
theorem snapshot_after_wipe : ∃ (s : SnapshotWalks.State) (w : Walk),
    ReflTransGen (Guarded (SnapshotWalks.Step lengthHash) CopiesWiped)
      (SnapshotWalks.init 0) s ∧ s.walk = some w ∧ w.Done ∧ w.lsn = 2 ∧
      s.mem.journal = [.put [107] ⟨[118], 0⟩, .flushAll] ∧ NothingErased lengthHash s := by
  obtain ⟨m, hput, hjournal, -, hfree, hidle⟩ := one_put
  have hflush : MemoryRuns.Step lengthHash m ((m.log .flushAll).setPc 0 (.wiping 0)) :=
    .flushAll m 0 (hidle 0)
  have hwipe := wipe_run lengthHash (fun _ _ => True) (fun _ _ _ => trivial) (Nat.zero_le _)
    (s := (m.log .flushAll).setPc 0 (.wiping 0)) (i := 0) (by simp) hfree
  have hsame : ∀ a b : SnapshotWalks.State, a.walk = b.walk → CopiesWiped a b := by
    intro a b heq w w' hw hw' hnext
    rw [heq, hw'] at hw
    cases hw
    omega
  have hlift := lift_run CopiesWiped none ((hput.tail ⟨hflush, trivial⟩).trans hwipe) hsame
  generalize hm' : ((((m.log .flushAll).setPc 0 (.wiping 0)).setStore
    (fun sh => if 0 ≤ (sh : ℕ) then Shard.empty
      else ((m.log .flushAll).setPc 0 (.wiping 0)).store sh)).setPc 0 .idle) = m' at hlift
  have hfree' : ∀ sh, m'.holder sh = none := by
    intro sh
    rw [← hm']
    exact hfree sh
  have hjournal' : m'.journal = [.put [107] ⟨[118], 0⟩, .flushAll] := by
    rw [← hm']
    change m.journal ++ [.flushAll] = _
    rw [hjournal]
    rfl
  have hidle' : ∀ sh, ¬ PendingWipe m' sh := by
    rintro sh ⟨i, hi⟩
    rw [← hm', State.setPc_pc] at hi
    by_cases hi0 : i = 0
    · rw [hi0, Function.update_self] at hi
      exact hi
    · rw [Function.update_of_ne hi0, State.setStore_pc, State.setPc_pc,
        Function.update_of_ne hi0, State.log_pc, hidle i] at hi
      exact hi
  have hbegin : SnapshotWalks.Step lengthHash ⟨m', none⟩ _ :=
    .begin ⟨m', none⟩ (fun w hw => by cases hw)
  obtain ⟨w, hcopy, hdone, hlsn, -⟩ := copy_run lengthHash CopiesWiped
    (s := SnapshotWalks.State.setWalk ⟨m', none⟩ _)
    (w := Walk.begin m'.journal.length) rfl (Nat.zero_le _) hfree'
    (fun a b ha w w' _ _ _ sh _ => by rw [ha]; exact hidle' sh)
  have hall := (hlift.tail ⟨hbegin, fun w w' hw => by cases hw⟩).trans hcopy
  refine ⟨_, w, hall, rfl, hdone, ?_, hjournal', snapshot_keeps_wipes 0 _ hall⟩
  rw [hlsn, hjournal']
  rfl

/-- A snapshot begins behind a wipe's record and overtakes the wipe: its image
bears a number above the wipe's and holds the key put before it. -/
theorem snapshot_overtakes_wipe : ∃ s,
    ReflTransGen (SnapshotWalks.Step lengthHash) (SnapshotWalks.init 0) s ∧
      (∃ w, s.walk = some w ∧ w.Done) ∧ ¬ NothingErased lengthHash s := by
  obtain ⟨m, hput, hjournal, hlook, hfree, hidle⟩ := one_put
  have hflush : MemoryRuns.Step lengthHash m ((m.log .flushAll).setPc 0 (.wiping 0)) :=
    .flushAll m 0 (hidle 0)
  have hlift := lift_run (fun _ _ => True) none (hput.tail ⟨hflush, trivial⟩) (fun _ _ _ => trivial)
  generalize hm' : (m.log .flushAll).setPc 0 (.wiping 0) = m' at hlift
  have hstore : m'.store = m.store := by
    rw [← hm']
    rfl
  have hjournal' : m'.journal = [.put [107] ⟨[118], 0⟩, .flushAll] := by
    rw [← hm']
    change m.journal ++ [.flushAll] = _
    rw [hjournal]
    rfl
  have hbegin : SnapshotWalks.Step lengthHash ⟨m', none⟩ _ :=
    .begin ⟨m', none⟩ (fun w hw => by cases hw)
  obtain ⟨w, hcopy, hdone, hlsn, hread, -, himage⟩ := copy_run lengthHash (fun _ _ => True)
    (s := SnapshotWalks.State.setWalk ⟨m', none⟩ _)
    (w := Walk.begin m'.journal.length) rfl (Nat.zero_le _)
    (fun sh => by rw [← hm']; exact hfree sh) (fun _ _ _ => trivial)
  refine ⟨_, guarded_run_is_run ((hlift.tail ⟨hbegin, trivial⟩).trans hcopy), ⟨w, rfl, hdone⟩, ?_⟩
  intro hkept
  have hmem : (([107], ⟨[118], 0⟩) : Bytes × Record) ∈ w.image := by
    refine (himage _).mpr (Or.inr ⟨lengthHash [107], Nat.zero_le _, ?_⟩)
    change _ ∈ (m'.store _).m.entries
    rw [hstore, Table.mem_entries_iff]
    exact hlook
  obtain ⟨i, rec, hlow, hhigh, -⟩ := hkept w rfl _ hmem 1 (by simp [hjournal'])
    (by rw [hlsn, hjournal']; decide)
  rw [hread _ (Nat.zero_le _)] at hhigh
  simp only [SnapshotWalks.State.setWalk_mem, hjournal', List.length_cons, List.length_nil] at hhigh
  omega

end RedisFromScratch.SnapshotWipes
