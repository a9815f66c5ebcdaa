import RedisFromScratch.MemoryJournalOrder

/-!
Fuzzy snapshots. A snapshot reads the last sequence number, then copies the
shards one at a time, each at a moment nobody holds its lock, while clients go
on. The image is no single instant's content. Loading it and replaying the
records behind its number still gives the content of the log, because a key's
copy differs from the log at that number only by records that are replayed.
-/
namespace RedisFromScratch.SnapshotWalks

open ByteStrings SortedTables StoreRecords MemoryStore MemoryAgreement MemoryJournalOrder
open Relation Runs
open MemoryRuns hiding State Step init Reachable

/-- A snapshot under way: the number it bears, the next shard to copy, what has
been copied, and how long the journal was when each shard was. -/
structure Walk where
  lsn : ℕ
  next : ℕ
  image : List (Bytes × Record)
  readAt : ShardId → ℕ

structure State where
  mem : MemoryRuns.State
  walk : Option Walk

def init (clock : ℤ) : State := ⟨MemoryRuns.init clock, none⟩

@[simps] def State.setMem (s : State) (m : MemoryRuns.State) : State := { s with mem := m }

@[simps] def State.setWalk (s : State) (w : Walk) : State := { s with walk := some w }

def Walk.begin (lsn : ℕ) : Walk := ⟨lsn, 0, [], fun _ => 0⟩

@[simps] def Walk.copy (w : Walk) (sh : ShardId) (shard : Shard) (length : ℕ) : Walk where
  lsn := w.lsn
  next := w.next + 1
  image := w.image ++ shard.m.entries
  readAt := Function.update w.readAt sh length

def Walk.Done (w : Walk) : Prop := w.next = shardCount

inductive Step (shardOf : Bytes → ShardId) : State → State → Prop
  | mem (s : State) (m : MemoryRuns.State) (hstep : MemoryRuns.Step shardOf s.mem m) :
      Step shardOf s (s.setMem m)
  -- one snapshot at a time; the number is read before the first shard
  | begin (s : State) (hidle : ∀ w, s.walk = some w → w.Done) :
      Step shardOf s (s.setWalk (Walk.begin s.mem.journal.length))
  | copy (s : State) (w : Walk) (sh : ShardId) (hwalk : s.walk = some w) (hnext : w.next = sh)
      (hfree : s.mem.holder sh = none) :
      Step shardOf s (s.setWalk (w.copy sh (s.mem.store sh) s.mem.journal.length))

/-- A log record that writes a key. -/
def Writes (rec : LogRecord) (k : Bytes) : Prop := ∃ v, (k, v) ∈ rec.writes

/-- Loading the image puts its records in place one by one; the log behind the
image's number is replayed on top. -/
def recovered (shardOf : Bytes → ShardId) (w : Walk) (log : List LogRecord) : Store :=
  Loader.replay shardOf (w.image.map (fun b => .put b.1 b.2) ++ log.drop w.lsn)

/-- The prefix holds every record the copies have seen the effect of. -/
def Covers (shardOf : Bytes → ShardId) (w : Walk) (journal : List LogRecord) (n : ℕ) : Prop :=
  ∀ k i rec, i < w.readAt (shardOf k) → journal[i]? = some rec → Writes rec k → i < n

variable {shardOf : Bytes → ShardId}

theorem mem_step_grows {s s' : MemoryRuns.State} (h : MemoryRuns.Step shardOf s s') :
    s.journal <+: s'.journal ∧ s.clock ≤ s'.clock := by
  cases h with
  | journal | flushAll => exact ⟨List.prefix_append _ _, le_rfl⟩
  | tick later hle => exact ⟨List.prefix_rfl, hle⟩
  | _ => exact ⟨List.prefix_rfl, le_rfl⟩

theorem run_mem {s t : State} (h : ReflTransGen (Step shardOf) s t) :
    ReflTransGen (MemoryRuns.Step shardOf) s.mem t.mem := by
  induction h with
  | refl => exact .refl
  | tail _ hstep ih =>
    cases hstep with
    | mem m hm => exact ih.tail hm
    | begin | copy => exact ih

/-- The image, key by key. -/
def Walk.at (w : Walk) (k : Bytes) : Option Record := lastWrite k w.image

/-- A copied key has what the journal of that moment leaves it; the others are
not in the image yet. -/
structure WalkInv (shardOf : Bytes → ShardId) (m : MemoryRuns.State) (w : Walk) : Prop where
  bound : ∀ sh : ShardId, (sh : ℕ) < w.next → w.lsn ≤ w.readAt sh ∧
    w.readAt sh ≤ m.journal.length
  lsn : w.lsn ≤ m.journal.length
  copied : ∀ k, (shardOf k : ℕ) < w.next → live m.clock (w.at k) = live m.clock
    ((Loader.replay shardOf (m.journal.take (w.readAt (shardOf k)))).lookup shardOf k)
  absent : ∀ k, w.next ≤ (shardOf k : ℕ) → w.at k = none

theorem WalkInv.begin (m : MemoryRuns.State) :
    WalkInv shardOf m (Walk.begin m.journal.length) where
  bound _ h := absurd h (Nat.not_lt_zero _)
  lsn := Nat.le_refl _
  copied _ h := absurd h (Nat.not_lt_zero _)
  absent _ _ := rfl

/-- The clients go on: the journal grows behind what was copied. -/
theorem WalkInv.grow {m m' : MemoryRuns.State} {w : Walk} (h : WalkInv shardOf m w)
    (hjournal : m.journal <+: m'.journal) (hclock : m.clock ≤ m'.clock) :
    WalkInv shardOf m' w where
  bound sh hsh := ⟨(h.bound sh hsh).1, (h.bound sh hsh).2.trans hjournal.length_le⟩
  lsn := h.lsn.trans hjournal.length_le
  copied k hk := by
    obtain ⟨more, hmore⟩ := hjournal
    rw [← hmore, List.take_append_of_le_length (h.bound _ hk).2]
    exact live_eq_mono hclock (h.copied k hk)
  absent := h.absent

theorem Walk.at_copy (w : Walk) (sh : ShardId) (shard : Shard) (n : ℕ) (k : Bytes) :
    (w.copy sh shard n).at k = (shard.m.lookup k).or (w.at k) := by
  rw [Walk.at, Walk.copy_image, lastWrite_append, Table.lastWrite_entries, Walk.at]

theorem Walk.readAt_copy_self (w : Walk) (sh : ShardId) (shard : Shard) (n : ℕ) :
    (w.copy sh shard n).readAt sh = n := by
  rw [Walk.copy_readAt, Function.update_self]

theorem Walk.readAt_copy_before {w : Walk} {sh sh' : ShardId} (hnext : w.next = sh)
    (hlt : (sh' : ℕ) < w.next) (shard : Shard) (n : ℕ) :
    (w.copy sh shard n).readAt sh' = w.readAt sh' := by
  have hne : sh' ≠ sh := by
    rintro rfl
    omega
  rw [Walk.copy_readAt, Function.update_of_ne hne]

/-- A shard copied by now was copied before or is the one just copied. -/
theorem Walk.copied_cases {w : Walk} {sh : ShardId} (hnext : w.next = sh) {sh' : ShardId}
    (hlt : (sh' : ℕ) < w.next + 1) : (sh' : ℕ) < w.next ∨ sh' = sh := by
  rcases Nat.lt_succ_iff_lt_or_eq.mp hlt with hlt | heq
  · exact Or.inl hlt
  · exact Or.inr (Fin.ext (heq.trans hnext))

/-- A shard holds the keys of its own hash only. -/
def Placed (shardOf : Bytes → ShardId) (st : Store) : Prop :=
  ∀ sh k, shardOf k ≠ sh → (st sh).m.lookup k = none

theorem Placed.onShard {st : Store} (h : Placed shardOf st) {key : Bytes} {f : Shard → Shard}
    {v : Option Record}
    (hf : ∀ sh k, (f sh).m.lookup k = if k = key then v else sh.m.lookup k) :
    Placed shardOf (st.onShard shardOf key f) := by
  intro sh k hk
  unfold Store.onShard
  by_cases hsh : sh = shardOf key
  · subst hsh
    have hne : k ≠ key := fun heq => hk (congrArg shardOf heq)
    rw [Function.update_self, hf, if_neg hne]
    exact h _ k hk
  · rw [Function.update_of_ne hsh]
    exact h sh k hk

theorem Placed.drop {st : Store} (h : Placed shardOf st) (key : Bytes) :
    Placed shardOf (st.drop shardOf key) := h.onShard (fun sh k => sh.lookup_dropLocked key k)

theorem Placed.applyAll {st : Store} (h : Placed shardOf st) (muts : List Mutation) :
    Placed shardOf (st.applyAll shardOf muts) := by
  induction muts generalizing st with
  | nil => exact h
  | cons m muts ih =>
    refine ih ?_
    change Placed shardOf (st.apply shardOf m)
    unfold Store.apply
    split
    · exact h.drop m.key
    · exact h.onShard (fun sh k => sh.lookup_putLocked m.key m.record k)

theorem Placed.evictExpired {st : Store} (h : Placed shardOf st) (key : Bytes) (now : ℤ) :
    Placed shardOf (evictExpired shardOf st key now) := by
  unfold MemoryRuns.evictExpired
  split
  · split
    · exact h.drop key
    · exact h
  · exact h

theorem Placed.enter {st : Store} (h : Placed shardOf st) (now : ℤ) (c : Call) :
    Placed shardOf (c.enter shardOf st now).1 := by
  rcases enter_store shardOf st now c with heq | ⟨key, -, heq⟩
  · rw [heq]
    exact h
  · rw [heq]
    exact h.evictExpired key now

theorem Placed.step {m m' : MemoryRuns.State} (h : Placed shardOf m.store)
    (hstep : MemoryRuns.Step shardOf m m') : Placed shardOf m'.store := by
  cases hstep with
  | journal i c now st rec muts hpc henter =>
    have hst : st = (c.enter shardOf m.store now).1 := by rw [henter]
    rw [hst]
    exact h.enter now c
  | skip i c now st hpc henter =>
    have hst : st = (c.enter shardOf m.store now).1 := by rw [henter]
    change Placed shardOf st
    rw [hst]
    exact h.enter now c
  | apply i muts => exact h.applyAll muts
  | getReclaim i key => exact h.evictExpired key m.clock
  | wipe i sh =>
    intro sh' k hk
    by_cases hsh : sh' = sh
    · simp [hsh, Shard.empty]
    · simp [hsh, h sh' k hk]
  | _ => exact h

/-- Copying a shard nobody holds and nobody is about to wipe. -/
theorem WalkInv.copy {m : MemoryRuns.State} {w : Walk} (h : WalkInv shardOf m w)
    (hplaced : Placed shardOf m.store) (hagree : Agreement shardOf m) {sh : ShardId}
    (hnext : w.next = sh) (hfree : m.holder sh = none) (hwipe : ¬ PendingWipe m sh) :
    WalkInv shardOf m (w.copy sh (m.store sh) m.journal.length) := by
  refine ⟨?_, h.lsn, ?_, ?_⟩
  · intro sh' hlt
    rcases Walk.copied_cases hnext hlt with hlt | rfl
    · rw [Walk.readAt_copy_before hnext hlt]
      exact h.bound sh' hlt
    · rw [Walk.readAt_copy_self]
      exact ⟨h.lsn, Nat.le_refl _⟩
  · intro k hlt
    rw [Walk.at_copy]
    rcases Walk.copied_cases hnext hlt with hlt | hsh
    · have hother : shardOf k ≠ sh := by
        rintro rfl
        omega
      rw [hplaced sh k hother, Option.none_or, Walk.readAt_copy_before hnext hlt]
      exact h.copied k hlt
    · rw [h.absent k (by rw [hsh, hnext]), Option.or_none, hsh, Walk.readAt_copy_self,
        List.take_length]
      have hlook : (m.store sh).m.lookup k = m.store.lookup shardOf k := by
        rw [Store.lookup, hsh]
      rw [hlook]
      exact Agreement.of_settled_shard shardOf hagree (hsh ▸ hwipe)
        (pending_of_free (hsh ▸ hfree)) shardOf
  · intro k hle
    have hother : shardOf k ≠ sh := by
      rintro rfl
      rw [Walk.copy_next] at hle
      omega
    rw [Walk.at_copy, hplaced sh k hother, Option.none_or]
    exact h.absent k (Nat.le_of_succ_le hle)

/-- Until a wipe is journalled, every walk keeps its invariant. -/
theorem walk_run {clock : ℤ} {s : State} (hrun : ReflTransGen (Step shardOf) (init clock) s) :
    Placed shardOf s.mem.store ∧
      (.flushAll ∉ s.mem.journal → ∀ w, s.walk = some w → WalkInv shardOf s.mem w) := by
  induction hrun with
  | refl => exact ⟨fun _ _ _ => rfl, fun _ w hw => by cases hw⟩
  | tail hprev hstep ih =>
    obtain ⟨hplaced, hwalk⟩ := ih
    cases hstep with
    | mem m hm =>
      obtain ⟨hjournal, hclock⟩ := mem_step_grows hm
      refine ⟨hplaced.step hm, fun hno w hw => ?_⟩
      exact (hwalk (fun hin => hno (hjournal.subset hin)) w hw).grow hjournal hclock
    | begin =>
      refine ⟨hplaced, fun _ w hw => ?_⟩
      cases hw
      exact WalkInv.begin _
    | copy w sh hw hnext hfree =>
      refine ⟨hplaced, fun hno w' hw' => ?_⟩
      cases hw'
      obtain ⟨-, hagree, hnone⟩ := unwiped_run shardOf (run_mem hprev) hno
      exact (hwalk hno w hw).copy hplaced hagree hnext hfree (hnone sh)

section Recovery

variable (shardOf)

theorem lookup_recovered (w : Walk) {log : List LogRecord} (hlog : .flushAll ∉ log) (k : Bytes) :
    (recovered shardOf w log).lookup shardOf k =
      (lastWrite k ((log.drop w.lsn).flatMap LogRecord.writes)).getD (w.at k) := by
  have hputs : .flushAll ∉ w.image.map (fun b => LogRecord.put b.1 b.2) := by simp
  have hwrites : (w.image.map (fun b => LogRecord.put b.1 b.2)).flatMap LogRecord.writes =
      w.image.map (fun b => (b.1, some b.2)) := by
    rw [List.flatMap_map]
    exact List.map_eq_flatMap.symm
  have hload := Loader.lookup_replay_append shardOf [] _ hputs k
  rw [List.nil_append, hwrites, lastWrite_map] at hload
  rw [recovered, Loader.lookup_replay_append shardOf _ _
    (fun hin => hlog (List.mem_of_mem_drop hin)), hload]
  congr 1
  rw [Walk.at]
  cases lastWrite k w.image <;> rfl

/-- Records that do not write a key can be left out at the end. -/
theorem lookup_replay_take {journal : List LogRecord} (hno : .flushAll ∉ journal) {p q : ℕ}
    (hpq : p ≤ q) {k : Bytes}
    (hsilent : ∀ i rec, p ≤ i → i < q → journal[i]? = some rec → ¬ Writes rec k) :
    (Loader.replay shardOf (journal.take q)).lookup shardOf k =
      (Loader.replay shardOf (journal.take p)).lookup shardOf k := by
  have hsplit : journal.take q = journal.take p ++ (journal.take q).drop p := by
    conv_lhs => rw [← List.take_append_drop p (journal.take q), List.take_take,
      Nat.min_eq_left hpq]
  have hnone : lastWrite k (((journal.take q).drop p).flatMap LogRecord.writes) = none := by
    rw [lastWrite_eq_none_iff]
    rintro ⟨k', v⟩ hb heq
    cases heq
    obtain ⟨rec, hrec, hw⟩ := List.mem_flatMap.mp hb
    obtain ⟨i, hi⟩ := List.mem_iff_getElem?.mp hrec
    rw [List.getElem?_drop, List.getElem?_take] at hi
    split at hi
    · rename_i hlt
      exact hsilent (p + i) rec (Nat.le_add_right _ _) hlt hi ⟨v, hw⟩
    · cases hi
  rw [hsplit, Loader.lookup_replay_append shardOf _ _
    (fun hin => hno (List.mem_of_mem_take (List.mem_of_mem_drop hin))), hnone]
  rfl

end Recovery

/-- A finished image with the records behind its number is the log. -/
theorem WalkInv.recovers {m : MemoryRuns.State} {w : Walk} (h : WalkInv shardOf m w)
    (hdone : w.Done) (hno : .flushAll ∉ m.journal) {n : ℕ} (hcovers : Covers shardOf w m.journal n)
    (shardOf' : Bytes → ShardId) (k : Bytes) {now : ℤ} (hnow : m.clock ≤ now) :
    live now ((recovered shardOf' w (m.journal.take n)).lookup shardOf' k) =
      live now ((Loader.replay shardOf' (m.journal.take n)).lookup shardOf' k) := by
  have hno' : .flushAll ∉ m.journal.take n := fun hin => hno (List.mem_of_mem_take hin)
  have hall : (shardOf k : ℕ) < w.next := by
    rw [hdone]
    exact (shardOf k).isLt
  obtain ⟨hlsn, -⟩ := h.bound _ hall
  rw [lookup_recovered shardOf' w hno']
  cases hlast : lastWrite k (((m.journal.take n).drop w.lsn).flatMap LogRecord.writes) with
  | some =>
    have hsplit := Loader.lookup_replay_append shardOf' ((m.journal.take n).take w.lsn)
      ((m.journal.take n).drop w.lsn) (fun hin => hno' (List.mem_of_mem_drop hin)) k
    rw [List.take_append_drop, hlast] at hsplit
    rw [hsplit]
    rfl
  | none =>
    have hsilent : ∀ i rec, w.lsn ≤ i → i < n → m.journal[i]? = some rec → ¬ Writes rec k := by
      rintro i rec hle hlt hget ⟨v, hv⟩
      refine (lastWrite_eq_none_iff k _).mp hlast (k, v) (List.mem_flatMap.mpr ⟨rec, ?_, hv⟩) rfl
      refine List.mem_iff_getElem?.mpr ⟨i - w.lsn, ?_⟩
      rw [List.getElem?_drop, List.getElem?_take, if_pos (by omega),
        show w.lsn + (i - w.lsn) = i by omega, hget]
    -- neither the copied journal nor the prefix writes the key behind this point
    have hcopied := lookup_replay_take shardOf hno ((Nat.min_le_right n w.lsn).trans hlsn)
      (k := k) (fun i rec hle hlt hget hw =>
        hsilent i rec (by have := hcovers k i rec hlt hget hw; omega)
          (hcovers k i rec hlt hget hw) hget hw)
    have hprefix := lookup_replay_take shardOf' hno (Nat.min_le_left n w.lsn) (k := k)
      (fun i rec hle hlt => hsilent i rec (by omega) hlt)
    rw [Option.getD_none, hprefix, lookup_replay_hash shardOf, ← hcopied]
    exact live_eq_mono hnow (h.copied k hall)

/-- The shards left to copy, copied at one moment nobody holds a lock. -/
theorem copy_run (shardOf : Bytes → ShardId) (cond : State → State → Prop) {s : State} {w : Walk}
    (hwalk : s.walk = some w) (hnext : w.next ≤ shardCount) (hfree : ∀ sh, s.mem.holder sh = none)
    (hcond : ∀ a b : State, a.mem = s.mem → cond a b) :
    ∃ w', ReflTransGen (Guarded (Step shardOf) cond) s (s.setWalk w') ∧ w'.Done ∧
      w'.lsn = w.lsn ∧ (∀ sh : ShardId, w.next ≤ sh → w'.readAt sh = s.mem.journal.length) ∧
      (∀ sh : ShardId, (sh : ℕ) < w.next → w'.readAt sh = w.readAt sh) ∧
      ∀ b, b ∈ w'.image ↔ b ∈ w.image ∨
        ∃ sh : ShardId, w.next ≤ sh ∧ b ∈ (s.mem.store sh).m.entries := by
  induction hd : shardCount - w.next generalizing s w with
  | zero =>
    have hdone : w.next = shardCount := by omega
    have hsame : s.setWalk w = s := by
      cases s
      exact congrArg _ hwalk.symm
    refine ⟨w, by rw [hsame], hdone, rfl, ?_, fun _ _ => rfl, ?_⟩
    · intro sh hle
      omega
    · intro b
      constructor
      · exact Or.inl
      · rintro (hb | ⟨sh, hle, -⟩)
        · exact hb
        · have := sh.isLt
          omega
  | succ d ih =>
    have hlt : w.next < shardCount := by omega
    let sh₀ : ShardId := ⟨w.next, hlt⟩
    have hstep : Step shardOf s _ := .copy s w sh₀ hwalk rfl (hfree _)
    obtain ⟨w', hrun, hdone, hlsn, hread, hkeep, himage⟩ :=
      ih (s := s.setWalk (w.copy sh₀ (s.mem.store sh₀) s.mem.journal.length))
        (w := w.copy sh₀ (s.mem.store sh₀) s.mem.journal.length) rfl (by simp; omega) hfree hcond
        (by simp; omega)
    refine ⟨w', .head ⟨hstep, hcond _ _ rfl⟩ hrun, hdone, hlsn, ?_, ?_, ?_⟩
    · intro sh hle
      by_cases hsh : sh = sh₀
      · rw [hkeep sh (by simp [hsh, sh₀]), hsh, Walk.copy_readAt, Function.update_self]
      · refine hread sh ?_
        have hne : (sh : ℕ) ≠ w.next := fun heq => hsh (Fin.ext heq)
        rw [Walk.copy_next]
        omega
    · intro sh hlt'
      have hne : sh ≠ sh₀ := by
        rintro rfl
        exact absurd hlt' (Nat.lt_irrefl _)
      rw [hkeep sh (by simp; omega), Walk.copy_readAt, Function.update_of_ne hne]
    · intro b
      rw [himage]
      simp only [Walk.copy_image, Walk.copy_next, List.mem_append, State.setWalk_mem]
      constructor
      · rintro ((hb | hb) | ⟨sh, hle, hb⟩)
        · exact Or.inl hb
        · exact Or.inr ⟨sh₀, Nat.le_refl _, hb⟩
        · exact Or.inr ⟨sh, by omega, hb⟩
      · rintro (hb | ⟨sh, hle, hb⟩)
        · exact Or.inl (Or.inl hb)
        · by_cases hsh : sh = sh₀
          · exact Or.inl (Or.inr (hsh ▸ hb))
          · have hne : (sh : ℕ) ≠ w.next := fun heq => hsh (Fin.ext heq)
            exact Or.inr ⟨sh, by omega, hb⟩

/-- The clients' steps, seen beside an unchanged walk. -/
theorem lift_run (cond : State → State → Prop) (walk : Option Walk) {m m' : MemoryRuns.State}
    (hrun : ReflTransGen (Guarded (MemoryRuns.Step shardOf) (fun _ _ => True)) m m')
    (hcond : ∀ a b : State, a.walk = b.walk → cond a b) :
    ReflTransGen (Guarded (Step shardOf) cond) ⟨m, walk⟩ ⟨m', walk⟩ := by
  induction hrun with
  | refl => exact .refl
  | tail _ hstep ih => exact ih.tail ⟨.mem ⟨_, walk⟩ _ hstep.1, hcond _ _ rfl⟩

end RedisFromScratch.SnapshotWalks
