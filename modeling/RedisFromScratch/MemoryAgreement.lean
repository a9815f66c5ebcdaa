import RedisFromScratch.MemoryRuns

/-!
Memory against the journal. Between its journal record and its unlock a write
is ahead of memory in the log, so the comparison uses the settled content:
memory with the lock holder's mutations applied. A shard waiting for a wipe is
compared with nothing, because the wipe will empty it whatever it holds.
The invariant fails exactly when a put is journalled into such a shard.
-/
namespace RedisFromScratch.MemoryAgreement

open ByteStrings SortedTables StoreRecords MemoryStore MemoryRuns Relation Runs

/-- Mutations a client has journalled and not applied. -/
def muts : Pc → List Mutation
  | .applying muts => muts
  | _ => []

/-- A client at this point is still going to empty the shard. -/
def Wipes (sh : ShardId) : Pc → Prop
  | .wiping next => next ≤ sh
  | _ => False

def PendingWipe (s : State) (sh : ShardId) : Prop := ∃ i, Wipes sh (s.pc i)

def pending (s : State) (sh : ShardId) : List Mutation :=
  match s.holder sh with
  | none => []
  | some i => muts (s.pc i)

section

variable (shardOf : Bytes → ShardId)

/-- Memory once the holder of the key's shard has applied its mutations. -/
def settled (s : State) (k : Bytes) : Option Record :=
  (Store.written k (pending s (shardOf k))).getD (s.store.lookup shardOf k)

/-- The journal's content at a key. -/
def replayed (s : State) (k : Bytes) : Option Record :=
  (Loader.replay shardOf s.journal).lookup shardOf k

/-- Locks are held where the program counters say so. -/
structure Locked (s : State) : Prop where
  locking : ∀ i c now todo, s.pc i = .locking c now todo →
    now ≤ s.clock ∧ ∀ sh ∈ c.order shardOf, sh ∈ todo ∨ s.holder sh = some i
  applying : ∀ i muts, s.pc i = .applying muts → ∀ m ∈ muts, s.holder (shardOf m.key) = some i

structure Agreement (s : State) : Prop where
  wiped : ∀ k, PendingWipe s (shardOf k) → replayed shardOf s k = none
  agrees : ∀ k, ¬ PendingWipe s (shardOf k) →
    live s.clock (settled shardOf s k) = live s.clock (replayed shardOf s k)

/-- No put is journalled into a shard that a journalled wipe has yet to reach. -/
def NoPutBeforeWipe (s s' : State) : Prop :=
  ∀ rec, s'.journal = s.journal ++ [rec] →
    ∀ w ∈ rec.writes, w.2 ≠ none → ¬ PendingWipe s (shardOf w.1)

end

theorem pending_of_free {s : State} {sh : ShardId} (h : s.holder sh = none) :
    pending s sh = [] := by
  simp [pending, h]

theorem pending_of_held {s : State} {sh : ShardId} {i : ℕ} (h : s.holder sh = some i) :
    pending s sh = muts (s.pc i) := by
  simp [pending, h]

section Moves

variable {s : State} {i : ℕ} {p : Pc}

theorem muts_update (h : muts p = muts (s.pc i)) (j : ℕ) :
    muts (Function.update s.pc i p j) = muts (s.pc j) :=
  Runs.read_update muts h j

theorem wipes_update (sh : ShardId) (h : Wipes sh p ↔ Wipes sh (s.pc i)) (j : ℕ) :
    Wipes sh (Function.update s.pc i p j) ↔ Wipes sh (s.pc j) :=
  (Runs.read_update (Wipes sh) (propext h) j).to_iff

theorem pendingWipe_update {s' : State} (hpc : s'.pc = Function.update s.pc i p) (sh : ShardId)
    (h : Wipes sh p ↔ Wipes sh (s.pc i)) : PendingWipe s' sh ↔ PendingWipe s sh := by
  unfold PendingWipe
  rw [hpc]
  exact exists_congr (wipes_update sh h)

@[simp] theorem pending_setStore (st : Store) (sh : ShardId) :
    pending (s.setStore st) sh = pending s sh := rfl

@[simp] theorem pending_log (rec : LogRecord) (sh : ShardId) :
    pending (s.log rec) sh = pending s sh := rfl

/-- Moving between points that owe the same leaves what is pending alone. -/
theorem pending_setPc (h : muts p = muts (s.pc i)) (sh : ShardId) :
    pending (s.setPc i p) sh = pending s sh := by
  unfold pending
  simp only [State.setPc_holder, State.setPc_pc]
  cases s.holder sh with
  | none => rfl
  | some j => exact muts_update h j

/-- A client moves; the shards it does not hold are not concerned. -/
theorem pending_setPc_of_not_held {sh : ShardId} (h : s.holder sh ≠ some i) :
    pending (s.setPc i p) sh = pending s sh := by
  unfold pending
  cases hj : s.holder sh with
  | none => simp [hj]
  | some j =>
    have hji : j ≠ i := by
      rintro rfl
      exact h hj
    simp [hj, hji]

/-- Giving the locks back leaves what the other clients owe. -/
theorem pending_unlock (sh : ShardId) :
    pending (s.unlock i) sh = if s.holder sh = some i then [] else pending s sh := by
  unfold pending
  simp only [State.unlock_holder, State.unlock_pc]
  by_cases hsh : s.holder sh = some i
  · simp [hsh]
  · cases hj : s.holder sh with
    | none => simp
    | some j =>
      have hji : j ≠ i := by
        rintro rfl
        exact hsh hj
      simp [hji]

end Moves

section Steps

variable {shardOf : Bytes → ShardId} {s s' : State}

theorem Locked.of_update (h : Locked shardOf s) {i : ℕ} {p : Pc}
    (hpc : s'.pc = Function.update s.pc i p) (hclock : s'.clock = s.clock)
    (hholder : s'.holder = s.holder)
    (hlocking : ∀ c now todo, p = .locking c now todo →
      now ≤ s.clock ∧ ∀ sh ∈ c.order shardOf, sh ∈ todo ∨ s.holder sh = some i)
    (happlying : ∀ muts, p = .applying muts → ∀ m ∈ muts, s.holder (shardOf m.key) = some i) :
    Locked shardOf s' := by
  constructor
  · intro j c now todo hj
    rw [hpc] at hj
    rw [hclock, hholder]
    by_cases hji : j = i
    · subst j
      rw [Function.update_self] at hj
      exact hlocking c now todo hj
    · rw [Function.update_of_ne hji] at hj
      exact h.locking j c now todo hj
  · intro j muts hj
    rw [hpc] at hj
    rw [hholder]
    by_cases hji : j = i
    · subst j
      rw [Function.update_self] at hj
      exact happlying muts hj
    · rw [Function.update_of_ne hji] at hj
      exact h.applying j muts hj

theorem Locked.unlock (h : Locked shardOf s) (i : ℕ) (st : Store) :
    Locked shardOf ((s.setStore st).unlock i) := by
  constructor
  · intro j c now todo hj
    by_cases hji : j = i
    · subst j
      simp at hj
    · simp only [State.unlock_pc, State.setStore_pc, Function.update_of_ne hji] at hj
      refine ⟨(h.locking j c now todo hj).1, fun sh hsh => ?_⟩
      rcases (h.locking j c now todo hj).2 sh hsh with hmem | hheld
      · exact Or.inl hmem
      · right
        simp [hheld, hji]
  · intro j muts hj m hm
    by_cases hji : j = i
    · subst j
      simp at hj
    · simp only [State.unlock_pc, State.setStore_pc, Function.update_of_ne hji] at hj
      have hheld := h.applying j muts hj m hm
      simp [hheld, hji]

theorem Locked.lock (h : Locked shardOf s) {i : ℕ} {c : Call} {now : ℤ} {sh : ShardId}
    {todo : List ShardId} (hpc : s.pc i = .locking c now (sh :: todo))
    (hfree : s.holder sh = none) :
    Locked shardOf ((s.take i sh).setPc i (.locking c now todo)) := by
  -- the shard was free, so no other client loses a lock it counts on
  have hkeep : ∀ j sh', s.holder sh' = some j →
      Function.update s.holder sh (some i) sh' = some j := by
    intro j sh' hheld
    have hne : sh' ≠ sh := by
      rintro rfl
      rw [hfree] at hheld
      cases hheld
    rw [Function.update_of_ne hne, hheld]
  constructor
  · intro j c' now' todo' hj
    by_cases hji : j = i
    · subst j
      simp only [State.setPc_pc, Function.update_self, Pc.locking.injEq] at hj
      obtain ⟨rfl, rfl, rfl⟩ := hj
      refine ⟨(h.locking i c now _ hpc).1, fun sh' hsh' => ?_⟩
      rcases (h.locking i c now _ hpc).2 sh' hsh' with hmem | hheld
      · rcases List.mem_cons.mp hmem with rfl | hmem
        · exact Or.inr (Function.update_self sh' _ _)
        · exact Or.inl hmem
      · exact Or.inr (hkeep i sh' hheld)
    · simp only [State.setPc_pc, State.take_pc, Function.update_of_ne hji] at hj
      refine ⟨(h.locking j c' now' todo' hj).1, fun sh' hsh' => ?_⟩
      exact ((h.locking j c' now' todo' hj).2 sh' hsh').imp_right (hkeep j sh')
  · intro j muts hj m hm
    by_cases hji : j = i
    · subst j
      simp at hj
    · simp only [State.setPc_pc, State.take_pc, Function.update_of_ne hji] at hj
      exact hkeep j _ (h.applying j muts hj m hm)

theorem Locked.step (h : Locked shardOf s) (hstep : Step shardOf s s') : Locked shardOf s' := by
  cases hstep with
  | call =>
    refine h.of_update rfl rfl rfl ?_ (fun _ hp => Pc.noConfusion hp)
    rintro c' now todo hp
    cases hp
    exact ⟨Int.le_refl _, fun sh hsh => Or.inl hsh⟩
  | lock i c now sh todo hpc hfree => exact h.lock hpc hfree
  | journal i c now st rec muts hpc henter =>
    refine h.of_update (i := i) (p := .applying muts) rfl rfl rfl
      (fun _ _ _ hp => Pc.noConfusion hp) ?_
    intro muts' hp m hm
    cases hp
    have hin := (journals_of_enter shardOf henter).inside m hm
    rcases (h.locking i c now [] hpc).2 _ hin with hmem | hheld
    · cases hmem
    · exact hheld
  | skip i c now st => exact h.unlock i st
  | apply i => exact h.unlock i _
  | get | wiped =>
    exact h.of_update rfl rfl rfl (fun _ _ _ hp => Pc.noConfusion hp)
      (fun _ hp => Pc.noConfusion hp)
  | getRead => refine h.of_update rfl rfl rfl ?_ ?_ <;> split <;> intros <;> contradiction
  | getReclaim i =>
    exact h.of_update (i := i) (p := .idle) rfl rfl rfl (fun _ _ _ hp => Pc.noConfusion hp)
      (fun _ hp => Pc.noConfusion hp)
  | flushAll i =>
    exact h.of_update (i := i) (p := .wiping 0) rfl rfl rfl (fun _ _ _ hp => Pc.noConfusion hp)
      (fun _ hp => Pc.noConfusion hp)
  | wipe i sh =>
    exact h.of_update (i := i) (p := .wiping (sh + 1)) rfl rfl rfl
      (fun _ _ _ hp => Pc.noConfusion hp) (fun _ hp => Pc.noConfusion hp)
  | tick later hle =>
    refine ⟨fun i c now todo hpc => ?_, h.applying⟩
    exact ⟨Int.le_trans (h.locking i c now todo hpc).1 hle, (h.locking i c now todo hpc).2⟩

/-- Steps that neither journal nor change what is settled or about to be wiped. -/
theorem Agreement.of_settled (h : Agreement shardOf s) (hjournal : s'.journal = s.journal)
    (hclock : s.clock ≤ s'.clock) (hwipe : ∀ sh, PendingWipe s' sh ↔ PendingWipe s sh)
    (hsettled : ∀ k, live s'.clock (settled shardOf s' k) = live s'.clock (settled shardOf s k)) :
    Agreement shardOf s' := by
  have hreplayed : ∀ k, replayed shardOf s' k = replayed shardOf s k := by
    intro k
    rw [replayed, replayed, hjournal]
  constructor
  · intro k hk
    rw [hreplayed]
    exact h.wiped k ((hwipe _).mp hk)
  · intro k hk
    rw [hsettled, hreplayed]
    exact live_eq_mono hclock (h.agrees k (fun hs => hk ((hwipe _).mpr hs)))

/-- The special case where only a program counter moves. -/
theorem Agreement.of_move (h : Agreement shardOf s) {i : ℕ} {p : Pc}
    (hmuts : muts p = muts (s.pc i)) (hwipes : ∀ sh, Wipes sh p ↔ Wipes sh (s.pc i)) :
    Agreement shardOf (s.setPc i p) := by
  refine h.of_settled rfl (Int.le_refl _) (fun sh => pendingWipe_update rfl sh (hwipes sh)) ?_
  intro k
  unfold settled
  rw [pending_setPc hmuts]
  rfl

/-- What is settled in a changed store, when the holders owe what they owed. -/
theorem live_settled_of_store {st : Store} (hpending : ∀ sh, pending s' sh = pending s sh)
    (hstore : s'.store = st) {now : ℤ} (k : Bytes)
    (hlive : live now (st.lookup shardOf k) = live now (s.store.lookup shardOf k)) :
    live now (settled shardOf s' k) = live now (settled shardOf s k) := by
  unfold settled
  rw [hpending, hstore]
  cases Store.written k (pending s (shardOf k)) with
  | some => rfl
  | none => exact hlive

theorem Agreement.lock (h : Agreement shardOf s) {i : ℕ} {c : Call} {now : ℤ} {sh : ShardId}
    {todo : List ShardId} (hpc : s.pc i = .locking c now (sh :: todo))
    (hfree : s.holder sh = none) :
    Agreement shardOf ((s.take i sh).setPc i (.locking c now todo)) := by
  refine h.of_settled rfl (Int.le_refl _)
    (fun sh' => pendingWipe_update rfl sh' (by rw [hpc]; exact Iff.rfl)) ?_
  intro k
  refine live_settled_of_store (fun sh' => ?_) rfl k rfl
  unfold pending
  by_cases hsh : sh' = sh
  · subst sh'
    simp [hfree, muts]
  · simp only [State.setPc_holder, State.take_holder, Function.update_of_ne hsh]
    cases s.holder sh' with
    | none => rfl
    | some j => exact muts_update (s := s) (i := i) (by rw [hpc]; rfl) j

theorem Agreement.skip (h : Agreement shardOf s) (hl : Locked shardOf s) {i : ℕ} {c : Call}
    {now : ℤ} {st : Store} (hpc : s.pc i = .locking c now [])
    (henter : c.enter shardOf s.store now = (st, none)) :
    Agreement shardOf ((s.setStore st).unlock i) := by
  have hst : st = (c.enter shardOf s.store now).1 := by rw [henter]
  refine h.of_settled rfl (Int.le_refl _)
    (fun sh' => pendingWipe_update rfl sh' (by rw [hpc]; exact Iff.rfl)) ?_
  intro k
  refine live_settled_of_store (fun sh => ?_) rfl k ?_
  · rw [pending_unlock, State.setStore_holder, pending_setStore]
    split
    · rename_i hheld
      rw [pending_of_held hheld, hpc]
      rfl
    · rfl
  · rw [hst]
    exact live_enter shardOf s.store (hl.locking i c now [] hpc).1 c k

theorem Agreement.apply (h : Agreement shardOf s) (hl : Locked shardOf s) {i : ℕ}
    {ms : List Mutation} (hpc : s.pc i = .applying ms) :
    Agreement shardOf ((s.setStore (s.store.applyAll shardOf ms)).unlock i) := by
  refine h.of_settled rfl (Int.le_refl _)
    (fun sh' => pendingWipe_update rfl sh' (by rw [hpc]; exact Iff.rfl)) ?_
  intro k
  congr 1
  change (Store.written k _).getD ((s.store.applyAll shardOf ms).lookup shardOf k) =
    settled shardOf s k
  unfold settled
  rw [pending_unlock, State.setStore_holder, pending_setStore, Store.lookup_applyAll]
  by_cases hheld : s.holder (shardOf k) = some i
  · rw [if_pos hheld, pending_of_held hheld, hpc]
    rfl
  · have hother : Store.written k ms = none := by
      apply Store.written_eq_none
      intro m hm heq
      exact hheld (heq ▸ hl.applying i ms hpc m hm)
    rw [if_neg hheld, hother]
    rfl

/-- The journal and the settled content move together under the locks. -/
theorem Agreement.journal (h : Agreement shardOf s) (hl : Locked shardOf s) {i : ℕ} {c : Call}
    {now : ℤ} {st : Store} {rec : LogRecord} {ms : List Mutation}
    (hpc : s.pc i = .locking c now []) (henter : c.enter shardOf s.store now = (st, some (rec, ms)))
    (hput : ∀ w ∈ rec.writes, w.2 ≠ none → ¬ PendingWipe s (shardOf w.1)) :
    Agreement shardOf
      (((s.setStore st).log rec).setPc i (.applying ms)) := by
  have hj := journals_of_enter shardOf henter
  have hst : st = (c.enter shardOf s.store now).1 := by rw [henter]
  have hheld : ∀ sh ∈ c.order shardOf, s.holder sh = some i := by
    intro sh hsh
    rcases (hl.locking i c now [] hpc).2 sh hsh with hmem | hheld
    · cases hmem
    · exact hheld
  have hreplay : ∀ k, replayed shardOf
      (((s.setStore st).log rec).setPc i (.applying ms)) k =
        (Store.written k ms).getD (replayed shardOf s k) := by
    intro k
    simp only [replayed, State.setPc_journal, State.log_journal, State.setStore_journal,
      Loader.replay_concat]
    rw [Loader.lookup_apply shardOf _ rec hj.notWipe, hj.written]
  have hwipe : ∀ sh, PendingWipe
      (((s.setStore st).log rec).setPc i (.applying ms)) sh ↔
        PendingWipe s sh := by
    intro sh
    refine pendingWipe_update (p := .applying ms) rfl sh ?_
    rw [hpc]
    exact Iff.rfl
  constructor
  · intro k hk
    have hk := (hwipe _).mp hk
    rw [hreplay, h.wiped k hk]
    cases hw : Store.written k ms with
    | none => rfl
    | some v =>
      cases v with
      | none => rfl
      | some r =>
        have hmem := mem_of_lastWrite ((hj.written k).symm.trans hw)
        exact absurd hk (hput _ hmem (Option.some_ne_none r))
  · intro k hk
    have hagrees := h.agrees k (fun hs => hk ((hwipe _).mpr hs))
    rw [hreplay]
    by_cases hmine : s.holder (shardOf k) = some i
    · have hpending : pending s (shardOf k) = [] := by
        rw [pending_of_held hmine, hpc]
        rfl
      have hpending' : pending
          (((s.setStore st).log rec).setPc i (.applying ms))
            (shardOf k) = ms := by
        simp [pending, hmine, muts]
      unfold settled at hagrees ⊢
      rw [hpending] at hagrees
      rw [hpending']
      cases Store.written k ms with
      | some => rfl
      | none =>
        refine Eq.trans ?_ hagrees
        rw [hst]
        exact live_enter shardOf s.store (hl.locking i c now [] hpc).1 c k
    · have hnot : shardOf k ∉ c.order shardOf := fun hmem => hmine (hheld _ hmem)
      have hother : Store.written k ms = none := by
        apply Store.written_eq_none
        intro m hm heq
        exact hnot (heq ▸ hj.inside m hm)
      have hsame : settled shardOf
          (((s.setStore st).log rec).setPc i (.applying ms)) k =
            settled shardOf s k := by
        change (Store.written k _).getD (st.lookup shardOf k) = settled shardOf s k
        unfold settled
        rw [pending_setPc_of_not_held (by simpa using hmine), pending_log, pending_setStore, hst,
          lookup_enter_of_not_mem shardOf s.store now hnot]
      rw [hsame, hother]
      exact hagrees

theorem Agreement.flushAll (i : ℕ) :
    Agreement shardOf ((s.log .flushAll).setPc i (.wiping 0)) := by
  have hpending : ∀ sh, PendingWipe
      ((s.log .flushAll).setPc i (.wiping 0)) sh := by
    intro sh
    exact ⟨i, by simp [Wipes]⟩
  constructor
  · intro k _
    simp only [replayed, State.setPc_journal, State.log_journal, Loader.replay_concat]
    exact Loader.lookup_apply_flushAll shardOf _ k
  · intro k hk
    exact absurd (hpending _) hk

/-- Emptying a shard settles it, unless another wipe is still to come. -/
theorem Agreement.wipe (h : Agreement shardOf s) {i : ℕ} {sh : ShardId}
    (hpc : s.pc i = .wiping sh) (hfree : s.holder sh = none) :
    Agreement shardOf
      ((s.setStore (Function.update s.store sh Shard.empty)).setPc i (.wiping (sh + 1))) := by
  have hdone : ∀ sh', sh' ≠ sh → (Wipes sh' (.wiping (sh + 1)) ↔ Wipes sh' (s.pc i)) := by
    intro sh' hne
    rw [hpc]
    have hval : (sh' : ℕ) ≠ sh := fun heq => hne (Fin.ext heq)
    simp only [Wipes]
    omega
  have hpend : ∀ sh', pending
      ((s.setStore (Function.update s.store sh Shard.empty)).setPc i (.wiping (sh + 1))) sh' =
        pending s sh' := by
    intro sh'
    rw [pending_setPc (by rw [State.setStore_pc, hpc]; rfl), pending_setStore]
  constructor
  · rintro k ⟨j, hj⟩
    apply h.wiped k
    by_cases hji : j = i
    · subst j
      refine ⟨i, ?_⟩
      simp only [State.setPc_pc, Function.update_self, Wipes] at hj
      rw [hpc]
      exact Nat.le_of_succ_le hj
    · refine ⟨j, ?_⟩
      simpa only [State.setPc_pc, State.setStore_pc, Function.update_of_ne hji] using hj
  · intro k hk
    by_cases hsh : shardOf k = sh
    · have hgone : replayed shardOf s k = none := by
        apply h.wiped k
        exact ⟨i, by rw [hpc, hsh]; exact Nat.le_refl _⟩
      have hempty : settled shardOf
          ((s.setStore (Function.update s.store sh Shard.empty)).setPc i (.wiping (sh + 1))) k =
            none := by
        unfold settled
        rw [hpend, pending_of_free (hsh ▸ hfree)]
        simp [Store.written, Store.lookup, hsh, Shard.empty]
      have hjournal : replayed shardOf
          ((s.setStore (Function.update s.store sh Shard.empty)).setPc i (.wiping (sh + 1))) k =
            replayed shardOf s k := rfl
      rw [hempty, hjournal, hgone]
    · have hwipe : PendingWipe ((s.setStore (Function.update s.store sh Shard.empty)).setPc i
          (.wiping (sh + 1))) (shardOf k) ↔ PendingWipe s (shardOf k) :=
        pendingWipe_update rfl (shardOf k) (hdone _ hsh)
      have hagrees := h.agrees k (fun hs => hk (hwipe.mpr hs))
      refine Eq.trans ?_ hagrees
      refine live_settled_of_store hpend rfl k ?_
      simp [Store.lookup, hsh]

theorem Agreement.step (h : Agreement shardOf s) (hl : Locked shardOf s)
    (hstep : Step shardOf s s') (hput : NoPutBeforeWipe shardOf s s') : Agreement shardOf s' := by
  cases hstep with
  | call i c hpc | get i key hpc =>
    exact h.of_move (by rw [hpc]; rfl) (fun sh => by rw [hpc]; exact Iff.rfl)
  | lock i c now sh todo hpc hfree => exact h.lock hpc hfree
  | journal i c now st rec ms hpc henter => exact h.journal hl hpc henter (hput rec rfl)
  | skip i c now st hpc henter => exact h.skip hl hpc henter
  | apply i ms hpc => exact h.apply hl hpc
  | getRead i key now hpc => refine h.of_move ?_ (fun sh => ?_) <;> rw [hpc] <;> split <;> rfl
  | getReclaim i key hpc =>
    refine h.of_settled rfl (Int.le_refl _)
      (fun sh => pendingWipe_update (p := .idle) rfl sh (by rw [hpc]; exact Iff.rfl)) ?_
    intro k
    refine live_settled_of_store (fun sh => ?_) rfl k
      (live_evictExpired shardOf s.store key (Int.le_refl _) k)
    exact pending_setPc (by rw [State.setStore_pc, hpc]; rfl) sh
  | flushAll i => exact Agreement.flushAll i
  | wipe i sh hpc hfree => exact h.wipe hpc hfree
  | wiped i hpc =>
    refine h.of_move (by rw [hpc]; rfl) (fun sh => ?_)
    rw [hpc]
    simp only [Wipes, false_iff]
    omega
  | tick later hle => exact h.of_settled rfl hle (fun sh => Iff.rfl) (fun k => rfl)

end Steps

end RedisFromScratch.MemoryAgreement
