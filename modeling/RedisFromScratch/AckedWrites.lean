import RedisFromScratch.PowerCuts

/-!
Where the record of an acknowledged write is. A write commits to its own log or
to a newer one; a commit to a newer log promises nothing for the older, so the
older one must have been brought as far when it was rotated away. A rotation
flushes the old log and does not sync it: under the policy that syncs before
every acknowledgement the promise holds if each rotation finds the log synced.
-/
namespace RedisFromScratch.AckedWrites

open ByteStrings SortedTables EngineTypes EngineLogs EngineWal SsTables Versions LsmTree Compaction
open TreeContents EngineRuns EngineInvariant EngineSteps EngineWriters CrashPoints FlushedTables
open PowerCuts Relation Runs

variable {F : Type} {o : Options} {sc : Scores F} {policy : SyncPolicy} {s s' : State}
variable {reach : Wal → ℕ}

/-- How far a log has got, by a counter a commit moves past its record. -/
structure Reaches (policy : SyncPolicy) (reach : Wal → ℕ) : Prop where
  run : ∀ {w f g} (op : Op), Backs w f g → reach w ≤ reach (op.run Io.fine ⟨w, f, false⟩).1.wal
  append : ∀ {w w' muts}, Wal.append w muts = some w' → reach w' = reach w
  commit : ∀ {w f g op seq}, Backs w f g → commitOp seq policy = some op →
    min seq w.lastAppended ≤ reach (op.run Io.fine ⟨w, f, false⟩).1.wal
  some : ∀ seq, commitOp seq policy ≠ none
  fast : policy = .everySecond → ∀ w, w.written ≤ reach w

theorem append_counters {w w' : Wal} {muts : List Mutation} (h : w.append muts = some w') :
    w'.written = w.written ∧ w'.synced = w.synced := by
  unfold Wal.append at h
  split at h
  · cases h
  · cases h
    exact ⟨rfl, rfl⟩

theorem written_reaches (hpolicy : policy ≠ .never) : Reaches policy Wal.written where
  run op hb := (hb.run op).2.1
  append h := (append_counters h).1
  commit hb hop := commit_written hb hop
  some seq := by
    cases policy with
    | always | everySecond => exact nofun
    | never => exact absurd rfl hpolicy
  fast _ _ := le_rfl

theorem synced_reaches : Reaches .always Wal.synced where
  run op hb := (hb.run op).2.2.1
  append h := (append_counters h).2
  commit {w f g op seq} hb hop := by
    cases hop
    obtain ⟨-, hdone, -, -⟩ := hb.holds.run (.syncTo seq) (fun _ => rfl) Io.fine
    have hlast := hb.holds.last
    have hok := hdone (run_fine ⟨w, f, false⟩ (.syncTo seq)).2.2
    dsimp only at hlast hok
    omega
  some _ := nofun
  fast h := by cases h

/-- The logs that are not current any more have got as far as they can. -/
def OldReach (reach : Wal → ℕ) (s : State) : Prop := ∀ g ∈ s.live, g.number ≠ s.tree.logNumber →
  ∀ w, s.wals.lookup g.number = some w → w.lastAppended ≤ reach w

theorem oldReach_written (h : LogInv s) : OldReach Wal.written s := by
  intro g hg hne w hw
  obtain ⟨w', f, hw', -, -, hc⟩ := h.backed g hg
  rw [hw] at hw'
  cases hw'
  exact (hc (Or.inl hne)).ge

theorem oldReach_synced (h : OldSynced s) : OldReach Wal.synced s :=
  fun g hg hne w hw => (h g hg hne w hw).ge

/-- The record is one of the batches of the run. -/
def Known (s : State) (r : ℕ × ℕ) : Prop := ∃ g ∈ s.retired ++ s.live, g.number = r.1 ∧
  g.start < r.2 ∧ r.2 ≤ g.start + g.batches.length

structure AckInv (reach : Wal → ℕ) (s : State) : Prop where
  known : ∀ i r, EngineWriters.record (s.writer i) = some r → Known s r
  acked : ∀ r ∈ s.acked, Known s r ∧ r.1 ≤ s.tree.logNumber ∧ ∀ g ∈ s.live, g.number = r.1 →
    ∀ w, s.wals.lookup r.1 = some w → r.2 ≤ reach w
  retired : ∀ g ∈ s.retired, g.number < s.stored.logNumber

theorem ackInv_started (h : Started s) : AckInv reach s where
  known i r hr := by
    rw [h.writer] at hr
    cases hr
  acked r hr := by
    rw [h.acked] at hr
    cases hr
  retired g hg := by
    rw [h.retired] at hg
    cases hg

theorem unique_number (h : LogInv s) {g g' : Segment} (hg : g ∈ s.live) (hg' : g' ∈ s.live)
    (heq : g.number = g'.number) : g = g' := by
  obtain ⟨i, hi, rfl⟩ := List.getElem_of_mem hg
  obtain ⟨j, hj, rfl⟩ := List.getElem_of_mem hg'
  have hordered := List.pairwise_iff_getElem.mp h.ordered
  rcases Nat.lt_trichotomy i j with hlt | rfl | hlt
  · exact absurd (hordered i j hi hj hlt) (by omega)
  · rfl
  · exact absurd (hordered j i hj hi hlt) (by omega)

/-- The segments of a run stay, and grow. -/
def Extends (s s' : State) : Prop := ∀ g ∈ s.retired ++ s.live, ∃ g' ∈ s'.retired ++ s'.live,
  g'.number = g.number ∧ g'.start = g.start ∧ g.batches.length ≤ g'.batches.length

theorem extends_of_eq (h : s'.retired ++ s'.live = s.retired ++ s.live) : Extends s s' :=
  fun g hg => ⟨g, h ▸ hg, rfl, rfl, le_rfl⟩

theorem Known.mono {r : ℕ × ℕ} (h : Known s r) (hext : Extends s s') : Known s' r := by
  obtain ⟨g, hg, hn, hlow, hhigh⟩ := h
  obtain ⟨g', hg', hn', hstart, hlen⟩ := hext g hg
  exact ⟨g', hg', hn'.trans hn, by omega, by omega⟩

/-- The steps that acknowledge nothing. -/
theorem AckInv.keep (ha : AckInv reach s) (hext : Extends s s') (hwriter : s'.writer = s.writer)
    (hacked : s'.acked = s.acked) (hnumber : s.tree.logNumber ≤ s'.tree.logNumber)
    (hwals : ∀ g' ∈ s'.live, g'.number ≤ s.tree.logNumber →
      ∀ w', s'.wals.lookup g'.number = some w' → ∃ g ∈ s.live, g.number = g'.number ∧
        ∃ w, s.wals.lookup g.number = some w ∧ reach w ≤ reach w')
    (hretired : ∀ g ∈ s'.retired, g.number < s'.stored.logNumber) : AckInv reach s' := by
  refine ⟨?_, ?_, hretired⟩
  · rw [hwriter]
    exact fun i r hr => (ha.known i r hr).mono hext
  · rw [hacked]
    intro r hr
    obtain ⟨hknown, hle, hreach⟩ := ha.acked r hr
    refine ⟨hknown.mono hext, hle.trans hnumber, fun g' hg' hn w' hw' => ?_⟩
    obtain ⟨g, hg, hgn, w, hw, hmono⟩ := hwals g' hg' (hn ▸ hle) w' (hn ▸ hw')
    have hgr : g.number = r.1 := hgn.trans hn
    exact (hreach g hg hgr w (hgr ▸ hw)).trans hmono

theorem runOp_reach (hr : Reaches policy reach) (h : LogInv s) (n : ℕ) (op : Op) {g : Segment}
    (hg : g ∈ s.live) {w' : Wal} (hw' : (s.runOp n op).wals.lookup g.number = some w') :
    ∃ w, s.wals.lookup g.number = some w ∧ reach w ≤ reach w' := by
  obtain ⟨w, f, hw, hf, hb, -⟩ := h.backed g hg
  refine ⟨w, hw, ?_⟩
  rcases runOp_lookup s n op g.number with ⟨hm, w₁, f₁, hw₁, hf₁, hwal, -⟩ | ⟨hwal, -⟩
  · rw [← hm, hw] at hw₁
    rw [← hm, hf] at hf₁
    cases hw₁
    cases hf₁
    rw [hwal] at hw'
    cases hw'
    exact hr.run op hb
  · rw [hwal, hw] at hw'
    cases hw'
    exact le_rfl

theorem AckInv.runOp (hr : Reaches policy reach) (h : LogInv s) (ha : AckInv reach s) (n : ℕ)
    (op : Op) : AckInv reach (s.runOp n op) := by
  have hlive := runOp_live s n op
  have hretired := runOp_retired s n op
  refine ha.keep (extends_of_eq (by rw [hlive, hretired])) (runOp_writer s n op)
    (runOp_acked s n op) (by rw [runOp_tree]) ?_ ?_
  · intro g hg _ w' hw'
    rw [hlive] at hg
    obtain ⟨w, hw, hmono⟩ := runOp_reach hr h n op hg hw'
    exact ⟨g, hg, rfl, w, hw, hmono⟩
  · rw [hretired, runOp_stored]
    exact ha.retired

/-- An acknowledgement adds one record that has got far enough. -/
theorem AckInv.acknowledge (ha : AckInv reach s) {i : ℕ} {r : ℕ × ℕ} (hknown : Known s r)
    (hle : r.1 ≤ s.tree.logNumber)
    (hreach : ∀ g ∈ s.live, g.number = r.1 → ∀ w, s.wals.lookup r.1 = some w → r.2 ≤ reach w) :
    AckInv reach { s with
      writer := Function.update s.writer i .idle
      acked := s.acked ++ [r] } := by
  refine ⟨?_, ?_, ha.retired⟩
  · intro j q hj
    dsimp only at hj
    by_cases hji : j = i
    · subst hji
      rw [Function.update_self] at hj
      cases hj
    · rw [Function.update_of_ne hji] at hj
      exact ha.known j q hj
  · intro q hq
    rcases List.mem_append.mp hq with hold | hnew
    · exact ha.acked q hold
    · rw [List.mem_singleton] at hnew
      subst hnew
      exact ⟨hknown, hle, hreach⟩

/-- A live log the record is in, and no retired one, bears its number. -/
theorem Known.of_live {r : ℕ × ℕ} (hk : Known s r) (h : LogInv s) (ha : AckInv reach s)
    {g : Segment} (hg : g ∈ s.live) (hn : g.number = r.1) :
    g.start < r.2 ∧ r.2 ≤ g.start + g.batches.length := by
  obtain ⟨g', hg', hn', hlow, hhigh⟩ := hk
  rcases List.mem_append.mp hg' with hold | hlive
  · have hlt := ha.retired g' hold
    have hge := h.low hg
    omega
  · rw [unique_number h hg hlive (hn.trans hn'.symm)]
    exact ⟨hlow, hhigh⟩

/-- The record of a commit is as far as the counter goes, in its own log. -/
theorem commit_reach (hr : Reaches policy reach) (h : LogInv s) (hw : WriterInv s)
    (hold : OldReach reach s) (ha : AckInv reach s) {i n seq handle : ℕ}
    (hpc : s.writer i = .committing n seq handle) {op : Op}
    (hop : commitOp seq policy = some op) :
    ∀ g ∈ s.live, g.number = n → ∀ w, (s.runOp handle op).wals.lookup n = some w →
      seq ≤ reach w := by
  intro g hg hn w' hw'
  subst hn
  obtain ⟨hle, hcur⟩ := hw.handle i g.number seq handle hpc
  have hknown := ha.known i (g.number, seq) (by rw [hpc]; rfl)
  obtain ⟨-, hseq⟩ := hknown.of_live h ha hg rfl
  obtain ⟨w, f, hwal, hf, hb, -⟩ := h.backed g hg
  have hlast := hb.holds.last
  dsimp only at hlast
  by_cases hown : handle = g.number
  · rcases runOp_lookup s handle op g.number with ⟨-, w₁, f₁, hw₁, hf₁, hwal', -⟩ | ⟨-, -, hno⟩
    · rw [hown, hwal] at hw₁
      rw [hown, hf] at hf₁
      cases hw₁
      cases hf₁
      rw [hwal'] at hw'
      cases hw'
      have hdone := hr.commit hb hop
      omega
    · rcases hno hown.symm with hnone | hnone
      · rw [hown, hwal] at hnone
        cases hnone
      · rw [hown, hf] at hnone
        cases hnone
  · obtain ⟨w₁, hw₁, hmono⟩ := runOp_reach hr h handle op hg hw'
    rw [hwal] at hw₁
    cases hw₁
    have hfull := hold g hg (by omega) w hwal
    omega

theorem acks_commit (hr : Reaches policy reach) (h : LogInv s) (hw : WriterInv s)
    (hold : OldReach reach s) (ha : AckInv reach s) {i n seq handle : ℕ}
    (hpc : s.writer i = .committing n seq handle) :
    AckInv reach { s.runCommit policy handle seq with
      writer := Function.update s.writer i .idle
      acked := s.acked ++ [(n, seq)] } := by
  obtain ⟨op, hop⟩ := Option.ne_none_iff_exists'.mp (hr.some seq)
  have hrun : s.runCommit policy handle seq = s.runOp handle op := by
    rw [State.runCommit, hop]
  have hwriter := runOp_writer s handle op
  have hacked := runOp_acked s handle op
  have hop' := AckInv.runOp hr h ha handle op
  have hack := hop'.acknowledge (i := i) (r := (n, seq))
    (hop'.known i _ (by rw [hwriter, hpc]; rfl))
    (by rw [runOp_tree]; exact hw.older i n seq (by rw [hpc]; rfl))
    (by rw [runOp_live]; exact commit_reach hr h hw hold ha hpc hop)
  rw [hwriter, hacked] at hack
  rw [hrun]
  exact hack

theorem acks_append (hr : Reaches policy reach) (h : LogInv s) (ha : AckInv reach s) {i : ℕ}
    {muts : List Mutation} {t : TreeRuns.State} {w w' : Wal}
    (hnumber : t.logNumber = s.tree.logNumber)
    (hwal : s.wals.lookup s.tree.logNumber = some w) (happend : w.append muts = some w') :
    AckInv reach { s with
      tree := t
      wals := s.wals.insert s.tree.logNumber w'
      writer := Function.update s.writer i (.appended s.tree.logNumber w.nextSeq)
      live := EngineRuns.record muts s.live } := by
  have hext : Extends s { s with
      tree := t
      wals := s.wals.insert s.tree.logNumber w'
      live := EngineRuns.record muts s.live } := by
    intro g hg
    rcases List.mem_append.mp hg with hold | hlive
    · exact ⟨g, List.mem_append_left _ hold, rfl, rfl, le_rfl⟩
    · obtain ⟨g', hg', hrest⟩ := record_mem muts hlive
      exact ⟨g', List.mem_append_right _ hg', hrest⟩
  have hkeep : AckInv reach { s with
      tree := t
      wals := s.wals.insert s.tree.logNumber w'
      live := EngineRuns.record muts s.live } := by
    refine ha.keep hext rfl rfl hnumber.ge ?_ ha.retired
    intro g' hg' _ w₁ hw₁
    obtain ⟨g, hg, hn, -⟩ := mem_record hg'
    rw [Table.lookup_insert] at hw₁
    refine ⟨g, hg, hn, ?_⟩
    rw [hn]
    split at hw₁
    · rename_i heq
      cases hw₁
      exact ⟨w, heq ▸ hwal, (hr.append happend).ge⟩
    · exact ⟨w₁, hw₁, le_rfl⟩
  refine ⟨?_, hkeep.acked, ha.retired⟩
  intro j r hj
  dsimp only at hj
  by_cases hji : j = i
  · subst hji
    rw [Function.update_self] at hj
    cases hj
    obtain ⟨l, g, hl, hgn, -⟩ := h.newest
    have hg : g ∈ s.live := by simp [hl]
    obtain ⟨w₁, f, hw₁, -, hb, -⟩ := h.backed g hg
    rw [hgn, hwal] at hw₁
    cases hw₁
    have hnext := hb.holds.next
    refine ⟨{ g with batches := g.batches ++ [muts] }, ?_, hgn, ?_, ?_⟩
    · refine List.mem_append_right _ ?_
      rw [hl, record_concat]
      exact List.mem_append_right _ (List.mem_singleton_self _)
    · dsimp only at hnext ⊢
      omega
    · dsimp only at hnext ⊢
      rw [List.length_append, List.length_singleton]
      omega
  · rw [Function.update_of_ne hji] at hj
    exact hkeep.known j r hj

theorem acks_step (hr : Reaches policy reach) (h : LogInv s) (hw : WriterInv s)
    (hold : OldReach reach s) (ha : AckInv reach s) (hstep : Step o sc policy s s') :
    AckInv reach s' := by
  have hsame : ∀ (t : TreeRuns.State) (logs : Table ℕ LogFile) (version : Version) (next last : ℕ),
      s.tree.logNumber ≤ t.logNumber → AckInv reach { s with
        tree := t
        logs := logs
        stored := ⟨next, s.stored.logNumber, last, version⟩ } := fun t logs version next last hle =>
    ha.keep (extends_of_eq rfl) rfl rfl hle
      (fun g hg _ w' hw' => ⟨g, hg, rfl, w', hw', le_rfl⟩) ha.retired
  cases hstep with
  | append i muts t w w' hidle hne htree hwal happend =>
    refine acks_append hr h ha ?_ hwal happend
    cases htree
    rfl
  | reread i n seq hpc =>
    refine ⟨?_, ha.acked, ha.retired⟩
    intro j r hj
    dsimp only at hj
    by_cases hji : j = i
    · subst hji
      rw [Function.update_self] at hj
      exact ha.known j r (by rw [hpc]; exact hj)
    · rw [Function.update_of_ne hji] at hj
      exact ha.known j r hj
  | commit i n seq handle hpc => exact acks_commit hr h hw hold ha hpc
  | commitFast i n seq handle w hpc hsecond hwal hwritten =>
    obtain ⟨hle, hcur⟩ := hw.handle i n seq handle hpc
    have hknown := ha.known i (n, seq) (by rw [hpc]; rfl)
    refine ha.acknowledge hknown (hle.trans hcur) (fun g hg hn w' hw' => ?_)
    by_cases hown : handle = n
    · rw [← hown, hwal] at hw'
      cases hw'
      exact hwritten.trans (hr.fast hsecond _)
    · obtain ⟨-, hseq⟩ := hknown.of_live h ha hg hn
      obtain ⟨w₁, f, hw₁, -, hb, -⟩ := h.backed g hg
      have hlast := hb.holds.last
      rw [hn, hw'] at hw₁
      cases hw₁
      have hfull := hold g hg (by omega) w' (hn ▸ hw')
      dsimp only at hlast hseq ⊢
      omega
  | logOp n op => exact AckInv.runOp hr h ha n op
  | freeze t htree =>
    have hop := AckInv.runOp hr h ha s.tree.logNumber .flush
    refine hop.keep (extends_of_eq rfl) rfl rfl ?_
      (fun g hg _ w' hw' => ⟨g, hg, rfl, w', hw', le_rfl⟩) hop.retired
    rw [runOp_tree]
    cases htree
    exact le_rfl
  | create | removeLog => exact hsame _ _ _ _ _ le_rfl
  | swapLog n w t hfreezing htree =>
    have hlt := (h.freezing n hfreezing).2.1
    obtain ⟨l, g₀, hl, hnumber, -⟩ := h.newest
    have hcur := hlt g₀ (by simp [hl])
    have htn : t.logNumber = n := by
      cases htree with
      | swapLog n' hlock =>
        rw [hfreezing] at hlock
        exact (Option.some.inj hlock).symm
    refine ha.keep ?_ rfl rfl (by dsimp only; omega) ?_ ha.retired
    · intro g hg
      refine ⟨g, ?_, rfl, rfl, le_rfl⟩
      rcases List.mem_append.mp hg with hret | hlive
      · exact List.mem_append_left _ hret
      · exact List.mem_append_right _ (List.mem_append_left _ hlive)
    · intro g' hg' hle w' hw'
      rcases List.mem_append.mp hg' with hlive | hnew
      · have hne := (hlt g' hlive).ne
        dsimp only at hw'
        rw [Table.lookup_insert, if_neg hne] at hw'
        exact ⟨g', hlive, rfl, w', hw', le_rfl⟩
      · rw [List.mem_singleton] at hnew
        subst hnew
        dsimp only at hle
        omega
  | publish t htree =>
    cases htree with
    | publishFlush | publishCompaction => exact hsame _ _ _ _ _ le_rfl
  | storeLogNumber n m t hjob htree =>
    obtain ⟨g, rest, hlive, hnumber, hlt, -⟩ := LogInv.retired h hjob
    refine ha.keep (extends_of_eq ?_) rfl rfl ?_ ?_ ?_
    · rw [hlive]
      simp
    · cases htree
      exact le_rfl
    · exact fun g' hg' _ w' hw' => ⟨g', List.mem_of_mem_tail hg', rfl, w', hw', le_rfl⟩
    · intro g' hg'
      rcases List.mem_append.mp hg' with hret | htake
      · have := ha.retired g' hret
        dsimp only
        omega
      · rw [hlive, List.take_succ_cons, List.take_zero, List.mem_singleton] at htake
        rw [htake]
        exact hlt
  | keepLogNumber n m t hjob htree | forgetLogs n m t hjob htree =>
    refine hsame _ _ _ _ _ ?_
    cases htree
    exact le_rfl
  | quiet a t ha' htree => exact hsame _ _ _ _ _ (keeps_of_quiet ha' htree).logNumber.ge

end RedisFromScratch.AckedWrites
