import RedisFromScratch.EngineCommit
import RedisFromScratch.EngineSteps

/-!
The writes under way. A write commits to the log that is current when it looks
again, which is its own or a newer one. Unless the policy is to leave records
in memory, every record that has not reached the file of the current log
belongs to a write that has not been acknowledged.
-/
namespace RedisFromScratch.EngineWriters

open ByteStrings SortedTables EngineTypes EngineLogs EngineWal Versions LsmTree Compaction
open EngineRuns EngineInvariant EngineSteps Relation Runs

variable {F : Type} {o : Options} {sc : Scores F} {policy : SyncPolicy} {s s' : State}

/-- The record of a write under way: log and number. -/
def record : EngineRuns.Writer → Option (ℕ × ℕ)
  | .idle => none
  | .appended n seq => some (n, seq)
  | .committing n seq _ => some (n, seq)

structure WriterInv (s : State) : Prop where
  older : ∀ i n seq, record (s.writer i) = some (n, seq) → n ≤ s.tree.logNumber
  handle : ∀ i n seq handle, s.writer i = .committing n seq handle →
    n ≤ handle ∧ handle ≤ s.tree.logNumber
  waiting : ∀ w, s.wals.lookup s.tree.logNumber = some w → ∀ seq, w.written < seq →
    seq ≤ w.lastAppended → ∃ i, record (s.writer i) = some (s.tree.logNumber, seq)

theorem started_writers (h : Started s) : WriterInv s := by
  refine ⟨?_, ?_, ?_⟩
  · intro i n seq hi
    rw [h.writer] at hi
    cases hi
  · intro i n seq handle hi
    rw [h.writer] at hi
    cases hi
  · intro w hw seq hlow hhigh
    obtain ⟨start, -, -, -, hwal⟩ := h.live
    rw [hwal] at hw
    cases hw
    exact absurd hlow (Nat.not_lt.mpr hhigh)

/-- The current log is open and has its file. -/
theorem LogInv.current (h : LogInv s) : ∃ w f g, s.wals.lookup s.tree.logNumber = some w ∧
    s.logs.lookup s.tree.logNumber = some f ∧ Backs w f g ∧ g ∈ s.live := by
  obtain ⟨l, g, hl, hnumber, -⟩ := h.newest
  have hg : g ∈ s.live := by simp [hl]
  obtain ⟨w, f, hw, hf, hb, -⟩ := h.backed g hg
  exact ⟨w, f, g, hnumber ▸ hw, hnumber ▸ hf, hb, hg⟩

/-- What an operation on some log does to the current one. -/
theorem current_runOp (h : LogInv s) (n : ℕ) (op : Op) {w' : Wal}
    (hw' : (s.runOp n op).wals.lookup s.tree.logNumber = some w') :
    ∃ w f g, s.wals.lookup s.tree.logNumber = some w ∧ Backs w f g ∧
      ((n = s.tree.logNumber ∧ w' = (op.run Io.fine ⟨w, f, false⟩).1.wal) ∨
        (n ≠ s.tree.logNumber ∧ w' = w)) := by
  obtain ⟨w, f, g, hw, hf, hb, -⟩ := LogInv.current h
  refine ⟨w, f, g, hw, hb, ?_⟩
  rcases runOp_lookup s n op s.tree.logNumber with ⟨hm, w₁, f₁, hw₁, hf₁, hwal, -⟩ | ⟨hwal, -, hno⟩
  · rw [← hm, hw] at hw₁
    rw [← hm, hf] at hf₁
    cases hw₁
    cases hf₁
    rw [hwal] at hw'
    exact Or.inl ⟨hm.symm, (Option.some.inj hw').symm⟩
  · refine Or.inr ⟨fun hn => ?_, ?_⟩
    · rcases hno hn.symm with hnone | hnone
      · rw [hn, hw] at hnone
        cases hnone
      · rw [hn, hf] at hnone
        cases hnone
    · rw [hwal, hw] at hw'
      exact (Option.some.inj hw').symm

/-- Nobody loses a record to an operation on a log. -/
theorem WriterInv.runOp (hw : WriterInv s) (h : LogInv s) (n : ℕ) (op : Op) :
    WriterInv (s.runOp n op) := by
  refine ⟨?_, ?_, ?_⟩
  · rw [runOp_writer, runOp_tree]
    exact hw.older
  · rw [runOp_writer, runOp_tree]
    exact hw.handle
  · rw [runOp_writer, runOp_tree]
    intro w' hw' seq hlow hhigh
    obtain ⟨w, f, g, hwal, hb, ⟨-, rfl⟩ | ⟨-, rfl⟩⟩ := current_runOp h n op hw'
    · obtain ⟨-, hwritten, -, hlast⟩ := hb.run op
      exact hw.waiting w hwal seq (by omega) (by omega)
    · exact hw.waiting _ hwal seq hlow hhigh

/-- Where a write is acknowledged its record is written, or its log is not the
current one any more. -/
theorem WriterInv.acknowledge (hw : WriterInv s) (i n seq : ℕ)
    (hrec : record (s.writer i) = some (n, seq))
    (hdone : n ≠ s.tree.logNumber ∨ ∀ w, s.wals.lookup s.tree.logNumber = some w →
      seq ≤ w.written ∨ w.lastAppended ≤ w.written) (acked : List (ℕ × ℕ)) :
    WriterInv { s with writer := Function.update s.writer i .idle, acked := acked } := by
  refine ⟨?_, ?_, ?_⟩
  · intro j m q hj
    dsimp only at hj
    by_cases hji : j = i
    · subst hji
      rw [Function.update_self] at hj
      cases hj
    · rw [Function.update_of_ne hji] at hj
      exact hw.older j m q hj
  · intro j m q handle hj
    dsimp only at hj
    by_cases hji : j = i
    · subst hji
      rw [Function.update_self] at hj
      cases hj
    · rw [Function.update_of_ne hji] at hj
      exact hw.handle j m q handle hj
  · intro w hwal q hlow hhigh
    obtain ⟨j, hj⟩ := hw.waiting w hwal q hlow hhigh
    refine ⟨j, ?_⟩
    have hji : j ≠ i := by
      rintro rfl
      rw [hrec] at hj
      cases hj
      rcases hdone with hne | hdone
      · exact hne rfl
      · rcases hdone w hwal with hle | hle <;> omega
    dsimp only
    rw [Function.update_of_ne hji]
    exact hj

/-- The steps that move neither a writer nor a log. -/
theorem WriterInv.keep (hw : WriterInv s) (hwriter : s'.writer = s.writer)
    (hnumber : s'.tree.logNumber = s.tree.logNumber) (hwals : s'.wals = s.wals) :
    WriterInv s' := by
  refine ⟨?_, ?_, ?_⟩
  · rw [hwriter, hnumber]
    exact hw.older
  · rw [hwriter, hnumber]
    exact hw.handle
  · rw [hwriter, hnumber, hwals]
    exact hw.waiting

theorem writers_append (hw : WriterInv s) (h : LogInv s) {i : ℕ} {muts : List Mutation}
    {t : TreeRuns.State} {w w' : Wal} (hidle : s.writer i = .idle)
    (hnumber : t.logNumber = s.tree.logNumber)
    (hwal : s.wals.lookup s.tree.logNumber = some w) (happend : w.append muts = some w') :
    WriterInv { s with
      tree := t
      wals := s.wals.insert s.tree.logNumber w'
      writer := Function.update s.writer i (.appended s.tree.logNumber w.nextSeq)
      live := EngineRuns.record muts s.live } := by
  obtain ⟨w₁, f, g, hw₁, -, hb, -⟩ := LogInv.current h
  rw [hwal] at hw₁
  cases hw₁
  have hnext := hb.holds.next
  have hlast := hb.holds.last
  have hcounters : w'.written = w.written ∧ w'.lastAppended = w.nextSeq := by
    unfold Wal.append at happend
    split at happend
    · cases happend
    · cases happend
      exact ⟨rfl, rfl⟩
  refine ⟨?_, ?_, ?_⟩
  · intro j n seq hj
    dsimp only at hj ⊢
    rw [hnumber]
    by_cases hji : j = i
    · subst hji
      rw [Function.update_self] at hj
      cases hj
      exact le_rfl
    · rw [Function.update_of_ne hji] at hj
      exact hw.older j n seq hj
  · intro j n seq handle hj
    dsimp only at hj ⊢
    rw [hnumber]
    by_cases hji : j = i
    · subst hji
      rw [Function.update_self] at hj
      cases hj
    · rw [Function.update_of_ne hji] at hj
      exact hw.handle j n seq handle hj
  · intro w₂ hw₂ seq hlow hhigh
    dsimp only at hw₂ hnext hlast ⊢
    rw [hnumber, Table.lookup_insert, if_pos rfl] at hw₂
    cases hw₂
    rw [hnumber]
    by_cases hseq : seq = w.nextSeq
    · refine ⟨i, ?_⟩
      rw [Function.update_self, hseq]
      rfl
    · obtain ⟨j, hj⟩ := hw.waiting w hwal seq (by omega) (by omega)
      refine ⟨j, ?_⟩
      rw [Function.update_of_ne, hj]
      rintro rfl
      rw [hidle] at hj
      cases hj

theorem writers_reread (hw : WriterInv s) {i n seq : ℕ} (hpc : s.writer i = .appended n seq) :
    WriterInv { s with
      writer := Function.update s.writer i (.committing n seq s.tree.logNumber) } := by
  have hrec : ∀ j, record (Function.update s.writer i (.committing n seq s.tree.logNumber) j) =
      record (s.writer j) :=
    Runs.read_update record (by rw [hpc]; rfl)
  refine ⟨?_, ?_, ?_⟩
  · intro j m q hj
    exact hw.older j m q (hrec j ▸ hj)
  · intro j m q handle hj
    dsimp only at hj ⊢
    by_cases hji : j = i
    · subst hji
      rw [Function.update_self] at hj
      cases hj
      exact ⟨hw.older j n seq (by rw [hpc]; rfl), le_rfl⟩
    · rw [Function.update_of_ne hji] at hj
      exact hw.handle j m q handle hj
  · intro w hwal q hlow hhigh
    obtain ⟨j, hj⟩ := hw.waiting w hwal q hlow hhigh
    exact ⟨j, (hrec j).trans hj⟩

/-- A commit under a policy that hands the record to the kernel. -/
theorem commit_written {w : Wal} {f : LogFile} {g : Segment} {op : Op} {seq : ℕ}
    {policy : SyncPolicy} (hb : Backs w f g) (hop : commitOp seq policy = some op) :
    min seq w.lastAppended ≤ (op.run Io.fine ⟨w, f, false⟩).1.wal.written := by
  obtain ⟨-, hdone, -, -⟩ := hb.holds.run op (fun _ => rfl) Io.fine
  have hmid := (hb.run op).1.holds.mid
  have hlast := hb.holds.last
  have hok := hdone (run_fine ⟨w, f, false⟩ op).2.2
  dsimp only at hmid hlast
  cases policy with
  | always =>
    cases hop
    omega
  | everySecond =>
    cases hop
    dsimp only at hok
    omega
  | never => cases hop

theorem commit_writes (h : LogInv s) {op : Op} {seq handle : ℕ} {policy : SyncPolicy}
    (hop : commitOp seq policy = some op) (hhandle : handle = s.tree.logNumber) {w' : Wal}
    (hw' : (s.runOp handle op).wals.lookup s.tree.logNumber = some w') :
    seq ≤ w'.written ∨ w'.lastAppended ≤ w'.written := by
  obtain ⟨w, f, g, -, hb, ⟨-, rfl⟩ | ⟨hne, -⟩⟩ := current_runOp h handle op hw'
  · obtain ⟨-, -, -, hlast⟩ := hb.run op
    have hwritten := commit_written hb hop
    omega
  · exact absurd hhandle hne

theorem writers_commit (hw : WriterInv s) (h : LogInv s) (hpolicy : policy ≠ .never)
    {i n seq handle : ℕ} (hpc : s.writer i = .committing n seq handle) :
    WriterInv { s.runCommit policy handle seq with
      writer := Function.update s.writer i .idle
      acked := s.acked ++ [(n, seq)] } := by
  obtain ⟨hle, hcur⟩ := hw.handle i n seq handle hpc
  obtain ⟨op, hop⟩ : ∃ op, commitOp seq policy = some op := by
    cases policy with
    | always | everySecond => exact ⟨_, rfl⟩
    | never => exact absurd rfl hpolicy
  have hrun : s.runCommit policy handle seq = s.runOp handle op := by
    rw [State.runCommit, hop]
  have hwriter := runOp_writer s handle op
  have htree := runOp_tree s handle op
  rw [hrun]
  have hack := WriterInv.acknowledge (hw.runOp h handle op) i n seq
    (by rw [hwriter, hpc]; rfl) (by
      rw [htree]
      by_cases hcurrent : handle = s.tree.logNumber
      · exact Or.inr (fun w' hw' => commit_writes h hop hcurrent hw')
      · exact Or.inl (by omega)) (s.acked ++ [(n, seq)])
  rw [hwriter] at hack
  exact hack

theorem writers_step (hpolicy : policy ≠ .never) (h : LogInv s) (hw : WriterInv s)
    (hstep : Step o sc policy s s') : WriterInv s' := by
  cases hstep with
  | append i muts t w w' hidle hne htree hwal happend =>
    refine writers_append hw h hidle ?_ hwal happend
    cases htree
    rfl
  | reread i n seq hpc => exact writers_reread hw hpc
  | commit i n seq handle hpc => exact writers_commit hw h hpolicy hpc
  | commitFast i n seq handle w hpc hsecond hwal hwritten =>
    obtain ⟨hle, hcur⟩ := hw.handle i n seq handle hpc
    refine WriterInv.acknowledge hw i n seq (by rw [hpc]; rfl) ?_ _
    by_cases hcurrent : handle = s.tree.logNumber
    · right
      intro w' hw'
      rw [← hcurrent, hwal] at hw'
      cases hw'
      exact Or.inl hwritten
    · exact Or.inl (by omega)
  | logOp n op => exact hw.runOp h n op
  | freeze t htree =>
    have hop := hw.runOp h s.tree.logNumber .flush
    refine hop.keep rfl ?_ rfl
    rw [runOp_tree]
    cases htree
    rfl
  | create | removeLog => exact hw.keep rfl rfl rfl
  | swapLog n w t hfreezing htree =>
    obtain ⟨l, g, hl, hnumber, -⟩ := h.newest
    have hlt := (h.freezing n hfreezing).2.1 g (by simp [hl])
    have htn : t.logNumber = n := by
      cases htree with
      | swapLog n' hlock =>
        rw [hfreezing] at hlock
        exact (Option.some.inj hlock).symm
    refine ⟨?_, ?_, ?_⟩
    · intro i m seq hi
      have := hw.older i m seq hi
      dsimp only
      omega
    · intro i m seq handle hi
      have := hw.handle i m seq handle hi
      dsimp only
      omega
    · intro w' hw' seq hlow hhigh
      rw [htn, Table.lookup_insert, if_pos rfl] at hw'
      cases hw'
      exact absurd hlow (Nat.not_lt.mpr hhigh)
  | publish t htree =>
    refine hw.keep rfl ?_ rfl
    cases htree <;> rfl
  | storeLogNumber n m t hjob htree | keepLogNumber n m t hjob htree
  | forgetLogs n m t hjob htree =>
    refine hw.keep rfl ?_ rfl
    cases htree
    rfl
  | quiet a t ha htree => exact hw.keep rfl (keeps_of_quiet ha htree).logNumber rfl

theorem writers_run (hpolicy : policy ≠ .never) {s₀ : State} (h₀ : Started s₀)
    (hrun : ReflTransGen (Step o sc policy) s₀ s) : LogInv s ∧ WriterInv s :=
  run_preserves (fun s => LogInv s ∧ WriterInv s)
    (fun _ _ h hstep => ⟨inv_step h.1 hstep, writers_step hpolicy h.1 h.2 hstep⟩) hrun
    ⟨started_inv h₀, started_writers h₀⟩

/-- With no write under way, every record of the live logs is in its file. -/
theorem written_of_idle (h : LogInv s) (hw : WriterInv s) (hidle : ∀ i, s.writer i = .idle) :
    ∀ g ∈ s.live, ∀ w, s.wals.lookup g.number = some w → Complete w := by
  intro g hg w hwal
  obtain ⟨w₁, f, hw₁, -, hb, hc⟩ := h.backed g hg
  rw [hwal] at hw₁
  cases hw₁
  by_cases hnumber : g.number = s.tree.logNumber
  · have hhigh := hb.holds.high
    by_contra hne
    unfold Complete at hne
    dsimp only at hhigh
    obtain ⟨i, hi⟩ := hw.waiting w (hnumber ▸ hwal) w.lastAppended (by omega) le_rfl
    rw [hidle] at hi
    cases hi
  · exact hc (Or.inl hnumber)

section Example

open EngineCommit (putK putK_size putK_range oneAppended append_one)
open TreeSteps (oneWrite eagerOptions wholeScores)

/-- A fresh directory after one batch was appended to its log. -/
def oneRecord (writer : EngineRuns.Writer) (acked : List (ℕ × ℕ)) : State :=
  { EngineRuns.init 0 with
    tree := oneWrite 0 putK
    wals := (EngineRuns.init 0).wals.insert 1 oneAppended
    writer := Function.update (fun _ => .idle) 0 writer
    live := [⟨1, 0, [putK], Table.empty⟩]
    acked := acked }

theorem putK_fits : BatchFits putK := ⟨putK_range, by rw [putK_size]; decide⟩

theorem append_putK : Step eagerOptions wholeScores policy (EngineRuns.init 0)
    (oneRecord (.appended 1 1) []) :=
  .append (EngineRuns.init 0) 0 putK (oneWrite 0 putK) (Wal.create 1 0) oneAppended rfl
    (List.cons_ne_nil _ _) (.append _ putK rfl) rfl append_one putK_fits (by decide)

variable (cond : State → State → Prop)

theorem oneRecord_run (hcond : ∀ a b : State, b.tree.logNumber = a.tree.logNumber → cond a b) :
    ReflTransGen (Guarded (Step eagerOptions wholeScores policy) cond) (EngineRuns.init 0)
      (oneRecord (.committing 1 1 1) []) := by
  have hreread : Step eagerOptions wholeScores policy (oneRecord (.appended 1 1) []) _ :=
    .reread (oneRecord (.appended 1 1) []) 0 1 1 rfl rfl
  rw [show (oneRecord (.appended 1 1) []).writer =
    Function.update (fun _ => .idle) 0 (.appended 1 1) from rfl, Function.update_idem] at hreread
  exact .tail (.single ⟨append_putK, hcond _ _ rfl⟩) ⟨hreread, hcond _ _ rfl⟩

/-- The log with its one record in the file and not synced. -/
def flushedLog : Log :=
  ⟨{ oneAppended with bytes := [], written := 1 },
    ⟨encodeHeader 1 0 ++ framing.encode (recOf 1 putK), logHeader⟩, false⟩

theorem flush_oneAppended :
    (Op.run Io.fine .flush ⟨oneAppended, headerFile 1 0, false⟩).1 = flushedLog := by
  have hne := EngineLogs.encode_ne_nil (recOf 1 putK)
  simp [Op.run, Op.Drains, oneAppended, Log.drain, hne, Io.fine, flushedLog, headerFile]

/-- The memtable is frozen, and a second log is current. -/
def rotated (writer : EngineRuns.Writer) : State :=
  { oneRecord writer [] with
    tree := { oneWrite 0 putK with
      active := Table.empty
      immutable := [⟨1, (oneWrite 0 putK).active⟩]
      logNumber := 2
      nextFileNumber := 3 }
    logs := ((EngineRuns.init 0).logs.insert 1 flushedLog.file).insert 2 (headerFile 2 1)
    wals := ((oneRecord writer []).wals.insert 1 flushedLog.wal).insert 2 (Wal.create 2 1)
    live := [⟨1, 0, [putK], Table.empty⟩, ⟨2, 1, [], Table.empty⟩] }

theorem rotated_run (writer : EngineRuns.Writer) :
    ReflTransGen (Step eagerOptions wholeScores policy) (oneRecord writer []) (rotated writer) := by
  have hfreeze : Step eagerOptions wholeScores policy (oneRecord writer []) _ :=
    .freeze (oneRecord writer []) _ (.allocateLog (oneWrite 0 putK) rfl (List.cons_ne_nil _ _))
  have hop : (oneRecord writer []).runOp 1 .flush = { oneRecord writer [] with
      wals := (oneRecord writer []).wals.insert 1 flushedLog.wal
      logs := (EngineRuns.init 0).logs.insert 1 flushedLog.file } := by
    rw [← flush_oneAppended]
    rfl
  rw [show (oneRecord writer []).tree.logNumber = 1 from rfl, hop] at hfreeze
  exact .tail (.single hfreeze) (.swapLog _ 2 flushedLog.wal _ rfl (.swapLog _ 2 rfl) rfl)

end Example

end RedisFromScratch.EngineWriters
