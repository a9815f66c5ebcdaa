import RedisFromScratch.CrashStarts
import RedisFromScratch.LevelStructure

/-!
The numbers that writes return, over all runs on one directory. In a run the log
counts them, and a new log goes on where the old one stopped. An open starts
behind the highest number it finds, which is the manifest's or that of a batch in
a log it replays. A flush writes the number of keys of the memtable into the
manifest where the number of its last batch belongs, and then its log goes.
-/
namespace RedisFromScratch.WriteNumbers

open ByteStrings SortedTables EngineTypes EngineLogs EngineWal Versions LsmTree Compaction
open EngineRuns EngineInvariant EngineWriters CrashPoints EngineRestarts FileNumbers CrashStarts
open Relation Runs

/-- The numbers replay finds in a log. -/
def logNumbers (f : LogFile) : List ℕ :=
  match replay f with
  | .ok (r, _) => r.batches.map Prod.fst
  | .error _ => []

/-- Repairing a log loses no number. -/
theorem logNumbers_repaired {f f' : LogFile} {p : Replayed} (h : Begun f)
    (hreplay : replay f = .ok (p, f')) : logNumbers f' = logNumbers f := by
  obtain ⟨number, start, batches, hfits, hbound, hpre⟩ := h
  obtain ⟨data, synced⟩ := f
  have hheader : logHeader ≤ data.length := by
    by_contra hshort
    rw [replay, readHeader, if_pos (Nat.not_le.mp hshort)] at hreplay
    cases hreplay
  have hhead : encodeHeader number start <+: data := by
    refine List.prefix_of_prefix_length_le (List.prefix_append _ _) hpre ?_
    rw [encodeHeader_length]
    exact hheader
  obtain ⟨kept, rest, t, rfl, rfl, ht⟩ :=
    Tears.of_prefix (tears_all number start batches) hhead hpre
  obtain ⟨cut, f₁, hfirst, hdata⟩ := replay_torn number synced hfits hbound ht
  have hkept : start + 1 + kept.length ≤ 2 ^ 64 := by
    rw [List.length_append] at hbound
    omega
  obtain ⟨cut', f₂, hsecond⟩ := replay_whole number f₁.synced
    (fun b hb => hfits b (List.mem_append_left _ hb)) hkept
  cases hreplay.symm.trans hfirst
  rw [← hdata] at hsecond
  rw [logNumbers, logNumbers, hsecond, hfirst]

section Recover

variable {logs : List (ℕ × LogFile)} {r r' : Recovered}

theorem le_foldl_max (l : List ℕ) (a : ℕ) : a ≤ l.foldl max a ∧ ∀ b ∈ l, b ≤ l.foldl max a := by
  induction l generalizing a with
  | nil => exact ⟨le_rfl, fun b hb => by cases hb⟩
  | cons c l ih =>
    obtain ⟨hstart, hmem⟩ := ih (max a c)
    refine ⟨(le_max_left a c).trans hstart, fun b hb => ?_⟩
    rcases List.mem_cons.mp hb with rfl | hb
    · exact (le_max_right a b).trans hstart
    · exact hmem b hb

/-- Replay goes behind every number it finds. -/
theorem replayLogs_counts (hr : replayLogs logs r = .ok r') :
    r.lastSequence ≤ r'.lastSequence ∧
      ∀ b ∈ logs, ∀ seq ∈ logNumbers b.2, seq ≤ r'.lastSequence := by
  induction logs generalizing r with
  | nil =>
    cases hr
    exact ⟨le_rfl, fun b hb => by cases hb⟩
  | cons b logs ih =>
    rw [replayLogs] at hr
    split at hr
    · cases hr
    · rename_i p f' hreplay
      obtain ⟨hlast, hrest⟩ := ih hr
      obtain ⟨hstart, hfound⟩ := le_foldl_max (p.batches.map Prod.fst) r.lastSequence
      refine ⟨hstart.trans hlast, fun b hb seq hseq => ?_⟩
      rcases List.mem_cons.mp hb with rfl | hb
      · rw [logNumbers, hreplay] at hseq
        exact (hfound seq hseq).trans hlast
      · exact hrest b hb seq hseq

/-- The replay loop leaves every log its numbers. -/
theorem replayLogs_numbers (hasc : Ascending logs)
    (hlogs : ∀ b ∈ logs, r.logs.lookup b.1 = some b.2 ∧ Begun b.2)
    (hr : replayLogs logs r = .ok r') (n : ℕ) :
    (r'.logs.lookup n).map logNumbers = (r.logs.lookup n).map logNumbers := by
  induction logs generalizing r with
  | nil =>
    cases hr
    rfl
  | cons b logs ih =>
    obtain ⟨m, f⟩ := b
    obtain ⟨hfirst, hrest⟩ := List.pairwise_cons.mp hasc
    obtain ⟨hlookup, hbegun⟩ := hlogs (m, f) List.mem_cons_self
    rw [replayLogs] at hr
    split at hr
    · cases hr
    · rename_i p f' hreplay
      refine (ih hrest (fun b hb => ?_) hr).trans ?_
      · obtain ⟨hb', hbegun'⟩ := hlogs b (List.mem_cons_of_mem _ hb)
        refine ⟨?_, hbegun'⟩
        rw [Table.lookup_insert, if_neg (hfirst b hb).ne']
        exact hb'
      · dsimp only
        rw [Table.lookup_insert]
        split
        · rename_i heq
          rw [heq, hlookup, Option.map_some, Option.map_some, logNumbers_repaired hbegun hreplay]
        · rfl

end Recover

/-- The next open will find this number or a higher one. -/
def Counted (d : Disk) (m : ℕ) : Prop :=
  m ≤ d.loaded.lastSequence ∨ ∃ n f, d.logs.lookup n = some f ∧ d.loaded.logNumber ≤ n ∧
    ∃ seq ∈ logNumbers f, m ≤ seq

theorem Counted.recovered {d : Disk} {m : ℕ} (h : Counted d m) {r : Recovered}
    (hr : d.recover = .ok r) : m ≤ r.lastSequence := by
  obtain ⟨hlast, hfound⟩ := replayLogs_counts hr
  rcases h with hle | ⟨n, f, hf, hn, seq, hseq, hle⟩
  · exact hle.trans hlast
  · exact hle.trans (hfound (n, f) (mem_neededLogs.mpr ⟨hf, hn⟩) seq hseq)

/-- A live log with a batch in its file is found after a kill. -/
theorem counted_killed {s : State} {d : Disk} (h : LogInv s) (hkill : Killed s d) {g : Segment}
    (hg : g ∈ s.live) {w : Wal} (hw : s.wals.lookup g.number = some w) (hlow : g.start < w.written)
    {m : ℕ} (hm : m ≤ w.written) : Counted d m := by
  obtain ⟨w', f, f', hw', hb, hf', hpre, hlen⟩ := log_left h hkill hg
  rw [hw] at hw'
  cases hw'
  have hlast := hb.holds.last
  have hhigh := hb.holds.high
  dsimp only at hlast hhigh
  obtain ⟨kept, rest, cut, f₁, hsplit, hreplay, hreach⟩ :=
    replay_cut hb hpre ((header_length hb).trans hlen)
  have hkept := hreach (w.written - g.start) (by omega) ((written_length hb le_rfl).trans hlen)
  refine Or.inr ⟨g.number, f', hf', ?_, w.written, ?_, hm⟩
  · rw [Leaves.loaded hkill]
    exact h.low hg
  · rw [logNumbers, hreplay]
    change w.written ∈ (numberedBatches g.start kept).map Prod.fst
    rw [PowerCuts.fst_numberedBatches, List.mem_range'_1]
    omega

variable {F : Type} {o : Options} {sc : Scores F} {policy : SyncPolicy} {s s' : State}
  {x x' : Sys} {ended : List ℕ}

/-- The number of a write under way. -/
def numberOf : EngineRuns.Writer → Option ℕ
  | .idle => none
  | .appended _ seq => some seq
  | .committing _ seq _ => some seq

/-- The log goes on behind every number returned or given to a write under way,
and the manifest behind those of the runs that ended. -/
structure RunNumbers (ended : List ℕ) (s : State) : Prop where
  past : ∀ m ∈ ended, m ≤ s.stored.lastSequence
  returned : ∀ w, s.wals.lookup s.tree.logNumber = some w →
    ∀ m ∈ ended ++ s.acked.map Prod.snd, m < w.nextSeq
  pending : ∀ w, s.wals.lookup s.tree.logNumber = some w →
    ∀ i seq, numberOf (s.writer i) = some seq → seq < w.nextSeq

/-- The log of the later state counts on from that of the earlier one. -/
def CountsOn (s s' : State) : Prop :=
  ∀ w', s'.wals.lookup s'.tree.logNumber = some w' →
    ∃ w, s.wals.lookup s.tree.logNumber = some w ∧ w.nextSeq ≤ w'.nextSeq

theorem RunNumbers.keep (h : RunNumbers ended s)
    (hstored : s.stored.lastSequence ≤ s'.stored.lastSequence)
    (hacked : ∀ m ∈ s'.acked.map Prod.snd, m ∈ s.acked.map Prod.snd ∨
      ∃ i, numberOf (s.writer i) = some m)
    (hwriter : ∀ i seq, numberOf (s'.writer i) = some seq →
      ∃ j, numberOf (s.writer j) = some seq) (hnext : CountsOn s s') :
    RunNumbers ended s' := by
  refine ⟨fun m hm => (h.past m hm).trans hstored, fun w' hw' m hm => ?_, fun w' hw' i seq hi => ?_⟩
  · obtain ⟨w, hw, hle⟩ := hnext w' hw'
    refine lt_of_lt_of_le ?_ hle
    rcases List.mem_append.mp hm with hm | hm
    · exact h.returned w hw m (List.mem_append_left _ hm)
    · rcases hacked m hm with hm | ⟨i, hi⟩
      · exact h.returned w hw m (List.mem_append_right _ hm)
      · exact h.pending w hw i m hi
  · obtain ⟨w, hw, hle⟩ := hnext w' hw'
    obtain ⟨j, hj⟩ := hwriter i seq hi
    exact (h.pending w hw j seq hj).trans_le hle

/-- A step that leaves writers and acknowledgements alone. -/
theorem RunNumbers.quiet (h : RunNumbers ended s)
    (hstored : s.stored.lastSequence ≤ s'.stored.lastSequence) (hacked : s'.acked = s.acked)
    (hwriter : s'.writer = s.writer) (hnext : CountsOn s s') : RunNumbers ended s' := by
  refine h.keep hstored (fun m hm => Or.inl ?_) (fun i seq hi => ⟨i, ?_⟩) hnext
  · rwa [hacked] at hm
  · rwa [hwriter] at hi

/-- Operations on logs count nothing. -/
theorem nextSeq_runOp (h : LogInv s) (n : ℕ) (op : Op) :
    CountsOn s { s with wals := (s.runOp n op).wals } := by
  intro w' hw'
  obtain ⟨w, f, g, hw, hb, hsame⟩ := current_runOp h n op hw'
  refine ⟨w, hw, ?_⟩
  rcases hsame with ⟨-, rfl⟩ | ⟨-, rfl⟩
  · have hbefore := hb.holds.next
    have hafter := (hb.run op).1.holds.next
    dsimp only at hbefore hafter
    omega
  · exact le_rfl

/-- A write is acknowledged. -/
theorem RunNumbers.acknowledge (h : RunNumbers ended s) {i n seq : ℕ}
    (hi : numberOf (s.writer i) = some seq) {wals : Table ℕ Wal} {logs : Table ℕ LogFile}
    (hnext : CountsOn s { s with wals := wals }) :
    RunNumbers ended { s with
      wals := wals
      logs := logs
      writer := Function.update s.writer i .idle
      acked := s.acked ++ [(n, seq)] } := by
  refine h.keep le_rfl (fun m hm => ?_) (fun j seq' hj => ?_) hnext
  · rw [List.map_append] at hm
    rcases List.mem_append.mp hm with hm | hm
    · exact Or.inl hm
    · rw [List.map_singleton, List.mem_singleton] at hm
      exact Or.inr ⟨i, hm ▸ hi⟩
  · dsimp only at hj
    rw [Function.update_apply] at hj
    split at hj
    · cases hj
    · exact ⟨j, hj⟩

theorem numbers_append (h : RunNumbers ended s) {i : ℕ} {muts : List Mutation}
    {t : TreeRuns.State} {w w' : Wal} (htree : TreeRuns.Step o sc s.tree (.append muts) t)
    (hwal : s.wals.lookup s.tree.logNumber = some w) (happend : w.append muts = some w')
    (live : List Segment) :
    RunNumbers ended { s with
      tree := t
      wals := s.wals.insert s.tree.logNumber w'
      writer := Function.update s.writer i (.appended s.tree.logNumber w.nextSeq)
      live := live } := by
  have hcount : w'.nextSeq = w.nextSeq + 1 := by
    unfold Wal.append at happend
    split at happend
    · cases happend
    · cases happend
      rfl
  have hcurrent : ∀ w₁, (s.wals.insert s.tree.logNumber w').lookup t.logNumber = some w₁ →
      w₁ = w' := by
    cases htree
    intro w₁ hw₁
    rw [Table.lookup_insert, if_pos rfl] at hw₁
    exact (Option.some.inj hw₁).symm
  refine ⟨h.past, fun w₁ hw₁ m hm => ?_, fun w₁ hw₁ j seq hj => ?_⟩
  · have hlt := h.returned w hwal m hm
    rw [hcurrent w₁ hw₁]
    omega
  · rw [hcurrent w₁ hw₁, hcount]
    dsimp only at hj
    rw [Function.update_apply] at hj
    split at hj
    · cases hj
      exact Nat.lt_succ_self _
    · exact Nat.lt_succ_of_lt (h.pending w hwal j seq hj)

theorem numbers_step (hinv : LogInv s) (h : RunNumbers ended s)
    (hstep : EngineRuns.Step o sc policy s s') : RunNumbers ended s' := by
  have hsame : ∀ {t : TreeRuns.State}, t.logNumber = s.tree.logNumber →
      CountsOn s { s with tree := t } := by
    intro t ht w' hw'
    exact ⟨w', ht ▸ hw', le_rfl⟩
  cases hstep with
  | append i muts t w w' hidle hne htree hwal happend => exact numbers_append h htree hwal happend _
  | reread i n seq hpc =>
    refine h.keep le_rfl (fun m hm => Or.inl hm) (fun j seq' hj => ?_) (hsame rfl)
    dsimp only at hj
    rw [Function.update_apply] at hj
    split at hj
    · cases hj
      exact ⟨i, by rw [hpc]; rfl⟩
    · exact ⟨j, hj⟩
  | commit i n seq handle hpc =>
    have hi : numberOf (s.writer i) = some seq := by rw [hpc]; rfl
    have hnext : CountsOn s { s with wals := (s.runCommit policy handle seq).wals } := by
      unfold State.runCommit
      split
      · exact hsame rfl
      · exact nextSeq_runOp hinv _ _
    obtain ⟨wals, logs, hrun⟩ := runCommit_frame s policy handle seq
    rw [hrun] at hnext ⊢
    exact h.acknowledge hi hnext
  | commitFast i n seq handle w hpc => exact h.acknowledge (by rw [hpc]; rfl) (hsame rfl)
  | logOp n op =>
    refine h.quiet (runOp_stored s n op ▸ le_rfl) (runOp_acked s n op) (runOp_writer s n op) ?_
    rw [CountsOn, runOp_tree]
    exact nextSeq_runOp hinv n op
  | freeze t htree =>
    refine h.quiet (runOp_stored s _ _ ▸ le_rfl) (runOp_acked s _ _) (runOp_writer s _ _) ?_
    cases htree
    exact nextSeq_runOp hinv _ _
  | create | removeLog => exact h.quiet le_rfl rfl rfl (hsame rfl)
  | swapLog n w t hfreezing htree hwal =>
    refine h.quiet le_rfl rfl rfl ?_
    cases htree with
    | swapLog m hlock =>
      cases hfreezing.symm.trans hlock
      intro w' hw'
      rw [Table.lookup_insert, if_pos rfl] at hw'
      cases hw'
      obtain ⟨w₁, f, g, hw₁, -, hb, -⟩ := LogInv.current hinv
      rw [hwal] at hw₁
      cases hw₁
      have hnext := hb.holds.next
      have hlast := hb.holds.last
      dsimp only at hnext hlast
      refine ⟨w, hwal, ?_⟩
      change w.nextSeq ≤ w.lastAppended + 1
      omega
  | publish t htree =>
    cases htree with
    | publishFlush => exact h.quiet (le_max_left _ _) rfl rfl (hsame rfl)
    | publishCompaction => exact h.quiet le_rfl rfl rfl (hsame rfl)
  | storeLogNumber n m t hjob htree | keepLogNumber n m t hjob htree
  | forgetLogs n m t hjob htree =>
    cases htree
    exact h.quiet le_rfl rfl rfl (hsame rfl)
  | quiet a t ha htree =>
    exact h.quiet le_rfl rfl rfl (hsame (EngineSteps.keeps_of_quiet ha htree).logNumber)

/-- The system, and the numbers its ended runs have returned. -/
structure Numbered where
  sys : Sys
  ended : List ℕ

/-- The numbers the present run has returned. -/
def returnedBy : Phase → List ℕ
  | .up s => s.acked.map Prod.snd
  | _ => []

def Numbered.returned (y : Numbered) : List ℕ := y.ended ++ returnedBy y.sys.phase

/-- The numbers of a run that ends with this step. -/
def endedBy (x x' : Sys) : List ℕ :=
  match x.phase, x'.phase with
  | .up s, .down _ => s.acked.map Prod.snd
  | _, _ => []

def NumberedStep (sc : Scores F) (y y' : Numbered) : Prop :=
  AnyStep sc (fun _ => True) y.sys y'.sys ∧ y'.ended = y.ended ++ endedBy y.sys y'.sys

/-- A write that starts now gets a number above all that have been returned. -/
def Grows (sc : Scores F) (y : Numbered) : Prop :=
  ∀ s o policy s', y.sys.phase = .up s → EngineRuns.Step o sc policy s s' →
    ∀ i n seq, s.writer i = .idle → s'.writer i = .appended n seq → ∀ m ∈ y.returned, m < seq

/-- Each run ends with the numbers it returned in the manifest, or with a batch
at least as high in the file of a log the manifest needs; and an open that ends
early has not created its log over one it replayed. -/
structure EndsCounted (y y' : Numbered) : Prop where
  run : ∀ s d, y.sys.phase = .up s → y'.sys.phase = .down d → ∀ m ∈ s.acked.map Prod.snd,
    m ≤ s.stored.lastSequence ∨ ∃ g ∈ s.live, ∃ w, s.wals.lookup g.number = some w ∧
      g.start < w.written ∧ m ≤ w.written
  opening : ∀ z d, y.sys.phase = .creating z ∨ y.sys.phase = .created z →
    y'.sys.phase = .down d → z.manifest.logNumber ∉ z.logs

/-- What an open that ends early leaves for the next, if its own log has a new
number. -/
def FoundBy (z : Opening) (m : ℕ) : Prop :=
  m ≤ z.disk.loaded.lastSequence ∨ ∃ n ∈ z.logs, ∃ f, z.disk.logs.lookup n = some f ∧
    z.disk.loaded.logNumber ≤ n ∧ ∃ seq ∈ logNumbers f, m ≤ seq

theorem FoundBy.counted {z : Opening} {m : ℕ} (h : FoundBy z m) : Counted z.disk m := by
  rcases h with hle | ⟨n, -, f, hf, hn, hseq⟩
  · exact Or.inl hle
  · exact Or.inr ⟨n, f, hf, hn, hseq⟩

theorem FoundBy.setLog {z : Opening} {m : ℕ} (h : FoundBy z m)
    (hnew : z.manifest.logNumber ∉ z.logs) (f : LogFile) : FoundBy (z.setLog f) m := by
  rcases h with hle | ⟨n, hmem, f', hf', hn, hseq⟩
  · exact Or.inl hle
  · refine Or.inr ⟨n, hmem, f', ?_, hn, hseq⟩
    change (z.disk.logs.insert z.manifest.logNumber f).lookup n = some f'
    rw [Table.lookup_insert, if_neg]
    · exact hf'
    · rintro rfl
      exact hnew hmem

/-- An open before its manifest is stored. -/
def OpensBehind (ended : List ℕ) (z : Opening) : Prop :=
  ∀ m ∈ ended, m ≤ z.manifest.lastSequence ∧ (z.manifest.logNumber ∉ z.logs → FoundBy z m)

theorem OpensBehind.setLog {z : Opening} (h : OpensBehind ended z) (f : LogFile) :
    OpensBehind ended (z.setLog f) :=
  fun m hm => ⟨(h m hm).1, fun hnew => ((h m hm).2 hnew).setLog hnew f⟩

def PhaseNumbers (ended : List ℕ) : Phase → Prop
  | .down d => ∀ m ∈ ended, Counted d m
  | .creating z => OpensBehind ended z
  | .created z => OpensBehind ended z
  | .cleaning z => ∀ m ∈ ended, m ≤ z.disk.loaded.lastSequence
  | .up s => RunNumbers ended s

theorem numbers_truncate {d : Disk} {n : ℕ} {f f' : LogFile} {p : Replayed} {m : ℕ}
    (h : Counted d m) (hbegun : AllFrom Begun d.logs d.loaded.logNumber)
    (hmem : (n, f) ∈ d.neededLogs) (hreplay : replay f = .ok (p, f')) :
    Counted { d with logs := d.logs.insert n f' } m := by
  obtain ⟨hf, hn⟩ := mem_neededLogs.mp hmem
  rcases h with hle | ⟨n₁, f₁, hf₁, hn₁, seq, hseq, hle⟩
  · exact Or.inl hle
  · by_cases heq : n₁ = n
    · subst heq
      rw [hf] at hf₁
      cases hf₁
      refine Or.inr ⟨n₁, f', ?_, hn₁, seq, ?_, hle⟩
      · rw [Table.lookup_insert, if_pos rfl]
      · rwa [logNumbers_repaired (hbegun n₁ f hf hn₁) hreplay]
    · refine Or.inr ⟨n₁, f₁, ?_, hn₁, seq, hseq, hle⟩
      rw [Table.lookup_insert, if_neg heq]
      exact hf₁

theorem numbers_load {d : Disk} {r : Recovered} (h : ∀ m ∈ ended, Counted d m)
    (hbegun : AllFrom Begun d.logs d.loaded.logNumber) (hr : d.recover = .ok r) :
    OpensBehind ended (Disk.begin d r) := by
  intro m hm
  refine ⟨(h m hm).recovered hr, fun _ => ?_⟩
  rcases h m hm with hle | ⟨n, f, hf, hn, seq, hseq, hle⟩
  · exact Or.inl hle
  · have hneeded : (n, f) ∈ d.neededLogs := mem_neededLogs.mpr ⟨hf, hn⟩
    have hnumbers := replayLogs_numbers (neededLogs_ascending d) (fun b hb => by
      obtain ⟨hb', hle'⟩ := mem_neededLogs.mp hb
      exact ⟨hb', hbegun b.1 b.2 hb' hle'⟩) hr n
    rw [hf, Option.map_some] at hnumbers
    obtain ⟨f', hf', hsame⟩ := Option.map_eq_some_iff.mp hnumbers
    refine Or.inr ⟨n, List.mem_map_of_mem hneeded, f', hf', hn, seq, ?_, hle⟩
    rwa [hsame]

theorem numbers_serve {z : Opening} (h : ∀ m ∈ ended, m ≤ z.disk.loaded.lastSequence)
    (hstored : z.disk.manifest = some z.manifest) (clock : ℤ) :
    RunNumbers ended (z.serve clock) := by
  rw [Disk.loaded_of_some hstored] at h
  refine ⟨h, fun w hw m hm => ?_, fun w hw i seq hi => by cases hi⟩
  have hlog : (Table.empty.insert z.manifest.logNumber
      (Wal.create z.manifest.logNumber z.manifest.lastSequence)).lookup z.manifest.logNumber =
        some w := hw
  rw [Table.lookup_insert, if_pos rfl] at hlog
  cases hlog
  have hended : m ∈ ended := by
    rcases List.mem_append.mp hm with hm | hm
    · exact hm
    · cases hm
  exact Nat.lt_succ_of_le (h m hended)

theorem numbers_phase {y y' : Numbered} (hok : PhaseOk y.sys.phase)
    (hbegun : PhaseBegun y.sys.phase) (h : PhaseNumbers y.ended y.sys.phase)
    (hstep : EngineRestarts.Step o sc policy y.sys y'.sys)
    (hended : y'.ended = y.ended ++ endedBy y.sys y'.sys) (hcond : EndsCounted y y') :
    PhaseNumbers y'.ended y'.sys.phase := by
  obtain ⟨x, ended⟩ := y
  obtain ⟨x', ended'⟩ := y'
  dsimp only at hok hbegun h hstep hended ⊢
  subst hended
  -- only a kill ends a run
  have hstay : endedBy x x' = [] → PhaseNumbers ended x'.phase →
      PhaseNumbers (ended ++ endedBy x x') x'.phase := by
    intro hnone hsame
    rwa [hnone, List.append_nil]
  cases hstep with
  | truncate d clock past n f f' p hmem hreplay =>
    exact hstay rfl fun m hm => numbers_truncate (h m hm) hbegun hmem hreplay
  | load d clock past r hr => exact hstay rfl (numbers_load h hbegun hr)
  | header | create => exact hstay rfl (h.setLog _)
  | store => exact hstay rfl fun m hm => (h m hm).1
  | removeTable | removeLog => exact hstay rfl h
  | serve z clock later => exact hstay rfl (numbers_serve h hok.2.2.1 later)
  | run s s' clock past hstep => exact hstay rfl (numbers_step hok.1 h hstep)
  | kill s d clock past hkill =>
    intro m hm
    rcases List.mem_append.mp hm with hm | hm
    · left
      rw [Leaves.loaded hkill]
      exact h.past m hm
    · rcases hcond.run s d rfl rfl m hm with hle | ⟨g, hg, w, hw, hlow, hle⟩
      · left
        rw [Leaves.loaded hkill]
        exact hle
      · exact counted_killed hok.1 hkill hg hw hlow hle
  | killOpen p z clock past hp =>
    rcases opening_cases hp with rfl | rfl | rfl
    · exact hstay rfl fun m hm => ((h m hm).2 (hcond.opening z _ (Or.inl rfl) rfl)).counted
    · exact hstay rfl fun m hm => ((h m hm).2 (hcond.opening z _ (Or.inr rfl) rfl)).counted
    · exact hstay rfl fun m hm => Or.inl (h m hm)

/-- The number an append gives is the log's next one. -/
theorem number_appended (hstep : EngineRuns.Step o sc policy s s') {i n seq : ℕ}
    (hidle : s.writer i = .idle) (happended : s'.writer i = .appended n seq) :
    ∃ w, s.wals.lookup s.tree.logNumber = some w ∧ seq = w.nextSeq := by
  have hno : s'.writer = s.writer → False := by
    intro hsame
    rw [hsame, hidle] at happended
    cases happended
  have hupdate : ∀ {j : ℕ} {v : EngineRuns.Writer}, s'.writer = Function.update s.writer j v →
      v = .appended n seq := by
    intro j v hw
    rw [hw, Function.update_apply] at happended
    split at happended
    · exact happended
    · rw [hidle] at happended
      cases happended
  cases hstep with
  | append j muts t w w' hidle' hne htree hwal =>
    cases hupdate rfl
    exact ⟨w, hwal, rfl⟩
  | reread | commitFast => cases hupdate rfl
  | commit j n' seq' handle =>
    obtain ⟨wals, logs, hrun⟩ := runCommit_frame s policy handle seq'
    rw [hrun] at hupdate
    cases hupdate rfl
  | logOp m op => exact (hno (runOp_writer s m op)).elim
  | freeze => exact (hno (runOp_writer s _ _)).elim
  | _ => exact (hno rfl).elim

/-- Over all runs on a directory, a write gets a number above all that were
returned before it started, if no run ends with a number it returned nowhere to
be found. -/
theorem write_numbers_grow (sc : Scores F) (clock : ℤ) (y : Numbered)
    (hrun : ReflTransGen (Guarded (NumberedStep sc) EndsCounted)
      ⟨EngineRestarts.empty clock, []⟩ y) : Grows sc y := by
  have hall : PhaseOk y.sys.phase ∧ PhaseBegun y.sys.phase ∧
      PhaseNumbers y.ended y.sys.phase := by
    refine run_preserves (fun y => PhaseOk y.sys.phase ∧ PhaseBegun y.sys.phase ∧
      PhaseNumbers y.ended y.sys.phase) ?_ hrun ⟨phase_empty clock, begun_empty clock, ?_⟩
    · rintro a b ⟨hok, hbegun, h⟩ ⟨⟨⟨o, policy, -, hstep⟩, hended⟩, hcond⟩
      exact ⟨phase_step hok hstep, begun_step hok hbegun hstep,
        numbers_phase hok hbegun h hstep hended hcond⟩
    · intro m hm
      cases hm
  intro s o policy s' hphase hstep i n seq hidle happended m hm
  obtain ⟨w, hw, rfl⟩ := number_appended hstep hidle happended
  obtain ⟨-, -, h⟩ := hall
  rw [hphase] at h
  refine h.returned w hw m ?_
  rwa [Numbered.returned, hphase] at hm

section Example

open EngineCommit (putK)
open TreeSteps (eagerOptions wholeScores)
open TreeInvariant (Names)
open DurableRestarts (firstServed firstServed_run firstDisk firstDisk_recovers firstDisk_reopened
  firstRecovered reopened reopened_run upto_insert upto_empty)

/-- While no run ends, nothing is to be counted. -/
theorem numbered_run (hrun : ReflTransGen (Guarded (EngineRestarts.Step o sc policy)
    (fun _ b => ∀ d, b.phase ≠ .down d)) x x') (ended : List ℕ) :
    ReflTransGen (Guarded (NumberedStep sc) EndsCounted) ⟨x, ended⟩ ⟨x', ended⟩ := by
  induction hrun with
  | refl => exact .refl
  | @tail b c _ hstep ih =>
    obtain ⟨hstep, hup⟩ := hstep
    have hnone : endedBy b c = [] := by
      unfold endedBy
      split
      · rename_i hdown
        exact absurd hdown (hup _)
      · rfl
    refine ih.tail ⟨⟨⟨o, policy, trivial, hstep⟩, ?_⟩, ?_, ?_⟩
    · rw [hnone, List.append_nil]
    · exact fun s d _ hd => absurd hd (hup d)
    · exact fun z d _ hd => absurd hd (hup d)

theorem append_ok (w : Wal) : ∃ w', w.append putK = some w' ∧ w'.nextSeq = w.nextSeq + 1 ∧
    w'.lastAppended = w.nextSeq := by
  unfold Wal.append
  rw [if_neg (Nat.not_lt.mpr putK_fits.size)]
  exact ⟨_, rfl, rfl, rfl⟩

/-- The first write of a run. -/
theorem first_append (policy : SyncPolicy) (z : Opening) (clock : ℤ)
    (hseq : z.manifest.lastSequence + 1 + 1 < 2 ^ 64) :
    ∃ s', EngineRuns.Step eagerOptions wholeScores policy (z.serve clock) s' ∧
      s'.writer 0 = .appended z.manifest.logNumber (z.manifest.lastSequence + 1) := by
  obtain ⟨w', happend, -⟩ := append_ok (Wal.create z.manifest.logNumber z.manifest.lastSequence)
  have hwal : (z.serve clock).wals.lookup (z.serve clock).tree.logNumber =
      some (Wal.create z.manifest.logNumber z.manifest.lastSequence) := by
    change (Table.empty.insert _ _).lookup z.manifest.logNumber = _
    rw [Table.lookup_insert, if_pos rfl]
  refine ⟨_, .append (z.serve clock) 0 putK _ _ w' rfl (List.cons_ne_nil _ _) (.append _ putK rfl)
    hwal happend putK_fits hseq, ?_⟩
  dsimp only
  rw [Function.update_self]
  rfl

/-- A kill of a served write, and the next run: its first write gets number 2. -/
theorem number_after_restart : ∃ y s', ReflTransGen (Guarded (NumberedStep wholeScores) EndsCounted)
      ⟨EngineRestarts.empty 0, []⟩ y ∧ y.returned = [1] ∧ Grows wholeScores y ∧
      ∃ s, y.sys.phase = .up s ∧ EngineRuns.Step eagerOptions wholeScores .everySecond s s' ∧
        s.writer 0 = .idle ∧ s'.writer 0 = .appended 2 2 := by
  let quiet : Sys → Sys → Prop := fun _ b => ∀ d, b.phase ≠ .down d
  obtain ⟨f, hr⟩ := firstDisk_recovers
  have hserved := numbered_run (firstServed_run quiet (fun _ _ h => h)) []
  have hkill : Guarded (NumberedStep wholeScores) EndsCounted ⟨⟨.up firstServed, 0, []⟩, []⟩
      ⟨⟨.down firstDisk, 0, [(putK, true)]⟩, [1]⟩ := by
    refine ⟨⟨⟨eagerOptions, .everySecond, trivial, .kill firstServed firstDisk 0 []
      (killed_onDisk firstServed)⟩, rfl⟩, ?_, ?_⟩
    · rintro s d ⟨⟩ - m hm
      rw [List.mem_singleton.mp hm]
      exact Or.inr ⟨_, List.mem_singleton_self _, flushedLog.wal, rfl, by decide, by decide⟩
    · rintro z d (hz | hz)
      · cases hz
      · cases hz
  have hopen : ReflTransGen (Guarded (EngineRestarts.Step eagerOptions wholeScores .everySecond)
      quiet) ⟨.down firstDisk, 0, [(putK, true)]⟩ _ :=
    firstDisk_reopened hr quiet (fun _ _ h => h) [(putK, true)]
  have hrun := (hserved.tail hkill).trans (numbered_run hopen [1])
  obtain ⟨s', happend, hwriter⟩ := first_append .everySecond
    (reopened firstDisk (firstRecovered f) 1) 0 (show 1 + 1 + 1 < 2 ^ 64 by decide)
  exact ⟨_, s', hrun, rfl, write_numbers_grow wholeScores 0 _ hrun, _, rfl, happend, rfl, hwriter⟩

/-- A write has been acknowledged, its record left in memory. -/
def afterWrite (s : State) (w w' : Wal) : State :=
  { s with
    tree := { s.tree with active := s.tree.active.insertAll (writes putK) }
    wals := s.wals.insert s.tree.logNumber w'
    live := record putK s.live
    acked := s.acked ++ [(s.tree.logNumber, w.nextSeq)] }

theorem write_run (s : State) {w w' : Wal} (hidle : s.writer 0 = .idle)
    (hlock : s.tree.freezing = none) (hwal : s.wals.lookup s.tree.logNumber = some w)
    (happend : w.append putK = some w') (hseq : w.nextSeq + 1 < 2 ^ 64) :
    ReflTransGen (EngineRuns.Step o sc .never) s (afterWrite s w w') := by
  have hfirst : EngineRuns.Step o sc .never s _ := .append s 0 putK _ w w' hidle
    (List.cons_ne_nil _ _) (.append s.tree putK hlock) hwal happend putK_fits hseq
  have hreread := ReflTransGen.tail (.single hfirst) (.reread _ 0 s.tree.logNumber w.nextSeq
    (by dsimp only; rw [Function.update_self]) hlock)
  have hcommit := hreread.tail (.commit _ 0 s.tree.logNumber w.nextSeq s.tree.logNumber
    (by dsimp only; rw [Function.update_self]))
  have hwriter : Function.update (Function.update (Function.update s.writer 0
      (.appended s.tree.logNumber w.nextSeq)) 0
      (.committing s.tree.logNumber w.nextSeq s.tree.logNumber)) 0 .idle = s.writer := by
    rw [Function.update_idem, Function.update_idem]
    exact Function.update_eq_self_iff.mpr hidle.symm
  rw [hwriter] at hcommit
  exact hcommit

/-- A flush of the current log leaves its count. -/
theorem flushed_count (h : LogInv s) : ∃ w w', s.wals.lookup s.tree.logNumber = some w ∧
    (s.runOp s.tree.logNumber .flush).wals.lookup s.tree.logNumber = some w' ∧
    w'.lastAppended = w.lastAppended := by
  obtain ⟨w', f', g', hw', -⟩ := LogInv.current (h.runOp s.tree.logNumber .flush)
  rw [runOp_tree] at hw'
  obtain ⟨w, f, g, hw, hb, ⟨-, rfl⟩ | ⟨hne, -⟩⟩ := current_runOp h _ .flush hw'
  · exact ⟨w, _, hw, hw', (hb.run .flush).2.2.2⟩
  · exact absurd rfl hne

/-- A directory in which only a log without batches is needed. -/
theorem recover_blank {d : Disk} {n start : ℕ} (hstart : start < 2 ^ 64)
    (hlog : d.logs.lookup n = some (headerFile n start)) (hn : d.loaded.logNumber ≤ n)
    (honly : ∀ m f, d.logs.lookup m = some f → d.loaded.logNumber ≤ m → m = n) :
    d.neededLogs = [(n, headerFile n start)] ∧
      ∃ f, d.recover = .ok ⟨Table.empty, d.loaded.lastSequence, d.logs.insert n f⟩ := by
  have hmem : ∀ b ∈ d.neededLogs, b = (n, headerFile n start) := by
    rintro ⟨m, f⟩ hb
    obtain ⟨hf, hm⟩ := mem_neededLogs.mp hb
    cases honly m f hf hm
    rw [hlog] at hf
    cases hf
    rfl
  have hneeded : d.neededLogs = [(n, headerFile n start)] := by
    have hnodup : d.neededLogs.Nodup :=
      (neededLogs_ascending d).imp fun hlt heq => (heq ▸ hlt).false
    refine List.perm_singleton.mp
      ((List.perm_ext_iff_of_nodup hnodup (List.nodup_singleton _)).mpr fun b => ?_)
    rw [List.mem_singleton]
    exact ⟨hmem b, fun hb => hb ▸ mem_neededLogs.mpr ⟨hlog, hn⟩⟩
  refine ⟨hneeded, ?_⟩
  obtain ⟨cut, f, hreplay⟩ := replay_header n (encodeHeader n start).length hstart
  refine ⟨f, ?_⟩
  rw [Disk.recover, hneeded, replayLogs, headerFile, hreplay]
  rfl

/-- One key is written twice and flushed into table 3, and its log is dropped:
the manifest says 1. -/
theorem rewritten_run : ∃ s t,
    ReflTransGen (EngineRuns.Step eagerOptions wholeScores .never) (EngineRuns.init 0) s ∧
    s.stored = ⟨4, 2, 1, Version.new.addFile 0 (.fromTable 3 t)⟩ ∧
    s.acked.map Prod.snd = [1, 2] ∧ s.logs.lookup 2 = some (headerFile 2 2) ∧
    (∀ m f, s.logs.lookup m = some f → m ≤ 2) ∧
    ∀ m f, s.tree.files.lookup m = some f → m = 3 := by
  obtain ⟨w₁, happend₁, hnext₁, -⟩ := append_ok (Wal.create 1 0)
  obtain ⟨w₂, happend₂, -, hlast₂⟩ := append_ok w₁
  replace hnext₁ : w₁.nextSeq = 2 := hnext₁
  let s₁ : State := afterWrite (EngineRuns.init 0) (Wal.create 1 0) w₁
  let s₂ : State := afterWrite s₁ w₁ w₂
  have hfirst : ReflTransGen (EngineRuns.Step eagerOptions wholeScores .never)
      (EngineRuns.init 0) s₁ := write_run _ rfl rfl rfl happend₁ (by decide)
  have hsecond : ReflTransGen (EngineRuns.Step eagerOptions wholeScores .never) s₁ s₂ := by
    refine write_run _ rfl rfl ?_ happend₂ (by rw [hnext₁]; decide)
    change ((EngineRuns.init 0).wals.insert 1 w₁).lookup 1 = some w₁
    rw [Table.lookup_insert, if_pos rfl]
  have hwritten := hfirst.trans hsecond
  obtain ⟨w, w', hw, hw', hlast⟩ := flushed_count (EngineSteps.inv_run (init_started 0) hwritten)
  have hcount : w'.lastAppended = 2 := by
    change ((s₁.wals.insert 1 w₂).lookup 1) = some w at hw
    rw [Table.lookup_insert, if_pos rfl] at hw
    cases hw
    rw [hlast, hlast₂, hnext₁]
  obtain ⟨s₃, t, hflush, hstored, hlogs, hacked, hfiles⟩ := LevelStructure.flush_run eagerOptions
    wholeScores .never s₂ rfl rfl rfl (List.cons_ne_nil _ _) hw' (show 1 ≠ 2 by decide)
  replace hlogs : s₃.logs = (s₂.runOp 1 .flush).logs.insert 2 (headerFile 2 2) := by
    rw [hlogs, hcount]
    rfl
  replace hfiles : s₃.tree.files = (Table.empty.insert 3 none).insert 3 (some t) := hfiles
  refine ⟨s₃, t.summary, hwritten.trans hflush, hstored, ?_, ?_, ?_, ?_⟩
  · rw [hacked]
    change [1, w₁.nextSeq] = [1, 2]
    rw [hnext₁]
  · rw [hlogs, Table.lookup_insert, if_pos rfl]
  · rw [hlogs]
    refine upto_insert (fun m f hf => ?_) _
    rcases runOp_lookup s₂ 1 .flush m with ⟨hm, -⟩ | ⟨-, hsame, -⟩
    · omega
    · rw [hsame] at hf
      exact (upto_insert (upto_empty 1) _ m f hf).trans (by decide)
  · intro m f hf
    by_contra hm
    rw [hfiles, Table.lookup_insert, if_neg hm, Table.lookup_insert, if_neg hm] at hf
    cases hf

/-- The next run starts at 1, and its first write returns 2 a second time. -/
theorem number_returned_twice : ∃ y, ReflTransGen (NumberedStep wholeScores)
    ⟨EngineRestarts.empty 0, []⟩ y ∧ ¬ Grows wholeScores y := by
  let quiet : Sys → Sys → Prop := fun _ b => ∀ d, b.phase ≠ .down d
  obtain ⟨s, t, hwritten, hstored, hacked, hlog, hupto, hfiles⟩ := rewritten_run
  have hloaded : (onDisk s).loaded = ⟨4, 2, 1, Version.new.addFile 0 (.fromTable 3 t)⟩ := hstored
  obtain ⟨hneeded, f, hr⟩ := recover_blank (d := onDisk s) (by decide) hlog (by rw [hloaded])
    (fun m f hf hm => le_antisymm (hupto m f hf) (by rwa [hloaded] at hm))
  have hkill : NumberedStep wholeScores ⟨⟨.up s, 0, []⟩, []⟩
      ⟨⟨.down (onDisk s), s.tree.clock, batchesOf s⟩, [1, 2]⟩ :=
    ⟨⟨eagerOptions, .never, trivial, .kill s (onDisk s) 0 [] (killed_onDisk s)⟩, hacked.symm⟩
  have htables : ∀ m f, (onDisk s).tables.lookup m = some f →
      Names (onDisk s).loaded.version m := by
    intro m f hf
    rw [hloaded, hfiles m f hf]
    exact ⟨0, .fromTable 3 t, List.mem_cons_self, rfl⟩
  rw [hloaded] at hr
  have hopen := (opened_run .never quiet (fun _ _ h => h)).trans
    (lift_run quiet hwritten 0 [] (fun _ _ h => h))
  have hreopen := reopened_run .never quiet (fun _ _ h => h) s.tree.clock (batchesOf s) hr
    (show 1 + 1 < 2 ^ 64 by decide) htables (by rw [hneeded]; rfl)
    (by rw [hloaded]; exact (show 2 < 4 by decide)) (upto_insert hupto f)
  have hrun := ((guarded_run_is_run (numbered_run hopen [])).tail hkill).trans
    (guarded_run_is_run (numbered_run hreopen [1, 2]))
  obtain ⟨s', happend, hwriter⟩ := first_append .never
    (reopened (onDisk s) ⟨Table.empty, 1, s.logs.insert 2 f⟩ 2) s.tree.clock
    (show 1 + 1 + 1 < 2 ^ 64 by decide)
  refine ⟨_, hrun, fun hgrows => ?_⟩
  exact absurd (hgrows _ _ _ s' rfl happend 0 _ _ rfl hwriter 2 (by simp [Numbered.returned]))
    (lt_irrefl 2)

end Example

end RedisFromScratch.WriteNumbers
