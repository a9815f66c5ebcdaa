import RedisFromScratch.EngineRestarts
import RedisFromScratch.PowerCuts

/-!
Whether a number is given out twice. The counter on disk is the one of the last
manifest written, and a freeze creates a log before any manifest is. A process
killed then leaves a log the counter does not cover, and the next open gives
its number to another log, whose creation cuts it to nothing. While no such log
holds a batch at a kill, a number given out belongs to no log with records.
-/
namespace RedisFromScratch.FileNumbers

open ByteStrings SortedTables EngineTypes EngineLogs EngineWal SsTables Versions LsmTree Compaction
open TreeInvariant EngineRuns EngineInvariant EngineSteps EngineWriters CrashPoints EngineRestarts
open Relation Runs

variable {F : Type} {o : Options} {sc : Scores F} {policy : SyncPolicy} {x x' : Sys} {d : Disk}

/-- A log holds a mutation that no table the manifest names has. -/
def HoldsUnflushed (d : Disk) (n : ℕ) : Prop :=
  ∃ f, d.logs.lookup n = some f ∧ ∃ m ∈ (logRecords f).flatten, ∀ number t,
    Names d.loaded.version number → d.tables.lookup number = some (some t) →
      (m.key, m.entry) ∉ t.iter

/-- The next number given out, and one whose log is about to be created, is that
of no log that is still needed. -/
def NumberFree : Phase → Prop
  | .down d => (∃ r, d.recover = .ok r) → ¬ HoldsUnflushed d d.loaded.nextFileNumber
  | .creating x => ¬ HoldsUnflushed x.disk x.manifest.logNumber
  | .up s => ¬ HoldsUnflushed (onDisk s) s.tree.nextFileNumber ∧
      ∀ n, s.tree.freezing = some n → ¬ HoldsUnflushed (onDisk s) n
  | _ => True

/-- No process is killed while a log from the number on that the manifest on
disk would give out next has a batch. -/
def CoveredKills (x x' : Sys) : Prop := ∀ s d, x.phase = .up s → x'.phase = .down d →
  ∀ g ∈ s.live, s.stored.nextFileNumber ≤ g.number → g.batches = []

/-- A log of at most its header. -/
def Blank (f : LogFile) : Prop := ∃ n start, start < 2 ^ 64 ∧ f.data <+: encodeHeader n start

theorem Blank.records {f : LogFile} (h : Blank f) : logRecords f = [] := by
  obtain ⟨n, start, hstart, hpre⟩ := h
  exact logRecords_header hstart hpre

theorem not_holds_of_blank {n : ℕ} (h : ∀ f, d.logs.lookup n = some f → Blank f) :
    ¬ HoldsUnflushed d n := by
  rintro ⟨f, hf, m, hm, -⟩
  rw [(h f hf).records] at hm
  cases hm

/-- Replay only ever cuts a log. -/
theorem replay_cuts {f f' : LogFile} {p : Replayed} (hreplay : replay f = .ok (p, f')) :
    f'.data <+: f.data := by
  unfold EngineLogs.replay at hreplay
  split at hreplay
  · cases hreplay
  · dsimp only at hreplay
    split at hreplay
    · cases hreplay
      exact List.prefix_rfl
    · cases hreplay
      exact List.take_prefix _ _
    · cases hreplay

/-- What the logs from a number on have in common. -/
def AllFrom (p : LogFile → Prop) (logs : Table ℕ LogFile) (bound : ℕ) : Prop :=
  ∀ n f, logs.lookup n = some f → bound ≤ n → p f

section AllFrom

variable {p : LogFile → Prop} {logs : Table ℕ LogFile} {bound : ℕ}

theorem AllFrom.mono {a b : ℕ} (h : AllFrom p logs a) (hle : a ≤ b) : AllFrom p logs b :=
  fun n f hf hn => h n f hf (hle.trans hn)

theorem AllFrom.insert {n : ℕ} {f : LogFile} (h : AllFrom p logs bound) (hf : bound ≤ n → p f) :
    AllFrom p (logs.insert n f) bound := by
  intro m f' hf' hle
  rw [Table.lookup_insert] at hf'
  split at hf'
  · rename_i heq
    cases hf'
    exact hf (heq ▸ hle)
  · exact h m f' hf' hle

theorem AllFrom.erase (h : AllFrom p logs bound) (n : ℕ) : AllFrom p (logs.erase n) bound := by
  intro m f hf hle
  rw [Table.lookup_erase] at hf
  split at hf
  · cases hf
  · exact h m f hf hle

/-- The replay loop keeps what a cut keeps. -/
theorem AllFrom.replayLogs {logs : List (ℕ × LogFile)} {r r' : Recovered}
    (hcut : ∀ f f' : LogFile, f'.data <+: f.data → p f → p f') (h : AllFrom p r.logs bound)
    (hlogs : ∀ b ∈ logs, bound ≤ b.1 → p b.2) (hr : replayLogs logs r = .ok r') :
    AllFrom p r'.logs bound := by
  induction logs generalizing r with
  | nil =>
    cases hr
    exact h
  | cons b logs ih =>
    obtain ⟨n, f⟩ := b
    rw [EngineRuns.replayLogs] at hr
    split at hr
    · cases hr
    · rename_i q f' hreplay
      refine ih ?_ (fun b hb => hlogs b (List.mem_cons_of_mem _ hb)) hr
      exact h.insert (fun hle => hcut f f' (replay_cuts hreplay)
        (hlogs (n, f) List.mem_cons_self hle))

end AllFrom

theorem Blank.cut {f f' : LogFile} (hpre : f'.data <+: f.data) (h : Blank f) : Blank f' := by
  obtain ⟨n, start, hstart, hheader⟩ := h
  exact ⟨n, start, hstart, hpre.trans hheader⟩

/-- The logs from a number on have at most a header. -/
def BlankFrom (logs : Table ℕ LogFile) (bound : ℕ) : Prop :=
  ∀ n f, logs.lookup n = some f → bound ≤ n → Blank f

/-- A live log without batches has nothing to lose but its header. -/
theorem blank_killed {s : State} (h : LogInv s) (hs : StoredOk s) (hkill : Killed s d)
    (hcovered : ∀ g ∈ s.live, s.stored.nextFileNumber ≤ g.number → g.batches = []) :
    BlankFrom d.logs s.stored.nextFileNumber := by
  intro n f' hf' hle
  obtain ⟨f, hf, hpre, -⟩ := hkill.logs n f' hf'
  rcases h.files n f hf (hs.logNumber.le.trans hle) with ⟨g, hg, rfl⟩ | hfreezing
  · obtain ⟨w, f₁, hw, hf₁, hb, -⟩ := h.backed g hg
    rw [hf] at hf₁
    cases hf₁
    have hall := (hb.holds.intact rfl).2
    have hbound := hb.bound
    rw [hcovered g hg hle, logBytes_nil] at hall
    refine ⟨w.number, g.start, by omega, ?_⟩
    rw [← hall]
    rw [State.buffered, hw] at hpre
    exact hpre
  · obtain ⟨-, -, hnone, hcreated⟩ := h.freezing n hfreezing
    obtain ⟨start, hstart, hheader⟩ := hcreated f hf
    have hbuffered : s.buffered n = [] := by rw [State.buffered, hnone]; rfl
    rw [hbuffered, List.append_nil] at hpre
    exact ⟨n, start, hstart, hpre.trans hheader⟩

def PhaseBlank : Phase → Prop
  | .down d => BlankFrom d.logs d.loaded.nextFileNumber
  | .creating x => BlankFrom x.disk.logs x.manifest.logNumber
  | .created x => BlankFrom x.disk.logs x.manifest.logNumber
  | .cleaning x => BlankFrom x.disk.logs x.manifest.logNumber
  | .up _ => True

theorem blank_step (h : PhaseOk x.phase) (hb : PhaseBlank x.phase)
    (hstep : EngineRestarts.Step o sc policy x x') (hcond : CoveredKills x x') :
    PhaseBlank x'.phase := by
  cases hstep with
  | truncate d clock past n f f' p hmem hreplay =>
    refine AllFrom.insert hb (fun hle => ?_)
    exact Blank.cut (replay_cuts hreplay) (hb n f (mem_neededLogs.mp hmem).1 hle)
  | load d clock past r hr =>
    have hlogs : BlankFrom d.logs d.loaded.nextFileNumber := hb
    have hneeded : ∀ b ∈ d.neededLogs, d.loaded.nextFileNumber ≤ b.1 → Blank b.2 :=
      fun b hmem hle => hlogs b.1 b.2 (mem_neededLogs.mp hmem).1 hle
    exact AllFrom.replayLogs (r := ⟨_, _, d.logs⟩) (fun _ _ => Blank.cut) hlogs hneeded hr
  | header x clock past data hdata =>
    have hseq := h.2.1.sequence
    exact AllFrom.insert hb (fun _ => ⟨_, _, by omega, hdata⟩)
  | create x =>
    have hseq := h.2.1.sequence
    exact AllFrom.insert hb (fun _ => ⟨_, x.manifest.lastSequence, by omega, List.prefix_rfl⟩)
  | store | removeTable => exact hb
  | removeLog x clock past n => exact AllFrom.erase hb n
  | serve | run => trivial
  | kill s d clock past hkill =>
    have hblank := blank_killed h.1 h.2 hkill (hcond s d rfl rfl)
    have hloaded := Leaves.loaded hkill
    change BlankFrom d.logs d.loaded.nextFileNumber
    rw [hloaded]
    exact hblank
  | killOpen p y clock past hp =>
    rcases opening_cases hp with rfl | rfl | rfl
    · exact AllFrom.mono hb h.2.2.ge
    · exact AllFrom.mono hb h.2.2.1.ge
    · have hloaded := Disk.loaded_of_some h.2.2.1
      refine AllFrom.mono hb ?_
      rw [hloaded, h.2.1.next]
      exact Nat.le_succ _

/-- In a run no log has a number that was not given out. -/
theorem unused_next {s : State} (h : LogInv s) (hs : StoredOk s) {f : LogFile} :
    s.logs.lookup s.tree.nextFileNumber ≠ some f := by
  intro hf
  rcases h.files _ f hf (hs.logNumber.le.trans hs.next) with ⟨g, hg, hn⟩ | hfreezing
  · exact absurd (h.numbers g hg) (by omega)
  · exact absurd (h.freezing _ hfreezing).1 (Nat.lt_irrefl _)

/-- Over any number of runs and kills, the number of a new file is not that of
a log with mutations that are in no table yet, if no process is killed while a
log beyond the counter on disk has a batch. -/
theorem new_number_is_free (sc : Scores F) (clock : ℤ) (x : Sys)
    (hrun : ReflTransGen (Guarded (AnyStep sc (fun _ => True)) CoveredKills)
      (EngineRestarts.empty clock) x) : NumberFree x.phase := by
  have hempty : PhaseBlank (EngineRestarts.empty clock).phase := by
    intro n f hf
    cases hf
  have hall : PhaseOk x.phase ∧ PhaseBlank x.phase := by
    refine run_preserves (fun x => PhaseOk x.phase ∧ PhaseBlank x.phase) ?_ hrun
      ⟨phase_empty clock, hempty⟩
    rintro a b ⟨hok, hblank⟩ ⟨⟨o, policy, -, hstep⟩, hcond⟩
    exact ⟨phase_step hok hstep, blank_step hok hblank hstep hcond⟩
  obtain ⟨hok, hblank⟩ := hall
  cases hphase : x.phase with
  | down =>
    rw [hphase] at hblank
    exact fun _ => not_holds_of_blank (fun f hf => hblank _ f hf le_rfl)
  | creating =>
    rw [hphase] at hblank
    exact not_holds_of_blank (fun f hf => hblank _ f hf le_rfl)
  | up =>
    rw [hphase] at hok
    obtain ⟨hinv, hs⟩ := hok
    refine ⟨not_holds_of_blank (fun f hf => absurd hf (unused_next hinv hs)), fun n hn => ?_⟩
    refine not_holds_of_blank (fun f hf => ?_)
    obtain ⟨start, hstart, hpre⟩ := (hinv.freezing n hn).2.2.2 f hf
    exact ⟨n, start, hstart, hpre⟩
  | _ => trivial

section Example

open EngineCommit (putK)
open TreeSteps (eagerOptions wholeScores)
open PowerCuts (putL putL_fits secondSynced twoLogs twoLogs_run)

/-- The first open of a directory. -/
theorem opened_run (policy : SyncPolicy)
    (cond : Sys → Sys → Prop) (hcond : ∀ a b : Sys, (∀ d, b.phase ≠ .down d) → cond a b) :
    ReflTransGen (Guarded (EngineRestarts.Step eagerOptions wholeScores policy) cond)
      (EngineRestarts.empty 0) ⟨.up (EngineRuns.init 0), 0, []⟩ := by
  have hload := ReflTransGen.single (r := Guarded (EngineRestarts.Step eagerOptions wholeScores
    policy) cond) ⟨.load ⟨none, Table.empty, Table.empty⟩ 0 [] ⟨Table.empty, 0, Table.empty⟩ rfl
      (by decide), hcond _ _ nofun⟩
  have hcreate := hload.tail ⟨.create _ 0 [], hcond _ _ nofun⟩
  have hstore := hcreate.tail ⟨.store _ 0 [], hcond _ _ nofun⟩
  refine hstore.tail ⟨.serve _ 0 0 [] le_rfl (fun n t ht => by cases ht) ?_
    (fun n hn => by cases hn), hcond _ _ nofun⟩
  intro n f hf
  exact (init_started 0).only n f hf

/-- A run of the engine is a run of the system. -/
theorem lift_run (cond : Sys → Sys → Prop) {s s' : State}
    (hrun : ReflTransGen (EngineRuns.Step eagerOptions wholeScores policy) s s') (clock : ℤ)
    (past : List (List Mutation × Bool))
    (hcond : ∀ a b : Sys, (∀ d, b.phase ≠ .down d) → cond a b) :
    ReflTransGen (Guarded (EngineRestarts.Step eagerOptions wholeScores policy) cond)
      ⟨.up s, clock, past⟩ ⟨.up s', clock, past⟩ := by
  induction hrun with
  | refl => exact .refl
  | tail _ hstep ih => exact ih.tail ⟨.run _ _ clock past hstep, hcond _ _ (fun d => nofun)⟩

/-- A process killed with its one record in the log it was opened with. -/
theorem number_after_kill_is_free : ∃ d clock past,
    ReflTransGen (Guarded (AnyStep wholeScores (fun _ => True)) CoveredKills)
      (EngineRestarts.empty 0) ⟨.down d, clock, past⟩ ∧ d.loaded.nextFileNumber = 2 ∧
        NumberFree (.down d) := by
  have hup : ∀ a b : Sys, (∀ d, b.phase ≠ .down d) → CoveredKills a b :=
    fun a b hup s d _ hd => absurd hd (hup d)
  have hopen := opened_run .everySecond CoveredKills hup
  have hrun : ReflTransGen (EngineRuns.Step eagerOptions wholeScores .everySecond)
      (EngineRuns.init 0) _ :=
    guarded_run_is_run (oneRecord_run (fun _ _ => True) (fun _ _ _ => trivial))
  have hlift := lift_run CoveredKills hrun 0 [] hup
  have hkill := (hopen.trans hlift).tail ⟨.kill _ (onDisk _) 0 [] (killed_onDisk _), by
    rintro s d ⟨⟩ - g hg hle
    rw [List.mem_singleton.mp hg] at hle
    exact absurd hle (by decide)⟩
  have hall := anyStep_run (fun _ => True) trivial hkill
  exact ⟨_, _, _, hall, rfl, new_number_is_free wholeScores 0 _ hall⟩

/-- A process is killed after a freeze, with a record in the new log: the next
open gives the log's number out again. -/
theorem number_of_unflushed_log_reused : ∃ x : Sys,
    ReflTransGen (AnyStep wholeScores (fun _ => True)) (EngineRestarts.empty 0) x ∧
      ¬ NumberFree x.phase := by
  have hopen := guarded_run_is_run (opened_run .everySecond (fun _ _ => True)
    (fun _ _ _ => trivial))
  have hfirst : ReflTransGen (EngineRuns.Step eagerOptions wholeScores .everySecond)
      (EngineRuns.init 0) _ :=
    guarded_run_is_run (oneRecord_run (fun _ _ => True) (fun _ _ _ => trivial))
  have hrun := (hfirst.trans (rotated_run _)).trans (twoLogs_run _)
  have hlift := guarded_run_is_run (lift_run (fun _ _ => True) hrun 0 [] (fun _ _ _ => trivial))
  have hkill := (hopen.trans hlift).tail (.kill _ (onDisk _) 0 [] (killed_onDisk _))
  have hsecond : logRecords secondSynced.file = [putL] :=
    logRecords_whole 2 _ (fun b hb => List.mem_singleton.mp hb ▸ putL_fits) (by decide)
  have hrecover : ∃ r, (onDisk (twoLogs (.committing 1 1 1))).recover = .ok r := by
    refine PowerCuts.recover_ok (fun b hb => ?_)
    have hlogs : (onDisk (twoLogs (.committing 1 1 1))).neededLogs =
        [(1, flushedLog.file), (2, secondSynced.file)] := rfl
    rw [hlogs, List.mem_cons, List.mem_singleton] at hb
    rcases hb with rfl | rfl
    · obtain ⟨cut, f, hreplay⟩ := replay_flushedLog
      exact ⟨_, hreplay⟩
    · obtain ⟨cut, f, hreplay⟩ := PowerCuts.replay_secondSynced
      exact ⟨_, hreplay⟩
  refine ⟨_, ReflTransGen.mono (fun _ _ h => ⟨_, _, trivial, h⟩) _ _ hkill, fun hfree => ?_⟩
  refine hfree hrecover ⟨secondSynced.file, rfl, ⟨[108], .put ⟨[118], 0⟩⟩, ?_, ?_⟩
  · rw [hsecond]
    exact List.mem_cons_self
  · intro number t hnames
    obtain ⟨l, f, hf, -⟩ := hnames
    change f ∈ Version.new.level l at hf
    rw [Version.level_new] at hf
    cases hf

end Example

end RedisFromScratch.FileNumbers
