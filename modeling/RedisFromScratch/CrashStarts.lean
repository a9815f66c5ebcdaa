import RedisFromScratch.TrimmedLogs
import RedisFromScratch.DurableRestarts

/-!
The start after a kill, for both engines. A kill leaves files that are complete
or cut short, and both engines cut a torn record off and go on. A file cut
inside its header is refused by both, and a kill inside its creation leaves one.
-/
namespace RedisFromScratch.CrashStarts

open ByteStrings FramedLogs SortedTables EngineTypes EngineLogs EngineWal Versions LsmTree
open Compaction EngineRuns EngineInvariant CrashPoints EngineRestarts FileNumbers Relation Runs

variable {F : Type} {o : Options} {sc : Scores F} {policy : SyncPolicy} {x x' : Sys} {d : Disk}

/-- The first bytes of a log. -/
def Begun (f : LogFile) : Prop :=
  ∃ number start batches, (∀ b ∈ batches, BatchFits b) ∧ start + 1 + batches.length ≤ 2 ^ 64 ∧
    f.data <+: logBytes number start batches

theorem Begun.cut {f f' : LogFile} (hpre : f'.data <+: f.data) (h : Begun f) : Begun f' := by
  obtain ⟨number, start, batches, hfits, hbound, hbytes⟩ := h
  exact ⟨number, start, batches, hfits, hbound, hpre.trans hbytes⟩

theorem begun_of_header {number start : ℕ} (hstart : start < 2 ^ 64) {f : LogFile}
    (hpre : f.data <+: encodeHeader number start) : Begun f := by
  refine ⟨number, start, [], (fun b hb => by cases hb), hstart, ?_⟩
  rwa [logBytes_nil]

/-- A log that has its header is replayed. -/
theorem Begun.replay {f : LogFile} (h : Begun f) (hheader : logHeader ≤ f.data.length) :
    ∃ p, EngineLogs.replay f = .ok p := by
  obtain ⟨number, start, batches, hfits, hbound, hpre⟩ := h
  have hhead : encodeHeader number start <+: f.data := by
    refine List.prefix_of_prefix_length_le (List.prefix_append _ _) hpre ?_
    rw [encodeHeader_length]
    exact hheader
  obtain ⟨kept, rest, cut, f', -, -, hreplay⟩ :=
    (Tears.of_prefix (tears_all number start batches) hhead hpre).replay hfits hbound f.synced
  exact ⟨_, hreplay⟩

/-- A kill leaves the first bytes of every log that is still needed. -/
theorem begun_killed {s : State} (h : LogInv s) (hkill : Killed s d) :
    AllFrom Begun d.logs d.loaded.logNumber := by
  intro n f' hf' hle
  rcases log_needed h hkill (mem_neededLogs.mpr ⟨hf', hle⟩) with ⟨g, hg, rfl⟩ |
    ⟨-, f, start, -, hstart, hpre, hheader, -⟩
  · obtain ⟨w, f, f₁, -, hb, hf₁, hpre, -⟩ := log_left h hkill hg
    rw [hf'] at hf₁
    cases hf₁
    have hall := (hb.holds.intact rfl).2
    have hbound := hb.bound
    rw [hall] at hpre
    exact ⟨w.number, g.start, g.batches, hb.fits, by omega, hpre⟩
  · exact begun_of_header hstart (hpre.trans hheader)

/-- No process ends with a log that lacks a part of its header. -/
def HeadersWhole (_ x' : Sys) : Prop :=
  ∀ d, x'.phase = .down d → ∀ b ∈ d.neededLogs, logHeader ≤ b.2.data.length

/-- The logs a start replays, between two runs and during an open. -/
def PhaseBegun : Phase → Prop
  | .down d => AllFrom Begun d.logs d.loaded.logNumber
  | .creating x => AllFrom Begun x.disk.logs x.disk.loaded.logNumber
  | .created x => AllFrom Begun x.disk.logs x.disk.loaded.logNumber
  | .cleaning x => AllFrom Begun x.disk.logs x.disk.loaded.logNumber
  | .up _ => True

theorem begun_step (h : PhaseOk x.phase) (hb : PhaseBegun x.phase)
    (hstep : EngineRestarts.Step o sc policy x x') : PhaseBegun x'.phase := by
  cases hstep with
  | truncate d clock past n f f' p hmem hreplay =>
    refine AllFrom.insert hb (fun hle => ?_)
    exact Begun.cut (replay_cuts hreplay) (hb n f (mem_neededLogs.mp hmem).1 hle)
  | load d clock past r hr =>
    have hneeded : ∀ b ∈ d.neededLogs, d.loaded.logNumber ≤ b.1 → Begun b.2 :=
      fun b hmem hle => hb b.1 b.2 (mem_neededLogs.mp hmem).1 hle
    exact AllFrom.replayLogs (r := ⟨_, _, d.logs⟩) (fun _ _ => Begun.cut) hb hneeded hr
  | header x clock past data hdata =>
    have hseq := h.2.1.sequence
    exact AllFrom.insert hb (fun _ => begun_of_header (by omega) hdata)
  | create x =>
    have hseq := h.2.1.sequence
    have hwhole : (headerFile x.manifest.logNumber x.manifest.lastSequence).data <+:
        encodeHeader x.manifest.logNumber x.manifest.lastSequence := List.prefix_rfl
    exact AllFrom.insert hb (fun _ => begun_of_header (by omega) hwhole)
  | store =>
    obtain ⟨hd, -, hnext, -⟩ := h
    exact AllFrom.mono hb (hnext ▸ hd.logNumber.le)
  | removeTable => exact hb
  | removeLog x clock past n => exact AllFrom.erase hb n
  | serve | run => trivial
  | kill s d clock past hkill => exact begun_killed h.1 hkill
  | killOpen p y clock past hp =>
    rcases opening_cases hp with rfl | rfl | rfl
    · exact hb
    · exact hb
    · exact hb

theorem begun_empty (clock : ℤ) : PhaseBegun (EngineRestarts.empty clock).phase := by
  intro n f hf
  cases hf

/-- A directory every kill so far has left a header on every log can be opened. -/
theorem recovers_after_kills (sc : Scores F) (clock : ℤ) {x : Sys}
    (hrun : ReflTransGen (Guarded (AnyStep sc (fun _ => True)) HeadersWhole)
      (EngineRestarts.empty clock) x) {d : Disk} (hphase : x.phase = .down d) :
    ∃ r, d.recover = .ok r := by
  let headers (x : Sys) : Prop :=
    ∀ d, x.phase = .down d → ∀ b ∈ d.neededLogs, logHeader ≤ b.2.data.length
  have hall : PhaseOk x.phase ∧ PhaseBegun x.phase ∧ headers x := by
    refine run_preserves (fun x => PhaseOk x.phase ∧ PhaseBegun x.phase ∧ headers x) ?_ hrun
      ⟨phase_empty clock, begun_empty clock, ?_⟩
    · rintro a b ⟨hok, hbegun, -⟩ ⟨⟨o, policy, -, hstep⟩, hcond⟩
      exact ⟨phase_step hok hstep, begun_step hok hbegun hstep, hcond⟩
    · rintro d ⟨⟩ b hb
      cases hb
  obtain ⟨-, hbegun, hheaders⟩ := hall
  rw [hphase] at hbegun
  refine PowerCuts.recover_ok (fun b hb => ?_)
  obtain ⟨hlookup, hle⟩ := mem_neededLogs.mp hb
  exact (hbegun b.1 b.2 hlookup hle).replay (hheaders d hphase b hb)

/-- The Go engine starts on what is left of its directory: the log is replayed
behind the snapshot, and a new segment is opened. -/
def LogStarts (s : PersistRuns.State) : Prop :=
  ∀ d, s.mode = .down d → ∃ r, SegmentReplay.replay d (s.snap.getD 0) = .ok r ∧
    ∀ nowMs segmentSize maxBufferBytes, (SegmentLog.openLog (.succeed nowMs) segmentSize
      maxBufferBytes r.dir r.state.lastLSN).2 = none

/-- The Rust engine starts on what is left of its directory. -/
def TreeStarts (x : Sys) : Prop := ∀ d, x.phase = .down d → ∃ r, d.recover = .ok r

/-- After every run and every kill both engines start again, if no kill falls
between the creation of a file and the end of its header. -/
theorem engines_start_after_kills (sc : Scores F) (clock : ℤ) :
    (∀ s, ReflTransGen (Taking TrimmedLogs.AnyStep TrimmedLogs.KilledWhole) PersistRuns.init s →
      LogStarts s) ∧
    ∀ x, ReflTransGen (Guarded (AnyStep sc (fun _ => True)) HeadersWhole)
      (EngineRestarts.empty clock) x → TreeStarts x :=
  ⟨fun _ hrun _ hmode => TrimmedLogs.starts_after_kills hrun hmode,
    fun _ hrun _ hphase => recovers_after_kills sc clock hrun hphase⟩

section Example

open EngineCommit (putK)
open TreeSteps (eagerOptions wholeScores)
open GroupCommit (freshLog freshLog_append setK setK_loggable)
open PersistRuns (init)
open TrimmedLogs (KilledWhole)

/-- One record, a snapshot that covers it, a trim and a kill. -/
theorem killed_after_snapshot : ∃ d,
    ReflTransGen (Taking TrimmedLogs.AnyStep KilledWhole) init ⟨.down d, some 1, []⟩ := by
  have happend := freshLog_append (fun _ a => PersistRuns.NoErrors a ∧ ∀ s, KilledWhole s (.log a))
    (fun _ _ => ⟨trivial, fun _ _ _ => trivial⟩)
    (fun _ _ => ⟨trivial, fun _ _ _ => setK_loggable.2⟩)
  have hup := (DurableRuns.open_run KilledWhole trivial).trans (DurableRuns.log_run _ _ rfl happend)
  have hbegin := hup.tail ⟨_, .beginSnapshot _ _ rfl rfl, trivial⟩
  have hcommit := hbegin.tail ⟨_, .commitSnapshot _ _ _ rfl rfl, trivial⟩
  have htrim := hcommit.tail ⟨_, .trim _ _ _ rfl rfl, trivial⟩
  have hkill := htrim.tail ⟨_, .kill _ _ rfl, trivial⟩
  exact ⟨_, ReflTransGen.mono (fun _ _ ⟨a, hstep, hok⟩ => ⟨a, .step hstep, hok⟩) _ _ hkill⟩

/-- One record in the log of the other engine, and a kill. -/
theorem killed_after_write :
    ReflTransGen (Guarded (AnyStep wholeScores (fun _ => True)) HeadersWhole)
    (EngineRestarts.empty 0) ⟨.down DurableRestarts.firstDisk, 0, [(putK, true)]⟩ := by
  have hheader : ∀ b ∈ DurableRestarts.firstDisk.neededLogs, logHeader ≤ b.2.data.length := by
    decide +kernel
  refine anyStep_run (fun _ => True) trivial (DurableRestarts.firstDisk_run HeadersWhole ?_ ?_)
  · intro a b hup d hd
    exact absurd hd (hup d)
  · rintro d ⟨⟩
    exact hheader

theorem engines_start_after_kill : ∃ d, LogStarts ⟨.down d, some 1, []⟩ ∧
    TreeStarts ⟨.down DurableRestarts.firstDisk, 0, [(putK, true)]⟩ := by
  obtain ⟨d, hrun⟩ := killed_after_snapshot
  have hstart := engines_start_after_kills wholeScores 0
  exact ⟨d, hstart.1 _ hrun, hstart.2 _ killed_after_write⟩

/-- A process killed in its first open, when the file is there and its header
is not. -/
theorem killed_in_creation_refused :
    (∃ s, ReflTransGen (Taking TrimmedLogs.AnyStep (fun _ a => ∀ d, a ≠ .powerCut d)) init s ∧
      ¬ LogStarts s) ∧
    ∃ x, ReflTransGen (AnyStep wholeScores (fun _ => True)) (EngineRestarts.empty 0) x ∧
      ¬ TreeStarts x := by
  constructor
  · let φ : SegmentLog.SysCalls := { SegmentLog.SysCalls.succeed 0 with header := some 0 }
    have hkill := PersistRuns.Step.killInOpen init [] ⟨SegmentReplay.replayStart 0, false, []⟩ φ
      (64 <<< 20) (1 <<< 20) rfl rfl
    refine ⟨_, .single ⟨_, .step hkill, nofun⟩, fun hstarts => ?_⟩
    obtain ⟨r, hr, -⟩ := hstarts _ rfl
    cases hr
  · have hany : ∀ {a b : Sys}, EngineRestarts.Step eagerOptions wholeScores .everySecond a b →
        AnyStep wholeScores (fun _ => True) a b := fun h => ⟨_, _, trivial, h⟩
    have hload := ReflTransGen.single (hany (.load ⟨none, Table.empty, Table.empty⟩ 0 [] _ rfl
      (by decide)))
    have hheader := hload.tail (hany (.header _ 0 [] [] List.nil_prefix))
    refine ⟨_, hheader.tail (hany (.killOpen _ _ 0 [] rfl)), fun hstarts => ?_⟩
    obtain ⟨r, hr⟩ := hstarts _ rfl
    cases hr

end Example

end RedisFromScratch.CrashStarts
