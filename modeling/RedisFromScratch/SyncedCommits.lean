import RedisFromScratch.AckedWrites

/-!
The policy that syncs before every acknowledgement. If each rotation finds its
log synced, the record of an acknowledged write is in the synced part of its
log until the tables the manifest names hold its memtable. Without that, a
write whose log is rotated away before it commits is acknowledged for nothing:
the new log's counter of synced records starts behind the old log's last one.
-/
namespace RedisFromScratch.SyncedCommits

open ByteStrings SortedTables EngineTypes EngineLogs EngineWal SsTables Versions LsmTree Compaction
open TreeContents EngineRuns EngineInvariant EngineSteps EngineWriters CrashPoints FlushedTables
open PowerCuts AckedWrites Relation Runs

variable {F : Type} {o : Options} {sc : Scores F} {policy : SyncPolicy} {s s' : State}

/-- A record of a run belongs to one of its segments. -/
def Segment.Has (g : Segment) (r : ℕ × ℕ) : Prop :=
  g.number = r.1 ∧ g.start < r.2 ∧ r.2 ≤ g.start + g.batches.length

/-- The bytes of a record, and all before it, are in the synced part of its log. -/
def InSyncedLog (s : State) (r : ℕ × ℕ) : Prop := ∃ g ∈ s.live, Segment.Has g r ∧
  ∃ f, s.logs.lookup g.number = some f ∧
    logBytes g.number g.start (g.batches.take (r.2 - g.start)) <+: f.data.take f.synced

/-- The memtable of the record was flushed, and the tables the stored manifest
names answer for everything flushed. -/
def InTables (c : Bytes → Option Entry) (s : State) (r : ℕ × ℕ) : Prop :=
  (∃ g ∈ flushedSegs s, Segment.Has g r) ∧ TablesHold c s

/-- Every acknowledged write is on stable storage. -/
def AckedStable (c : Bytes → Option Entry) (s : State) : Prop :=
  ∀ r ∈ s.acked, InSyncedLog s r ∨ InTables c s r

/-- What the counter says is synced is in the synced bytes. -/
theorem synced_bytes {w : Wal} {f : LogFile} {g : Segment} (hb : Backs w f g) {seq : ℕ}
    (hseq : seq ≤ w.synced) :
    logBytes g.number g.start (g.batches.take (seq - g.start)) <+: f.data.take f.synced := by
  have hmid : w.synced - g.start ≤ w.written - g.start := Nat.sub_le_sub_right hb.holds.mid _
  have hstable : f.data.take f.synced =
      logBytes w.number g.start (g.batches.take (w.synced - g.start)) := by
    rw [hb.holds.stable]
    refine (List.prefix_iff_eq_take.mp ?_).symm
    exact (logBytes_take_mono w.number g.start g.batches hmid).trans hb.holds.reach
  rw [hstable, hb.number]
  exact logBytes_take_mono g.number g.start g.batches (by omega)

theorem ackedStable_of_inv {c : Bytes → Option Entry} (h : LogInv s) (ha : AckInv Wal.synced s)
    (ht : TablesHold c s) : AckedStable c s := by
  intro r hr
  obtain ⟨⟨g, hg, hhas⟩, -, hreach⟩ := ha.acked r hr
  rcases List.mem_append.mp hg with hret | hlive
  · exact Or.inr ⟨⟨g, List.mem_append_left _ hret, hhas⟩, ht⟩
  · obtain ⟨w, f, hw, hf, hb, -⟩ := h.backed g hlive
    have hsynced := hreach g hlive hhas.1 w (hhas.1 ▸ hw)
    exact Or.inl ⟨g, hlive, hhas, f, hf, synced_bytes hb hsynced⟩

structure SyncInv (c : Bytes → Option Entry) (s : State) : Prop where
  logs : LogInv s
  writers : WriterInv s
  old : OldSynced s
  acks : AckInv Wal.synced s
  tables : TablesHold c s

theorem sync_step {c : Bytes → Option Entry} (h : SyncInv c s)
    (hstep : Guarded (Step o sc .always) RotatesSynced s s') : SyncInv c s' where
  logs := inv_step h.logs hstep.1
  writers := writers_step (show SyncPolicy.always ≠ .never from nofun) h.logs h.writers hstep.1
  old := oldSynced_step h.logs h.old hstep
  acks := acks_step synced_reaches h.logs h.writers (oldReach_synced h.old) h.acks hstep.1
  tables := tables_step h.logs h.tables hstep.1

theorem sync_started (h : Started s) : SyncInv (versionEntry s.tree) s where
  logs := started_inv h
  writers := started_writers h
  old g hg hne := by
    obtain ⟨start, -, hlive, -⟩ := h.live
    rw [hlive, List.mem_singleton] at hg
    subst hg
    exact absurd rfl hne
  acks := ackInv_started h
  tables := tables_started h

/-- Under the policy that always syncs, in every run that rotates its log only
when it is completely synced, every acknowledged write is on stable storage. -/
theorem acknowledged_is_stable (o : Options) (sc : Scores F) (s₀ s : State) (h₀ : Started s₀)
    (hrun : ReflTransGen (Guarded (Step o sc .always) RotatesSynced) s₀ s) :
    AckedStable (versionEntry s₀.tree) s := by
  have h := run_preserves (SyncInv (versionEntry s₀.tree)) (fun _ _ h hstep => sync_step h hstep)
    hrun (sync_started h₀)
  exact ackedStable_of_inv h.logs h.acks h.tables

section Example

open EngineCommit (putK)
open TreeSteps (eagerOptions wholeScores oneWrite)

/-- One write, synced and acknowledged. -/
theorem acknowledged_record_is_stable : ∃ s,
    ReflTransGen (Guarded (Step eagerOptions wholeScores .always) RotatesSynced)
      (EngineRuns.init 0) s ∧ s.acked = [(1, 1)] ∧
        AckedStable (versionEntry (EngineRuns.init 0).tree) s := by
  have hrun : ReflTransGen (Guarded (Step eagerOptions wholeScores .always) RotatesSynced)
      (EngineRuns.init 0) (oneRecord (.committing 1 1 1) []) :=
    oneRecord_run RotatesSynced (fun a b hsame hne => absurd hsame hne)
  have hall := hrun.tail ⟨.commit (oneRecord (.committing 1 1 1) []) 0 1 1 1 rfl,
    fun hne => absurd rfl hne⟩
  exact ⟨_, hall, rfl, acknowledged_is_stable eagerOptions wholeScores _ _ (init_started 0) hall⟩

/-- A write appends, its log is rotated away, and it commits to the new log. -/
theorem acknowledged_after_rotation_not_stable : ∃ s,
    ReflTransGen (Step eagerOptions wholeScores .always) (EngineRuns.init 0) s ∧
      s.acked = [(1, 1)] ∧ ¬ AckedStable (versionEntry (EngineRuns.init 0).tree) s := by
  have hreread : Step eagerOptions wholeScores .always (rotated (.appended 1 1)) _ :=
    .reread (rotated (.appended 1 1)) 0 1 1 rfl rfl
  rw [show (rotated (.appended 1 1)).writer =
    Function.update (fun _ => .idle) 0 (.appended 1 1) from rfl, Function.update_idem] at hreread
  have hcommit : Step eagerOptions wholeScores .always (rotated (.committing 1 1 2)) _ :=
    .commit (rotated (.committing 1 1 2)) 0 1 1 2 rfl
  have hrun := (((ReflTransGen.single append_putK).trans (rotated_run _)).tail hreread).tail hcommit
  refine ⟨_, hrun, rfl, fun hstable => ?_⟩
  rcases hstable (1, 1) (List.mem_singleton_self _) with
    ⟨g, hg, hhas, f, hf, hpre⟩ | ⟨⟨g, hg, -⟩, -⟩
  · have hlive : g ∈ [⟨1, 0, [putK], Table.empty⟩, ⟨2, 1, [], Table.empty⟩] := hg
    rcases List.mem_cons.mp hlive with rfl | hlast
    · have hfile : f = flushedLog.file := (Option.some.inj hf).symm
      have hlen := hpre.length_le
      have hpos := List.length_pos_iff.mpr (EngineLogs.encode_ne_nil (recOf 1 putK))
      have hfull : (logBytes 1 0 ([putK].take 1)).length = logHeader +
          (framing.encode (recOf 1 putK)).length := by
        simp [logBytes]
      rw [hfile, List.length_take] at hlen
      have hsynced : flushedLog.file.synced = logHeader := rfl
      change (logBytes 1 0 ([putK].take 1)).length ≤ _ at hlen
      omega
    · rw [List.mem_singleton.mp hlast] at hhas
      cases hhas.1
  · cases hg

end Example

end RedisFromScratch.SyncedCommits
