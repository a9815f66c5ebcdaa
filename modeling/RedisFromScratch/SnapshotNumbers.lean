import RedisFromScratch.DurableRuns

/-!
Sequence numbers and snapshots. Replay counts on from the last record it reads,
even when a snapshot covers that record. A snapshot bears the last number given
out, which may be ahead of the files. So the next number is above the snapshot's
exactly if no record is left to read or the last one is not below the snapshot.
-/
namespace RedisFromScratch.SnapshotNumbers

open ByteStrings FramedLogs StoreRecords LogRecords SegmentReplay SegmentLog LogLayout PersistRuns
open PersistDurability DurableRuns
open GroupCommit hiding State Act Step Inv
open Relation Runs

/-- The order of the records alone: what is expected next, what came last. -/
structure Order where
  expectLSN : ℕ
  last : Option ℕ
  deriving DecidableEq, Repr

def readOrder (st : Order) (f : Frame) : Verdict Order ReplayError :=
  if st.expectLSN ≠ 0 ∧ f.lsn ≠ st.expectLSN then .stop
  else .next ⟨(f.lsn + 1) % 2 ^ 64, some f.lsn⟩

/-- Read whole records in order until the files end or one is unreadable. -/
def readFrom : Order → Dir → Order
  | st, [] => st
  | st, seg :: rest =>
      match (framing.scan readOrder st segHeaderSize (seg.data.drop segHeaderSize)).ending with
      | .clean =>
          readFrom
            (framing.scan readOrder st segHeaderSize (seg.data.drop segHeaderSize)).state rest
      | _ => (framing.scan readOrder st segHeaderSize (seg.data.drop segHeaderSize)).state

/-- The number of the last whole record, if there is one. -/
def lastRead (d : Dir) : Option ℕ := (readFrom ⟨0, none⟩ d).last

/-- Replay's state is in step with the order of the records. -/
def InStep (afterLSN : ℕ) (st : ReplayState) (o : Order) : Prop :=
  st.expectLSN = o.expectLSN ∧ st.lastLSN = o.last.getD afterLSN

theorem visit_inStep {afterLSN : ℕ} {st st' : ReplayState} {o : Order} {f : Frame}
    (h : InStep afterLSN st o) (hv : visit afterLSN st f = .next st') :
    ∃ o', readOrder o f = .next o' ∧ InStep afterLSN st' o' := by
  unfold visit at hv
  rw [h.1] at hv
  unfold readOrder
  split_ifs at hv ⊢ with hstop hskip
  · cases hv
    exact ⟨_, rfl, rfl, rfl⟩
  · dsimp only at hv
    split at hv
    · cases hv
    · cases hv
      exact ⟨_, rfl, rfl, rfl⟩

theorem visit_stop {afterLSN : ℕ} {st : ReplayState} {o : Order} {f : Frame}
    (h : InStep afterLSN st o) (hv : visit afterLSN st f = .stop) : readOrder o f = .stop := by
  unfold visit at hv
  rw [h.1] at hv
  unfold readOrder
  split_ifs at hv ⊢ with hstop hskip
  · rfl
  · dsimp only at hv
    split at hv <;> cases hv

theorem replayFrom_inStep (afterLSN : ℕ) {d : Dir} {st : ReplayState} {o : Order}
    (h : InStep afterLSN st o) {r : Replayed} (hr : replayFrom afterLSN st d = .ok r) :
    InStep afterLSN r.state (readFrom o d) := by
  induction d generalizing st o r with
  | nil =>
    cases hr
    exact h
  | cons seg rest ih =>
    have hsim := Framing.scan_simulates (F := framing) (visit afterLSN) readOrder (InStep afterLSN)
      (fun _ _ _ _ => visit_inStep) (fun _ _ _ => visit_stop) h segHeaderSize
      (seg.data.drop segHeaderSize)
    unfold replayFrom at hr
    unfold readFrom
    cases hending : (replaySegment afterLSN st seg).ending with
    | failed =>
      rw [hending] at hr
      cases hr
    | damaged =>
      have hend : ∀ e, (replaySegment afterLSN st seg).ending ≠ .failed e := by simp [hending]
      obtain ⟨hstate, hclean⟩ := hsim hend
      have hdamaged : (framing.scan readOrder o segHeaderSize
          (seg.data.drop segHeaderSize)).ending ≠ .clean :=
        fun hc => by cases hending.symm.trans (hclean.mpr hc)
      rw [hending] at hr
      split_ifs at hr
      cases hr
      split
      · rename_i hc
        exact absurd hc hdamaged
      · exact hstate
    | clean =>
      have hend : ∀ e, (replaySegment afterLSN st seg).ending ≠ .failed e := by simp [hending]
      obtain ⟨hstate, hclean⟩ := hsim hend
      rw [hending] at hr
      rw [hclean.mp hending]
      cases hrest : replayFrom afterLSN (replaySegment afterLSN st seg).state rest with
      | error =>
        rw [hrest] at hr
        cases hr
      | ok r' =>
        rw [hrest] at hr
        cases hr
        exact ih (r := r') hstate hrest

/-- Replay ends at the last whole record, or at the snapshot without one. -/
theorem replay_lastLSN {afterLSN : ℕ} {d : Dir} {r : Replayed}
    (hr : replay d afterLSN = .ok r) : r.state.lastLSN = (lastRead d).getD afterLSN := by
  unfold replay at hr
  split_ifs at hr
  exact (replayFrom_inStep afterLSN ⟨rfl, rfl⟩ hr).2

/-- No record is left to read, or the last one is not below the snapshot. -/
def ReachesSnapshot (d : Dir) (snapLSN : ℕ) : Prop := ∀ lsn, lastRead d = some lsn → snapLSN ≤ lsn

/-- The first number the next log assigns is above the snapshot exactly if the
files reach it. -/
theorem next_above_snapshot_iff {snapLSN : ℕ} {d : Dir} {r : Replayed}
    (hr : replay d snapLSN = .ok r) :
    snapLSN < r.state.lastLSN + 1 ↔ ReachesSnapshot d snapLSN := by
  rw [replay_lastLSN hr, ReachesSnapshot]
  cases lastRead d with
  | none => simp
  | some =>
    simp only [Option.getD_some, Option.some.injEq, forall_eq']
    omega

/-- Every open finds files that reach the snapshot it loads. -/
def OpensReach (s : State) : Act → Prop
  | .openEngine => ∀ d, s.mode = .down d → ReachesSnapshot d (s.snap.getD 0)
  | _ => True

/-- Sections give out no numbers. -/
theorem drainLocked_nextLSN (φ : SysCalls) (l : Log) :
    (drainLocked φ l).log.nextLSN = l.nextLSN := by
  have hrotate : ∀ firstLSN l', (rotateLocked φ firstLSN l').1.nextLSN = l'.nextLSN := by
    intro firstLSN l'
    unfold rotateLocked
    split_ifs
    · rfl
    · rfl
    · exact (openSegment_counters φ _ firstLSN _).1
  unfold drainLocked
  cases φ.write with
  | some =>
    dsimp only
    split_ifs <;> rfl
  | none =>
    dsimp only
    split_ifs
    · rfl
    · rfl
    · exact hrotate _ _
    · rfl

theorem run_nextLSN (op : Op) (φ : SysCalls) (l : Log) :
    (op.run φ l).1.nextLSN = l.nextLSN := by
  have hdrain := drainLocked_nextLSN φ l
  have hsync : (syncLocked φ l).1.nextLSN = l.nextLSN := by
    unfold syncLocked
    rcases hd : drainLocked φ l with ⟨l', upto, err⟩
    rw [hd] at hdrain
    cases err with
    | some => exact hdrain
    | none =>
      dsimp only
      split_ifs <;> exact hdrain
  cases op with
  | flush =>
    dsimp only [Op.run]
    split_ifs
    · rfl
    · exact hdrain
  | sync =>
    dsimp only [Op.run]
    split_ifs
    · rfl
    · exact hsync
  | syncAll => exact hsync
  | close =>
    change (closeLocked φ l).1.nextLSN = l.nextLSN
    unfold closeLocked
    rcases hd : drainLocked φ l with ⟨l', upto, err⟩
    rw [hd] at hdrain
    cases err with
    | some => exact hdrain
    | none =>
      dsimp only
      split_ifs <;> exact hdrain

theorem step_nextLSN {g g' : GroupCommit.State} {a : GroupCommit.Act}
    (hstep : GroupCommit.Step g a g') : g.log.nextLSN ≤ g'.log.nextLSN := by
  cases hstep with
  | append => exact Nat.le_succ _
  | call =>
    split_ifs
    · exact Nat.le_refl _
    · exact Nat.le_refl _
  | returned c op n φ | failed c op n φ => exact (run_nextLSN op φ g.log).ge
  | beginAppend | fast | finish => exact Nat.le_refl _

/-- A process numbers above the snapshot it loaded, and so were its
acknowledged writes. -/
def Above (s : State) : Prop :=
  (∀ p, s.mode = .up p → p.snapLSN ≤ p.start ∧ p.start < p.g.log.nextLSN) ∧
    ∀ a ∈ s.acked, a.snapLSN < a.lsn

theorem Above.down {s : State} (h : Above s) (d : Dir) : Above (s.setMode (.down d)) :=
  ⟨fun _ hp => Mode.noConfusion hp, h.2⟩

theorem Above.step {s s' : State} {a : Act} (h : Above s) (hstep : Step s a s')
    (hok : OpensReach s a) : Above s' := by
  cases hstep with
  | log p a g hmode hlog =>
    refine ⟨fun p' hp' => ?_, h.2⟩
    cases hp'
    exact ⟨(h.1 p hmode).1, (h.1 p hmode).2.trans_le (step_nextLSN hlog)⟩
  | ack p c m n lsn rec hmode hpc hle hlt =>
    refine ⟨h.1, fun a ha => ?_⟩
    rcases List.mem_cons.mp ha with rfl | ha
    · exact (h.1 p hmode).1.trans_lt hlt
    · exact h.2 a ha
  | beginSnapshot p hmode | commitSnapshot p lsn hmode | trim p lsn hmode =>
    refine ⟨fun p' hp' => ?_, h.2⟩
    cases hp'
    exact h.1 p hmode
  | kill | killInSection | killInTrim | powerCut | killInTruncate | killInOpen => exact h.down _
  | openEngine d r nowMs segmentSize maxBufferBytes l hmode hreplay hopen =>
    refine ⟨fun p hp => ?_, h.2⟩
    cases hp
    have hnext : l.nextLSN = r.state.lastLSN + 1 := by
      have hcounters := (openSegment_counters (.succeed nowMs) (nextSeq r.dir)
        (r.state.lastLSN + 1) (newLog segmentSize maxBufferBytes r.dir r.state.lastLSN)).1
      rwa [← openLog, hopen] at hcounters
    have habove := (next_above_snapshot_iff hreplay).mpr (hok d hmode)
    refine ⟨Nat.lt_succ_iff.mp habove, ?_⟩
    change r.state.lastLSN < l.nextLSN
    omega

/-- A record above the snapshot is not taken for covered. -/
theorem visit_above {snapLSN : ℕ} {f : Frame} (hf : snapLSN < f.lsn) {st st' : ReplayState}
    (hv : visit snapLSN st f = .next st') :
    st'.skipped = st.skipped ∧ ∃ rec, st'.applied = st.applied ++ [rec] := by
  unfold visit at hv
  rw [if_neg (show ¬ f.lsn ≤ snapLSN by omega)] at hv
  split_ifs at hv
  split at hv
  · cases hv
  · cases hv
    exact ⟨rfl, _, rfl⟩

/-- In every run whose opens find files that reach the snapshot, a process
assigns only numbers above the snapshot it loaded, and a restart from that
snapshot skips none of its acknowledged writes. At any open the first number is
above the snapshot exactly if the files reach it. -/
theorem numbers_stay_above_snapshot {s : State}
    (hrun : ReflTransGen (Taking Step OpensReach) init s) :
    (∀ p, s.mode = .up p → p.snapLSN < p.start + 1 ∧ p.start + 1 ≤ p.g.log.nextLSN) ∧
    (∀ a ∈ s.acked, ∀ st st', visit a.snapLSN st (frameOf a.lsn a.record) = .next st' →
      st'.skipped = st.skipped ∧ ∃ rec, st'.applied = st.applied ++ [rec]) ∧
    ∀ d r, s.mode = .down d → replay d (s.snap.getD 0) = .ok r →
      (s.snap.getD 0 < r.state.lastLSN + 1 ↔ ReachesSnapshot d (s.snap.getD 0)) := by
  have habove : Above s :=
    run_preserves Above (fun _ _ h ⟨_, hstep, hok⟩ => h.step hstep hok) hrun
      ⟨fun _ hp => Mode.noConfusion hp, fun _ ha => by cases ha⟩
  refine ⟨fun p hp => ?_, fun a ha st st' hv => visit_above (habove.2 a ha) hv,
    fun d r _ hr => next_above_snapshot_iff hr⟩
  obtain ⟨hsnap, hnext⟩ := habove.1 p hp
  exact ⟨by omega, hnext⟩

/-- A snapshot of a record in the files, a kill and a restart. -/
theorem numbers_above_written_snapshot : ∃ s p,
    ReflTransGen (Taking Step OpensReach) init s ∧ s.mode = .up p ∧ p.snapLSN = 1 ∧
      p.snapLSN < p.start + 1 := by
  have hflushed := flushed_run OpensReach
    (fun _ _ lsn hlsn => Nat.zero_le lsn) (fun _ _ _ => trivial)
  have hbegin := hflushed.tail ⟨_, Step.beginSnapshot _ _ rfl rfl, trivial⟩
  have hcommit := hbegin.tail ⟨_, Step.commitSnapshot _ _ _ rfl rfl, trivial⟩
  have hkill := hcommit.tail ⟨_, Step.kill _ _ rfl, trivial⟩
  have hdown : ReflTransGen (Taking Step OpensReach) init
      ⟨.down [unsyncedSegment], some 1, []⟩ := by
    simpa [State.setMode, flushedLog_log] using hkill
  have hreplay := replay_contents 1 unsyncedSegment_contents (by simpa using setK_loggable)
    (by simp)
  have hreach : ReachesSnapshot [unsyncedSegment] 1 :=
    (next_above_snapshot_iff hreplay).mp (by simp [advance])
  have hopen := Step.openEngine ⟨.down [unsyncedSegment], some 1, []⟩ _ _ 0 (64 <<< 20) (1 <<< 20)
    reopenedLog.log rfl hreplay (Prod.ext rfl (openLog_succeed (by simp [nextSeq]) 0 _ _ _).1)
  have hrun := hdown.tail ⟨_, hopen, fun d hd => by cases hd; exact hreach⟩
  exact ⟨_, _, hrun, rfl, rfl, ((numbers_stay_above_snapshot hrun).1 _ rfl).1⟩

/-- A snapshot bears the number of a record that is still in the buffer when the
process is killed. The next process gives the number out again; its write is
acknowledged and taken for covered at the restart after that. -/
theorem number_reused_below_snapshot : ∃ s s' d d' r r',
    ReflTransGen (Taking Step (fun _ _ => True)) init s ∧ s.mode = .down d ∧ s.snap = some 2 ∧
      replay d 2 = .ok r ∧ ¬ 2 < r.state.lastLSN + 1 ∧
    ReflTransGen (Taking Step (fun _ _ => True)) s s' ∧ s'.mode = .down d' ∧ s'.snap = some 2 ∧
      s'.acked = [⟨2, setK, 2⟩] ∧ replay d' 2 = .ok r' ∧ r'.state.applied = [] := by
  have hlog := flushedLog_log
  have hflushed := flushed_run (fun _ _ => True) trivial (fun _ _ _ => trivial)
  have happend := append_run (fun _ a => NoErrors a ∧ ∀ _ : State, True) flushedLog
    1 setK rfl (by rw [hlog]) (by rw [hlog]) setK_loggable.1
    (by rw [hlog]; decide) (by rw [hlog]; decide +kernel) ⟨trivial, fun _ => trivial⟩
    ⟨trivial, fun _ => trivial⟩
  have happended := hflushed.trans (log_run (fun _ _ => True) _ rfl happend)
  have hbegin := happended.tail ⟨_, Step.beginSnapshot _ _ rfl rfl, trivial⟩
  have hcommit := hbegin.tail ⟨_, Step.commitSnapshot _ _ _ rfl rfl, trivial⟩
  have hkill := hcommit.tail ⟨_, Step.kill _ _ rfl, trivial⟩
  have hdown : ReflTransGen (Taking Step (fun _ _ => True)) init
      ⟨.down [unsyncedSegment], some 2, []⟩ := by
    simpa [State.setMode, hlog] using hkill
  have hfirst := replay_contents 2 unsyncedSegment_contents (by simpa using setK_loggable)
    (by simp)
  have hboth : Contents [unsyncedSegment, syncedSegment] 1 [setK, setK] :=
    unsyncedSegment_contents.append (.single ⟨2, 0, by decide, by
      simp [syncedSegment, numbered]⟩)
  have hsecond := replay_contents 2 hboth (by simpa using setK_loggable) (by simp)
  exact ⟨_, _, _, _, _, _, hdown, rfl, rfl, hfirst, by simp [advance],
    reopened_run _ (fun _ _ _ => trivial) (some 2), rfl, rfl, rfl, hsecond,
    by simp [advance, replayStart]⟩

end RedisFromScratch.SnapshotNumbers
