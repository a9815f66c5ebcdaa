import RedisFromScratch.PersistDurability

/-!
Every open succeeds and finds the acknowledged writes, over any number of kills,
power cuts and restarts, provided a power cut takes nothing from an older
segment, no crash leaves a file without its header and every record can be read
back. A kill followed by a restart leaves an older segment that is not stable,
and a power cut after that is enough to lose the log.
-/
namespace RedisFromScratch.DurableRuns

open ByteStrings FramedLogs StoreRecords LogRecords SegmentReplay SegmentLog LogLayout PersistRuns
open PersistDurability
open GroupCommit hiding State Act Step Inv
open Relation Runs MemoryStore SortedTables

/-- What a run must avoid: records too large to be read back, snapshots, files
without their header, and power cuts that reach an older segment. -/
def Undamaged (s : State) : Act → Prop
  | .log (.append _ rec) => (payload rec).length ≤ maxRecordSize
  | .beginSnapshot => False
  | .killInSection φ => φ.header = none
  | .killInOpen φ => φ.header = none
  | .powerCut d' => ∀ d, s.mode = .down d → KeepsOlder d d'
  | _ => True

/-- A directory that is safe, or a process at work on one; no snapshot. -/
def Inv (s : State) : Prop :=
  s.snap = none ∧
    match s.mode with
    | .down d => Safe d s.acked
    | .up p => p.saving = .idle ∧ ∃ base recs, Running p s.acked base recs

theorem Inv.up {s : State} (h : Inv s) {p : Proc} (hmode : s.mode = .up p) :
    p.saving = .idle ∧ ∃ base recs, Running p s.acked base recs := by
  have hs := h.2
  rwa [hmode] at hs

theorem Inv.down {s : State} (h : Inv s) {d : Dir} (hmode : s.mode = .down d) :
    Safe d s.acked := by
  have hs := h.2
  rwa [hmode] at hs

theorem noDrainAfterLoss {s : State} {g : GroupCommit.State} {a : GroupCommit.Act}
    (hl : Healthy g.log) (hio : NoErrors a) (hok : Undamaged s (.log a)) :
    NoDrainAfterLoss g a := by
  cases a with
  | append => exact hok
  | «section» =>
    obtain ⟨-, nowMs, rfl⟩ := hio
    exact fun _ => ⟨hl.1, rfl⟩
  | beginAppend | call | fast | finish => trivial

theorem Inv.step {s s' : State} {a : Act} (h : Inv s) (hstep : Step s a s')
    (hok : Undamaged s a) : Inv s' := by
  cases hstep with
  | log p a g hmode hlog hio =>
    obtain ⟨hidle, base, recs, hrun⟩ := h.up hmode
    exact ⟨h.1, hidle, base, recs,
      hrun.logStep hlog hio (noDrainAfterLoss hrun.healthy hio hok)⟩
  | ack p c m n lsn rec hmode hpc hle hlt hrec =>
    obtain ⟨hidle, base, recs, hrun⟩ := h.up hmode
    refine ⟨h.1, ?_⟩
    rw [hmode]
    refine ⟨hidle, base, recs, { hrun with acks := ?_ }⟩
    intro a ha
    rcases List.mem_cons.mp ha with rfl | ha
    · have hsynced : n ≤ p.g.log.syncedLSN := by
        have hc := hrun.inv.pcs c
        rwa [hpc] at hc
      have hends := hrun.replayable.ends
      refine ⟨by dsimp only; omega, hle.trans hsynced, ?_⟩
      dsimp only
      rw [List.getElem?_append_right (by omega),
        show lsn - 1 - recs.length = lsn - p.start - 1 by omega]
      exact hrec
    · exact hrun.acks a ha
  | beginSnapshot => exact hok.elim
  | commitSnapshot p lsn hmode hsaving | trim p lsn hmode hsaving
  | killInTrim p lsn k hmode hsaving =>
    rw [(h.up hmode).1] at hsaving
    cases hsaving
  | kill p hmode =>
    obtain ⟨-, base, recs, hrun⟩ := h.up hmode
    obtain ⟨L, hL⟩ := hrun.inv.layout
    exact ⟨h.1, hrun.safe (.refl hL)⟩
  | killInSection p c n op φ hmode =>
    obtain ⟨-, base, recs, hrun⟩ := h.up hmode
    obtain ⟨L, hL⟩ := hrun.inv.layout
    exact ⟨h.1, hrun.safe
      (run_kept hL hrun.inv.bound (fun _ => ⟨hrun.healthy.1, hok⟩)).1⟩
  | powerCut d d' hmode hkeep => exact ⟨h.1, (h.down hmode).powerCut hkeep (hok d hmode)⟩
  | killInTruncate d r hmode hreplay =>
    obtain ⟨r', recs, hr', -, -, -, -, -, hsafe⟩ := (h.down hmode).recover
    rw [h.1] at hreplay
    cases hreplay.symm.trans hr'
    exact ⟨h.1, hsafe⟩
  | killInOpen d r φ segmentSize maxBufferBytes hmode hreplay =>
    obtain ⟨r', recs, hr', hlast, -, hreplayable, hacks, hsafe, -⟩ := (h.down hmode).recover
    rw [h.1] at hreplay
    cases hreplay.symm.trans hr'
    refine ⟨h.1, ?_⟩
    rw [hlast]
    rcases openLog_dir hok segmentSize maxBufferBytes recs.length r.dir with hdir | ⟨synced, hdir⟩
    · change Safe _ s.acked
      rwa [hdir]
    · change Safe _ s.acked
      rw [hdir]
      exact safe_newSegment hreplayable hacks φ.nowMs synced
  | openEngine d r nowMs segmentSize maxBufferBytes l hmode hreplay hopen =>
    obtain ⟨r', recs, hr', hlast, -, hreplayable, hacks, -, -⟩ := (h.down hmode).recover
    rw [h.1] at hreplay
    cases hreplay.symm.trans hr'
    rw [hlast] at hopen ⊢
    obtain ⟨-, hl, hsynced⟩ := openLog_succeed hreplayable.seqs nowMs segmentSize maxBufferBytes
      recs.length
    rw [hopen] at hl hsynced
    refine ⟨h.1, rfl, r.dir, recs, hreplayable, opened_inv hreplayable
      ⟨⟨_, _, _, hopen⟩, rfl, fun _ => rfl⟩, hl, hsynced.ge, ?_⟩
    intro a ha
    obtain ⟨hpos, hle, hrec⟩ := hacks a ha
    exact ⟨hpos, hle.trans hsynced.ge, by rw [List.append_nil]; exact hrec⟩

/-- What a record makes of a key, if it says anything about it. -/
def effect (rec : LogRecord) (k : Bytes) : Option (Option Record) :=
  if rec = .flushAll then some none else lastWrite k rec.writes

/-- The directory can be opened, and the store it recovers shows every
acknowledged write that no later record overwrote. -/
def Survive (d : Dir) (acked : List Ack) : Prop :=
  ∃ r, replay d 0 = .ok r ∧
    (∀ nowMs segmentSize maxBufferBytes,
      (openLog (.succeed nowMs) segmentSize maxBufferBytes r.dir r.state.lastLSN).2 = none) ∧
    ∀ a ∈ acked, r.state.applied[a.lsn - 1]? = some (strip a.record) ∧
      ∀ k o, effect a.record k = some o →
        (∀ later ∈ r.state.applied.drop a.lsn, effect later k = none) →
        ∀ shardOf, (Loader.replay shardOf r.state.applied).lookup shardOf k = o

theorem lookup_of_effect (shardOf : Bytes → ShardId) {applied : List LogRecord} {i : ℕ}
    {rec : LogRecord} (hi : applied[i]? = some (strip rec)) {k : Bytes} {o : Option Record}
    (ho : effect rec k = some o) (hlater : ∀ later ∈ applied.drop (i + 1), effect later k = none) :
    (Loader.replay shardOf applied).lookup shardOf k = o := by
  obtain ⟨hlt, hrec⟩ := List.getElem?_eq_some_iff.mp hi
  have hsplit : applied = applied.take i ++ [strip rec] ++ applied.drop (i + 1) := by
    rw [← hrec, List.append_assoc, List.singleton_append, ← List.drop_eq_getElem_cons hlt,
      List.take_append_drop]
  have hwipe : .flushAll ∉ applied.drop (i + 1) := by
    intro hmem
    have := hlater _ hmem
    simp [effect] at this
  have hnone : lastWrite k ((applied.drop (i + 1)).flatMap LogRecord.writes) = none := by
    rw [lastWrite_eq_none_iff]
    intro b hb
    obtain ⟨later, hmem, hb⟩ := List.mem_flatMap.mp hb
    have hsilent := hlater later hmem
    have hother : later ≠ .flushAll := by
      rintro rfl
      exact hwipe hmem
    rw [effect, if_neg hother, lastWrite_eq_none_iff] at hsilent
    exact hsilent b hb
  rw [hsplit, Loader.lookup_replay_append shardOf _ _ hwipe, hnone, Option.getD_none,
    Loader.replay_concat]
  by_cases hflush : rec = .flushAll
  · subst hflush
    rw [effect, if_pos rfl] at ho
    rw [← Option.some.inj ho]
    rfl
  · have hstrip : strip rec ≠ .flushAll := by
      cases rec <;> simp [strip] at hflush ⊢
    rw [effect, if_neg hflush] at ho
    rw [Loader.lookup_apply shardOf _ _ hstrip, strip_writes, ho, Option.getD_some]

/-- In every run without such damage, each time the engine is down its directory
can be opened and shows every acknowledged write. -/
theorem acknowledged_writes_survive {s : State}
    (hrun : ReflTransGen (Taking Step Undamaged) init s) {d : Dir} (hmode : s.mode = .down d) :
    Survive d s.acked := by
  have hinv : Inv s :=
    run_preserves Inv (fun _ _ h ⟨_, hstep, hok⟩ => h.step hstep hok) hrun
      ⟨rfl, Or.inl ⟨rfl, rfl⟩⟩
  obtain ⟨r, recs, hreplay, hlast, happlied, hreplayable, hacks, -, -⟩ := (hinv.down hmode).recover
  refine ⟨r, hreplay, fun nowMs segmentSize maxBufferBytes =>
    (openLog_succeed hreplayable.seqs nowMs segmentSize maxBufferBytes _).1, fun a ha => ?_⟩
  obtain ⟨hpos, -, hrec⟩ := hacks a ha
  have hplace : r.state.applied[a.lsn - 1]? = some (strip a.record) := by
    rw [happlied, List.getElem?_map, hrec]
    rfl
  refine ⟨hplace, fun k o ho hlater shardOf => lookup_of_effect shardOf hplace ho ?_⟩
  rwa [Nat.sub_add_cancel hpos]

/-- A run of the log is a run of the engine. -/
theorem log_run (ok : State → Act → Prop) (s : State) {p : Proc} (hmode : s.mode = .up p)
    {g : GroupCommit.State}
    (hrun : ReflTransGen (Taking GroupCommit.Step (fun _ a => NoErrors a ∧ ∀ s, ok s (.log a)))
      p.g g) :
    ReflTransGen (Taking Step ok) s (s.setMode (.up { p with g })) := by
  induction hrun with
  | refl =>
    have hsame : s.setMode (.up { p with g := p.g }) = s := by
      rw [State.setMode, ← hmode]
    rw [hsame]
  | @tail g₁ g₂ _ hlast ih =>
    obtain ⟨a, hstep, hio, hok⟩ := hlast
    exact ih.tail ⟨_, Step.log (s.setMode (.up { p with g := g₁ })) { p with g := g₁ } a g₂ rfl
      hstep hio, hok _⟩

/-- The first open of an empty directory. -/
theorem open_run (ok : State → Act → Prop) (hok : ok init .openEngine) :
    ReflTransGen (Taking Step ok) init ⟨.up ⟨0, 0, freshLog, .idle⟩, none, []⟩ := by
  have hopen : openLog (.succeed 0) (64 <<< 20) (1 <<< 20) [] 0 = (freshLog.log, none) :=
    Prod.ext rfl (openLog_succeed (by simp) 0 _ _ 0).1
  exact .single ⟨_, Step.openEngine init [] ⟨replayStart 0, false, []⟩ 0 (64 <<< 20) (1 <<< 20)
    freshLog.log rfl rfl hopen, hok⟩

/-- A write, acknowledged, and a kill. -/
theorem acknowledged_write_survives_kill : ∃ s d,
    ReflTransGen (Taking Step Undamaged) init s ∧ s.mode = .down d ∧ s.acked = [⟨1, setK, 0⟩] ∧
      Survive d s.acked := by
  obtain ⟨g, hlog, hpc, hrecords⟩ := freshLog_sync_run
    (fun _ a => NoErrors a ∧ ∀ s, Undamaged s (.log a))
    (fun _ _ => ⟨trivial, fun _ => trivial⟩) (fun _ _ => ⟨trivial, fun _ => setK_loggable.2⟩)
    (fun _ _ => ⟨by simp [NoErrors], fun _ => trivial⟩)
    (fun _ _ _ => ⟨⟨by simp, 0, rfl⟩, fun _ => trivial⟩)
  have hup := (open_run Undamaged trivial).trans (log_run _ _ rfl hlog)
  have hack := hup.tail ⟨_, Step.ack _ _ 0 1 1 1 setK rfl hpc (Nat.le_refl _) (Nat.one_pos)
    (by simp [hrecords]), trivial⟩
  have hrun := hack.tail ⟨_, Step.kill _ _ rfl, trivial⟩
  exact ⟨_, _, hrun, rfl, rfl, acknowledged_writes_survive hrun rfl⟩

/-- The first segment with one record that was written and not made stable. -/
def unsyncedSegment : Segment :=
  ⟨1, encodeSegHeader 1 0 ++ framing.encode (frameOf 1 setK), segHeaderSize⟩

theorem unsyncedSegment_contents : Contents [unsyncedSegment] 1 [setK] :=
  .single ⟨1, 0, by decide, by simp [unsyncedSegment, numbered]⟩

/-- The log of a process that opens that segment. -/
def reopenedLog : GroupCommit.State where
  log := (openLog (.succeed 0) (64 <<< 20) (1 <<< 20) [unsyncedSegment] 1).1
  records := []
  pc := fun _ => .idle

theorem reopenedLog_log : reopenedLog.log =
    { segmentSize := 64 <<< 20, maxBufferBytes := 1 <<< 20, buf := [], nextLSN := 2,
      lastAppended := 1, writtenLSN := 1, syncedLSN := 1, segSeq := 2, segLen := segHeaderSize,
      fileOpen := true, fatal := none, closed := false,
      dir := [unsyncedSegment, ⟨2, encodeSegHeader 2 0, segHeaderSize⟩], lost := false } := by
  have hopen := openSegment_succeed (l := newLog (64 <<< 20) (1 <<< 20) [unsyncedSegment] 1) 0
    2 2 (by simp [newLog, unsyncedSegment])
  exact congrArg Prod.fst hopen

/-- The segment the second process writes and syncs. -/
def syncedSegment : Segment :=
  ⟨2, encodeSegHeader 2 0 ++ framing.encode (frameOf 2 setK),
    (encodeSegHeader 2 0 ++ framing.encode (frameOf 2 setK)).length⟩

/-- The log after its first record has been written and not synced. -/
def flushedLog : GroupCommit.State :=
  ((freshLog.appendRecord setK).setLog (Op.flush.run (.succeed 0)
    (freshLog.appendRecord setK).log).1).setPc 0 (.returned .flush 1)

theorem flush_run : Op.flush.run (.succeed 0) (freshLog.appendRecord setK).log =
    (setWritten 1 (framing.encode (frameOf 1 setK)).length
      (writeFile (framing.encode (frameOf 1 setK)) (takeBuf (append setK freshLog.log))),
      none) := by
  have hne := encode_ne_nil (frameOf 1 setK)
  have hlen : ¬ 67108864 ≤ segHeaderSize + (framing.encode (frameOf 1 setK)).length := by
    decide +kernel
  simp [Op.run, drainLocked, SysCalls.succeed, freshLog_log, hne, hlen]

theorem flushedLog_log : flushedLog.log =
    { segmentSize := 64 <<< 20, maxBufferBytes := 1 <<< 20, buf := [], nextLSN := 2,
      lastAppended := 1, writtenLSN := 1, syncedLSN := 0, segSeq := 1,
      segLen := segHeaderSize + (framing.encode (frameOf 1 setK)).length,
      fileOpen := true, fatal := none, closed := false, dir := [unsyncedSegment],
      lost := false } := by
  rw [flushedLog, State.setPc_log, State.setLog_log, flush_run, freshLog_log]
  simp [setWritten, writeFile, takeBuf, append, unsyncedSegment]

variable (ok : State → Act → Prop)

/-- The first process writes a record without syncing it. -/
theorem flushed_run (hopen : ok init .openEngine)
    (hok : ∀ s a, Undamaged s (.log a) → ok s (.log a)) :
    ReflTransGen (Taking Step ok) init ⟨.up ⟨0, 0, flushedLog, .idle⟩, none, []⟩ := by
  have hlog := freshLog_log
  have hcall := (call_run (fun _ a => NoErrors a ∧ ∀ s, ok s (.log a))
    (freshLog.appendRecord setK) 0 .flush (.succeed 0) rfl
    (by simp [hlog]) (by simp) ⟨by simp [NoErrors], fun _ => hok _ _ trivial⟩
    ⟨⟨by simp, 0, rfl⟩, fun _ => hok _ _ trivial⟩).1 (by rw [flush_run])
  have happend := freshLog_append (fun _ a => NoErrors a ∧ ∀ s, ok s (.log a))
    (fun _ _ => ⟨trivial, fun _ => hok _ _ trivial⟩)
    (fun _ _ => ⟨trivial, fun _ => hok _ _ setK_loggable.2⟩)
  have hreturned : promised .flush (freshLog.appendRecord setK).log.lastAppended
      (Op.flush.run (.succeed 0) (freshLog.appendRecord setK).log).1 = 1 := by
    simp [promised, hlog]
  rw [hreturned] at hcall
  have hlogged := log_run ok ⟨.up ⟨0, 0, freshLog, .idle⟩, none, []⟩ rfl
    (happend.trans hcall)
  exact (open_run ok hopen).trans hlogged

/-- The second process opens that directory, syncs and acknowledges a record in
a new segment, and is killed. -/
theorem reopened_run (hok : ∀ s a, Undamaged s a → ok s a) (snap : Option ℕ) :
    ReflTransGen (Taking Step ok) ⟨.down [unsyncedSegment], snap, []⟩
      ⟨.down [unsyncedSegment, syncedSegment], snap, [⟨2, setK, snap.getD 0⟩]⟩ := by
  have hlog := reopenedLog_log
  have hne := encode_ne_nil (frameOf 2 setK)
  have hlen : ¬ 67108864 ≤ segHeaderSize + (framing.encode (frameOf 2 setK)).length := by
    decide +kernel
  have hreplay := replay_contents (snap.getD 0) unsyncedSegment_contents
    (by simpa using setK_loggable) (by simp)
  have hopen := Step.openEngine ⟨.down [unsyncedSegment], snap, []⟩ _ _ 0 (64 <<< 20) (1 <<< 20)
    reopenedLog.log rfl hreplay (Prod.ext rfl (openLog_succeed (by simp [nextSeq]) 0 _ _ _).1)
  have happend := append_run (fun _ a => NoErrors a ∧ ∀ s, ok s (.log a))
    reopenedLog 0 setK rfl (by rw [hlog]) (by rw [hlog]) setK_loggable.1
    (by rw [hlog]; decide) (by rw [hlog]; decide +kernel) ⟨trivial, fun _ => hok _ _ trivial⟩
    ⟨trivial, fun _ => hok _ _ setK_loggable.2⟩
  have hsync : (Op.sync 2).run (.succeed 0) (reopenedLog.appendRecord setK).log =
      (setSynced 2 (syncFile (setWritten 2 (framing.encode (frameOf 2 setK)).length
        (writeFile (framing.encode (frameOf 2 setK)) (takeBuf (append setK reopenedLog.log))))),
        none) := by
    simp [Op.run, syncLocked, drainLocked, SysCalls.succeed, hlog, hne, hlen]
  have hcall := (call_run (fun _ a => NoErrors a ∧ ∀ s, ok s (.log a))
    (reopenedLog.appendRecord setK) 0 (.sync 2) (.succeed 0) rfl
    (by simp [hlog]) (by simp) ⟨by simp [NoErrors], fun _ => hok _ _ trivial⟩
    ⟨⟨by simp, 0, rfl⟩, fun _ => hok _ _ trivial⟩).1 (by rw [hsync])
  rw [hsync] at hcall
  have hup := (ReflTransGen.single ⟨_, hopen, hok _ _ trivial⟩ :
    ReflTransGen (Taking Step ok) _ _).trans (log_run _ _ rfl (happend.trans hcall))
  have hack := hup.tail ⟨_, Step.ack _ _ 0 2 2 2 setK rfl (by simp [promised, hlog])
    (Nat.le_refl _) (by simp [advance]) (by simp [advance, reopenedLog]), hok _ _ trivial⟩
  have hdown := hack.tail ⟨_, Step.kill _ _ rfl, hok _ _ trivial⟩
  simpa [State.setMode, hlog, unsyncedSegment, syncedSegment] using hdown

/-- Undamaged but for the reach of power cuts. -/
def AnyPowerCut (s : State) (a : Act) : Prop := Undamaged s a ∨ ∃ d, a = .powerCut d

/-- A record is written and not synced when its process is killed. The next one
leaves it so and acknowledges a record in a new segment. A power cut that cuts
the first record short makes the log unreadable. -/
theorem power_cut_under_new_segment : ∃ s d,
    ReflTransGen (Taking Step AnyPowerCut) init s ∧ s.mode = .down d ∧
      s.acked = [⟨2, setK, 0⟩] ∧ ¬ Survive d s.acked := by
  let cut : Segment := ⟨1, unsyncedSegment.data.take (segHeaderSize + 1), segHeaderSize + 1⟩
  have hlen : segHeaderSize + 1 < unsyncedSegment.data.length := by decide +kernel
  have hcut : Step ⟨.down [unsyncedSegment, syncedSegment], none, [⟨2, setK, 0⟩]⟩
      (.powerCut [cut, syncedSegment]) ⟨.down [cut, syncedSegment], none, [⟨2, setK, 0⟩]⟩ := by
    refine Step.powerCut _ _ _ rfl (.cons ⟨segHeaderSize + 1, by decide, ?_⟩
      (.cons ⟨syncedSegment.data.length, Nat.le_refl _, ?_⟩ .nil))
    · rw [List.length_take_of_le hlen.le]
      rfl
    · rw [List.take_length]
      rfl
  have hok : ∀ s a, Undamaged s a → AnyPowerCut s a := fun _ _ => Or.inl
  have hkilled := (flushed_run AnyPowerCut (hok _ _ trivial) (fun _ _ => hok _ _)).tail
    ⟨_, Step.kill _ _ rfl, hok _ _ trivial⟩
  rw [flushedLog_log] at hkilled
  refine ⟨_, _, (hkilled.trans (reopened_run AnyPowerCut hok none)).tail
    ⟨_, hcut, Or.inr ⟨_, rfl⟩⟩, rfl, rfl, ?_⟩
  rintro ⟨r, hreplay, -⟩
  have hdata : cut.data = encodeSegHeader 1 0 ++
      (framing.encodeAll (numbered 1 []) ++ (framing.encode (frameOf 1 setK)).take 1) := by
    change (encodeSegHeader 1 0 ++ framing.encode (frameOf 1 setK)).take (segHeaderSize + 1) = _
    rw [List.take_append, encodeSegHeader_length, List.take_of_length_le (by simp)]
    simp [numbered]
  have htorn : framing.Torn (numbered (1 + ([] : List LogRecord).length) [setK])
      ((framing.encode (frameOf 1 setK)).take 1) := by
    refine Or.inr ⟨frameOf 1 setK, List.mem_cons_self, List.take_prefix _ _, ?_, ?_⟩
    · decide +kernel
    · decide +kernel
  have hdamaged := replaySegment_torn 0 (replayStart 0) [setK] hdata htorn (by simp)
    (by simpa using setK_loggable) (by simp) (Or.inl rfl)
  rw [if_neg (by decide +kernel)] at hdamaged
  rw [replay] at hreplay
  split_ifs at hreplay
  rw [replayFrom, hdamaged] at hreplay
  cases hreplay

end RedisFromScratch.DurableRuns
