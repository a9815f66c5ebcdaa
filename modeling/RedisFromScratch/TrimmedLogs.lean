import RedisFromScratch.DurableRuns

/-!
Starts of the durable engine after kills, with snapshots that trim the log. A
trim takes whole segments off the front, so what is left is still whole segments
in order with a newest one that may end in a cut record, from whatever number
on. Replay asks for no more, and the log is opened right behind the last record.
-/
namespace RedisFromScratch.TrimmedLogs

open ByteStrings FramedLogs StoreRecords LogRecords SegmentReplay SegmentLog LogLayout PersistRuns
open PersistDurability DurableRuns
open GroupCommit hiding State Act Step Inv
open Relation Runs

/-- Whole segments in order, then one that may end in a cut record. -/
structure Shaped (d older : Dir) (last : Segment) (n : ℕ) (recs tail later : List LogRecord)
    (t : Bytes) : Prop where
  dir : d = older ++ [last]
  whole : Contents older n recs
  newest : ∃ firstLSN createdMs, firstLSN < 2 ^ 64 ∧
    last.data = encodeSegHeader firstLSN createdMs ++
      (framing.encodeAll (numbered (n + recs.length) tail) ++ t)
  torn : framing.Torn (numbered (n + recs.length + tail.length) later) t
  loggable : ∀ rec ∈ recs ++ tail ++ later, Loggable rec
  bound : n + recs.length + tail.length + later.length < 2 ^ 64
  fresh : ∀ seg ∈ older, seg.seq < last.seq

/-- What a kill may leave of the log. -/
def Startable (d : Dir) : Prop :=
  d = [] ∨ ∃ older last n recs tail later t, Shaped d older last n recs tail later t

/-- Segments without records belong to any number. -/
theorem contents_renumber {d : Dir} {n : ℕ} {recs : List LogRecord} (h : Contents d n recs)
    (hrecs : recs = []) (m : ℕ) : Contents d m [] := by
  induction h with
  | nil => exact .nil m
  | @cons seg rest n recs more hseg _ ih =>
    obtain ⟨rfl, rfl⟩ := List.append_eq_nil_iff.mp hrecs
    have hwhole : WholeSegment seg m [] := hseg
    exact .cons hwhole (ih rfl)

/-- Dropping leading segments drops leading records. -/
theorem contents_drop {d : Dir} {n : ℕ} {recs : List LogRecord} (h : Contents d n recs) (k : ℕ) :
    ∃ m more, Contents (d.drop k) m more ∧ m + more.length = n + recs.length ∧ more ⊆ recs := by
  induction h generalizing k with
  | nil n => exact ⟨n, [], by rw [List.drop_nil]; exact .nil n, rfl, List.Subset.refl _⟩
  | @cons seg rest n recs more hseg hrest ih =>
    cases k with
    | zero => exact ⟨n, recs ++ more, .cons hseg hrest, rfl, List.Subset.refl _⟩
    | succ k =>
      obtain ⟨m, kept, hkept, hends, hsub⟩ := ih k
      refine ⟨m, kept, hkept, ?_, fun r hr => List.mem_append_right _ (hsub hr)⟩
      rw [hends, List.length_append]
      omega

section Recover

variable {d older : Dir} {last : Segment} {n : ℕ} {recs tail later : List LogRecord} {t : Bytes}

/-- The repaired directory is whole, and so is one whose repair is not stable. -/
theorem Shaped.repaired (h : Shaped d older last n recs tail later t) {last' : Segment}
    (hseq : last'.seq = last.seq) (hwhole : WholeSegment last' (n + recs.length) tail) :
    Shaped (older ++ [last']) older last' n recs tail [] [] where
  dir := rfl
  whole := h.whole
  newest := by
    obtain ⟨firstLSN, createdMs, hfirst, hdata⟩ := hwhole
    exact ⟨firstLSN, createdMs, hfirst, by rw [hdata, List.append_nil]⟩
  torn := Or.inl rfl
  loggable rec hrec := h.loggable rec (by
    rw [List.append_nil] at hrec
    exact List.mem_append_left _ hrec)
  bound := by
    have := h.bound
    rw [List.length_nil]
    omega
  fresh seg hseg := hseq ▸ h.fresh seg hseg

/-- A start gets through replay, and what it leaves on the way is startable. -/
theorem Startable.recover (h : Startable d) {afterLSN : ℕ} (hafter : afterLSN + 1 < 2 ^ 64) :
    ∃ r first kept, replay d afterLSN = .ok r ∧
      Replayable r.dir first r.state.lastLSN kept ∧ Startable r.dir ∧
      Startable (truncatedOnly d r.dir) := by
  rcases h with rfl | ⟨older, last, n, recs, tail, later, t, h⟩
  · refine ⟨⟨replayStart afterLSN, false, []⟩, afterLSN + 1, [], rfl, ?_, Or.inl rfl, Or.inl rfl⟩
    exact ⟨.nil _, by simp, rfl, by simp, hafter⟩
  obtain ⟨firstLSN, createdMs, hfirst, hdata⟩ := h.newest
  obtain ⟨last', hok, hseq, hwhole, -⟩ := replay_torn afterLSN last tail later h.whole hfirst hdata
    h.torn (fun r hr => h.loggable r (by simp [hr])) (fun r hr => h.loggable r (by simp [hr]))
    (fun r hr => h.loggable r (by simp [hr])) h.bound
  have hcontents : Contents (older ++ [last']) n (recs ++ tail) := h.whole.append (.single hwhole)
  have hloggable : ∀ rec ∈ recs ++ tail, Loggable rec :=
    fun rec hrec => h.loggable rec (List.mem_append_left _ hrec)
  have hseqs : ∀ seg ∈ older ++ [last'], seg.seq < nextSeq (older ++ [last']) := by
    intro seg hseg
    rw [nextSeq, List.getLast?_concat]
    dsimp only
    rcases List.mem_append.mp hseg with hseg | hseg
    · have := h.fresh seg hseg
      omega
    · rw [List.mem_singleton.mp hseg]
      omega
  have hbound := h.bound
  refine ⟨_, if recs ++ tail = [] then afterLSN + 1 else n, recs ++ tail, by rw [h.dir]; exact hok,
    ?_, Or.inr ⟨_, _, _, _, _, _, _, h.repaired hseq hwhole⟩, ?_⟩
  · by_cases hnone : recs ++ tail = []
    · rw [if_pos hnone]
      refine ⟨?_, hloggable, ?_, hseqs, ?_⟩
      · rw [hnone]
        exact contents_renumber hcontents hnone _
      · simp [advance, replayStart, hnone]
      · simpa [advance, replayStart, hnone] using hafter
    · have hpos := List.length_pos_iff.mpr hnone
      rw [List.length_append] at hpos
      rw [if_neg hnone]
      refine ⟨hcontents, hloggable, ?_, hseqs, ?_⟩
      · simp only [advance, if_neg hnone, List.length_append]
        omega
      · simp only [advance, if_neg hnone, List.length_append]
        omega
  · rw [h.dir, truncatedOnly_append]
    have hcut : WholeSegment { last' with synced := min last.synced last'.synced }
        (n + recs.length) tail := hwhole
    exact Or.inr ⟨_, _, _, _, _, _, _, h.repaired hseq hcut⟩

/-- A new segment without records on a replayed directory. -/
theorem startable_newSegment {first start : ℕ} (h : Replayable d first start recs) (createdMs : ℤ)
    (synced : ℕ) :
    Startable (d ++ [⟨nextSeq d, encodeSegHeader (start + 1) createdMs, synced⟩]) := by
  have hends := h.ends
  have hbound := h.bound
  refine Or.inr ⟨d, _, first, recs, [], [], [], rfl, h.contents, ⟨start + 1, createdMs, hbound, ?_⟩,
    Or.inl rfl, ?_, ?_, h.seqs⟩
  · simp [numbered]
  · simpa using h.loggable
  · simp only [List.length_nil]
    omega

end Recover

/-- The log as if fewer records had been appended since it was opened. -/
@[simps] def since (g : GroupCommit.State) (records : List LogRecord) : GroupCommit.State :=
  { g with records := records }

/-- A process at work behind whole segments; which of the records in front of the
buffer count as its own is a matter of where the segments are divided. -/
structure Serving (g : GroupCommit.State) (base : Dir) (first start : ℕ)
    (recs records : List LogRecord) : Prop where
  contents : Contents base first recs
  loggable : ∀ rec ∈ recs, Loggable rec
  ends : first + recs.length = start + 1
  inv : GroupCommit.Inv base start (since g records)

section Serve

variable {g g' : GroupCommit.State} {base : Dir} {first start : ℕ} {recs records : List LogRecord}

/-- Whatever a section leaves on disk is startable. -/
theorem Serving.startable (h : Serving g base first start recs records) {l : Log}
    (hkept : Kept base start records g.log l) : Startable l.dir := by
  obtain ⟨L, hL⟩ := hkept.layout
  have hends := h.ends
  have hnumber : first + (recs ++ L.recsOld).length = L.firstNew start := by
    rw [List.length_append, Layout.firstNew]
    omega
  have hlen := congrArg List.length hL.split
  simp only [List.length_append] at hlen
  refine Or.inr ⟨base ++ L.older, L.newest, first, recs ++ L.recsOld, L.recsNew, L.rest, L.torn,
    hL.dir, h.contents.append (by rw [hends]; exact hL.older),
    ⟨L.firstLSN, L.createdMs, hL.firstLSN, ?_⟩, ?_, ?_, ?_, hL.fresh⟩
  · rw [hnumber]
    exact hL.newest
  · rw [hnumber]
    exact hL.torn
  · intro rec hrec
    rw [List.append_assoc, List.append_assoc, ← List.append_assoc L.recsOld, ← hL.split] at hrec
    rcases List.mem_append.mp hrec with hrec | hrec
    · exact h.loggable rec hrec
    · exact h.inv.loggable rec hrec
  · obtain ⟨L₀, hL₀⟩ := h.inv.layout
    have hbound := h.inv.bound
    rw [hL₀.nextLSN] at hbound
    rw [hnumber, Layout.firstNew]
    simp only [since_records] at hbound
    omega

theorem step_since {a : GroupCommit.Act} (records : List LogRecord)
    (hstep : GroupCommit.Step g a g') :
    ∃ records', GroupCommit.Step (since g records) a (since g' records') := by
  cases hstep with
  | beginAppend c rec hpc hopen hfatal hrange =>
    exact ⟨records, .beginAppend (since g records) c rec hpc hopen hfatal hrange⟩
  | append c rec hpc hlsn => exact ⟨records ++ [rec], .append (since g records) c rec hpc hlsn⟩
  | call c op hpc hopen =>
    refine ⟨records, ?_⟩
    have hsame : since ((if op = .close then g.setLog (setClosed g.log) else g).setPc c
        (.calling op g.log.lastAppended)) records =
        (if op = .close then (since g records).setLog (setClosed g.log)
          else since g records).setPc c (.calling op g.log.lastAppended) := by
      split_ifs <;> rfl
    rw [hsame]
    exact .call (since g records) c op hpc hopen
  | fast c op n hpc hfast => exact ⟨records, .fast (since g records) c op n hpc hfast⟩
  | returned c op n φ hpc hok => exact ⟨records, .returned (since g records) c op n φ hpc hok⟩
  | failed c op n φ hpc herr => exact ⟨records, .failed (since g records) c op n φ hpc herr⟩
  | finish c op n hpc => exact ⟨records, .finish (since g records) c op n hpc⟩

theorem Serving.step {a : GroupCommit.Act} (h : Serving g base first start recs records)
    (hstep : GroupCommit.Step g a g') (hok : NoDrainAfterLoss g a) :
    ∃ records', Serving g' base first start recs records' := by
  obtain ⟨records', hsince⟩ := step_since records hstep
  have hsame : NoDrainAfterLoss (since g records) a := by
    cases a <;> exact hok
  exact ⟨records', h.contents, h.loggable, h.ends, h.inv.step hsince hsame⟩

/-- Older segments of the log's own can be counted to those it was opened on. -/
theorem describes_absorb {L : Layout} {l : Log} (h : L.Describes base start records l) :
    ({ L with older := [], recsOld := [] } : Layout).Describes (base ++ L.older)
      (start + L.recsOld.length) (L.recsNew ++ L.rest) l := by
  have hnew : ({ L with older := [], recsOld := [] } : Layout).firstNew
      (start + L.recsOld.length) = L.firstNew start := by
    simp only [Layout.firstNew, List.length_nil]
    omega
  have hlen := congrArg List.length h.split
  simp only [List.length_append] at hlen
  refine ⟨⟨?_, .nil _, h.firstLSN, ?_, ?_, ?_, h.solid, ?_, ?_⟩, ?_, ?_, ?_, h.marks, ?_, ?_, ?_,
    h.current⟩
  · rw [h.dir]
    simp
  · rw [hnew]
    exact h.newest
  · rw [Layout.firstRest, hnew]
    exact h.torn
  · rfl
  · rw [hnew]
    exact h.solidSynced
  · rw [List.append_nil]
    exact h.fresh
  · intro seg hseg
    cases hseg
  · simpa using h.syncedLSN
  · simpa using h.writtenLSN
  · rw [h.nextLSN, List.length_append]
    omega
  · rw [h.lastAppended, List.length_append]
    omega
  · intro hlost
    obtain ⟨htorn, hwritten, hbuf⟩ := h.intact hlost
    refine ⟨htorn, by simpa using hwritten, ?_⟩
    rw [Layout.firstRest, hnew]
    exact hbuf

/-- Segments it was opened on can go. -/
theorem describes_dropFiles {L : Layout} {l : Log} (h : L.Describes base start records l)
    {k : ℕ} (hk : k ≤ base.length) :
    L.Describes (base.drop k) start records (PersistRuns.dropFiles k l) := by
  refine { h with dir := ?_, fresh := ?_ }
  · change l.dir.drop k = base.drop k ++ L.older ++ [L.newest]
    rw [h.dir, List.append_assoc, List.drop_append_of_le_length hk, List.append_assoc]
  · intro seg hseg
    refine h.fresh seg ?_
    rcases List.mem_append.mp hseg with hseg | hseg
    · exact List.mem_append_left _ (List.mem_of_mem_drop hseg)
    · exact List.mem_append_right _ hseg

/-- A trim leaves a process at work behind fewer segments. -/
theorem Serving.dropFiles (h : Serving g base first start recs records) {k : ℕ}
    (hk : k ≤ g.log.dir.length - 1) :
    ∃ base' first' start' recs' records',
      Serving (g.setLog (PersistRuns.dropFiles k g.log)) base' first' start' recs' records' := by
  obtain ⟨L, hL⟩ := h.inv.layout
  have hlen : k ≤ (base ++ L.older).length := by
    have hdir := congrArg List.length hL.dir
    rw [List.length_append, List.length_singleton] at hdir
    change g.log.dir.length = _ at hdir
    omega
  have hwhole : Contents (base ++ L.older) first (recs ++ L.recsOld) :=
    h.contents.append (by rw [h.ends]; exact hL.older)
  obtain ⟨m, more, hmore, hends, hsub⟩ := contents_drop hwhole k
  have hrecs : ∀ rec ∈ records, Loggable rec := h.inv.loggable
  rw [show records = _ from hL.split] at hrecs
  refine ⟨_, m, start + L.recsOld.length, more, L.recsNew ++ L.rest, hmore, ?_, ?_,
    ⟨⟨_, describes_dropFiles (describes_absorb hL) hlen⟩, ?_, h.inv.bound, h.inv.pcs⟩⟩
  · intro rec hrec
    rcases List.mem_append.mp (hsub hrec) with hrec | hrec
    · exact h.loggable rec hrec
    · exact hrecs rec (List.mem_append_left _ (List.mem_append_left _ hrec))
  · have := h.ends
    rw [hends, List.length_append]
    omega
  · intro rec hrec
    rw [since_records] at hrec
    refine hrecs rec ?_
    rw [List.append_assoc]
    exact List.mem_append_right _ hrec

end Serve

/-- The newest segment is never trimmed. -/
theorem trimCount_le (segSeq safeLSN : ℕ) (d : Dir) :
    trimCount segSeq safeLSN d ≤ d.length - 1 := by
  induction d with
  | nil => exact Nat.le_refl _
  | cons seg rest ih =>
    cases rest with
    | nil => exact Nat.le_refl _
    | cons next =>
      rw [trimCount]
      rw [List.length_cons, Nat.add_sub_cancel] at ih ⊢
      split_ifs
      · exact Nat.zero_le _
      · cases readSegHeader next.data with
        | none => exact Nat.zero_le _
        | some =>
          dsimp only
          split_ifs
          · exact Nat.zero_le _
          · rw [List.length_cons]
            omega

theorem trimTo_le (segSeq safeLSN : ℕ) (d : Dir) : trimTo segSeq safeLSN d ≤ d.length - 1 := by
  unfold trimTo
  split_ifs
  · exact trimCount_le segSeq safeLSN d
  · exact Nat.zero_le _

/-- The engine's steps, with log calls that fail and a log that is closed. -/
inductive AnyStep : State → Act → State → Prop
  | step {s s' : State} {a : Act} (hstep : Step s a s') : AnyStep s a s'
  | log (s : State) (p : Proc) (a : GroupCommit.Act) (g : GroupCommit.State)
      (hmode : s.mode = .up p) (hstep : GroupCommit.Step p.g a g) :
      AnyStep s (.log a) (s.setMode (.up { p with g }))

/-- Processes are killed, but the machine stays up. No kill leaves a segment
without its whole header, no record is too large to be read back, and no drain
follows a write that failed. -/
def KilledWhole (s : State) : Act → Prop
  | .log a => ∀ p, s.mode = .up p → NoDrainAfterLoss p.g a
  | .killInSection φ => φ.header = none ∧ ∀ p, s.mode = .up p → p.g.log.lost = false
  | .killInOpen φ => φ.header = none
  | .powerCut _ => False
  | _ => True

/-- A startable directory, or a process at work; numbers stay in range. -/
structure Ready (s : State) : Prop where
  snap : s.snap.getD 0 + 1 < 2 ^ 64
  down : ∀ d, s.mode = .down d → Startable d
  up : ∀ p, s.mode = .up p → ∃ base first start recs records,
    Serving p.g base first start recs records
  saving : ∀ p lsn, s.mode = .up p → p.saving = .writing lsn → lsn + 1 < 2 ^ 64

theorem Ready.setDown {s : State} (h : Ready s) {d : Dir} (hd : Startable d) :
    Ready (s.setMode (.down d)) where
  snap := h.snap
  down d' hmode := by
    cases hmode
    exact hd
  up p hmode := by cases hmode
  saving p lsn hmode := by cases hmode

theorem Ready.setUp {s : State} (h : Ready s) {p : Proc} {base : Dir} {first start : ℕ}
    {recs records : List LogRecord} (hp : Serving p.g base first start recs records)
    (hsaving : ∀ lsn, p.saving = .writing lsn → lsn + 1 < 2 ^ 64) :
    Ready (s.setMode (.up p)) where
  snap := h.snap
  down d hmode := by cases hmode
  up p' hmode := by
    cases hmode
    exact ⟨_, _, _, _, _, hp⟩
  saving p' lsn hmode hlsn := by
    cases hmode
    exact hsaving lsn hlsn

theorem Ready.logStep {s : State} (h : Ready s) {p : Proc} {a : GroupCommit.Act}
    {g : GroupCommit.State} (hmode : s.mode = .up p) (hstep : GroupCommit.Step p.g a g)
    (hok : KilledWhole s (.log a)) : Ready (s.setMode (.up { p with g })) := by
  obtain ⟨base, first, start, recs, records, hserve⟩ := h.up p hmode
  obtain ⟨records', hserve'⟩ := hserve.step hstep (hok p hmode)
  have hp : Serving ({ p with g } : Proc).g base first start recs records' := hserve'
  exact h.setUp hp (fun lsn => h.saving p lsn hmode)

theorem Ready.step {s s' : State} {a : Act} (h : Ready s) (hstep : Step s a s')
    (hok : KilledWhole s a) : Ready s' := by
  cases hstep with
  | log p a g hmode hlog => exact h.logStep hmode hlog hok
  | ack => exact ⟨h.snap, h.down, h.up, h.saving⟩
  | beginSnapshot p hmode =>
    obtain ⟨base, first, start, recs, records, hserve⟩ := h.up p hmode
    obtain ⟨L, hL⟩ := hserve.inv.layout
    have hbound := hserve.inv.bound
    have hnext := hL.nextLSN
    refine h.setUp hserve (fun lsn hlsn => ?_)
    cases hlsn
    simp only [since_log] at hbound hnext
    omega
  | commitSnapshot p lsn hmode hsaving =>
    obtain ⟨base, first, start, recs, records, hserve⟩ := h.up p hmode
    have hnew : Ready { s with snap := some lsn } :=
      ⟨h.saving p lsn hmode hsaving, h.down, h.up, h.saving⟩
    have hp : Serving ({ p with saving := .trimming lsn } : Proc).g base first start recs records :=
      hserve
    exact hnew.setUp hp (fun lsn' hlsn => by cases hlsn)
  | trim p lsn hmode =>
    obtain ⟨base, first, start, recs, records, hserve⟩ := h.up p hmode
    obtain ⟨base', first', start', recs', records', hserve'⟩ :=
      hserve.dropFiles (trimTo_le p.g.log.segSeq lsn p.g.log.dir)
    exact h.setUp (p := { p.setLog _ with saving := .idle }) hserve'
      (fun lsn' hlsn => by cases hlsn)
  | kill p hmode =>
    obtain ⟨base, first, start, recs, records, hserve⟩ := h.up p hmode
    obtain ⟨L, hL⟩ := hserve.inv.layout
    exact h.setDown (hserve.startable (.refl hL))
  | killInSection p c n op φ hmode =>
    obtain ⟨base, first, start, recs, records, hserve⟩ := h.up p hmode
    obtain ⟨L, hL⟩ := hserve.inv.layout
    exact h.setDown (hserve.startable
      (run_kept hL hserve.inv.bound (fun _ => ⟨hok.2 p hmode, hok.1⟩)).1)
  | killInTrim p lsn k hmode hsaving hk =>
    obtain ⟨base, first, start, recs, records, hserve⟩ := h.up p hmode
    obtain ⟨base', first', start', recs', records', hserve'⟩ :=
      hserve.dropFiles (hk.trans (trimTo_le p.g.log.segSeq lsn p.g.log.dir))
    obtain ⟨L, hL⟩ := hserve'.inv.layout
    exact h.setDown (hserve'.startable (.refl hL))
  | powerCut => exact hok.elim
  | killInTruncate d r hmode hreplay =>
    obtain ⟨r', first, kept, hr', -, -, hcut⟩ := (h.down d hmode).recover h.snap
    cases hreplay.symm.trans hr'
    exact h.setDown hcut
  | killInOpen d r φ segmentSize maxBufferBytes hmode hreplay =>
    obtain ⟨r', first, kept, hr', hreplayable, hrepaired, -⟩ := (h.down d hmode).recover h.snap
    cases hreplay.symm.trans hr'
    refine h.setDown ?_
    rcases openLog_dir hok segmentSize maxBufferBytes r.state.lastLSN r.dir with
      hdir | ⟨synced, hdir⟩
    · rwa [hdir]
    · rw [hdir]
      exact startable_newSegment hreplayable φ.nowMs synced
  | openEngine d r nowMs segmentSize maxBufferBytes l hmode hreplay hopen =>
    obtain ⟨r', first, kept, hr', hreplayable, -, -⟩ := (h.down d hmode).recover h.snap
    cases hreplay.symm.trans hr'
    have hopened : Opened r.dir r.state.lastLSN ⟨l, [], fun _ => .idle⟩ :=
      ⟨⟨_, _, _, hopen⟩, rfl, fun _ => rfl⟩
    have hserve : Serving ⟨l, [], fun _ => .idle⟩ r.dir first r.state.lastLSN kept [] :=
      ⟨hreplayable.contents, hreplayable.loggable, hreplayable.ends,
        opened_inv hreplayable hopened⟩
    exact h.setUp (p := ⟨_, _, ⟨l, [], fun _ => .idle⟩, .idle⟩) hserve
      (fun lsn hlsn => by cases hlsn)

/-- Whatever kills leave can be replayed, and a log can be opened behind it. -/
theorem starts_after_kills {s : State} (hrun : ReflTransGen (Taking AnyStep KilledWhole) init s)
    {d : Dir} (hmode : s.mode = .down d) :
    ∃ r, replay d (s.snap.getD 0) = .ok r ∧ ∀ nowMs segmentSize maxBufferBytes,
      (openLog (.succeed nowMs) segmentSize maxBufferBytes r.dir r.state.lastLSN).2 = none := by
  have hready : Ready s := by
    refine run_preserves Ready ?_ hrun ⟨by decide, ?_, ?_, ?_⟩
    · rintro s₁ s₂ h ⟨a, hstep, hok⟩
      cases hstep with
      | step hstep => exact h.step hstep hok
      | log p a g hmode hstep => exact h.logStep hmode hstep hok
    · intro d hd
      cases hd
      exact Or.inl rfl
    · intro p hp
      cases hp
    · intro p lsn hp
      cases hp
  obtain ⟨r, first, kept, hreplay, hreplayable, -, -⟩ := (hready.down d hmode).recover hready.snap
  exact ⟨r, hreplay, fun nowMs segmentSize maxBufferBytes =>
    (openLog_succeed hreplayable.seqs nowMs segmentSize maxBufferBytes _).1⟩

end RedisFromScratch.TrimmedLogs
