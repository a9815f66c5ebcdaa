import RedisFromScratch.PersistRuns

/-!
Acknowledged writes survive. Between crashes the directory is whole segments and
a newest one that may end in a cut record, with every acknowledged record in an
older segment or in the stable part of the newest. Opening, serving and dying
keep it so, as does a power cut that takes nothing from an older segment.
-/
namespace RedisFromScratch.PersistDurability

open ByteStrings FramedLogs StoreRecords LogRecords SegmentReplay SegmentLog LogLayout PersistRuns
open GroupCommit hiding State Act Step Inv

/-- The log, seen from its first record, when the log was opened on earlier
segments. -/
def rebase (base : Dir) (recs : List LogRecord) (L : Layout) : Layout :=
  { L with older := base ++ L.older, recsOld := recs ++ L.recsOld }

theorem rebase_onDisk {L : Layout} {base d : Dir} {start : ℕ} {recs records : List LogRecord}
    (h : L.OnDisk base start records d) (hbase : Contents base 1 recs)
    (hstart : recs.length = start) :
    (rebase base recs L).OnDisk [] 0 (recs ++ records) d := by
  have hnew : (rebase base recs L).firstNew 0 = L.firstNew start := by
    simp only [Layout.firstNew, rebase, List.length_append]
    omega
  have hrest : (rebase base recs L).firstRest 0 = L.firstRest start := by
    rw [Layout.firstRest, hnew]
    rfl
  refine ⟨?_, ?_, h.firstLSN, ?_, ?_, ?_, h.solid, ?_, h.fresh⟩
  · rw [h.dir]
    rfl
  · exact hbase.append (by rw [hstart, Nat.add_comm]; exact h.older)
  · rw [hnew]
    exact h.newest
  · rw [hrest]
    exact h.torn
  · simp [h.split, rebase]
  · rw [hnew]
    exact h.solidSynced

/-- What is left on disk between two processes. -/
def Safe (d : Dir) (acked : List Ack) : Prop :=
  d = [] ∧ acked = [] ∨
  ∃ (L : Layout) (records : List LogRecord), L.OnDisk [] 0 records d ∧
    (∀ rec ∈ records, Loggable rec) ∧ records.length + 1 < 2 ^ 64 ∧
    ∀ a ∈ acked, 1 ≤ a.lsn ∧ a.lsn ≤ L.recsOld.length + L.solid ∧
      records[a.lsn - 1]? = some a.record

/-- A process at work on a directory whose records it continues. -/
structure Running (p : Proc) (acked : List Ack) (base : Dir) (recs : List LogRecord) : Prop where
  replayable : Replayable base 1 p.start recs
  inv : GroupCommit.Inv base p.start p.g
  healthy : Healthy p.g.log
  synced : p.start ≤ p.g.log.syncedLSN
  acks : ∀ a ∈ acked, 1 ≤ a.lsn ∧ a.lsn ≤ p.g.log.syncedLSN ∧
    (recs ++ p.g.records)[a.lsn - 1]? = some a.record

/-- Whatever a section leaves on disk is safe. -/
theorem Running.safe {p : Proc} {acked : List Ack} {base : Dir} {recs : List LogRecord}
    (h : Running p acked base recs) {l : Log} (hkept : Kept base p.start p.g.records p.g.log l) :
    Safe l.dir acked := by
  obtain ⟨L, hL⟩ := hkept.layout
  have hstart : recs.length = p.start := by
    have := h.replayable.ends
    omega
  refine Or.inr ⟨rebase base recs L, recs ++ p.g.records,
    rebase_onDisk hL.toOnDisk h.replayable.contents hstart, ?_, ?_, ?_⟩
  · intro rec hrec
    rcases List.mem_append.mp hrec with hrec | hrec
    · exact h.replayable.loggable rec hrec
    · exact h.inv.loggable rec hrec
  · obtain ⟨L₀, hL₀⟩ := h.inv.layout
    have := h.inv.bound
    rw [hL₀.nextLSN] at this
    rw [List.length_append]
    omega
  · intro a ha
    obtain ⟨hpos, hle, hrec⟩ := h.acks a ha
    have hsynced := hkept.synced
    have hmark := hL.syncedLSN
    refine ⟨hpos, ?_, hrec⟩
    simp only [rebase, List.length_append]
    omega

/-- A step of the log without failing calls keeps it healthy, syncs no less and
only adds records. -/
theorem step_effect {base : Dir} {start : ℕ} {g g' : GroupCommit.State} {a : GroupCommit.Act}
    (h : GroupCommit.Inv base start g) (hl : Healthy g.log) (hstep : GroupCommit.Step g a g')
    (hio : NoErrors a) :
    Healthy g'.log ∧ g.log.syncedLSN ≤ g'.log.syncedLSN ∧ g.records <+: g'.records := by
  obtain ⟨L, hL⟩ := h.layout
  have hrun : ∀ op φ, op ≠ Op.close → (∃ nowMs, φ = SysCalls.succeed nowMs) →
      Healthy (op.run φ g.log).1 ∧ g.log.syncedLSN ≤ (op.run φ g.log).1.syncedLSN := by
    rintro op φ hop ⟨nowMs, rfl⟩
    exact ⟨run_succeed hL hl nowMs hop, (run_kept hL h.bound (fun _ => ⟨hl.1, rfl⟩)).1.synced⟩
  cases hstep with
  | beginAppend | fast | finish => exact ⟨hl, Nat.le_refl _, List.prefix_refl _⟩
  | append => exact ⟨hl, Nat.le_refl _, List.prefix_append _ _⟩
  | call =>
    rw [if_neg hio]
    exact ⟨hl, Nat.le_refl _, List.prefix_refl _⟩
  | returned c op n φ | failed c op n φ =>
    exact ⟨(hrun op φ hio.1 hio.2).1, (hrun op φ hio.1 hio.2).2, List.prefix_refl _⟩

theorem Running.logStep {p : Proc} {acked : List Ack} {base : Dir} {recs : List LogRecord}
    {a : GroupCommit.Act} {g : GroupCommit.State} (h : Running p acked base recs)
    (hstep : GroupCommit.Step p.g a g) (hio : NoErrors a) (hok : NoDrainAfterLoss p.g a) :
    Running { p with g } acked base recs := by
  obtain ⟨hl, hsynced, hrecords⟩ := step_effect h.inv h.healthy hstep hio
  refine ⟨h.replayable, h.inv.step hstep hok, hl, h.synced.trans hsynced, fun b hb => ?_⟩
  obtain ⟨hpos, hle, hrec⟩ := h.acks b hb
  obtain ⟨more, hmore⟩ := hrecords
  refine ⟨hpos, hle.trans hsynced, ?_⟩
  rw [← hmore, ← List.append_assoc]
  exact (List.getElem?_append_left (List.getElem?_eq_some_iff.mp hrec).1).trans hrec

/-- A power cut that takes nothing from the older segments, and no header. -/
def KeepsOlder (d d' : Dir) : Prop :=
  d'.dropLast.map Segment.data = d.dropLast.map Segment.data ∧
    ∀ seg ∈ d', segHeaderSize ≤ seg.data.length

/-- What a power cut leaves of the newest segment: the stable records, maybe
more, and at most one cut short. -/
theorem cut_newest {L : Layout} {start : ℕ} {records : List LogRecord} {base d : Dir}
    (h : L.OnDisk base start records d) {m : ℕ} (hm : L.newest.synced ≤ m)
    (hheader : segHeaderSize ≤ (L.newest.data.take m).length) :
    ∃ r₁ r₂ t, L.recsNew.drop L.solid ++ L.rest = r₁ ++ r₂ ∧
      L.newest.data.take m = encodeSegHeader L.firstLSN L.createdMs ++
        (framing.encodeAll (numbered (L.firstNew start) (L.recsNew.take L.solid ++ r₁)) ++ t) ∧
      framing.Torn (numbered (L.firstNew start + (L.recsNew.take L.solid ++ r₁).length) r₂) t := by
  have hlen : (L.recsNew.take L.solid).length = L.solid := List.length_take_of_le h.solid
  have hsplit : numbered (L.firstNew start) L.recsNew =
      numbered (L.firstNew start) (L.recsNew.take L.solid) ++
        numbered (L.firstNew start + L.solid) (L.recsNew.drop L.solid) := by
    conv_lhs => rw [← List.take_append_drop L.solid L.recsNew, numbered_append, hlen]
  let stable := encodeSegHeader L.firstLSN L.createdMs ++
    framing.encodeAll (numbered (L.firstNew start) (L.recsNew.take L.solid))
  let tail := framing.encodeAll (numbered (L.firstNew start + L.solid) (L.recsNew.drop L.solid)) ++
    L.torn
  have hdata : L.newest.data = stable ++ tail := by
    rw [h.newest, hsplit, Framing.encodeAll_append]
    simp [stable, tail]
  have hstable : stable.length ≤ m := by
    have hsize : stable.length = segHeaderSize +
        (framing.encodeAll (numbered (L.firstNew start) (L.recsNew.take L.solid))).length := by
      simp [stable]
    rcases h.solidSynced with h0 | hle
    · rw [h0, List.take_zero] at hsize
      rw [List.length_take] at hheader
      simp only [numbered, numberedWith_nil, Framing.encodeAll_nil, List.length_nil] at hsize
      omega
    · omega
  have hcut : L.newest.data.take m = stable ++ tail.take (m - stable.length) := by
    rw [hdata, List.take_append, List.take_of_length_le hstable]
  have htorn : framing.Torn (numbered (L.firstNew start + L.solid + (L.recsNew.drop L.solid).length)
      L.rest) L.torn := by
    have hsum : L.firstNew start + L.solid + (L.recsNew.drop L.solid).length =
        L.firstRest start := by
      have := h.solid
      rw [Layout.firstRest, List.length_drop]
      omega
    rw [hsum]
    exact h.torn
  obtain ⟨r₁, r₂, t, hrecs, hbytes, ht⟩ :=
    prefix_torn htorn (List.take_prefix (m - stable.length) tail)
  refine ⟨r₁, r₂, t, hrecs, ?_, ?_⟩
  · rw [hcut, hbytes, numbered_append, hlen, Framing.encodeAll_append]
    simp [stable]
  · rwa [List.length_append, hlen, ← Nat.add_assoc]

theorem keeps_append {older : Dir} {newest : Segment} {d' : Dir}
    (h : List.Forall₂ Keeps (older ++ [newest]) d') :
    ∃ older' newest', d' = older' ++ [newest'] ∧ List.Forall₂ Keeps older older' ∧
      Keeps newest newest' := by
  induction older generalizing d' with
  | nil =>
    cases h with
    | cons hnewest hnil =>
      cases hnil
      exact ⟨[], _, rfl, .nil, hnewest⟩
  | cons seg older ih =>
    cases h with
    | cons hseg hrest =>
      obtain ⟨older', newest', rfl, hold, hnewest⟩ := ih hrest
      exact ⟨_ :: older', newest', rfl, .cons hseg hold, hnewest⟩

theorem keeps_seqs {older older' : Dir} {n : ℕ} (h : List.Forall₂ Keeps older older')
    (hseq : ∀ seg ∈ older, seg.seq < n) : ∀ seg ∈ older', seg.seq < n := by
  induction h with
  | nil =>
    intro seg hseg
    cases hseg
  | @cons seg _ _ _ hkeep _ ih =>
    obtain ⟨m, -, rfl⟩ := hkeep
    intro seg' hseg
    rcases List.mem_cons.mp hseg with rfl | hseg
    · exact hseq seg List.mem_cons_self
    · exact ih (fun seg hseg => hseq seg (List.mem_cons_of_mem _ hseg)) seg' hseg

theorem Safe.powerCut {d d' : Dir} {acked : List Ack} (h : Safe d acked)
    (hkeep : List.Forall₂ Keeps d d') (holder : KeepsOlder d d') : Safe d' acked := by
  rcases h with ⟨rfl, hacked⟩ | ⟨L, records, hL, hloggable, hbound, hacked⟩
  · cases hkeep
    exact Or.inl ⟨rfl, hacked⟩
  have hdir : d = L.older ++ [L.newest] := by rw [hL.dir, List.nil_append]
  rw [hdir] at hkeep holder
  obtain ⟨older', newest', rfl, hold, m, hm, rfl⟩ := keeps_append hkeep
  have hsame : older'.map Segment.data = L.older.map Segment.data := by
    have hdata := holder.1
    rwa [List.dropLast_concat, List.dropLast_concat] at hdata
  have hheader : segHeaderSize ≤ (L.newest.data.take m).length :=
    holder.2 _ (List.mem_append_right _ List.mem_cons_self)
  obtain ⟨r₁, r₂, t, hrecs, hbytes, ht⟩ := cut_newest hL hm hheader
  have hlen : (L.recsNew.take L.solid).length = L.solid := List.length_take_of_le hL.solid
  refine Or.inr ⟨{ L with
    older := older'
    newest := ⟨L.newest.seq, L.newest.data.take m, (L.newest.data.take m).length⟩
    recsNew := L.recsNew.take L.solid ++ r₁, rest := r₂, torn := t }, records, ?_, hloggable,
    hbound, hacked⟩
  refine ⟨rfl, hL.older.congr hsame, hL.firstLSN, hbytes, ht, ?_, ?_, Or.inr ?_, ?_⟩
  · rw [hL.split]
    conv_lhs => rw [← List.take_append_drop L.solid L.recsNew]
    simp only [List.append_assoc]
    rw [hrecs]
  · change L.solid ≤ (L.recsNew.take L.solid ++ r₁).length
    rw [List.length_append]
    omega
  · change segHeaderSize + (framing.encodeAll (numbered (L.firstNew 0)
      ((L.recsNew.take L.solid ++ r₁).take L.solid))).length ≤ (L.newest.data.take m).length
    rw [List.take_left' hlen, hbytes, numbered_append, Framing.encodeAll_append]
    simp only [List.length_append, encodeSegHeader_length]
    omega
  · exact keeps_seqs hold hL.fresh

/-- A layout whose newest segment has been made whole again, with at least its
stable records stable. -/
theorem onDisk_repaired {L : Layout} {records : List LogRecord} {d : Dir}
    (hL : L.OnDisk [] 0 records d) {seg : Segment} (hseq : seg.seq = L.newest.seq)
    (hwhole : WholeSegment seg (L.firstNew 0) L.recsNew)
    (hsynced : min L.newest.synced seg.data.length ≤ seg.synced) :
    ∃ firstLSN createdMs, ({ L with newest := seg, firstLSN, createdMs, rest := [], torn := [] } :
      Layout).OnDisk [] 0 (L.recsOld ++ L.recsNew) (L.older ++ [seg]) := by
  obtain ⟨firstLSN, createdMs, hfirst, hdata⟩ := hwhole
  refine ⟨firstLSN, createdMs, rfl, hL.older, hfirst, by rw [hdata, List.append_nil]; rfl,
    Or.inl rfl, by simp, hL.solid, ?_, fun seg' hseg' => by rw [hseq]; exact hL.fresh seg' hseg'⟩
  rcases hL.solidSynced with h0 | hle
  · exact Or.inl h0
  · right
    -- the stable records are among the whole ones
    have hprefix : (framing.encodeAll (numbered (L.firstNew 0)
        (L.recsNew.take L.solid))).length ≤
        (framing.encodeAll (numbered (L.firstNew 0) L.recsNew)).length := by
      conv_rhs => rw [← List.take_append_drop L.solid L.recsNew, numbered_append,
        Framing.encodeAll_append, List.length_append]
      omega
    rw [hdata, List.length_append, encodeSegHeader_length] at hsynced
    change segHeaderSize + (framing.encodeAll (numbered (L.firstNew 0)
      (L.recsNew.take L.solid))).length ≤ seg.synced
    omega

theorem truncatedOnly_append (older : Dir) (seg seg' : Segment) :
    truncatedOnly (older ++ [seg]) (older ++ [seg']) =
      older ++ [{ seg' with synced := min seg.synced seg'.synced }] := by
  induction older with
  | nil => rfl
  | cons s older ih =>
    simp only [truncatedOnly, List.cons_append, List.zipWith_cons_cons, Nat.min_self] at ih ⊢
    rw [ih]

/-- Opening a safe directory succeeds and applies every acknowledged record in
its place; what it leaves is safe at every moment. -/
theorem Safe.recover {d : Dir} {acked : List Ack} (h : Safe d acked) :
    ∃ (r : Replayed) (recs : List LogRecord), replay d 0 = .ok r ∧
      r.state.lastLSN = recs.length ∧ r.state.applied = recs.map strip ∧
      Replayable r.dir 1 recs.length recs ∧
      (∀ a ∈ acked, 1 ≤ a.lsn ∧ a.lsn ≤ recs.length ∧ recs[a.lsn - 1]? = some a.record) ∧
      Safe r.dir acked ∧ Safe (truncatedOnly d r.dir) acked := by
  rcases h with ⟨rfl, rfl⟩ | ⟨L, records, hL, hloggable, hbound, hacked⟩
  · refine ⟨⟨replayStart 0, false, []⟩, [], rfl, rfl, rfl, ?_, ?_, Or.inl ⟨rfl, rfl⟩,
      Or.inl ⟨rfl, rfl⟩⟩
    · exact ⟨.nil 1, by simp, rfl, by simp, by simp⟩
    · intro a ha
      cases ha
  have hdir : d = L.older ++ [L.newest] := by rw [hL.dir, List.nil_append]
  have hmem : ∀ l : List LogRecord, l ⊆ records → ∀ rec ∈ l, Loggable rec :=
    fun l hl rec hrec => hloggable rec (hl hrec)
  have hlen : records.length = L.recsOld.length + L.recsNew.length + L.rest.length := by
    rw [hL.split]
    simp only [List.length_append]
  have hone : 1 + L.recsOld.length = L.firstNew 0 := by
    rw [Layout.firstNew]
  obtain ⟨last', hok, hseq, hwhole, hlast⟩ := replay_torn 0 L.newest L.recsNew L.rest
    (t := L.torn) (n := 1) hL.older hL.firstLSN (by rw [hone]; exact hL.newest)
    (by rw [hone]; exact hL.torn) (hmem _ (by rw [hL.split]; simp))
    (hmem _ (by rw [hL.split]; simp)) (hmem _ (by rw [hL.split]; simp)) (by omega)
  rw [hone] at hwhole
  have hsynced : min L.newest.synced last'.data.length ≤ last'.synced := by
    rcases hlast with rfl | hlast
    · exact Nat.min_le_left _ _
    · omega
  have hrecs : ∀ rec ∈ L.recsOld ++ L.recsNew, Loggable rec :=
    hmem _ (by rw [hL.split]; exact List.subset_append_left _ _)
  have hacks : ∀ a ∈ acked, 1 ≤ a.lsn ∧ a.lsn ≤ L.recsOld.length + L.solid ∧
      (L.recsOld ++ L.recsNew)[a.lsn - 1]? = some a.record := by
    intro a ha
    obtain ⟨hpos, hle, hrec⟩ := hacked a ha
    have := hL.solid
    rw [hL.split, List.getElem?_append_left (by rw [List.length_append]; omega)] at hrec
    exact ⟨hpos, hle, hrec⟩
  have hsafe : ∀ seg : Segment, seg.seq = L.newest.seq →
      WholeSegment seg (L.firstNew 0) L.recsNew →
      min L.newest.synced seg.data.length ≤ seg.synced → Safe (L.older ++ [seg]) acked := by
    intro seg hseg hseg' hstable
    obtain ⟨firstLSN, createdMs, honDisk⟩ := onDisk_repaired hL hseg hseg' hstable
    refine Or.inr ⟨_, _, honDisk, hrecs, ?_, hacks⟩
    rw [List.length_append]
    omega
  refine ⟨_, L.recsOld ++ L.recsNew, by rw [hdir]; exact hok, ?_, ?_, ?_, ?_, ?_, ?_⟩
  · simp only [advance, replayStart]
    split_ifs with hnil
    · rw [hnil, List.length_nil]
    · omega
  · simp [advance, replayStart]
  · refine ⟨hL.older.append (.single (by rw [hone]; exact hwhole)), hrecs, by omega, ?_, ?_⟩
    · intro seg hseg
      rw [nextSeq, List.getLast?_concat]
      dsimp only
      rcases List.mem_append.mp hseg with hseg | hseg
      · have := hL.fresh seg hseg
        omega
      · rw [List.mem_singleton.mp hseg]
        omega
    · rw [List.length_append]
      omega
  · intro a ha
    obtain ⟨hpos, hle, hrec⟩ := hacks a ha
    have := hL.solid
    refine ⟨hpos, ?_, hrec⟩
    rw [List.length_append]
    omega
  · exact hsafe last' hseq hwhole hsynced
  · rw [hdir, truncatedOnly_append]
    exact hsafe _ hseq hwhole (by dsimp only; omega)

/-- A log opened without a failing call. -/
theorem openLog_succeed {d : Dir} (hseqs : ∀ seg ∈ d, seg.seq < nextSeq d) (nowMs : ℤ)
    (segmentSize maxBufferBytes start : ℕ) :
    (openLog (.succeed nowMs) segmentSize maxBufferBytes d start).2 = none ∧
      Healthy (openLog (.succeed nowMs) segmentSize maxBufferBytes d start).1 ∧
      (openLog (.succeed nowMs) segmentSize maxBufferBytes d start).1.syncedLSN = start := by
  rw [openLog, openSegment_succeed nowMs _ (start + 1) hseqs]
  exact ⟨rfl, ⟨rfl, rfl⟩, rfl⟩

/-- Opening leaves the files alone or adds one that has a header. -/
theorem openLog_dir {φ : SysCalls} (hheader : φ.header = none)
    (segmentSize maxBufferBytes start : ℕ) (d : Dir) :
    (openLog φ segmentSize maxBufferBytes d start).1.dir = d ∨
      ∃ synced, (openLog φ segmentSize maxBufferBytes d start).1.dir =
        d ++ [⟨nextSeq d, encodeSegHeader (start + 1) φ.nowMs, synced⟩] := by
  unfold openLog SegmentLog.openSegment
  rw [hheader]
  split_ifs
  · exact Or.inl rfl
  · exact Or.inr ⟨0, rfl⟩
  · exact Or.inr ⟨segHeaderSize, rfl⟩
  · exact Or.inr ⟨segHeaderSize, rfl⟩

/-- A new segment without records on a whole directory. -/
theorem safe_newSegment {d : Dir} {recs : List LogRecord} {acked : List Ack}
    (hd : Replayable d 1 recs.length recs)
    (hacks : ∀ a ∈ acked, 1 ≤ a.lsn ∧ a.lsn ≤ recs.length ∧ recs[a.lsn - 1]? = some a.record)
    (createdMs : ℤ) (synced : ℕ) :
    Safe (d ++ [⟨nextSeq d, encodeSegHeader (recs.length + 1) createdMs, synced⟩]) acked := by
  refine Or.inr ⟨⟨d, ⟨nextSeq d, encodeSegHeader (recs.length + 1) createdMs, synced⟩,
    recs.length + 1, createdMs, recs, [], [], [], 0⟩, recs, ?_, hd.loggable, hd.bound, hacks⟩
  exact ⟨rfl, hd.contents, hd.bound, by simp [numbered], Or.inl rfl, by simp, Nat.le_refl _,
    Or.inl rfl, hd.seqs⟩

end RedisFromScratch.PersistDurability
