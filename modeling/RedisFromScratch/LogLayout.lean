import RedisFromScratch.SegmentLog

/-!
Where the records of one log are. A layout splits the appended records into
those in sealed segments, those in the newest segment and those not in a file,
and says how many of the newest segment's are stable. Until a write is lost the
buffer is exactly the records not in a file. Each primitive of the log carries
a layout along, and so do the sections under the flush lock.
-/
namespace RedisFromScratch.LogLayout

open ByteStrings FramedLogs StoreRecords LogRecords SegmentReplay SegmentLog

structure Layout where
  older : Dir
  newest : Segment
  firstLSN : ℕ
  createdMs : ℤ
  recsOld : List LogRecord
  recsNew : List LogRecord
  rest : List LogRecord
  torn : Bytes
  solid : ℕ

/-- The number of the first record of the newest segment. -/
def Layout.firstNew (L : Layout) (start : ℕ) : ℕ := start + 1 + L.recsOld.length

def Layout.firstRest (L : Layout) (start : ℕ) : ℕ := L.firstNew start + L.recsNew.length

/-- The layout is that of the files: whole segments, then one that may end in a
record cut short, of which some records are stable. -/
structure Layout.OnDisk (L : Layout) (base : Dir) (start : ℕ) (records : List LogRecord)
    (d : Dir) : Prop where
  dir : d = base ++ L.older ++ [L.newest]
  older : Contents L.older (start + 1) L.recsOld
  firstLSN : L.firstLSN < 2 ^ 64
  newest : L.newest.data = encodeSegHeader L.firstLSN L.createdMs ++
    (framing.encodeAll (numbered (L.firstNew start) L.recsNew) ++ L.torn)
  torn : framing.Torn (numbered (L.firstRest start) L.rest) L.torn
  split : records = L.recsOld ++ L.recsNew ++ L.rest
  solid : L.solid ≤ L.recsNew.length
  solidSynced : L.solid = 0 ∨ segHeaderSize +
    (framing.encodeAll (numbered (L.firstNew start) (L.recsNew.take L.solid))).length ≤
      L.newest.synced
  fresh : ∀ seg ∈ base ++ L.older, seg.seq < L.newest.seq

/-- The layout is that of the log: its counters stay behind the files, and its
buffer is the records that are not in one, until a write is lost. -/
structure Layout.Describes (L : Layout) (base : Dir) (start : ℕ) (records : List LogRecord)
    (l : Log) : Prop extends L.OnDisk base start records l.dir where
  olderSynced : ∀ seg ∈ L.older, seg.synced = seg.data.length
  syncedLSN : l.syncedLSN ≤ start + L.recsOld.length + L.solid
  writtenLSN : l.writtenLSN ≤ start + L.recsOld.length + L.recsNew.length
  marks : l.syncedLSN ≤ l.writtenLSN
  nextLSN : l.nextLSN = start + records.length + 1
  lastAppended : l.lastAppended = start + records.length
  intact : l.lost = false → L.torn = [] ∧
    l.writtenLSN = start + L.recsOld.length + L.recsNew.length ∧
    l.buf = framing.encodeAll (numbered (L.firstRest start) L.rest)
  current : l.fileOpen = true → L.newest.seq = l.segSeq

variable {L : Layout} {base : Dir} {start : ℕ} {records : List LogRecord} {l : Log}

/-- A record below the synced mark lies in the stable part of a segment. -/
theorem Layout.Describes.stable (h : L.Describes base start records l) {i : ℕ} {rec : LogRecord}
    (hi : records[i]? = some rec) (hle : start + 1 + i ≤ l.syncedLSN) :
    ∃ seg ∈ l.dir, seg.Holds seg.synced (frameOf (start + 1 + i) rec) := by
  rw [h.split, List.append_assoc] at hi
  have hsynced := h.syncedLSN
  rw [h.dir]
  by_cases hold : i < L.recsOld.length
  · rw [List.getElem?_append_left hold] at hi
    obtain ⟨seg, hseg, hholds⟩ := h.older.holds hi
    rw [← h.olderSynced seg hseg] at hholds
    exact ⟨seg, by simp [hseg], hholds⟩
  · rw [List.getElem?_append_right (by omega),
      List.getElem?_append_left (by have := h.solid; omega)] at hi
    have hsolid : segHeaderSize +
        (framing.encodeAll (numbered (L.firstNew start) (L.recsNew.take L.solid))).length ≤
          L.newest.synced := by
      rcases h.solidSynced with h0 | hle
      · omega
      · exact hle
    have hholds := holds_of_data h.newest hsolid (by omega) hi
    rw [Layout.firstNew, show start + 1 + L.recsOld.length + (i - L.recsOld.length) =
      start + 1 + i by omega] at hholds
    exact ⟨L.newest, by simp, hholds⟩

/-- A record below the written mark lies whole in a segment. -/
theorem Layout.Describes.inFile (h : L.Describes base start records l) {i : ℕ} {rec : LogRecord}
    (hi : records[i]? = some rec) (hle : start + 1 + i ≤ l.writtenLSN) :
    ∃ seg ∈ l.dir, seg.Holds seg.data.length (frameOf (start + 1 + i) rec) := by
  rw [h.split, List.append_assoc] at hi
  have hwritten := h.writtenLSN
  rw [h.dir]
  by_cases hold : i < L.recsOld.length
  · rw [List.getElem?_append_left hold] at hi
    obtain ⟨seg, hseg, hholds⟩ := h.older.holds hi
    exact ⟨seg, by simp [hseg], hholds⟩
  · rw [List.getElem?_append_right (by omega), List.getElem?_append_left (by omega)] at hi
    have hholds := holds_of_data (k := L.recsNew.length) h.newest (m := L.newest.data.length)
      (by rw [h.newest, List.take_length]; simp) (by omega) hi
    rw [Layout.firstNew, show start + 1 + L.recsOld.length + (i - L.recsOld.length) =
      start + 1 + i by omega] at hholds
    exact ⟨L.newest, by simp, hholds⟩

theorem Layout.Describes.append (h : L.Describes base start records l) (rec : LogRecord) :
    { L with rest := L.rest ++ [rec] }.Describes base start (records ++ [rec])
      (SegmentLog.append rec l) := by
  have hnext : l.nextLSN = L.firstRest start + L.rest.length := by
    rw [h.nextLSN, h.split]
    simp only [Layout.firstRest, Layout.firstNew, List.length_append]
    omega
  have hnumbered : numbered (L.firstRest start) (L.rest ++ [rec]) =
      numbered (L.firstRest start) L.rest ++ [frameOf l.nextLSN rec] := by
    rw [numbered_append, hnext]
    rfl
  refine { h with torn := ?_, split := ?_, nextLSN := ?_, lastAppended := ?_, intact := ?_ }
  · change framing.Torn (numbered (L.firstRest start) (L.rest ++ [rec])) L.torn
    rw [hnumbered]
    exact h.torn.mono (List.subset_append_left _ _)
  · simp [h.split]
  · change l.nextLSN + 1 = start + (records ++ [rec]).length + 1
    rw [h.nextLSN, List.length_append, List.length_singleton]
    omega
  · change l.nextLSN = start + (records ++ [rec]).length
    rw [h.nextLSN, List.length_append, List.length_singleton]
    omega
  · intro hlost
    obtain ⟨htorn, hwritten, hbuf⟩ := h.intact hlost
    refine ⟨htorn, hwritten, ?_⟩
    change l.buf ++ framing.encode (frameOf l.nextLSN rec) =
      framing.encodeAll (numbered (L.firstRest start) (L.rest ++ [rec]))
    rw [hnumbered, Framing.encodeAll_append, ← hbuf]
    simp

/-- An update of the current file is an update of the newest segment. -/
theorem Layout.Describes.map_current (h : L.Describes base start records l)
    (hopen : l.fileOpen = true) (f : Segment → Segment) :
    l.dir.map (fun seg => if seg.seq = l.segSeq then f seg else seg) =
      base ++ L.older ++ [f L.newest] := by
  have hother : (base ++ L.older).map (fun seg => if seg.seq = l.segSeq then f seg else seg) =
      base ++ L.older := by
    refine (List.map_congr_left ?_).trans (List.map_id _)
    intro seg hseg
    have := h.fresh seg hseg
    have := h.current hopen
    exact if_neg (by omega)
  rw [h.dir, List.map_append, hother, List.map_singleton, if_pos (h.current hopen)]

/-- The whole buffer reaches the file. -/
theorem Layout.Describes.write (h : L.Describes base start records l) (hlost : l.lost = false)
    (hopen : l.fileOpen = true) (n : ℕ) :
    { L with
      newest := { L.newest with data := L.newest.data ++ l.buf }
      recsNew := L.recsNew ++ L.rest
      rest := [] }.Describes base start records
      (setWritten (l.nextLSN - 1) n (writeFile l.buf (takeBuf l))) := by
  obtain ⟨htorn, hwritten, hbuf⟩ := h.intact hlost
  have hlen : records.length = L.recsOld.length + L.recsNew.length + L.rest.length := by
    rw [h.split]
    simp only [List.length_append]
  have hsolid := h.solid
  refine { h with
    dir := ?_, newest := ?_, torn := ?_, split := ?_, solid := ?_, solidSynced := ?_,
    writtenLSN := ?_, marks := ?_, intact := ?_ }
  · exact h.map_current hopen _
  · change L.newest.data ++ l.buf = encodeSegHeader L.firstLSN L.createdMs ++
      (framing.encodeAll (numbered (L.firstNew start) (L.recsNew ++ L.rest)) ++ L.torn)
    rw [h.newest, hbuf, htorn, numbered_append, Framing.encodeAll_append]
    simp [Layout.firstRest]
  · exact Or.inl htorn
  · simp [h.split]
  · change L.solid ≤ (L.recsNew ++ L.rest).length
    rw [List.length_append]
    omega
  · change L.solid = 0 ∨ segHeaderSize + (framing.encodeAll (numbered (L.firstNew start)
      ((L.recsNew ++ L.rest).take L.solid))).length ≤ L.newest.synced
    rw [List.take_append_of_le_length hsolid]
    exact h.solidSynced
  · change l.nextLSN - 1 ≤ start + L.recsOld.length + (L.recsNew ++ L.rest).length
    rw [h.nextLSN, hlen, List.length_append]
    omega
  · have := h.marks
    change l.syncedLSN ≤ l.nextLSN - 1
    rw [h.nextLSN, hlen]
    omega
  · intro _
    refine ⟨htorn, ?_, rfl⟩
    change l.nextLSN - 1 = start + L.recsOld.length + (L.recsNew ++ L.rest).length
    rw [h.nextLSN, hlen, List.length_append]
    omega

/-- A failed write: some of the records, one of them cut short. -/
theorem Layout.Describes.cut (h : L.Describes base start records l) (hlost : l.lost = false)
    (hopen : l.fileOpen = true) (n : ℕ) (e : LogError) :
    ∃ L' : Layout, L'.Describes base start records
      (markLost (latch e (writeFile (l.buf.take n) (takeBuf l)))) := by
  obtain ⟨htorn, hwritten, hbuf⟩ := h.intact hlost
  have hpre : l.buf.take n <+: framing.encodeAll (numbered (L.firstRest start) L.rest) := by
    rw [← hbuf]
    exact List.take_prefix n l.buf
  obtain ⟨r₁, r₂, t, hrest, hcut, ht⟩ := prefix_numbered hpre
  have hsolid := h.solid
  refine ⟨{ L with
    newest := { L.newest with data := L.newest.data ++ l.buf.take n }
    recsNew := L.recsNew ++ r₁, rest := r₂, torn := t }, ?_⟩
  refine { h with
    dir := ?_, newest := ?_, torn := ?_, split := ?_, solid := ?_, solidSynced := ?_,
    writtenLSN := ?_, intact := ?_ }
  · exact h.map_current hopen _
  · change L.newest.data ++ l.buf.take n = encodeSegHeader L.firstLSN L.createdMs ++
      (framing.encodeAll (numbered (L.firstNew start) (L.recsNew ++ r₁)) ++ t)
    rw [h.newest, hcut, htorn, numbered_append, Framing.encodeAll_append]
    simp [Layout.firstRest]
  · simpa [Layout.firstRest, Layout.firstNew, Nat.add_assoc] using ht
  · simp [h.split, hrest]
  · change L.solid ≤ (L.recsNew ++ r₁).length
    rw [List.length_append]
    omega
  · change L.solid = 0 ∨ segHeaderSize + (framing.encodeAll (numbered (L.firstNew start)
      ((L.recsNew ++ r₁).take L.solid))).length ≤ L.newest.synced
    rw [List.take_append_of_le_length hsolid]
    exact h.solidSynced
  · change l.writtenLSN ≤ start + L.recsOld.length + (L.recsNew ++ r₁).length
    rw [List.length_append]
    omega
  · intro hfalse
    cases hfalse

/-- The current file becomes stable. -/
theorem Layout.Describes.sync (h : L.Describes base start records l) (hlost : l.lost = false)
    (hopen : l.fileOpen = true) {upto : ℕ} (hupto : upto ≤ l.writtenLSN) :
    { L with
      newest := { L.newest with synced := L.newest.data.length }
      solid := L.recsNew.length }.Describes base start records (setSynced upto (syncFile l)) := by
  have hwritten := (h.intact hlost).2.1
  refine { h with dir := ?_, solid := ?_, solidSynced := ?_, syncedLSN := ?_, marks := hupto }
  · exact h.map_current hopen _
  · exact Nat.le_refl _
  · right
    change segHeaderSize + (framing.encodeAll (numbered (L.firstNew start)
      (L.recsNew.take L.recsNew.length))).length ≤ L.newest.data.length
    rw [List.take_length, h.newest]
    simp
  · change upto ≤ start + L.recsOld.length + L.recsNew.length
    omega

theorem Layout.Describes.closeFile (h : L.Describes base start records l) :
    L.Describes base start records (closeFile l) :=
  { h with current := fun hopen => by cases hopen }

theorem Layout.Describes.latch (h : L.Describes base start records l) (e : LogError) :
    L.Describes base start records (latch e l) := { h with }

/-- A buffer taken and not written at all. -/
theorem Layout.Describes.drop (h : L.Describes base start records l) :
    L.Describes base start records (markLost (takeBuf l)) :=
  { h with intact := fun hlost => by cases hlost }

/-- A new segment behind a stable one. -/
theorem Layout.Describes.addFile (h : L.Describes base start records l) (hlost : l.lost = false)
    (hclosed : l.fileOpen = false) (hstable : L.newest.synced = L.newest.data.length)
    {seg : Segment} {firstLSN : ℕ} {createdMs : ℤ} (hfirst : firstLSN < 2 ^ 64)
    (hseq : L.newest.seq < seg.seq) (hdata : seg.data = encodeSegHeader firstLSN createdMs) :
    (⟨L.older ++ [L.newest], seg, firstLSN, createdMs, L.recsOld ++ L.recsNew, [], L.rest, [], 0⟩ :
      Layout).Describes base start records (addFile seg l) := by
  obtain ⟨htorn, hwritten, hbuf⟩ := h.intact hlost
  have hnewest : WholeSegment L.newest (start + 1 + L.recsOld.length) L.recsNew :=
    ⟨L.firstLSN, L.createdMs, h.firstLSN, by rw [h.newest, htorn, List.append_nil]; rfl⟩
  have hsolid := h.solid
  have hsynced := h.syncedLSN
  refine ⟨⟨?_, h.older.append (.single hnewest), hfirst, ?_, Or.inl rfl, ?_, Nat.le_refl _,
    Or.inl rfl, ?_⟩, ?_, ?_, ?_, h.marks, h.nextLSN, h.lastAppended, fun _ => ⟨rfl, ?_, ?_⟩, ?_⟩
  · change l.dir ++ [seg] = base ++ (L.older ++ [L.newest]) ++ [seg]
    rw [h.dir, List.append_assoc base]
  · simp [hdata, numbered]
  · simp [h.split]
  · intro seg' hseg'
    rw [← List.append_assoc] at hseg'
    rcases List.mem_append.mp hseg' with hseg' | hseg'
    · have := h.fresh seg' hseg'
      change seg'.seq < seg.seq
      omega
    · rw [List.mem_singleton.mp hseg']
      exact hseq
  · intro seg' hseg'
    rcases List.mem_append.mp hseg' with hseg' | hseg'
    · exact h.olderSynced seg' hseg'
    · rw [List.mem_singleton.mp hseg', hstable]
  · change l.syncedLSN ≤ start + (L.recsOld ++ L.recsNew).length + 0
    rw [List.length_append]
    omega
  · change l.writtenLSN ≤ start + (L.recsOld ++ L.recsNew).length + 0
    rw [List.length_append]
    omega
  · change l.writtenLSN = start + (L.recsOld ++ L.recsNew).length + 0
    rw [List.length_append]
    omega
  · change l.buf = framing.encodeAll (numbered (start + 1 + (L.recsOld ++ L.recsNew).length + 0)
      L.rest)
    rw [hbuf, Layout.firstRest, Layout.firstNew, List.length_append, Nat.add_assoc (start + 1)]
    rfl
  · intro hopen
    rw [SegmentLog.addFile_fileOpen, hclosed] at hopen
    cases hopen

theorem Layout.Describes.setSegment (h : L.Describes base start records l) :
    L.Describes base start records (setSegment L.newest.seq l) := { h with current := fun _ => rfl }

/-- Opening a segment keeps the counters and the buffer. -/
theorem openSegment_counters (φ : SysCalls) (seq firstLSN : ℕ) (l : Log) :
    (SegmentLog.openSegment φ seq firstLSN l).1.nextLSN = l.nextLSN ∧
      (SegmentLog.openSegment φ seq firstLSN l).1.writtenLSN = l.writtenLSN ∧
      (SegmentLog.openSegment φ seq firstLSN l).1.syncedLSN = l.syncedLSN ∧
      (SegmentLog.openSegment φ seq firstLSN l).1.lost = l.lost := by
  unfold SegmentLog.openSegment
  cases φ.header with
  | some | none => split_ifs <;> exact ⟨rfl, rfl, rfl, rfl⟩

/-- A segment opened behind a stable one, whatever fails after its header. -/
theorem openSegment_layout (h : L.Describes base start records l) (hlost : l.lost = false)
    (hclosed : l.fileOpen = false) (hstable : L.newest.synced = L.newest.data.length)
    {φ : SysCalls} (hheader : φ.header = none) (seq : ℕ) {firstLSN : ℕ} (hfirst : firstLSN < 2 ^ 64)
    (hseq : L.newest.seq < seq) :
    ∃ L' : Layout, L'.Describes base start records (SegmentLog.openSegment φ seq firstLSN l).1 := by
  unfold SegmentLog.openSegment
  rw [hheader]
  split_ifs
  · exact ⟨L, h⟩
  · exact ⟨_, h.addFile hlost hclosed hstable hfirst hseq rfl⟩
  · exact ⟨_, h.addFile hlost hclosed hstable hfirst hseq rfl⟩
  · exact ⟨_, (h.addFile hlost hclosed hstable hfirst hseq rfl).setSegment⟩

/-- What a section leaves behind: a layout of the same records and counters that
did not go back. -/
structure Kept (base : Dir) (start : ℕ) (records : List LogRecord) (l l' : Log) : Prop where
  layout : ∃ L : Layout, L.Describes base start records l'
  written : l.writtenLSN ≤ l'.writtenLSN
  synced : l.syncedLSN ≤ l'.syncedLSN

theorem Kept.refl (h : L.Describes base start records l) : Kept base start records l l :=
  ⟨⟨L, h⟩, Nat.le_refl _, Nat.le_refl _⟩

theorem rotateLocked_kept (h : L.Describes base start records l) (hlost : l.lost = false)
    {φ : SysCalls} (hheader : φ.header = none) (firstLSN : ℕ) (hfirst : firstLSN < 2 ^ 64) :
    Kept base start records l (rotateLocked φ firstLSN l).1 ∧
      (rotateLocked φ firstLSN l).1.writtenLSN = l.writtenLSN ∧
      (rotateLocked φ firstLSN l).1.lost = false := by
  unfold rotateLocked
  split_ifs with hfail hclose
  · exact ⟨.refl h, rfl, hlost⟩
  all_goals
    have hopen : l.fileOpen = true := by
      cases hfile : l.fileOpen with
      | true => rfl
      | false => exact absurd (Or.inr hfile) hfail
    have hsync := (h.sync hlost hopen (Nat.le_refl _)).closeFile
    have hle := h.marks
  · exact ⟨⟨⟨_, hsync⟩, Nat.le_refl _, hle⟩, rfl, hlost⟩
  · obtain ⟨-, hw, hs, hl⟩ := openSegment_counters φ (l.segSeq + 1) firstLSN
      (SegmentLog.closeFile (setSynced l.writtenLSN (syncFile l)))
    have hlayout := openSegment_layout hsync hlost rfl rfl hheader
      (l.segSeq + 1) hfirst (by have := h.current hopen; change L.newest.seq < _; omega)
    exact ⟨⟨hlayout, hw.ge, hle.trans hs.ge⟩, hw, hl.trans hlost⟩

/-- A drain that reports no error has every record in the file. -/
theorem drainLocked_kept (h : L.Describes base start records l) (hlost : l.lost = false)
    (hbound : l.nextLSN < 2 ^ 64) {φ : SysCalls} (hheader : φ.header = none) :
    Kept base start records l (drainLocked φ l).log ∧
      ((drainLocked φ l).err = none → (drainLocked φ l).log.lost = false ∧
        (drainLocked φ l).upto = start + records.length ∧
        (drainLocked φ l).log.writtenLSN = start + records.length) := by
  obtain ⟨htorn, hwritten, hbuf⟩ := h.intact hlost
  have hnext := h.nextLSN
  have hlen : records.length = L.recsOld.length + L.recsNew.length + L.rest.length := by
    rw [h.split]
    simp only [List.length_append]
  by_cases hempty : l.buf = []
  · rw [drainLocked, if_pos hempty]
    refine ⟨.refl h, fun _ => ?_⟩
    have hrest : L.rest = [] := by
      cases hrest : L.rest with
      | nil => rfl
      | cons =>
        rw [hempty, hrest, numbered, numberedWith_cons, Framing.encodeAll_cons] at hbuf
        exact absurd (List.append_eq_nil_iff.mp hbuf.symm).1 (encode_ne_nil _)
    rw [hrest, List.length_nil] at hlen
    dsimp only
    exact ⟨hlost, by omega, by omega⟩
  rw [drainLocked, if_neg hempty]
  by_cases hclosed : (takeBuf l).fileOpen = false
  · rw [if_pos hclosed]
    exact ⟨⟨⟨L, (h.latch _).drop⟩, Nat.le_refl _, Nat.le_refl _⟩, fun herr => by cases herr⟩
  · rw [if_neg hclosed]
    have hopen : l.fileOpen = true := by simpa using hclosed
    cases hwrite : φ.write with
    | some n =>
      exact ⟨⟨h.cut hlost hopen n _, Nat.le_refl _, Nat.le_refl _⟩, fun herr => by cases herr⟩
    | none =>
      dsimp only
      have hw := h.write hlost hopen l.buf.length
      have hup : l.nextLSN - 1 = start + records.length := by omega
      split_ifs with hfull
      · obtain ⟨hkept, hsame, hlive⟩ := rotateLocked_kept hw hlost hheader
          (l.nextLSN - 1 + 1) (by omega)
        refine ⟨⟨hkept.layout, ?_, hkept.synced⟩, fun _ => ⟨hlive, hup, hsame.trans hup⟩⟩
        rw [hsame]
        change l.writtenLSN ≤ l.nextLSN - 1
        omega
      · refine ⟨⟨⟨_, hw⟩, ?_, Nat.le_refl _⟩, fun _ => ⟨hlost, hup, hup⟩⟩
        change l.writtenLSN ≤ l.nextLSN - 1
        omega

theorem syncLocked_kept (h : L.Describes base start records l) (hlost : l.lost = false)
    (hbound : l.nextLSN < 2 ^ 64) {φ : SysCalls} (hheader : φ.header = none) :
    Kept base start records l (syncLocked φ l).1 ∧
      ((syncLocked φ l).2 = none → start + records.length ≤ (syncLocked φ l).1.syncedLSN) := by
  obtain ⟨hkept, hdone⟩ := drainLocked_kept h hlost hbound hheader
  unfold syncLocked
  rcases hd : drainLocked φ l with ⟨l', upto, err⟩
  rw [hd] at hkept hdone
  cases err with
  | some => exact ⟨hkept, fun herr => by cases herr⟩
  | none =>
    obtain ⟨hlive, hupto, hwritten⟩ := hdone rfl
    obtain ⟨L', hL'⟩ := hkept.layout
    dsimp only at hlive hupto hwritten hL' ⊢
    have hup : (if upto = 0 then l'.writtenLSN else upto) = start + records.length := by
      split_ifs <;> omega
    rw [hup]
    split_ifs with hle hfail
    · exact ⟨hkept, fun _ => hle⟩
    · exact ⟨⟨⟨L', hL'.latch _⟩, hkept.written, hkept.synced⟩, fun herr => by cases herr⟩
    · have hopen : l'.fileOpen = true := by
        cases hfile : l'.fileOpen with
        | true => rfl
        | false => exact absurd (Or.inr hfile) hfail
      refine ⟨⟨⟨_, hL'.sync hlive hopen hwritten.ge⟩, hkept.written, ?_⟩, fun _ => Nat.le_refl _⟩
      have hle : l.syncedLSN ≤ l'.writtenLSN := hkept.synced.trans (hL'.marks)
      change l.syncedLSN ≤ start + records.length
      omega

theorem closeLocked_kept (h : L.Describes base start records l) (hlost : l.lost = false)
    (hbound : l.nextLSN < 2 ^ 64) {φ : SysCalls} (hheader : φ.header = none) :
    Kept base start records l (closeLocked φ l).1 ∧
      ((closeLocked φ l).2 = none → start + records.length ≤ (closeLocked φ l).1.syncedLSN) := by
  obtain ⟨hkept, hdone⟩ := drainLocked_kept h hlost hbound hheader
  unfold closeLocked
  rcases hd : drainLocked φ l with ⟨l', upto, err⟩
  rw [hd] at hkept hdone
  obtain ⟨L', hL'⟩ := hkept.layout
  cases err with
  | some => exact ⟨⟨⟨L', hL'.closeFile⟩, hkept.written, hkept.synced⟩, fun herr => by cases herr⟩
  | none =>
    obtain ⟨hlive, -, hwritten⟩ := hdone rfl
    dsimp only at hlive hwritten hL' ⊢
    have hle := hkept.synced.trans (hL'.marks)
    split_ifs with hfail hclose
    · exact ⟨⟨⟨L', hL'.closeFile⟩, hkept.written, hkept.synced⟩, fun herr => by cases herr⟩
    all_goals
      have hopen : l'.fileOpen = true := by
        cases hfile : l'.fileOpen with
        | true => rfl
        | false => exact absurd (Or.inr hfile) hfail
      have hsync := (hL'.sync hlive hopen (Nat.le_refl _)).closeFile
    · exact ⟨⟨⟨_, hsync⟩, hkept.written, hle⟩, fun herr => by cases herr⟩
    · exact ⟨⟨⟨_, hsync⟩, hkept.written, hle⟩, fun _ => hwritten.ge⟩

/-- A log whose file is open and whose writes have all arrived. -/
def Healthy (l : Log) : Prop := l.lost = false ∧ l.fileOpen = true

theorem openSegment_succeed (nowMs : ℤ) (seq firstLSN : ℕ)
    (hseq : ∀ seg ∈ l.dir, seg.seq < seq) :
    SegmentLog.openSegment (.succeed nowMs) seq firstLSN l =
      (setSegment seq (addFile ⟨seq, encodeSegHeader firstLSN nowMs, segHeaderSize⟩ l), none) := by
  have hfresh : ¬ ((SysCalls.succeed nowMs).create = false ∨ ∃ seg ∈ l.dir, seg.seq = seq) := by
    rintro (hcreate | ⟨seg, hseg, rfl⟩)
    · cases hcreate
    · exact Nat.lt_irrefl _ (hseq seg hseg)
  rw [SegmentLog.openSegment, if_neg hfresh]
  rfl

/-- A rotation none of whose calls fails puts a new segment behind the files. -/
theorem rotateLocked_eq (h : L.Describes base start records l) (hl : Healthy l) (nowMs : ℤ)
    (firstLSN : ℕ) :
    rotateLocked (.succeed nowMs) firstLSN l =
      (setSegment (l.segSeq + 1) (addFile
        ⟨l.segSeq + 1, encodeSegHeader firstLSN nowMs, segHeaderSize⟩
        (SegmentLog.closeFile (setSynced l.writtenLSN (syncFile l)))), none) := by
  obtain ⟨hlost, hopen⟩ := hl
  have hsync := (h.sync hlost hopen (Nat.le_refl _)).closeFile
  -- the new segment's number is above every other
  have hseq : ∀ seg ∈ (SegmentLog.closeFile (setSynced l.writtenLSN (syncFile l))).dir,
      seg.seq < (SegmentLog.closeFile (setSynced l.writtenLSN (syncFile l))).segSeq + 1 := by
    have hcurrent := h.current hopen
    intro seg hseg
    rw [hsync.dir] at hseg
    change seg.seq < l.segSeq + 1
    rcases List.mem_append.mp hseg with hseg | hseg
    · have := h.fresh seg hseg
      omega
    · rw [List.mem_singleton.mp hseg]
      change L.newest.seq < l.segSeq + 1
      omega
  dsimp only [rotateLocked]
  rw [if_neg (by simp [hopen, SysCalls.succeed]), if_neg (by simp [SysCalls.succeed])]
  exact openSegment_succeed nowMs _ firstLSN hseq

theorem rotateLocked_succeed (h : L.Describes base start records l) (hl : Healthy l) (nowMs : ℤ)
    (firstLSN : ℕ) : Healthy (rotateLocked (.succeed nowMs) firstLSN l).1 := by
  rw [rotateLocked_eq h hl]
  exact ⟨hl.1, rfl⟩

/-- Without failing calls a drain leaves a healthy log healthy. -/
theorem drainLocked_succeed (h : L.Describes base start records l) (hl : Healthy l) (nowMs : ℤ) :
    Healthy (drainLocked (.succeed nowMs) l).log := by
  by_cases hempty : l.buf = []
  · rw [drainLocked, if_pos hempty]
    exact hl
  have hfile : ¬ (takeBuf l).fileOpen = false := by simp [hl.2]
  rw [drainLocked, if_neg hempty]
  rw [if_neg hfile]
  change Healthy (if _ then _ else _ : Drained).log
  split_ifs with hfull
  · exact rotateLocked_succeed (h.write hl.1 hl.2 l.buf.length) hl nowMs _
  · exact hl

theorem syncLocked_succeed (h : L.Describes base start records l) (hl : Healthy l) (nowMs : ℤ) :
    Healthy (syncLocked (.succeed nowMs) l).1 := by
  have hdrain := drainLocked_succeed h hl nowMs
  unfold syncLocked
  rcases hd : drainLocked (.succeed nowMs) l with ⟨l', upto, err⟩
  rw [hd] at hdrain
  cases err with
  | some => exact hdrain
  | none =>
    dsimp only
    split_ifs <;> exact hdrain

theorem run_succeed (h : L.Describes base start records l) (hl : Healthy l) (nowMs : ℤ) {op : Op}
    (hop : op ≠ .close) : Healthy (op.run (.succeed nowMs) l).1 := by
  cases op with
  | flush =>
    dsimp only [Op.run]
    split_ifs
    · exact hl
    · exact drainLocked_succeed h hl nowMs
  | sync =>
    dsimp only [Op.run]
    split_ifs
    · exact hl
    · exact syncLocked_succeed h hl nowMs
  | syncAll => exact syncLocked_succeed h hl nowMs
  | close => exact absurd rfl hop

end RedisFromScratch.LogLayout
