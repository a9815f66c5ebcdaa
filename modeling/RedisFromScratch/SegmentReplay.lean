import RedisFromScratch.LogRecords

/-!
Segment files and their replay. A directory is the list of its segments in
ascending order; each file remembers how many of its bytes are known to be on
stable storage. Replay checks every header, reads the records in order, skips
what a snapshot covers, truncates a damaged tail of the last segment, and
refuses damage anywhere else.
-/
namespace RedisFromScratch.SegmentReplay

open ByteStrings ByteCoding FramedLogs StoreRecords LogRecords

structure Segment where
  seq : ℕ
  data : Bytes
  synced : ℕ
  deriving DecidableEq, Repr

abbrev Dir := List Segment

/-- The text RFSWAL with a version. -/
def segMagic : Bytes := [82, 70, 83, 87, 65, 76, 1, 0]

def segHeaderSize : ℕ := 28

def headerFields (firstLSN : ℕ) (createdMs : ℤ) : Bytes :=
  segMagic ++ (le 8 firstLSN ++ le 8 (createdMs % 2 ^ 64).toNat)

def encodeSegHeader (firstLSN : ℕ) (createdMs : ℤ) : Bytes :=
  headerFields firstLSN createdMs ++
    le 4 (crc32 castagnoli (headerFields firstLSN createdMs)).toNat

def parseSegHeader (hdr : Bytes) : Option ℕ :=
  if hdr.length < segHeaderSize ∨ hdr.take 8 ≠ segMagic then none
  else if (crc32 castagnoli (hdr.take 24)).toNat ≠ ofLe (hdr.drop 24) then none
  else some (ofLe ((hdr.drop 8).take 8))

def readSegHeader (data : Bytes) : Option ℕ := parseSegHeader (data.take segHeaderSize)

@[simp] theorem headerFields_length (firstLSN : ℕ) (createdMs : ℤ) :
    (headerFields firstLSN createdMs).length = 24 := by
  simp [headerFields, segMagic]

@[simp] theorem encodeSegHeader_length (firstLSN : ℕ) (createdMs : ℤ) :
    (encodeSegHeader firstLSN createdMs).length = segHeaderSize := by
  simp [encodeSegHeader, segHeaderSize]

theorem readSegHeader_encoded (firstLSN : ℕ) (createdMs : ℤ) (rest : Bytes)
    (h : firstLSN < 2 ^ 64) :
    readSegHeader (encodeSegHeader firstLSN createdMs ++ rest) = some firstLSN := by
  have hsum : (crc32 castagnoli (headerFields firstLSN createdMs)).toNat < 256 ^ 4 :=
    (crc32 castagnoli (headerFields firstLSN createdMs)).toNat_lt
  have htake : (encodeSegHeader firstLSN createdMs ++ rest).take segHeaderSize =
      encodeSegHeader firstLSN createdMs := List.take_left' (by simp)
  have h24 : (encodeSegHeader firstLSN createdMs).take 24 = headerFields firstLSN createdMs :=
    List.take_left' (by simp)
  have hcrc : (encodeSegHeader firstLSN createdMs).drop 24 =
      le 4 (crc32 castagnoli (headerFields firstLSN createdMs)).toNat := List.drop_left' (by simp)
  have hmagic : (encodeSegHeader firstLSN createdMs).take 8 = segMagic := by
    rw [encodeSegHeader, headerFields, List.append_assoc, List.take_left' (by rfl)]
  have hfirst : ((encodeSegHeader firstLSN createdMs).drop 8).take 8 = le 8 firstLSN := by
    rw [encodeSegHeader, headerFields, List.append_assoc, List.drop_left' (by rfl),
      List.append_assoc, List.take_left' (by simp)]
  rw [readSegHeader, htake, parseSegHeader, if_neg (by simp [hmagic]), h24, hcrc,
    ofLe_le 4 _ hsum, if_neg (by simp), hfirst, ofLe_le 8 _ h]

inductive ReplayError
  | badHeader
  | tornMidLog (seq off : ℕ)
  | corruptRecord (lsn : ℕ)
  deriving DecidableEq, Repr

/-- The counters replay carries from record to record. -/
structure ReplayState where
  expectLSN : ℕ
  lastLSN : ℕ
  applied : List LogRecord
  skipped : ℕ
  deriving DecidableEq, Repr

/-- One intact record: out of order is damage, covered is skipped. -/
def visit (afterLSN : ℕ) (st : ReplayState) (f : Frame) : Verdict ReplayState ReplayError :=
  if st.expectLSN ≠ 0 ∧ f.lsn ≠ st.expectLSN then .stop
  else
    let expectLSN := (f.lsn + 1) % 2 ^ 64
    if f.lsn ≤ afterLSN then
      .next ⟨expectLSN, f.lsn, st.applied, st.skipped + 1⟩
    else
      match decodeRecord f.typ f.payload with
      | none => .fail (.corruptRecord f.lsn)
      | some rec => .next ⟨expectLSN, f.lsn, st.applied ++ [rec], st.skipped⟩

def replaySegment (afterLSN : ℕ) (st : ReplayState) (seg : Segment) :
    Outcome ReplayState ReplayError :=
  framing.scan (visit afterLSN) st segHeaderSize (seg.data.drop segHeaderSize)

/-- Cut a file and make the cut durable. -/
def truncateAt (seg : Segment) (off : ℕ) : Segment := ⟨seg.seq, seg.data.take off, off⟩

structure Replayed where
  state : ReplayState
  truncated : Bool
  dir : Dir
  deriving DecidableEq, Repr

def replayFrom (afterLSN : ℕ) : ReplayState → Dir → Except ReplayError Replayed
  | st, [] => .ok ⟨st, false, []⟩
  | st, seg :: rest =>
      match (replaySegment afterLSN st seg).ending with
      | .failed e => .error e
      | .damaged =>
          if rest = [] then
            .ok ⟨(replaySegment afterLSN st seg).state, true,
              [truncateAt seg (replaySegment afterLSN st seg).off]⟩
          else .error (.tornMidLog seg.seq (replaySegment afterLSN st seg).off)
      | .clean =>
          match replayFrom afterLSN (replaySegment afterLSN st seg).state rest with
          | .error e => .error e
          | .ok r => .ok { r with dir := seg :: r.dir }

def replayStart (afterLSN : ℕ) : ReplayState := ⟨0, afterLSN, [], 0⟩

/-- Replay a directory, applying the records after `afterLSN`. -/
def replay (dir : Dir) (afterLSN : ℕ) : Except ReplayError Replayed :=
  if ∀ seg ∈ dir, (readSegHeader seg.data).isSome then
    replayFrom afterLSN (replayStart afterLSN) dir
  else .error .badHeader

/-- Records under consecutive sequence numbers. -/
def numbered (n : ℕ) (recs : List LogRecord) : List Frame := numberedWith frameOf n recs

theorem numbered_cons (n : ℕ) (rec : LogRecord) (recs : List LogRecord) :
    numbered n (rec :: recs) = frameOf n rec :: numbered (n + 1) recs := rfl

theorem numbered_append (n : ℕ) (recs more : List LogRecord) :
    numbered n (recs ++ more) = numbered n recs ++ numbered (n + recs.length) more :=
  numberedWith_append n recs more

theorem prefix_numbered {n : ℕ} {recs : List LogRecord} {d : Bytes}
    (h : d <+: framing.encodeAll (numbered n recs)) :
    ∃ r₁ r₂ t, recs = r₁ ++ r₂ ∧ d = framing.encodeAll (numbered n r₁) ++ t ∧
      framing.Torn (numbered (n + r₁.length) r₂) t := prefix_numberedWith h

/-- A prefix of records that already end in one cut short. -/
theorem prefix_torn {n : ℕ} {recs later : List LogRecord} {d t : Bytes}
    (ht : framing.Torn (numbered (n + recs.length) later) t)
    (h : d <+: framing.encodeAll (numbered n recs) ++ t) :
    ∃ r₁ r₂ u, recs ++ later = r₁ ++ r₂ ∧ d = framing.encodeAll (numbered n r₁) ++ u ∧
      framing.Torn (numbered (n + r₁.length) r₂) u := prefix_numberedWith_torn ht h

/-- Records the log can carry and read back. -/
def Loggable (rec : LogRecord) : Prop := InRange rec ∧ (payload rec).length ≤ maxRecordSize

/-- The state after records numbered from `n`. -/
def advance (afterLSN n : ℕ) (recs : List LogRecord) (st : ReplayState) : ReplayState where
  expectLSN := if recs = [] then st.expectLSN else n + recs.length
  lastLSN := if recs = [] then st.lastLSN else n + recs.length - 1
  applied := st.applied ++ (recs.drop (afterLSN + 1 - n)).map strip
  skipped := st.skipped + min recs.length (afterLSN + 1 - n)

theorem fits_numbered {n : ℕ} {recs : List LogRecord} (hrecs : ∀ rec ∈ recs, Loggable rec)
    (hn : n + recs.length < 2 ^ 64) : ∀ f ∈ numbered n recs, framing.Fits f := by
  intro f hf
  obtain ⟨i, rec, hrec, -, hi, rfl⟩ := mem_numberedWith hf
  exact ⟨by change i < 2 ^ 64; omega, (hrecs rec hrec).2⟩

theorem visits_numbered (afterLSN : ℕ) {n : ℕ} {recs : List LogRecord} {st : ReplayState}
    (hrecs : ∀ rec ∈ recs, Loggable rec) (hn : n + recs.length < 2 ^ 64)
    (hst : st.expectLSN = 0 ∨ st.expectLSN = n) :
    visits (visit afterLSN) st (numbered n recs) = some (advance afterLSN n recs st) := by
  induction recs generalizing n st with
  | nil => simp [numbered, visits, advance]
  | cons rec recs ih =>
    rw [List.length_cons] at hn
    have hgood := hrecs rec List.mem_cons_self
    have hrest := fun r hr => hrecs r (List.mem_cons_of_mem _ hr)
    have hmod : (n + 1) % 2 ^ 64 = n + 1 := Nat.mod_eq_of_lt (by omega)
    have horder : ¬ (st.expectLSN ≠ 0 ∧ n ≠ st.expectLSN) := by
      rintro ⟨h0, hne⟩
      rcases hst with h | h
      · exact h0 h
      · exact hne h.symm
    have hexpect : (if recs = [] then n + 1 else n + 1 + recs.length) = n + (recs.length + 1) := by
      split
      · rename_i h
        simp [h]
      · omega
    have hlast : (if recs = [] then n else n + 1 + recs.length - 1) = n + recs.length := by
      split
      · rename_i h
        simp [h]
      · omega
    simp only [numbered_cons, visits, visit, frameOf, if_neg horder, hmod]
    by_cases hskip : n ≤ afterLSN
    · rw [if_pos hskip]
      dsimp only
      rw [ih (n := n + 1) hrest (by omega) (Or.inr rfl)]
      have hdrop : afterLSN + 1 - n = afterLSN + 1 - (n + 1) + 1 := by omega
      simp only [advance, hdrop, List.drop_succ_cons, List.length_cons]
      simp only [reduceCtorEq, if_false, Option.some.injEq, ReplayState.mk.injEq, true_and]
      refine ⟨?_, ?_, ?_⟩
      · exact hexpect
      · rw [hlast]
        omega
      · omega
    · rw [if_neg hskip, decodeRecord_encoded rec hgood.1 hgood.2]
      dsimp only
      rw [ih (n := n + 1) hrest (by omega) (Or.inr rfl)]
      have hdrop : afterLSN + 1 - n = 0 := by omega
      have hdrop' : afterLSN + 1 - (n + 1) = 0 := by omega
      simp only [advance, hdrop, hdrop', List.drop_zero, List.length_cons, Nat.min_zero,
        Nat.add_zero, List.map_cons, List.append_assoc, List.singleton_append]
      simp only [reduceCtorEq, if_false, Option.some.injEq, ReplayState.mk.injEq, and_true]
      refine ⟨?_, ?_⟩
      · exact hexpect
      · rw [hlast]
        omega

theorem advance_append (afterLSN n : ℕ) (recs more : List LogRecord) (st : ReplayState) :
    advance afterLSN (n + recs.length) more (advance afterLSN n recs st) =
      advance afterLSN n (recs ++ more) st := by
  have happlied : (recs ++ more).drop (afterLSN + 1 - n) =
      recs.drop (afterLSN + 1 - n) ++ more.drop (afterLSN + 1 - (n + recs.length)) := by
    rw [List.drop_append, show afterLSN + 1 - (n + recs.length) = afterLSN + 1 - n - recs.length by
      omega]
  simp only [advance, happlied, List.map_append, List.append_assoc, List.length_append,
    List.append_eq_nil_iff, ReplayState.mk.injEq, true_and]
  refine ⟨?_, ?_, by omega⟩
  · by_cases hr : recs = [] <;> by_cases hm : more = [] <;> simp [hr, hm, Nat.add_assoc]
  · by_cases hr : recs = [] <;> by_cases hm : more = [] <;> simp [hr, hm, Nat.add_assoc]

theorem advance_expect {afterLSN n : ℕ} {recs : List LogRecord} {st : ReplayState}
    (hst : st.expectLSN = 0 ∨ st.expectLSN = n) :
    (advance afterLSN n recs st).expectLSN = 0 ∨
      (advance afterLSN n recs st).expectLSN = n + recs.length := by
  unfold advance
  by_cases hr : recs = []
  · simpa [hr] using hst
  · simp [hr]

/-- A file of a header and whole records, numbered from `n`. -/
def WholeSegment (seg : Segment) (n : ℕ) (recs : List LogRecord) : Prop :=
  ∃ firstLSN createdMs, firstLSN < 2 ^ 64 ∧
    seg.data = encodeSegHeader firstLSN createdMs ++ framing.encodeAll (numbered n recs)

/-- A directory of whole segments, its records numbered from `n` throughout. -/
inductive Contents : Dir → ℕ → List LogRecord → Prop
  | nil (n : ℕ) : Contents [] n []
  | cons {seg : Segment} {rest : Dir} {n : ℕ} {recs more : List LogRecord}
      (hseg : WholeSegment seg n recs) (hrest : Contents rest (n + recs.length) more) :
      Contents (seg :: rest) n (recs ++ more)

theorem Contents.append {dir rest : Dir} {n : ℕ} {recs more : List LogRecord}
    (h : Contents dir n recs) (hrest : Contents rest (n + recs.length) more) :
    Contents (dir ++ rest) n (recs ++ more) := by
  induction h with
  | nil => simpa using hrest
  | cons hseg _ ih =>
    rw [List.length_append, ← Nat.add_assoc] at hrest
    rw [List.cons_append, List.append_assoc]
    exact .cons hseg (ih hrest)

/-- Contents are a matter of the bytes alone. -/
theorem Contents.congr {dir dir' : Dir} {n : ℕ} {recs : List LogRecord} (h : Contents dir n recs)
    (hdata : dir'.map Segment.data = dir.map Segment.data) : Contents dir' n recs := by
  induction h generalizing dir' with
  | nil n =>
    rw [List.map_eq_nil_iff.mp hdata]
    exact .nil n
  | cons hseg _ ih =>
    cases dir' with
    | nil => cases hdata
    | cons =>
      obtain ⟨hhead, htail⟩ := List.cons.inj hdata
      obtain ⟨firstLSN, createdMs, hfirst, hbytes⟩ := hseg
      exact .cons ⟨firstLSN, createdMs, hfirst, hhead.trans hbytes⟩ (ih htail)

theorem Contents.single {seg : Segment} {n : ℕ} {recs : List LogRecord}
    (h : WholeSegment seg n recs) : Contents [seg] n recs := by
  have hone := Contents.cons h (Contents.nil (n + recs.length))
  rwa [List.append_nil] at hone

/-- The frame stands whole in the first `m` bytes of the file, behind the header
and other whole frames. -/
def Segment.Holds (seg : Segment) (m : ℕ) (f : Frame) : Prop :=
  ∃ firstLSN createdMs before after,
    seg.data = encodeSegHeader firstLSN createdMs ++
      (framing.encodeAll before ++ (framing.encode f ++ after)) ∧
    segHeaderSize + (framing.encodeAll before).length + (framing.encode f).length ≤ m

theorem numbered_split (n : ℕ) {recs : List LogRecord} {i : ℕ} {rec : LogRecord}
    (hi : recs[i]? = some rec) :
    numbered n recs = numbered n (recs.take i) ++
      (frameOf (n + i) rec :: numbered (n + i + 1) (recs.drop (i + 1))) :=
  numberedWith_split n hi

/-- A record among the first `k` of a file lies inside their bytes. -/
theorem holds_of_data {seg : Segment} {n firstLSN k m i : ℕ} {createdMs : ℤ}
    {recs : List LogRecord} {t : Bytes} {rec : LogRecord}
    (hdata : seg.data = encodeSegHeader firstLSN createdMs ++
      (framing.encodeAll (numbered n recs) ++ t))
    (hm : segHeaderSize + (framing.encodeAll (numbered n (recs.take k))).length ≤ m)
    (hk : i < k) (hi : recs[i]? = some rec) : seg.Holds m (frameOf (n + i) rec) := by
  have hik : (recs.take k)[i]? = some rec := by rw [List.getElem?_take_of_lt hk, hi]
  refine ⟨firstLSN, createdMs, numbered n (recs.take i),
    framing.encodeAll (numbered (n + i + 1) (recs.drop (i + 1))) ++ t, ?_, ?_⟩
  · rw [hdata, numbered_split n hi]
    simp [List.append_assoc]
  · rw [numbered_split n hik] at hm
    simp only [Framing.encodeAll_append, Framing.encodeAll_cons, List.length_append] at hm
    rw [List.take_take, Nat.min_eq_left (by omega)] at hm
    omega

theorem Contents.holds {dir : Dir} {n : ℕ} {recs : List LogRecord} (h : Contents dir n recs)
    {i : ℕ} {rec : LogRecord} (hi : recs[i]? = some rec) :
    ∃ seg ∈ dir, seg.Holds seg.data.length (frameOf (n + i) rec) := by
  induction h generalizing i with
  | nil => simp at hi
  | @cons seg rest n recs more hseg _ ih =>
    by_cases hlt : i < recs.length
    · rw [List.getElem?_append_left hlt] at hi
      obtain ⟨firstLSN, createdMs, -, hdata⟩ := hseg
      refine ⟨seg, List.mem_cons_self, holds_of_data (t := []) (k := recs.length)
        (by rw [hdata, List.append_nil]) ?_ hlt hi⟩
      rw [hdata, List.take_length, List.length_append, encodeSegHeader_length]
    · rw [List.getElem?_append_right (by omega)] at hi
      obtain ⟨seg', hmem, hholds⟩ := ih hi
      rw [show n + recs.length + (i - recs.length) = n + i by omega] at hholds
      exact ⟨seg', List.mem_cons_of_mem _ hmem, hholds⟩

/-- Replay of whole records followed by at most one that is cut short. -/
theorem replaySegment_torn (afterLSN : ℕ) (st : ReplayState) {seg : Segment} {n firstLSN : ℕ}
    {createdMs : ℤ} {recs : List LogRecord} (later : List LogRecord) {t : Bytes}
    (hdata : seg.data = encodeSegHeader firstLSN createdMs ++
      (framing.encodeAll (numbered n recs) ++ t))
    (ht : framing.Torn (numbered (n + recs.length) later) t)
    (hrecs : ∀ rec ∈ recs, Loggable rec) (hlater : ∀ rec ∈ later, Loggable rec)
    (hn : n + recs.length + later.length < 2 ^ 64)
    (hst : st.expectLSN = 0 ∨ st.expectLSN = n) :
    replaySegment afterLSN st seg = ⟨advance afterLSN n recs st,
      segHeaderSize + (framing.encodeAll (numbered n recs)).length,
      if t = [] then .clean else .damaged⟩ := by
  have hbody : seg.data.drop segHeaderSize = framing.encodeAll (numbered n recs) ++ t := by
    rw [hdata, List.drop_left' (by simp)]
  rw [replaySegment, hbody,
    Framing.scan_encodeAll (visit afterLSN) (fits_numbered hrecs (by omega))
      (visits_numbered afterLSN hrecs (by omega) hst),
    Framing.scan_torn (visit afterLSN) _ _ (fits_numbered hlater hn) ht]

theorem replaySegment_whole (afterLSN : ℕ) {seg : Segment} {n : ℕ} {recs : List LogRecord}
    {st : ReplayState} (h : WholeSegment seg n recs) (hrecs : ∀ rec ∈ recs, Loggable rec)
    (hn : n + recs.length < 2 ^ 64) (hst : st.expectLSN = 0 ∨ st.expectLSN = n) :
    (replaySegment afterLSN st seg).ending = .clean ∧
      (replaySegment afterLSN st seg).state = advance afterLSN n recs st := by
  obtain ⟨firstLSN, createdMs, -, hdata⟩ := h
  rw [replaySegment_torn afterLSN st [] (t := []) (by rw [hdata, List.append_nil])
    (Or.inl rfl) hrecs (by simp) (by simpa using hn) hst]
  simp

/-- Whole segments are replayed completely, and replay goes on behind them. -/
theorem replayFrom_contents (afterLSN : ℕ) {dir : Dir} {n : ℕ} {recs : List LogRecord}
    (h : Contents dir n recs) (rest : Dir) (st : ReplayState)
    (hrecs : ∀ rec ∈ recs, Loggable rec) (hn : n + recs.length < 2 ^ 64)
    (hst : st.expectLSN = 0 ∨ st.expectLSN = n) :
    replayFrom afterLSN st (dir ++ rest) =
      match replayFrom afterLSN (advance afterLSN n recs st) rest with
      | .error e => .error e
      | .ok r => .ok { r with dir := dir ++ r.dir } := by
  induction h generalizing st with
  | nil n =>
    have hsame : advance afterLSN n [] st = st := by simp [advance]
    rw [hsame, List.nil_append]
    cases replayFrom afterLSN st rest <;> rfl
  | @cons seg tail n recs more hseg htail ih =>
    rw [List.length_append] at hn
    have hfirst : ∀ rec ∈ recs, Loggable rec := fun r hr => hrecs r (List.mem_append_left _ hr)
    have hmore : ∀ rec ∈ more, Loggable rec := fun r hr => hrecs r (List.mem_append_right _ hr)
    obtain ⟨hclean, hstate⟩ := replaySegment_whole afterLSN hseg hfirst (by omega) hst
    rw [List.cons_append, replayFrom, hclean, hstate]
    rw [ih _ hmore (by omega) (advance_expect hst), advance_append]
    cases replayFrom afterLSN (advance afterLSN n (recs ++ more) st) rest <;> rfl

theorem WholeSegment.header {seg : Segment} {n : ℕ} {recs : List LogRecord}
    (h : WholeSegment seg n recs) : (readSegHeader seg.data).isSome := by
  obtain ⟨firstLSN, createdMs, hfirst, hdata⟩ := h
  rw [hdata, readSegHeader_encoded firstLSN createdMs _ hfirst]
  rfl

theorem Contents.header {dir : Dir} {n : ℕ} {recs : List LogRecord} (h : Contents dir n recs) :
    ∀ seg ∈ dir, (readSegHeader seg.data).isSome := by
  induction h with
  | nil =>
    intro seg hseg
    cases hseg
  | cons hseg _ ih =>
    intro seg hmem
    rcases List.mem_cons.mp hmem with rfl | hmem
    · exact hseg.header
    · exact ih seg hmem

/-- Replay of a directory of whole segments. -/
theorem replay_contents (afterLSN : ℕ) {dir : Dir} {n : ℕ} {recs : List LogRecord}
    (h : Contents dir n recs) (hrecs : ∀ rec ∈ recs, Loggable rec)
    (hn : n + recs.length < 2 ^ 64) :
    replay dir afterLSN =
      .ok ⟨advance afterLSN n recs (replayStart afterLSN), false, dir⟩ := by
  have hrun := replayFrom_contents afterLSN h [] (replayStart afterLSN) hrecs hn (Or.inl rfl)
  rw [List.append_nil] at hrun
  rw [replay, if_pos h.header, hrun]
  simp [replayFrom]

/-- Replay of whole segments followed by one that may end in a cut record. -/
theorem replay_torn (afterLSN : ℕ) {dir : Dir} (last : Segment) {n firstLSN : ℕ} {createdMs : ℤ}
    {recs : List LogRecord} (tail later : List LogRecord) {t : Bytes} (h : Contents dir n recs)
    (hfirst : firstLSN < 2 ^ 64)
    (hdata : last.data = encodeSegHeader firstLSN createdMs ++
      (framing.encodeAll (numbered (n + recs.length) tail) ++ t))
    (ht : framing.Torn (numbered (n + recs.length + tail.length) later) t)
    (hrecs : ∀ rec ∈ recs, Loggable rec) (htail : ∀ rec ∈ tail, Loggable rec)
    (hlater : ∀ rec ∈ later, Loggable rec)
    (hn : n + recs.length + tail.length + later.length < 2 ^ 64) :
    ∃ last' : Segment,
      replay (dir ++ [last]) afterLSN =
        .ok ⟨advance afterLSN n (recs ++ tail) (replayStart afterLSN), decide (t ≠ []),
          dir ++ [last']⟩ ∧
      last'.seq = last.seq ∧ WholeSegment last' (n + recs.length) tail ∧
      (last' = last ∨ last'.synced = last'.data.length) := by
  have hheaders : ∀ seg ∈ dir ++ [last], (readSegHeader seg.data).isSome := by
    intro seg hseg
    rcases List.mem_append.mp hseg with hseg | hseg
    · exact h.header seg hseg
    · rw [List.mem_singleton.mp hseg, hdata, readSegHeader_encoded firstLSN createdMs _ hfirst]
      rfl
  have hlast := replaySegment_torn afterLSN (advance afterLSN n recs (replayStart afterLSN)) later
    hdata ht htail hlater hn (advance_expect (Or.inl rfl))
  rw [advance_append] at hlast
  rw [replay, if_pos hheaders,
    replayFrom_contents afterLSN h [last] _ hrecs (by omega) (Or.inl rfl),
    replayFrom, hlast]
  by_cases hempty : t = []
  · refine ⟨last, ?_, rfl, ⟨firstLSN, createdMs, hfirst, ?_⟩, Or.inl rfl⟩
    · simp [hempty, replayFrom]
    · rw [hdata, hempty, List.append_nil]
  · have hcut : (truncateAt last (segHeaderSize +
        (framing.encodeAll (numbered (n + recs.length) tail)).length)).data =
        encodeSegHeader firstLSN createdMs ++
          framing.encodeAll (numbered (n + recs.length) tail) := by
      rw [truncateAt, hdata, ← List.append_assoc]
      exact List.take_left' (by simp)
    refine ⟨truncateAt last (segHeaderSize +
      (framing.encodeAll (numbered (n + recs.length) tail)).length), ?_, rfl,
      ⟨firstLSN, createdMs, hfirst, hcut⟩, Or.inr ?_⟩
    · simp [hempty]
    · rw [hcut]
      simp [truncateAt]

end RedisFromScratch.SegmentReplay
