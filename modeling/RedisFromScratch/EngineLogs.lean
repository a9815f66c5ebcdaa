import RedisFromScratch.ChecksummedFrames
import RedisFromScratch.EngineCoding

/-!
The log files of the engine. A file has a header that fixes the sequence number
before its first record; a record holds a whole batch. Replay applies the
batches in order, cuts an unreadable tail off, and refuses a record that is out
of order or does not decode. Batches followed by one cut short are replayed
exactly.
-/
namespace RedisFromScratch.EngineLogs

open ByteStrings ByteCoding FramedLogs ChecksummedFrames EngineTypes EngineCoding

/-- The IEEE polynomial, reflected. -/
def ieee : UInt32 := 0xEDB88320

def maxRecord : ℕ := 2 ^ 30

structure Rec where
  seq : ℕ
  payload : Bytes
  deriving DecidableEq, Repr

def Rec.raw (r : Rec) : Raw := ⟨le 8 r.seq, r.payload⟩

def Rec.ofRaw (r : Raw) : Rec := ⟨ofLe r.fields, r.payload⟩

/-- Checksum, length and sequence number stand before the payload. -/
def framing : Framing UInt8 Rec :=
  (rawFraming ieee 8 maxRecord (by decide)).view Rec.raw Rec.ofRaw

theorem framing_fits {r : Rec} (hseq : r.seq < 2 ^ 64) (hlen : r.payload.length ≤ maxRecord) :
    framing.Fits r := by
  refine ⟨⟨by simp [Rec.raw], hlen⟩, ?_⟩
  simp [Rec.raw, Rec.ofRaw, ofLe_le 8 _ hseq]

theorem encode_ne_nil (r : Rec) : framing.encode r ≠ [] := by
  change r.raw.encode ieee ≠ []
  simp [Raw.encode, Raw.body, ← List.length_pos_iff]

/-- The payload of a record. Its mutations are laid out as the entries of an
SSTable are. -/
def encodeBatch (muts : List Mutation) : Bytes :=
  uvarint muts.length ++ muts.flatMap (fun m => encodeEntry m.key m.entry)

def decodeMutations : ℕ → Bytes → Option (List Mutation × Bytes)
  | 0, d => some ([], d)
  | n + 1, d =>
      match decodeEntry d with
      | none => none
      | some (b, rest) => (decodeMutations n rest).map (fun r => (⟨b.1, b.2⟩ :: r.1, r.2))

def decodeBatch (body : Bytes) : Option (List Mutation) :=
  match getUvarint 0 0 body with
  | none => none
  | some (n, rest) =>
      if body.length + 1 < n then none
      else
        match decodeMutations n rest with
        | some (muts, []) => some muts
        | _ => none

/-- A batch the log accepts: its expiries are 64-bit integers, and it encodes to
no more than a record may hold. -/
structure BatchFits (muts : List Mutation) : Prop where
  range : ∀ m ∈ muts, InRange m.entry
  size : (encodeBatch muts).length ≤ maxRecord

theorem decodeMutations_encoded {muts : List Mutation} (hrange : ∀ m ∈ muts, InRange m.entry)
    (hlen : (muts.flatMap (fun m => encodeEntry m.key m.entry)).length < 2 ^ 64) (rest : Bytes) :
    decodeMutations muts.length (muts.flatMap (fun m => encodeEntry m.key m.entry) ++ rest) =
      some (muts, rest) := by
  induction muts with
  | nil => rfl
  | cons m muts ih =>
    rw [List.flatMap_cons, List.length_append] at hlen
    rw [List.flatMap_cons, List.length_cons, List.append_assoc, decodeMutations,
      decodeEntry_encodeEntry (hrange m List.mem_cons_self) (by omega)]
    dsimp only
    rw [ih (fun n hn => hrange n (List.mem_cons_of_mem _ hn)) (by omega)]
    rfl

theorem length_le_flatMap (muts : List Mutation) :
    muts.length ≤ (muts.flatMap (fun m => encodeEntry m.key m.entry)).length := by
  induction muts with
  | nil => rfl
  | cons m =>
    have := List.length_pos_iff.mpr (encodeEntry_ne_nil m.key m.entry)
    rw [List.flatMap_cons, List.length_append, List.length_cons]
    omega

theorem decodeBatch_encodeBatch {muts : List Mutation} (h : BatchFits muts) :
    decodeBatch (encodeBatch muts) = some muts := by
  have hsize := h.size
  have hcount := length_le_flatMap muts
  simp only [encodeBatch, maxRecord, List.length_append] at hsize
  rw [decodeBatch, encodeBatch, getUvarint_uvarint _ _ (by omega)]
  dsimp only
  have hall := decodeMutations_encoded h.range (by omega) []
  rw [List.append_nil] at hall
  rw [if_neg (by rw [List.length_append]; omega), hall]

/-- The text RFSWAL with a version. -/
def logMagic : Bytes := [82, 70, 83, 87, 65, 76, 2, 0]

def logHeader : ℕ := 28

def headerFields (number startSeq : ℕ) : Bytes := logMagic ++ (le 8 number ++ le 8 startSeq)

def encodeHeader (number startSeq : ℕ) : Bytes :=
  headerFields number startSeq ++ le 4 (crc32 ieee (headerFields number startSeq)).toNat

inductive LogError
  | shortHeader
  | badMagic
  | headerChecksum
  | outOfOrder (seq expected : ℕ)
  | badBatch (seq : ℕ)
  deriving DecidableEq, Repr

/-- The sequence number a log starts after. -/
def readHeader (data : Bytes) : Except LogError ℕ :=
  if data.length < logHeader then .error .shortHeader
  else if data.take 8 ≠ logMagic then .error .badMagic
  else if (crc32 ieee (data.take 24)).toNat ≠ ofLe ((data.drop 24).take 4) then
    .error .headerChecksum
  else .ok (ofLe ((data.drop 16).take 8))

@[simp] theorem headerFields_length (number startSeq : ℕ) :
    (headerFields number startSeq).length = 24 := by
  simp [headerFields, logMagic]

@[simp] theorem encodeHeader_length (number startSeq : ℕ) :
    (encodeHeader number startSeq).length = logHeader := by
  simp [encodeHeader, logHeader]

theorem readHeader_encoded (number startSeq : ℕ) (rest : Bytes) (h : startSeq < 2 ^ 64) :
    readHeader (encodeHeader number startSeq ++ rest) = .ok startSeq := by
  have hsum : (crc32 ieee (headerFields number startSeq)).toNat < 256 ^ 4 :=
    (crc32 ieee (headerFields number startSeq)).toNat_lt
  have hmagic : (encodeHeader number startSeq ++ rest).take 8 = logMagic := by
    rw [encodeHeader, headerFields, List.append_assoc, List.append_assoc,
      List.take_left' (by rfl)]
  have h24 : (encodeHeader number startSeq ++ rest).take 24 = headerFields number startSeq := by
    rw [encodeHeader, List.append_assoc, List.take_left' (by simp)]
  have hcrc : ((encodeHeader number startSeq ++ rest).drop 24).take 4 =
      le 4 (crc32 ieee (headerFields number startSeq)).toNat := by
    rw [encodeHeader, List.append_assoc, List.drop_left' (by simp), List.take_left' (by simp)]
  have hstart : ((encodeHeader number startSeq ++ rest).drop 16).take 8 = le 8 startSeq := by
    have hsplit : encodeHeader number startSeq ++ rest = (logMagic ++ le 8 number) ++
        (le 8 startSeq ++ (le 4 (crc32 ieee (headerFields number startSeq)).toNat ++ rest)) := by
      simp only [encodeHeader, headerFields, List.append_assoc]
    rw [hsplit, List.drop_left' (by simp [logMagic]), List.take_left' (by simp)]
  rw [readHeader, if_neg (by simp), if_neg (by simp [hmagic]), h24, hcrc, ofLe_le 4 _ hsum,
    if_neg (by simp), hstart, ofLe_le 8 _ h]

/-- A log file; how many of its bytes are on stable storage is known. -/
structure LogFile where
  data : Bytes
  synced : ℕ
  deriving DecidableEq, Repr

structure Replayed where
  /-- The batches applied, with their sequence numbers. -/
  batches : List (ℕ × List Mutation)
  lastSequence : ℕ
  truncatedAt : Option ℕ
  deriving DecidableEq, Repr

/-- What replay carries from record to record. -/
structure ReplayState where
  expectSeq : ℕ
  lastSequence : ℕ
  batches : List (ℕ × List Mutation)

/-- A gap or a repeat is no interrupted write, so it is refused. -/
def visit (st : ReplayState) (r : Rec) : Verdict ReplayState LogError :=
  if r.seq ≠ st.expectSeq then .fail (.outOfOrder r.seq st.expectSeq)
  else
    match decodeBatch r.payload with
    | none => .fail (.badBatch r.seq)
    | some muts => .next ⟨r.seq + 1, r.seq, st.batches ++ [(r.seq, muts)]⟩

/-- Cut a file and make the cut durable. -/
def truncateAt (f : LogFile) (off : ℕ) : LogFile := ⟨f.data.take off, off⟩

/-- Replay one log: what was recovered, and the file as it is left. -/
def replay (f : LogFile) : Except LogError (Replayed × LogFile) :=
  match readHeader f.data with
  | .error e => .error e
  | .ok startSeq =>
      let out := framing.scan visit ⟨startSeq + 1, startSeq, []⟩ logHeader (f.data.drop logHeader)
      match out.ending with
      | .clean => .ok (⟨out.state.batches, out.state.lastSequence, none⟩, f)
      | .damaged =>
          .ok (⟨out.state.batches, out.state.lastSequence, some out.off⟩, truncateAt f out.off)
      | .failed e => .error e

def recOf (seq : ℕ) (muts : List Mutation) : Rec := ⟨seq, encodeBatch muts⟩

/-- The bytes of a log that starts after a sequence number and holds batches. -/
def logBytes (number startSeq : ℕ) (batches : List (List Mutation)) : Bytes :=
  encodeHeader number startSeq ++ framing.encodeAll (numberedWith recOf (startSeq + 1) batches)

theorem logBytes_append (number startSeq : ℕ) (a b : List (List Mutation)) :
    logBytes number startSeq (a ++ b) = logBytes number startSeq a ++
      framing.encodeAll (numberedWith recOf (startSeq + 1 + a.length) b) := by
  rw [logBytes, numberedWith_append, Framing.encodeAll_append, logBytes, List.append_assoc]

@[simp] theorem logBytes_nil (number startSeq : ℕ) :
    logBytes number startSeq [] = encodeHeader number startSeq := by
  rw [logBytes, numberedWith_nil, Framing.encodeAll_nil, List.append_nil]

/-- The batches under their sequence numbers. -/
def numberedBatches (startSeq : ℕ) (batches : List (List Mutation)) : List (ℕ × List Mutation) :=
  numberedWith Prod.mk (startSeq + 1) batches

theorem numbered_fits {seq : ℕ} {batches : List (List Mutation)}
    (hfits : ∀ b ∈ batches, BatchFits b) (hseq : seq + batches.length ≤ 2 ^ 64) :
    ∀ r ∈ numberedWith recOf seq batches, framing.Fits r := by
  intro r hr
  obtain ⟨i, b, hb, -, hi, rfl⟩ := mem_numberedWith hr
  exact framing_fits (Nat.lt_of_lt_of_le hi hseq) (hfits b hb).size

theorem visits_numbered (seq : ℕ) (done : List (ℕ × List Mutation))
    {batches : List (List Mutation)} (hfits : ∀ b ∈ batches, BatchFits b) :
    visits visit ⟨seq + 1, seq, done⟩ (numberedWith recOf (seq + 1) batches) =
      some ⟨seq + batches.length + 1, seq + batches.length,
        done ++ numberedWith Prod.mk (seq + 1) batches⟩ := by
  induction batches generalizing seq done with
  | nil => simp [visits]
  | cons b batches ih =>
    have hone : visit ⟨seq + 1, seq, done⟩ (recOf (seq + 1) b) =
        .next ⟨seq + 1 + 1, seq + 1, done ++ [(seq + 1, b)]⟩ := by
      rw [visit, if_neg (by simp [recOf])]
      simp only [recOf, decodeBatch_encodeBatch (hfits b List.mem_cons_self)]
    rw [numberedWith_cons, visits, hone]
    dsimp only
    rw [ih (seq + 1) _ (fun c hc => hfits c (List.mem_cons_of_mem _ hc)), numberedWith_cons,
      List.length_cons, List.append_assoc, List.singleton_append,
      show seq + 1 + batches.length = seq + (batches.length + 1) by omega]

/-- Whole batches with one cut short behind them are replayed exactly; the tail is
reported if there is one, and cut off. -/
theorem replay_torn_eq (number synced : ℕ) {startSeq : ℕ} {batches more : List (List Mutation)}
    {t : Bytes} (hfits : ∀ b ∈ batches ++ more, BatchFits b)
    (hseq : startSeq + 1 + (batches ++ more).length ≤ 2 ^ 64)
    (ht : framing.Torn (numberedWith recOf (startSeq + 1 + batches.length) more) t) :
    replay ⟨logBytes number startSeq batches ++ t, synced⟩ =
      .ok (⟨numberedBatches startSeq batches, startSeq + batches.length,
          if t = [] then none else some (logBytes number startSeq batches).length⟩,
        ⟨logBytes number startSeq batches,
          if t = [] then synced else (logBytes number startSeq batches).length⟩) := by
  rw [List.length_append] at hseq
  have hbatches : ∀ b ∈ batches, BatchFits b := fun b hb => hfits b (List.mem_append_left _ hb)
  have hlen : (logBytes number startSeq batches).length = logHeader +
      (framing.encodeAll (numberedWith recOf (startSeq + 1) batches)).length := by
    rw [logBytes, List.length_append, encodeHeader_length]
  have hbody : (logBytes number startSeq batches ++ t).drop logHeader =
      framing.encodeAll (numberedWith recOf (startSeq + 1) batches) ++ t := by
    rw [logBytes, List.append_assoc, List.drop_left' (encodeHeader_length _ _)]
  have hscan := framing.scan_encodeAll visit
    (numbered_fits hbatches (by omega)) (visits_numbered startSeq [] hbatches) logHeader t
  rw [framing.scan_torn visit _ _ (numbered_fits (fun b hb => hfits b (List.mem_append_right _ hb))
    (by omega)) ht, List.nil_append, ← hlen] at hscan
  have hheader : readHeader (logBytes number startSeq batches ++ t) = .ok startSeq := by
    rw [logBytes, List.append_assoc, readHeader_encoded _ _ _ (by omega)]
  rw [replay, hheader]
  dsimp only
  rw [hbody, hscan]
  by_cases htail : t = []
  · simp only [htail, if_true, List.append_nil, numberedBatches]
  · simp only [htail, if_false, truncateAt, List.take_left, numberedBatches]

theorem replay_torn (number synced : ℕ) {startSeq : ℕ} {batches more : List (List Mutation)}
    {t : Bytes} (hfits : ∀ b ∈ batches ++ more, BatchFits b)
    (hseq : startSeq + 1 + (batches ++ more).length ≤ 2 ^ 64)
    (ht : framing.Torn (numberedWith recOf (startSeq + 1 + batches.length) more) t) :
    ∃ cut f, replay ⟨logBytes number startSeq batches ++ t, synced⟩ =
      .ok (⟨numberedBatches startSeq batches, startSeq + batches.length, cut⟩, f) ∧
      f.data = logBytes number startSeq batches :=
  ⟨_, _, replay_torn_eq number synced hfits hseq ht, rfl⟩

/-- A file of whole batches with at most one cut short behind them. -/
def Tears (number startSeq : ℕ) (batches : List (List Mutation)) (d : Bytes) : Prop :=
  ∃ kept rest t, batches = kept ++ rest ∧ d = logBytes number startSeq kept ++ t ∧
    framing.Torn (numberedWith recOf (startSeq + 1 + kept.length) rest) t

section Tears

variable {number startSeq : ℕ} {batches : List (List Mutation)} {d d' : Bytes}

theorem tears_all (number startSeq : ℕ) (batches : List (List Mutation)) :
    Tears number startSeq batches (logBytes number startSeq batches) :=
  ⟨batches, [], [], by simp, by simp, Or.inl rfl⟩

/-- Cutting such a file behind its header leaves such a file. -/
theorem Tears.of_prefix (h : Tears number startSeq batches d)
    (hheader : encodeHeader number startSeq <+: d') (hpre : d' <+: d) :
    Tears number startSeq batches d' := by
  obtain ⟨kept, rest, t, rfl, rfl, ht⟩ := h
  obtain ⟨e, rfl⟩ := hheader
  rw [logBytes, List.append_assoc, List.prefix_append_right_inj] at hpre
  obtain ⟨r₁, r₂, u, hsplit, rfl, hu⟩ := prefix_numberedWith_torn ht hpre
  exact ⟨r₁, r₂, u, hsplit, by rw [logBytes, List.append_assoc], hu⟩

theorem Tears.append (h : Tears number startSeq batches d) (more : List (List Mutation)) :
    Tears number startSeq (batches ++ more) d := by
  obtain ⟨kept, rest, t, rfl, hd, ht⟩ := h
  refine ⟨kept, rest ++ more, t, List.append_assoc .., hd, ht.mono ?_⟩
  rw [numberedWith_append]
  exact List.subset_append_left _ _

/-- Replay finds exactly the whole batches. -/
theorem Tears.replay (h : Tears number startSeq batches d) (hfits : ∀ b ∈ batches, BatchFits b)
    (hseq : startSeq + 1 + batches.length ≤ 2 ^ 64) (synced : ℕ) :
    ∃ kept rest cut f, batches = kept ++ rest ∧
      (∀ j ≤ batches.length, logBytes number startSeq (batches.take j) <+: d → j ≤ kept.length) ∧
      EngineLogs.replay ⟨d, synced⟩ =
        .ok (⟨numberedBatches startSeq kept, startSeq + kept.length, cut⟩, f) := by
  obtain ⟨kept, rest, t, rfl, rfl, ht⟩ := h
  obtain ⟨cut, f, hreplay, -⟩ := replay_torn number synced hfits hseq ht
  refine ⟨kept, rest, cut, f, rfl, ?_, hreplay⟩
  intro j hj hpre
  rw [logBytes, logBytes, List.append_assoc, List.prefix_append_right_inj] at hpre
  rw [List.length_append] at hseq
  exact le_length_of_prefix (numbered_fits (fun b hb => hfits b (List.mem_append_right _ hb))
    (by omega)) ht hj hpre

end Tears

end RedisFromScratch.EngineLogs
