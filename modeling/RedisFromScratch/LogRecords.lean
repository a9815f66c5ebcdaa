import RedisFromScratch.ChecksummedFrames
import RedisFromScratch.StoreRecords

/-!
Records of the segmented log in internal/wal: payload codecs and the framing
of a record as checksum, length, type, sequence number and payload. The framing
recognises a record cut short from the length it announces, so the checksum is
never needed for a torn tail.
-/
namespace RedisFromScratch.LogRecords

open ByteStrings ByteCoding FramedLogs ChecksummedFrames StoreRecords

def recPut : UInt8 := 1

def recDelete : UInt8 := 2

def recFlushAll : UInt8 := 3

def recBatch : UInt8 := 4

/-- Checksum, payload length, type and sequence number. -/
def headerSize : ℕ := 17

def maxRecordSize : ℕ := 2 ^ 30

/-- CRC-32C, bit-reversed. -/
def castagnoli : UInt32 := 0x82F63B78

structure Frame where
  typ : UInt8
  lsn : ℕ
  payload : Bytes
  deriving DecidableEq, Repr

/-- What the checksum covers: everything after itself. -/
def Frame.body (f : Frame) : Bytes :=
  le 4 f.payload.length ++ f.typ :: (le 8 f.lsn ++ f.payload)

def Frame.encode (f : Frame) : Bytes := le 4 (crc32 castagnoli f.body).toNat ++ f.body

def appendRecord (dst : Bytes) (typ : UInt8) (lsn : ℕ) (payload : Bytes) : Bytes :=
  dst ++ Frame.encode ⟨typ, lsn, payload⟩

/-- Read one record, as the replay loop does it. -/
def readRecord (d : Bytes) : Read Frame :=
  if d = [] then .eof
  else if d.length < headerSize then .damaged
  else
    let want := ofLe (d.take 4)
    let plen := ofLe ((d.drop 4).take 4)
    let typ := d.getD 8 0
    let lsn := ofLe ((d.drop 9).take 8)
    if maxRecordSize < plen then .damaged
    else if d.length < headerSize + plen then .damaged
    else if (crc32 castagnoli ((d.drop 4).take (13 + plen))).toNat ≠ want then .damaged
    else .frame ⟨typ, lsn, (d.drop headerSize).take plen⟩ (headerSize + plen)

def Frame.Fits (f : Frame) : Prop := f.lsn < 2 ^ 64 ∧ f.payload.length ≤ maxRecordSize

theorem Frame.encode_length (f : Frame) : f.encode.length = headerSize + f.payload.length := by
  simp only [encode, body, List.length_append, List.length_cons, le_length, headerSize]
  omega

/-- The type and the number are the fields of a checksummed frame. -/
def Frame.raw (f : Frame) : Raw := ⟨f.typ :: le 8 f.lsn, f.payload⟩

def frameOfRaw (r : Raw) : Frame := ⟨r.fields.getD 0 0, ofLe (r.fields.drop 1), r.payload⟩

theorem Frame.encode_eq_raw (f : Frame) : f.encode = f.raw.encode castagnoli := rfl

theorem Frame.raw_fits {f : Frame} (hf : f.Fits) : f.raw.Fits 9 maxRecordSize :=
  ⟨by simp [raw], hf.2⟩

theorem frameOfRaw_raw {f : Frame} (hf : f.Fits) : frameOfRaw f.raw = f := by
  simp [frameOfRaw, Frame.raw, ofLe_le 8 _ hf.1]

theorem readRecord_eq_raw (d : Bytes) :
    readRecord d = (readRaw castagnoli 9 maxRecordSize d).map frameOfRaw := by
  have htyp : ((d.drop 8).take 9).getD 0 0 = d.getD 8 0 := by
    simp [List.getD_eq_getElem?_getD]
  have hlsn : ((d.drop 8).take 9).drop 1 = (d.drop 9).take 8 := by
    rw [List.drop_take, List.drop_drop]
  unfold readRecord readRaw
  rw [show headerSize = 8 + 9 from rfl]
  dsimp only
  rw [show 13 + ofLe ((d.drop 4).take 4) = 4 + 9 + ofLe ((d.drop 4).take 4) by omega]
  split_ifs <;> simp only [Read.map, frameOfRaw, htyp, hlsn]

theorem maxRecordSize_lt : maxRecordSize < 256 ^ 4 := by decide

theorem readRecord_encode (f : Frame) (rest : Bytes) (hf : f.Fits) :
    readRecord (f.encode ++ rest) = .frame f f.encode.length := by
  rw [readRecord_eq_raw, f.encode_eq_raw, readRaw_encode maxRecordSize_lt (Frame.raw_fits hf),
    Read.map, frameOfRaw_raw hf]

theorem readRecord_torn (f : Frame) (t : Bytes) (hf : f.Fits) (hpre : t <+: f.encode)
    (hne : t ≠ []) (hcut : t ≠ f.encode) : readRecord t = .damaged := by
  rw [readRecord_eq_raw, readRaw_torn maxRecordSize_lt (Frame.raw_fits hf) hpre hne hcut, Read.map]

theorem readRecord_frame (d : Bytes) (f : Frame) (n : ℕ) (h : readRecord d = .frame f n) :
    0 < n ∧ n ≤ d.length := by
  rw [readRecord_eq_raw] at h
  exact ((rawFraming castagnoli 9 maxRecordSize maxRecordSize_lt).view Frame.raw
    frameOfRaw).read_frame d f n h

/-- Records of the segmented log as a framing. -/
def framing : Framing UInt8 Frame where
  read := readRecord
  encode := Frame.encode
  Fits := Frame.Fits
  read_nil := rfl
  read_encode := readRecord_encode
  read_torn := readRecord_torn
  read_frame := readRecord_frame

theorem framing_read : framing.read = readRecord := rfl

theorem framing_encode : framing.encode = Frame.encode := rfl

theorem encode_ne_nil (f : Frame) : framing.encode f ≠ [] := by
  intro hnil
  have hlen : f.encode.length = 0 := by rw [show f.encode = [] from hnil, List.length_nil]
  rw [f.encode_length, headerSize] at hlen
  omega

def appendPutPayload (key : Bytes) (rec : Record) : Bytes :=
  uvarint key.length ++ (key ++ (varint rec.expireAt ++ (uvarint rec.value.length ++ rec.value)))

def appendDeletePayload (key : Bytes) : Bytes := uvarint key.length ++ key

def mutationPayload (m : Mutation) : Bytes :=
  if m.delete then recDelete :: appendDeletePayload m.key
  else recPut :: appendPutPayload m.key m.record

def appendBatchPayload (muts : List Mutation) : Bytes :=
  uvarint muts.length ++ muts.flatMap mutationPayload

/-- A length-prefixed byte string and what follows it. -/
def takeBytes (p : Bytes) : Option (Bytes × Bytes) :=
  match readUvarint 0 0 p with
  | none => none
  | some (n, q) => if q.length < n then none else some (q.take n, q.drop n)

/-- Key already read: expiry, value and what follows. -/
def takeRecord (p : Bytes) : Option (Record × Bytes) :=
  match readVarint p with
  | none => none
  | some (exp, q) => (takeBytes q).map (fun r => (⟨r.1, exp⟩, r.2))

def decodePut (p : Bytes) : Option (Bytes × Record) :=
  match takeBytes p with
  | none => none
  | some (key, q) =>
      match takeRecord q with
      | none => none
      | some (rec, rest) => if rest = [] then some (key, rec) else none

def decodeDelete (p : Bytes) : Option Bytes :=
  match takeBytes p with
  | none => none
  | some (key, rest) => if rest = [] then some key else none

def decodeMutation : Bytes → Option (Mutation × Bytes)
  | [] => none
  | sub :: p =>
      match takeBytes p with
      | none => none
      | some (key, rest) =>
          if sub = recDelete then some (⟨key, Record.zero, true⟩, rest)
          else if sub = recPut then
            (takeRecord rest).map (fun r => (⟨key, r.1, false⟩, r.2))
          else none

def decodeMutations : ℕ → Bytes → Option (List Mutation)
  | 0, p => if p = [] then some [] else none
  | n + 1, p =>
      match decodeMutation p with
      | none => none
      | some (m, rest) => (decodeMutations n rest).map (fun ms => m :: ms)

def decodeBatch (p : Bytes) : Option (List Mutation) :=
  match readUvarint 0 0 p with
  | none => none
  | some (n, q) => if maxRecordSize < n then none else decodeMutations n q

def typ : LogRecord → UInt8
  | .put _ _ => recPut
  | .delete _ => recDelete
  | .flushAll => recFlushAll
  | .batch _ => recBatch

def payload : LogRecord → Bytes
  | .put key rec => appendPutPayload key rec
  | .delete key => appendDeletePayload key
  | .flushAll => []
  | .batch muts => appendBatchPayload muts

/-- The record replay hands to the applier, if the payload is sound. -/
def decodeRecord (t : UInt8) (p : Bytes) : Option LogRecord :=
  if t = recPut then (decodePut p).map (fun r => .put r.1 r.2)
  else if t = recDelete then (decodeDelete p).map .delete
  else if t = recFlushAll then (if p = [] then some .flushAll else none)
  else if t = recBatch then (decodeBatch p).map .batch
  else none

/-- Expiries are 64-bit signed integers. -/
def Int64Range (r : Record) : Prop := -2 ^ 63 ≤ r.expireAt ∧ r.expireAt < 2 ^ 63

def InRange : LogRecord → Prop
  | .put _ rec => Int64Range rec
  | .delete _ => True
  | .flushAll => True
  | .batch muts => ∀ m ∈ muts, Int64Range m.record

/-- A delete is logged without the record its mutation carried. -/
def stripMutation (m : Mutation) : Mutation :=
  if m.delete then ⟨m.key, Record.zero, true⟩ else ⟨m.key, m.record, false⟩

def strip : LogRecord → LogRecord
  | .batch muts => .batch (muts.map stripMutation)
  | rec => rec

theorem strip_writes (rec : LogRecord) : (strip rec).writes = rec.writes := by
  cases rec with
  | put | delete | flushAll => rfl
  | batch =>
    simp only [strip, LogRecord.writes, List.map_map]
    apply List.map_congr_left
    intro m _
    unfold stripMutation Mutation.outcome
    cases hd : m.delete <;> simp [hd]

theorem takeBytes_encoded (b rest : Bytes) (h : b.length < 2 ^ 64) :
    takeBytes (uvarint b.length ++ (b ++ rest)) = some (b, rest) := by
  simp [takeBytes, readUvarint_uvarint_zero _ _ h]

theorem takeRecord_encoded (r : Record) (rest : Bytes) (hr : Int64Range r)
    (h : r.value.length < 2 ^ 64) :
    takeRecord (varint r.expireAt ++ (uvarint r.value.length ++ (r.value ++ rest))) =
      some (r, rest) := by
  simp [takeRecord, readVarint_varint _ _ hr.1 hr.2, takeBytes_encoded _ _ h]

theorem decodePut_encoded (key : Bytes) (r : Record) (hr : Int64Range r)
    (hlen : (appendPutPayload key r).length ≤ maxRecordSize) :
    decodePut (appendPutPayload key r) = some (key, r) := by
  simp only [appendPutPayload, List.length_append, maxRecordSize] at hlen
  have hvalue := takeRecord_encoded r [] hr (by omega)
  rw [List.append_nil] at hvalue
  unfold decodePut appendPutPayload
  rw [takeBytes_encoded key _ (by omega)]
  simp [hvalue]

theorem decodeDelete_encoded (key : Bytes)
    (hlen : (appendDeletePayload key).length ≤ maxRecordSize) :
    decodeDelete (appendDeletePayload key) = some key := by
  simp only [appendDeletePayload, List.length_append, maxRecordSize] at hlen
  have hkey := takeBytes_encoded key [] (by omega)
  rw [List.append_nil] at hkey
  simp [decodeDelete, appendDeletePayload, hkey]

theorem decodeMutation_encoded (m : Mutation) (rest : Bytes) (hm : Int64Range m.record)
    (hlen : (mutationPayload m).length < 2 ^ 64) :
    decodeMutation (mutationPayload m ++ rest) = some (stripMutation m, rest) := by
  unfold mutationPayload stripMutation at *
  cases hd : m.delete with
  | true =>
    simp only [hd, if_true, List.length_cons, appendDeletePayload, List.length_append] at hlen
    simp only [if_true, appendDeletePayload, List.cons_append, List.append_assoc, decodeMutation]
    rw [takeBytes_encoded m.key rest (by omega)]
  | false =>
    simp only [hd, Bool.false_eq_true, if_false, List.length_cons, appendPutPayload,
      List.length_append] at hlen
    simp only [Bool.false_eq_true, if_false, appendPutPayload, List.cons_append, List.append_assoc,
      decodeMutation]
    rw [takeBytes_encoded m.key _ (by omega)]
    have hne : recPut ≠ recDelete := by decide
    simp [hne, takeRecord_encoded m.record rest hm (by omega)]

theorem decodeMutations_encoded (muts : List Mutation) (hm : ∀ m ∈ muts, Int64Range m.record)
    (hlen : (muts.flatMap mutationPayload).length ≤ maxRecordSize) :
    decodeMutations muts.length (muts.flatMap mutationPayload) =
      some (muts.map stripMutation) := by
  induction muts with
  | nil => simp [decodeMutations]
  | cons m muts ih =>
    rw [List.flatMap_cons, List.length_append] at hlen
    have hmax : maxRecordSize < 2 ^ 64 := by decide
    have hfirst := decodeMutation_encoded m (muts.flatMap mutationPayload)
      (hm m List.mem_cons_self) (by omega)
    have hrest := ih (fun x hx => hm x (List.mem_cons_of_mem _ hx)) (by omega)
    simp [decodeMutations, hfirst, hrest]

theorem length_le_flatMap_mutationPayload (muts : List Mutation) :
    muts.length ≤ (muts.flatMap mutationPayload).length := by
  induction muts with
  | nil => simp
  | cons m =>
    have hpos : 0 < (mutationPayload m).length := by
      unfold mutationPayload
      split <;> simp
    rw [List.flatMap_cons, List.length_append, List.length_cons]
    omega

theorem decodeBatch_encoded (muts : List Mutation) (hm : ∀ m ∈ muts, Int64Range m.record)
    (hlen : (appendBatchPayload muts).length ≤ maxRecordSize) :
    decodeBatch (appendBatchPayload muts) = some (muts.map stripMutation) := by
  simp only [appendBatchPayload, List.length_append] at hlen
  have hcount := length_le_flatMap_mutationPayload muts
  have hmax : maxRecordSize < 2 ^ 64 := by decide
  unfold decodeBatch appendBatchPayload
  rw [readUvarint_uvarint_zero _ _ (by omega)]
  dsimp only
  rw [if_neg (by omega), decodeMutations_encoded muts hm (by omega)]

/-- What a record's payload encodes is what replay hands on. -/
theorem decodeRecord_encoded (rec : LogRecord) (hr : InRange rec)
    (hlen : (payload rec).length ≤ maxRecordSize) :
    decodeRecord (typ rec) (payload rec) = some (strip rec) := by
  cases rec with
  | put key r => simp [decodeRecord, typ, payload, strip, decodePut_encoded key r hr hlen]
  | delete key =>
    have hne : recDelete ≠ recPut := by decide
    simp [decodeRecord, typ, payload, strip, hne, decodeDelete_encoded key hlen]
  | flushAll =>
    have h1 : recFlushAll ≠ recPut := by decide
    have h2 : recFlushAll ≠ recDelete := by decide
    simp [decodeRecord, typ, payload, strip, h1, h2]
  | batch muts =>
    have h1 : recBatch ≠ recPut := by decide
    have h2 : recBatch ≠ recDelete := by decide
    have h3 : recBatch ≠ recFlushAll := by decide
    simp [decodeRecord, typ, payload, strip, h1, h2, h3, decodeBatch_encoded muts hr hlen]

/-- A record under its sequence number. -/
def frameOf (lsn : ℕ) (rec : LogRecord) : Frame := ⟨typ rec, lsn, payload rec⟩

end RedisFromScratch.LogRecords
