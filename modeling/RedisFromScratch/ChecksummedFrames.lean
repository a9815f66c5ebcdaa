import RedisFromScratch.ByteCoding
import RedisFromScratch.FramedLogs

/-!
Frames of a checksum, the length of the payload, fields of a fixed width and
the payload. The checksum covers everything behind itself. A frame cut short is
known by the length it announces, so the checksum is never needed for a torn
tail.
-/
namespace RedisFromScratch.ChecksummedFrames

open ByteStrings ByteCoding FramedLogs

structure Raw where
  fields : Bytes
  payload : Bytes

/-- What the checksum covers: everything behind itself. -/
def Raw.body (r : Raw) : Bytes := le 4 r.payload.length ++ (r.fields ++ r.payload)

def Raw.encode (poly : UInt32) (r : Raw) : Bytes := le 4 (crc32 poly r.body).toNat ++ r.body

/-- Read one frame whose fields take `width` bytes. -/
def readRaw (poly : UInt32) (width maxPayload : ℕ) (d : Bytes) : Read Raw :=
  if d = [] then .eof
  else if d.length < 8 + width then .damaged
  else
    let len := ofLe ((d.drop 4).take 4)
    if maxPayload < len then .damaged
    else if d.length < 8 + width + len then .damaged
    else if (crc32 poly ((d.drop 4).take (4 + width + len))).toNat ≠ ofLe (d.take 4) then .damaged
    else .frame ⟨(d.drop 8).take width, (d.drop (8 + width)).take len⟩ (8 + width + len)

def Raw.Fits (width maxPayload : ℕ) (r : Raw) : Prop :=
  r.fields.length = width ∧ r.payload.length ≤ maxPayload

variable {poly : UInt32} {width maxPayload : ℕ}

theorem Raw.encode_length (poly : UInt32) {r : Raw} (hr : r.Fits width maxPayload) :
    (r.encode poly).length = 8 + width + r.payload.length := by
  simp only [encode, body, List.length_append, le_length, hr.1]
  omega

/-- The parts of an encoded frame, whatever follows it. -/
theorem Raw.encode_parts (poly : UInt32) {r : Raw} (hr : r.Fits width maxPayload) (rest : Bytes) :
    (r.encode poly ++ rest).take 4 = le 4 (crc32 poly r.body).toNat ∧
      (r.encode poly ++ rest).drop 4 = r.body ++ rest ∧
      ((r.encode poly ++ rest).drop 4).take 4 = le 4 r.payload.length ∧
      ((r.encode poly ++ rest).drop 8).take width = r.fields ∧
      (r.encode poly ++ rest).drop (8 + width) = r.payload ++ rest := by
  have hsum : (le 4 (crc32 poly r.body).toNat).length = 4 := le_length _ _
  have hlen : (le 4 r.payload.length).length = 4 := le_length _ _
  have hdrop : (r.encode poly ++ rest).drop 4 = r.body ++ rest := by
    rw [encode, List.append_assoc, List.drop_left' hsum]
  have hdrop8 : (r.encode poly ++ rest).drop 8 = r.fields ++ (r.payload ++ rest) := by
    rw [show 8 = 4 + 4 from rfl, ← List.drop_drop, hdrop, body, List.append_assoc,
      List.drop_left' hlen, List.append_assoc]
  refine ⟨?_, hdrop, ?_, ?_, ?_⟩
  · rw [encode, List.append_assoc, List.take_left' hsum]
  · rw [hdrop, body, List.append_assoc, List.take_left' hlen]
  · rw [hdrop8, List.take_left' hr.1]
  · rw [← List.drop_drop, hdrop8, List.drop_left' hr.1]

theorem readRaw_encode (hmax : maxPayload < 256 ^ 4) {r : Raw} (hr : r.Fits width maxPayload)
    (rest : Bytes) :
    readRaw poly width maxPayload (r.encode poly ++ rest) =
      .frame r (r.encode poly).length := by
  obtain ⟨hsum, hbody, hlen, hfields, hpayload⟩ := Raw.encode_parts poly hr rest
  have hsize := Raw.encode_length poly hr
  have hplen : r.payload.length < 256 ^ 4 := Nat.lt_of_le_of_lt hr.2 hmax
  have hcrc : (crc32 poly r.body).toNat < 256 ^ 4 := (crc32 poly r.body).toNat_lt
  have hbodylen : r.body.length = 4 + width + r.payload.length := by
    simp only [Raw.body, List.length_append, le_length, hr.1]
    omega
  unfold readRaw
  rw [if_neg (by
      intro hnil
      have := congrArg List.length hnil
      rw [List.length_append, List.length_nil] at this
      omega),
    if_neg (by
      rw [List.length_append, hsize]
      omega)]
  simp only [hlen, hsum, hfields, hpayload, ofLe_le 4 _ hplen, ofLe_le 4 _ hcrc]
  rw [hbody, if_neg (Nat.not_lt.mpr hr.2), if_neg (by rw [List.length_append]; omega),
    ← hbodylen, List.take_left, if_neg (by simp), List.take_left, hsize]

theorem readRaw_torn (hmax : maxPayload < 256 ^ 4) {r : Raw} (hr : r.Fits width maxPayload)
    {t : Bytes} (hpre : t <+: r.encode poly) (hne : t ≠ []) (hcut : t ≠ r.encode poly) :
    readRaw poly width maxPayload t = .damaged := by
  have hsize := Raw.encode_length poly hr
  have hshort : t.length < (r.encode poly).length := by
    rcases hpre.length_le.lt_or_eq with hlt | heq
    · exact hlt
    · exact absurd (hpre.eq_of_length heq) hcut
  obtain ⟨u, hu⟩ := hpre
  unfold readRaw
  rw [if_neg hne]
  by_cases hheader : t.length < 8 + width
  · rw [if_pos hheader]
  · rw [if_neg hheader]
    -- the length field is whole, and promises more than there is
    have hlen : ofLe ((t.drop 4).take 4) = r.payload.length := by
      have hfield := (Raw.encode_parts poly hr []).2.2.1
      rw [List.append_nil, ← hu, List.drop_append_of_le_length (by omega),
        List.take_append_of_le_length (by
          rw [List.length_drop]
          omega)] at hfield
      rw [hfield, ofLe_le 4 _ (Nat.lt_of_le_of_lt hr.2 hmax)]
    simp only [hlen]
    rw [if_neg (Nat.not_lt.mpr hr.2), if_pos (by omega)]

theorem readRaw_frame {d : Bytes} {r : Raw} {n : ℕ}
    (h : readRaw poly width maxPayload d = .frame r n) : 0 < n ∧ n ≤ d.length := by
  unfold readRaw at h
  split at h
  · cases h
  split at h
  · cases h
  dsimp only at h
  split at h
  · cases h
  split at h
  · cases h
  · rename_i hroom
    split at h
    · cases h
    · cases h
      exact ⟨by omega, Nat.not_lt.mp hroom⟩

def rawFraming (poly : UInt32) (width maxPayload : ℕ) (hmax : maxPayload < 256 ^ 4) :
    Framing UInt8 Raw where
  read := readRaw poly width maxPayload
  encode := Raw.encode poly
  Fits := Raw.Fits width maxPayload
  read_nil := rfl
  read_encode _ rest hr := readRaw_encode hmax hr rest
  read_torn _ _ hr hpre hne hcut := readRaw_torn hmax hr hpre hne hcut
  read_frame _ _ _ h := readRaw_frame h

end RedisFromScratch.ChecksummedFrames
