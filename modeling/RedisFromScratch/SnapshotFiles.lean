import RedisFromScratch.GrowingSlices
import RedisFromScratch.LogRecords
import RedisFromScratch.RespReader

/-!
The snapshot file of internal/snapshot: a header, the entries, and a footer with
their number, their length and their checksum. Load reads the footer first and
then the entries with decoders of its own, through a buffered reader and into a
scratch slice that is used again for each entry.
-/
namespace RedisFromScratch.SnapshotFiles

open ByteStrings ByteCoding StoreRecords LogRecords BufferedReader StreamParsers GrowingSlices
open RespReader (toInt64)

/-- The text RFSSNAP with a version. -/
def fileMagic : Bytes := [82, 70, 83, 83, 78, 65, 80, 1]

/-- The text RFSSEND with a version. -/
def footerMagic : Bytes := [82, 70, 83, 83, 69, 78, 68, 1]

def formatVersion : ℕ := 1

def headerSize : ℕ := 32

def footerSize : ℕ := 28

def headerFields (lsn : ℕ) (createdAtMs : ℤ) : Bytes :=
  fileMagic ++ (le 4 formatVersion ++ (le 8 (createdAtMs % 2 ^ 64).toNat ++ le 8 lsn))

def encodeHeader (lsn : ℕ) (createdAtMs : ℤ) : Bytes :=
  headerFields lsn createdAtMs ++
    le 4 (crc32 castagnoli (headerFields lsn createdAtMs)).toNat

/-- `crc32.Update`: the checksum goes on where it was left. -/
def crcUpdate (c : UInt32) (data : Bytes) : UInt32 :=
  ~~~ (data.foldl (crcByte castagnoli) (~~~ c))

def encodeEntry (key : Bytes) (rec : Record) : Bytes :=
  uvarint key.length ++ (key ++ (varint rec.expireAt ++ (uvarint rec.value.length ++ rec.value)))

def encodeFooter (count bodyLen : ℕ) (sum : UInt32) : Bytes :=
  le 8 count ++ (le 8 bodyLen ++ (le 4 sum.toNat ++ footerMagic))

/-- Why an entry cannot be read. -/
inductive EntryError
  | io
  | overflow
  | implausibleLength (n : ℤ)
  deriving DecidableEq, Repr

inductive LoadError
  | notFound
  | short (size : ℕ)
  | badMagic
  | headerChecksum
  | version (v : ℕ)
  | noFooter
  | bodyLength (bodyLen size : ℕ)
  | entry (i : ℕ) (e : EntryError)
  | apply (i : ℕ)
  | bodyChecksum
  | trailing (n : ℕ)
  deriving DecidableEq, Repr

def decodeHeader (hdr : Bytes) : Except LoadError (ℕ × ℤ) :=
  if hdr.take 8 ≠ fileMagic then .error .badMagic
  else if (crc32 castagnoli (hdr.take 28)).toNat ≠ ofLe (hdr.drop 28) then .error .headerChecksum
  else if ofLe ((hdr.drop 8).take 4) ≠ formatVersion then
    .error (.version (ofLe ((hdr.drop 8).take 4)))
  else .ok (ofLe ((hdr.drop 20).take 8), toInt64 (ofLe ((hdr.drop 12).take 8)))

/-- The body ends where the limit is. -/
inductive ReadError
  | eof
  deriving DecidableEq, Repr

section Decoders

variable (room : ℕ → ℕ)

/-- At most `fuel` more bytes; a byte's bits above the 64th are shifted out. -/
def readUvarintFrom : ℕ → ℕ → ℕ → Slice UInt8 → Parser UInt8 ReadError EntryError (ℕ × Slice UInt8)
  | 0, _, _, _ => .reject .overflow
  | fuel + 1, shift, v, buf => do
      let b ← readByte
      let buf := buf.push room b
      if b < 128 then pure (v ||| (b.toNat <<< shift) % 2 ^ 64, buf)
      else readUvarintFrom fuel (shift + 7) (v ||| ((b &&& 127).toNat <<< shift) % 2 ^ 64) buf

def readUvarint (buf : Slice UInt8) : Parser UInt8 ReadError EntryError (ℕ × Slice UInt8) :=
  readUvarintFrom room 10 0 0 buf

/-- The complement of a 64-bit integer is its negative less one. -/
def readVarint (buf : Slice UInt8) : Parser UInt8 ReadError EntryError (ℤ × Slice UInt8) := do
  let u ← readUvarint room buf
  if u.1 &&& 1 ≠ 0 then pure (-toInt64 (u.1 >>> 1) - 1, u.2) else pure (toInt64 (u.1 >>> 1), u.2)

def readN (buf : Slice UInt8) (n : ℤ) : Parser UInt8 ReadError EntryError (Slice UInt8) :=
  if n < 0 ∨ 2 ^ 30 < n then .reject (.implausibleLength n)
  else do
    let xs ← readFull n.toNat id
    pure (((buf.reserve n.toNat).extend n.toNat (buf.reserve_fits n.toNat)).overwrite
      (buf.reserve n.toNat).len xs)

structure Entry where
  key : Bytes
  val : Bytes
  expireAt : ℤ
  /-- The bytes the entry was read from. -/
  raw : Slice UInt8

/-- The key and the value are parts of the slice the whole entry has been read into. -/
def readEntry (scratch : Slice UInt8) : Parser UInt8 ReadError EntryError Entry := do
  let klen ← readUvarint room scratch.reset
  let key ← readN klen.2 (toInt64 klen.1)
  let expireAt ← readVarint room key
  let vlen ← readUvarint room expireAt.2
  let raw ← readN vlen.2 (toInt64 vlen.1)
  pure ⟨(raw.items.take key.len).drop klen.2.len, raw.items.drop vlen.2.len, expireAt.1, raw⟩

/-- Takes a pair or fails. -/
abbrev Applier (σ : Type) := σ → Bytes → Record → Option σ

structure Loading (σ : Type) where
  reader : Reader UInt8 ReadError
  scratch : Slice UInt8
  sum : UInt32
  store : σ

variable {σ : Type} (put : Applier σ)

/-- The `i`-th entry and those behind it, `count` in all. -/
def loadEntries : ℕ → ℕ → Loading σ → Except LoadError (Loading σ)
  | 0, _, st => .ok st
  | count + 1, i, st =>
      match (readEntry room st.scratch).run st.reader with
      | (.ok e, reader) =>
          match put st.store e.key ⟨e.val, e.expireAt⟩ with
          | none => .error (.apply i)
          | some store =>
              loadEntries count (i + 1) ⟨reader, e.raw, crcUpdate st.sum e.raw.items, store⟩
      | (.rejected e, _) => .error (.entry i e)
      | (.failed _, _) => .error (.entry i .io)
      | (.blocked, _) => .error (.entry i .io)

structure Info where
  lsn : ℕ
  createdAtMs : ℤ
  keys : ℕ
  bytes : ℕ
  deriving DecidableEq, Repr

theorem bufferSize_pos : 0 < 1 <<< 20 := by decide

/-- `feed` is how the system hands over the bytes that a limited reader reads. -/
def load (feed : Bytes → List (Event UInt8 ReadError)) (store : σ) (file : Option Bytes) :
    Except LoadError (Info × σ) :=
  match file with
  | none => .error .notFound
  | some data =>
      if data.length < headerSize + footerSize then .error (.short data.length)
      else
        match decodeHeader (data.take headerSize) with
        | .error e => .error e
        | .ok (lsn, createdAtMs) =>
            let ftr := data.drop (data.length - footerSize)
            if ftr.drop 20 ≠ footerMagic then .error .noFooter
            else
              let count := ofLe (ftr.take 8)
              let bodyLen := ofLe ((ftr.drop 8).take 8)
              let wantCRC := ofLe ((ftr.drop 16).take 4)
              if toInt64 bodyLen ≠ (data.length : ℤ) - headerSize - footerSize then
                .error (.bodyLength bodyLen data.length)
              else
                let br := Reader.new (1 <<< 20) bufferSize_pos
                  (feed ((data.drop headerSize).take bodyLen))
                match loadEntries room put count 0 ⟨br, Slice.make 4096, 0, store⟩ with
                | .error e => .error e
                | .ok st =>
                    if st.sum.toNat ≠ wantCRC then .error .bodyChecksum
                    else if st.reader.ahead.length ≠ 0 then
                      .error (.trailing st.reader.ahead.length)
                    else .ok (⟨lsn, createdAtMs, count, data.length⟩, st.store)

end Decoders

/-! What was written is read back. -/

theorem toInt64_emod {z : ℤ} (hlow : -2 ^ 63 ≤ z) (hhigh : z < 2 ^ 63) :
    toInt64 (z % 2 ^ 64).toNat = z := by
  unfold toInt64
  split_ifs <;> omega

theorem toInt64_of_lt {n : ℕ} (h : n < 2 ^ 63) : toInt64 n = n := if_pos h

@[simp] theorem headerFields_length (lsn : ℕ) (createdAtMs : ℤ) :
    (headerFields lsn createdAtMs).length = 28 := by
  simp [headerFields, fileMagic]

@[simp] theorem encodeHeader_length (lsn : ℕ) (createdAtMs : ℤ) :
    (encodeHeader lsn createdAtMs).length = headerSize := by
  simp [encodeHeader, headerSize]

@[simp] theorem encodeFooter_length (count bodyLen : ℕ) (sum : UInt32) :
    (encodeFooter count bodyLen sum).length = footerSize := by
  simp [encodeFooter, footerMagic, footerSize]

theorem decodeHeader_encodeHeader {lsn : ℕ} {createdAtMs : ℤ} (hlsn : lsn < 2 ^ 64)
    (hlow : -2 ^ 63 ≤ createdAtMs) (hhigh : createdAtMs < 2 ^ 63) :
    decodeHeader (encodeHeader lsn createdAtMs) = .ok (lsn, createdAtMs) := by
  have hsum := (crc32 castagnoli (headerFields lsn createdAtMs)).toNat_lt
  have hmagic : (encodeHeader lsn createdAtMs).take 8 = fileMagic := rfl
  have hfields : (encodeHeader lsn createdAtMs).take 28 = headerFields lsn createdAtMs :=
    List.take_left' (by simp)
  have hcheck : (encodeHeader lsn createdAtMs).drop 28 =
      le 4 (crc32 castagnoli (headerFields lsn createdAtMs)).toNat := List.drop_left' (by simp)
  have hversion : ((encodeHeader lsn createdAtMs).drop 8).take 4 = le 4 formatVersion := by
    rw [encodeHeader, headerFields, List.append_assoc, List.drop_left' (by simp [fileMagic]),
      List.append_assoc, List.take_left' (by simp)]
  have hcreated : ((encodeHeader lsn createdAtMs).drop 12).take 8 =
      le 8 (createdAtMs % 2 ^ 64).toNat := by
    rw [encodeHeader, headerFields, ← List.append_assoc fileMagic, List.append_assoc,
      List.drop_left' (by simp [fileMagic]), List.append_assoc, List.take_left' (by simp)]
  have hlast : ((encodeHeader lsn createdAtMs).drop 20).take 8 = le 8 lsn := by
    rw [encodeHeader, headerFields, ← List.append_assoc (le 4 formatVersion),
      ← List.append_assoc fileMagic, List.append_assoc,
      List.drop_left' (by simp [fileMagic]), List.take_left' (by simp)]
  rw [decodeHeader, hmagic, hfields, hcheck, hversion, hcreated, hlast,
    ofLe_le 4 _ (by norm_num; omega), ofLe_le 4 _ (by norm_num [formatVersion]),
    ofLe_le 8 _ (by norm_num; omega), ofLe_le 8 _ (by norm_num; omega), toInt64_emod hlow hhigh]
  simp

section Reading

variable (room : ℕ → ℕ) (size : ℕ)

/-- Bits above those read so far. -/
theorem or_shifted {v d k : ℕ} (hv : v < 2 ^ k) (hd : d * 2 ^ k < 2 ^ 64) :
    v ||| (d <<< k) % 2 ^ 64 = v + d * 2 ^ k := by
  rw [Nat.shiftLeft_eq, Nat.mod_eq_of_lt hd, Nat.or_comm, Nat.mul_comm,
    ← Nat.two_pow_add_eq_or_of_lt hv, Nat.add_comm]

theorem parse_readUvarintFrom (n i v : ℕ) (buf : Slice UInt8) (rest : Bytes)
    (h : n * 2 ^ (7 * i) < 2 ^ 64) (hi : i ≤ 9) (hv : v < 2 ^ (7 * i)) :
    ∃ buf', (readUvarintFrom room (10 - i) (7 * i) v buf).parse size (uvarint n ++ rest) =
        .done (v + n * 2 ^ (7 * i), buf') rest ∧ buf'.items = buf.items ++ uvarint n := by
  induction n using Nat.strongRecOn generalizing i v buf with
  | ind n ih =>
    rw [show 10 - i = 9 - i + 1 by omega, readUvarintFrom, Parser.parse_bind, Parser.parse_readByte,
      uvarint]
    split_ifs with hsmall
    · have hbyte : (UInt8.ofNat n).toNat = n := by
        rw [UInt8.toNat_ofNat']
        omega
      have hlt : UInt8.ofNat n < 128 := by
        rw [UInt8.lt_iff_toNat_lt, hbyte]
        exact hsmall
      refine ⟨buf.push room (UInt8.ofNat n), ?_, buf.items_push room _⟩
      change (if UInt8.ofNat n < 128 then _ else _ : Parser _ _ _ _).parse size rest = _
      rw [if_pos hlt, Parser.parse_pure, hbyte, or_shifted hv h]
    · have hbyte : (UInt8.ofNat (n % 128 + 128)).toNat = n % 128 + 128 := by
        rw [UInt8.toNat_ofNat']
        omega
      have hge : ¬ UInt8.ofNat (n % 128 + 128) < 128 := by
        rw [UInt8.lt_iff_toNat_lt, hbyte]
        change ¬ n % 128 + 128 < 128
        omega
      have hlow : (UInt8.ofNat (n % 128 + 128) &&& 127).toNat = n % 128 := by
        rw [UInt8.toNat_and, hbyte, show (127 : UInt8).toNat = 2 ^ 7 - 1 from rfl,
          Nat.and_two_pow_sub_one_eq_mod]
        omega
      have hpow : 2 ^ (7 * (i + 1)) = 128 * 2 ^ (7 * i) := by
        rw [Nat.mul_add, pow_add]
        norm_num [Nat.mul_comm]
      have hsplit : n * 2 ^ (7 * i) = n % 128 * 2 ^ (7 * i) + n / 128 * 2 ^ (7 * (i + 1)) := by
        rw [hpow]
        conv_lhs => rw [← Nat.mod_add_div n 128]
        ring
      have hnext : i + 1 ≤ 9 := by
        by_contra hcon
        have h9 : i = 9 := by omega
        subst h9
        norm_num at h
        omega
      have hfits : n % 128 * 2 ^ (7 * i) + 2 ^ (7 * i) ≤ 2 ^ (7 * (i + 1)) := by
        rw [hpow, ← Nat.succ_mul]
        exact Nat.mul_le_mul_right _ (Nat.mod_lt n (by decide))
      obtain ⟨buf', hparse, hitems⟩ := ih (n / 128) (by omega) (i + 1)
        (v + n % 128 * 2 ^ (7 * i)) (buf.push room (UInt8.ofNat (n % 128 + 128))) (by omega) hnext
        (by omega)
      refine ⟨buf', ?_, ?_⟩
      · change (if UInt8.ofNat (n % 128 + 128) < 128 then _ else _ : Parser _ _ _ _).parse size
          (uvarint (n / 128) ++ rest) = _
        rw [if_neg hge, hlow, or_shifted hv (by omega), show 9 - i = 10 - (i + 1) by omega,
          show 7 * i + 7 = 7 * (i + 1) by omega, hparse, hsplit, Nat.add_assoc]
      · rw [hitems, buf.items_push, List.append_assoc]
        rfl

theorem parse_readUvarint {n : ℕ} (h : n < 2 ^ 64) (buf : Slice UInt8) (rest : Bytes) :
    ∃ buf', (readUvarint room buf).parse size (uvarint n ++ rest) = .done (n, buf') rest ∧
      buf'.items = buf.items ++ uvarint n := by
  obtain ⟨buf', hparse, hitems⟩ :=
    parse_readUvarintFrom room size n 0 0 buf rest (by simpa using h) (by omega) (by simp)
  refine ⟨buf', ?_, hitems⟩
  rw [readUvarint]
  simpa using hparse

theorem parse_readVarint {z : ℤ} (hlow : -2 ^ 63 ≤ z) (hhigh : z < 2 ^ 63) (buf : Slice UInt8)
    (rest : Bytes) :
    ∃ buf', (readVarint room buf).parse size (varint z ++ rest) = .done (z, buf') rest ∧
      buf'.items = buf.items ++ varint z := by
  have hu := zigzag_lt hlow hhigh
  obtain ⟨buf', hparse, hitems⟩ := parse_readUvarint room size hu buf rest
  refine ⟨buf', ?_, hitems⟩
  rw [readVarint, Parser.parse_bind, varint, hparse, Parsed.bind_done]
  have hhalf : toInt64 (zigzag z >>> 1) = (zigzag z / 2 : ℕ) := by
    rw [Nat.shiftRight_eq_div_pow]
    exact toInt64_of_lt (by omega)
  have hback := unzigzag_zigzag z
  unfold unzigzag at hback
  rw [Nat.and_one_is_mod, hhalf]
  split_ifs at hback with heven
  · rw [if_neg (by omega), Parser.parse_pure, hback]
  · rw [if_pos heven, Parser.parse_pure, hback]

theorem parse_readN {xs : Bytes} (h : xs.length ≤ 2 ^ 30) (buf : Slice UInt8) (rest : Bytes) :
    ∃ buf', (readN buf (toInt64 xs.length)).parse size (xs ++ rest) = .done buf' rest ∧
      buf'.items = buf.items ++ xs := by
  have hlen : toInt64 xs.length = xs.length := toInt64_of_lt (by omega)
  have htake : takeFull xs.length (xs ++ rest) = some (xs, rest) := by
    rw [takeFull, if_pos (by rw [List.length_append]; omega), List.take_left, List.drop_left]
  refine ⟨((buf.reserve xs.length).extend xs.length (buf.reserve_fits xs.length)).overwrite
    (buf.reserve xs.length).len xs, ?_, ?_⟩
  · rw [hlen, readN, if_neg (by omega), Parser.parse_bind]
    simp only [Int.toNat_natCast]
    rw [Parser.parse_readFull, htake]
    rfl
  · rw [(buf.reserve xs.length).items_extend_overwrite _ rfl, buf.items_reserve]

/-- Keys, values and expiries that an image can hold. -/
def Storable (p : Bytes × Record) : Prop :=
  p.1.length ≤ 2 ^ 30 ∧ p.2.value.length ≤ 2 ^ 30 ∧ Int64Range p.2

theorem parse_readEntry {key : Bytes} {rec : Record} (h : Storable (key, rec))
    (scratch : Slice UInt8) (rest : Bytes) :
    ∃ raw, (readEntry room scratch).parse size (encodeEntry key rec ++ rest) =
        .done ⟨key, rec.value, rec.expireAt, raw⟩ rest ∧ raw.items = encodeEntry key rec := by
  obtain ⟨hkey, hvalue, hlow, hhigh⟩ := h
  dsimp only at hkey hvalue hlow hhigh
  obtain ⟨klen, hklen, hklen'⟩ := parse_readUvarint room size
    (show key.length < 2 ^ 64 by omega) scratch.reset
    (key ++ (varint rec.expireAt ++ (uvarint rec.value.length ++ (rec.value ++ rest))))
  obtain ⟨kbuf, hkbuf, hkbuf'⟩ := parse_readN size hkey klen
    (varint rec.expireAt ++ (uvarint rec.value.length ++ (rec.value ++ rest)))
  obtain ⟨ebuf, hebuf, hebuf'⟩ := parse_readVarint room size hlow hhigh kbuf
    (uvarint rec.value.length ++ (rec.value ++ rest))
  obtain ⟨vlen, hvlen, hvlen'⟩ := parse_readUvarint room size
    (show rec.value.length < 2 ^ 64 by omega) ebuf (rec.value ++ rest)
  obtain ⟨raw, hraw, hraw'⟩ := parse_readN size hvalue vlen rest
  rw [Slice.items_reset, List.nil_append] at hklen'
  have hitems : raw.items = encodeEntry key rec := by
    rw [hraw', hvlen', hebuf', hkbuf', hklen', encodeEntry]
    simp only [List.append_assoc]
  have hkeyPart : (raw.items.take kbuf.len).drop klen.len = key := by
    have hfront : raw.items = kbuf.items ++
        (varint rec.expireAt ++ (uvarint rec.value.length ++ rec.value)) := by
      rw [hraw', hvlen', hebuf']
      simp only [List.append_assoc]
    rw [hfront, List.take_left' kbuf.length_items, hkbuf', List.drop_left' klen.length_items]
  have hvalPart : raw.items.drop vlen.len = rec.value := by
    rw [hraw', List.drop_left' vlen.length_items]
  refine ⟨raw, ?_, hitems⟩
  rw [encodeEntry]
  simp only [List.append_assoc]
  rw [readEntry, Parser.parse_bind, hklen, Parsed.bind_done, Parser.parse_bind, hkbuf,
    Parsed.bind_done, Parser.parse_bind, hebuf, Parsed.bind_done, Parser.parse_bind, hvlen,
    Parsed.bind_done, Parser.parse_bind, hraw, Parsed.bind_done, Parser.parse_pure, hkeyPart,
    hvalPart]

end Reading

section Images

variable {σ : Type} (room : ℕ → ℕ) (put : Applier σ)

/-- The pairs are handed over in order, until one is refused. -/
def applyAll : ℕ → σ → List (Bytes × Record) → Except LoadError σ
  | _, store, [] => .ok store
  | i, store, (key, rec) :: pairs =>
      match put store key rec with
      | none => .error (.apply i)
      | some store => applyAll (i + 1) store pairs

def body (pairs : List (Bytes × Record)) : Bytes := pairs.flatMap fun p => encodeEntry p.1 p.2

def bodySum (sum : UInt32) (pairs : List (Bytes × Record)) : UInt32 :=
  pairs.foldl (fun c p => crcUpdate c (encodeEntry p.1 p.2)) sum

/-- The whole file. -/
def image (lsn : ℕ) (createdAtMs : ℤ) (pairs : List (Bytes × Record)) : Bytes :=
  encodeHeader lsn createdAtMs ++
    (body pairs ++ encodeFooter pairs.length (body pairs).length (bodySum 0 pairs))

theorem loadEntries_body {pairs : List (Bytes × Record)} (h : ∀ p ∈ pairs, Storable p) (i : ℕ)
    (st : Loading σ) (rest : Bytes) (hahead : st.reader.ahead = body pairs ++ rest) :
    match applyAll put i st.store pairs with
    | .error e => loadEntries room put pairs.length i st = .error e
    | .ok store => ∃ st', loadEntries room put pairs.length i st = .ok st' ∧ st'.store = store ∧
        st'.sum = bodySum st.sum pairs ∧ st'.reader.ahead = rest := by
  induction pairs generalizing i st with
  | nil => exact ⟨st, rfl, rfl, rfl, hahead⟩
  | cons p pairs ih =>
    obtain ⟨key, rec⟩ := p
    have hbody : st.reader.ahead = encodeEntry key rec ++ (body pairs ++ rest) := by
      rw [hahead, body, List.flatMap_cons, List.append_assoc]
      rfl
    obtain ⟨raw, hparse, hraw⟩ := parse_readEntry room st.reader.size
      (h (key, rec) List.mem_cons_self) st.scratch (body pairs ++ rest)
    rw [← hbody] at hparse
    obtain ⟨hok, hrest⟩ := (run_ok_iff _ _ _ _).mpr hparse
    rw [List.length_cons, loadEntries, applyAll]
    rcases hrun : (readEntry room st.scratch).run st.reader with ⟨out, reader⟩
    rw [hrun] at hok hrest
    subst hok
    dsimp only
    cases hput : put st.store key rec with
    | none => rfl
    | some store =>
      have hnext := ih (fun p hp => h p (List.mem_cons_of_mem _ hp)) (i + 1)
        ⟨reader, raw, crcUpdate st.sum raw.items, store⟩ hrest
      rw [hraw] at hnext
      rw [hraw]
      exact hnext

theorem length_le_body (pairs : List (Bytes × Record)) : pairs.length ≤ (body pairs).length := by
  induction pairs with
  | nil => exact Nat.le_refl _
  | cons p pairs =>
    have hpos : 0 < (uvarint p.1.length).length := by
      rw [uvarint]
      split_ifs <;> exact Nat.succ_pos _
    have hcons : (body (p :: pairs)).length =
        (encodeEntry p.1 p.2).length + (body pairs).length := by
      rw [body, List.flatMap_cons, List.length_append]
      rfl
    rw [hcons, encodeEntry]
    simp only [List.length_append, List.length_cons]
    omega

theorem image_length (lsn : ℕ) (createdAtMs : ℤ) (pairs : List (Bytes × Record)) :
    (image lsn createdAtMs pairs).length = headerSize + ((body pairs).length + footerSize) := by
  rw [image, List.length_append, List.length_append, encodeHeader_length, encodeFooter_length]

/-- The parts of a footer. -/
theorem encodeFooter_parts {count bodyLen : ℕ} (hcount : count < 2 ^ 64) (hlen : bodyLen < 2 ^ 64)
    (sum : UInt32) :
    (encodeFooter count bodyLen sum).drop 20 = footerMagic ∧
      ofLe ((encodeFooter count bodyLen sum).take 8) = count ∧
      ofLe (((encodeFooter count bodyLen sum).drop 8).take 8) = bodyLen ∧
      ofLe (((encodeFooter count bodyLen sum).drop 16).take 4) = sum.toNat := by
  have hsum := sum.toNat_lt
  unfold encodeFooter
  refine ⟨?_, ?_, ?_, ?_⟩
  · rw [← List.append_assoc (le 8 bodyLen), ← List.append_assoc, List.drop_left' (by simp)]
  · rw [List.take_left' (by simp), ofLe_le 8 _ (by norm_num; omega)]
  · rw [List.drop_left' (by simp), List.take_left' (by simp), ofLe_le 8 _ (by norm_num; omega)]
  · rw [← List.append_assoc, List.drop_left' (by simp), List.take_left' (by simp),
      ofLe_le 4 _ (by norm_num; omega)]

/-- An image is loaded: its pairs are handed over in order, and its numbers returned. -/
theorem load_image {feed : Bytes → List (Event UInt8 ReadError)}
    (hfeed : ∀ d, upcoming (feed d) = d) {lsn : ℕ} {createdAtMs : ℤ}
    {pairs : List (Bytes × Record)} (hlsn : lsn < 2 ^ 64) (hlow : -2 ^ 63 ≤ createdAtMs)
    (hhigh : createdAtMs < 2 ^ 63) (hpairs : ∀ p ∈ pairs, Storable p)
    (hsize : (image lsn createdAtMs pairs).length < 2 ^ 63) (store : σ) :
    load room put feed store (some (image lsn createdAtMs pairs)) =
      (applyAll put 0 store pairs).map fun store =>
        (⟨lsn, createdAtMs, pairs.length, (image lsn createdAtMs pairs).length⟩, store) := by
  have hcount := length_le_body pairs
  have hlen := image_length lsn createdAtMs pairs
  have hheader : (image lsn createdAtMs pairs).take headerSize = encodeHeader lsn createdAtMs :=
    List.take_left' (encodeHeader_length _ _)
  have hfooter : (image lsn createdAtMs pairs).drop
      ((image lsn createdAtMs pairs).length - footerSize) =
        encodeFooter pairs.length (body pairs).length (bodySum 0 pairs) := by
    rw [hlen, image, ← List.append_assoc]
    refine List.drop_left' ?_
    rw [List.length_append, encodeHeader_length]
    omega
  have hbody : ((image lsn createdAtMs pairs).drop headerSize).take (body pairs).length =
      body pairs := by
    rw [image, List.drop_left' (encodeHeader_length _ _), List.take_left]
  obtain ⟨hmagic, hkeys, hbodyLen, hsum⟩ := encodeFooter_parts
    (show pairs.length < 2 ^ 64 by omega) (show (body pairs).length < 2 ^ 64 by omega)
    (bodySum 0 pairs)
  have hentries := loadEntries_body room put hpairs 0
    ⟨Reader.new (1 <<< 20) bufferSize_pos (feed (body pairs)), Slice.make 4096, 0, store⟩ []
    (by rw [List.append_nil]; exact hfeed _)
  have hwhole : toInt64 (body pairs).length =
      ((image lsn createdAtMs pairs).length : ℤ) - headerSize - footerSize := by
    rw [toInt64_of_lt (by omega), hlen]
    push_cast
    omega
  unfold load
  dsimp only
  rw [if_neg (by omega), hheader, decodeHeader_encodeHeader hlsn hlow hhigh]
  dsimp only
  rw [hfooter, hmagic, hkeys, hbodyLen, hsum, if_neg (fun h => h rfl), hbody,
    if_neg (fun h => h hwhole)]
  cases happly : applyAll put 0 store pairs with
  | error =>
    rw [happly] at hentries
    rw [hentries]
    rfl
  | ok =>
    rw [happly] at hentries
    obtain ⟨st, hload, hstore, hcheck, hrest⟩ := hentries
    rw [hload]
    dsimp only
    rw [if_neg (fun h => h (by rw [hcheck])), hrest, if_neg (fun h => h rfl), hstore]
    rfl

end Images

end RedisFromScratch.SnapshotFiles
