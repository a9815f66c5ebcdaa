import RedisFromScratch.TableFiles
import Mathlib.Data.List.Forall2

/-!
Reading an SSTable file: the footer from the end, the filter and the index it
points at, and data blocks on demand. Over handles that lead to the blocks of a
table, a lookup and the iterator answer as the table does.
-/
namespace RedisFromScratch.TableReads

open ByteStrings ByteCoding SortedTables BloomFilters EngineTypes EngineCoding SsTables TableFiles

/-- Exactly so many bytes at an offset, or an error. -/
def pread (file : Bytes) (offset len : ℕ) : Option Bytes :=
  if len ≤ (file.drop offset).length then some ((file.drop offset).take len) else none

theorem pread_middle (pre mid post : Bytes) :
    pread (pre ++ (mid ++ post)) pre.length mid.length = some mid := by
  simp [pread]

/-- A little-endian field at a cursor. -/
def getFixed (w : ℕ) (d : Bytes) : Option (ℕ × Bytes) :=
  if d.length < w then none else some (ofLe (d.take w), d.drop w)

theorem getFixed_le {w n : ℕ} (h : n < 256 ^ w) (rest : Bytes) :
    getFixed w (le w n ++ rest) = some (n, rest) := by
  have htake : (le w n ++ rest).take w = le w n := by simp
  have hdrop : (le w n ++ rest).drop w = rest := by simp
  rw [getFixed, if_neg (by simp), htake, hdrop, ofLe_le w n h]

section Reading

variable (checksum : Bytes → UInt32)

def verifyTrailingChecksum (block : Bytes) : Option Bytes :=
  if block.length < 4 then none
  else if (checksum (block.take (block.length - 4))).toNat = ofLe (block.drop (block.length - 4))
    then some (block.take (block.length - 4))
  else none

theorem verify_withChecksum (payload : Bytes) :
    verifyTrailingChecksum checksum (withChecksum checksum payload) = some payload := by
  have hsplit : (withChecksum checksum payload).length - 4 = payload.length := by
    rw [withChecksum_length, Nat.add_sub_cancel]
  have htake : (withChecksum checksum payload).take payload.length = payload := by
    simp [withChecksum]
  have hdrop : (withChecksum checksum payload).drop payload.length =
      le 4 (checksum payload).toNat := by
    simp [withChecksum]
  unfold verifyTrailingChecksum
  rw [if_neg (by simp [withChecksum_length]), hsplit, htake, hdrop,
    ofLe_le 4 _ (checksum payload).toNat_lt, if_pos rfl]

structure Footer where
  bloomOffset : ℕ
  bloomLen : ℕ
  indexOffset : ℕ
  indexLen : ℕ
  entryCount : ℕ
  deriving DecidableEq, Repr

/-- The fields of a footer, up to a version this build reads. -/
def readFields (d : Bytes) : Option Footer :=
  (getFixed 8 d).bind fun (bloomOffset, d) =>
  (getFixed 8 d).bind fun (bloomLen, d) =>
  (getFixed 8 d).bind fun (indexOffset, d) =>
  (getFixed 8 d).bind fun (indexLen, d) =>
  (getFixed 8 d).bind fun (entryCount, d) =>
  (getFixed 4 d).bind fun (version, _) =>
    if version = formatVersion then some ⟨bloomOffset, bloomLen, indexOffset, indexLen, entryCount⟩
    else none

/-- Magic, checksum, version, and two blocks inside the file. -/
def readFooter (file : Bytes) : Option Footer :=
  if file.length < footerSize then none
  else (pread file (file.length - footerSize) footerSize).bind fun footer =>
    if ofLe (footer.drop (footerSize - 8)) = magic then
      if (checksum (footer.take (footerSize - 12))).toNat =
          ofLe ((footer.drop (footerSize - 12)).take 4) then
        (readFields footer).bind fun f =>
          if file.length < f.bloomOffset + f.bloomLen ∨ file.length < f.indexOffset + f.indexLen
          then none else some f
      else none
    else none

def readBloom (file : Bytes) (f : Footer) : Option Bloom :=
  (pread file f.bloomOffset f.bloomLen).bind fun block =>
  (verifyTrailingChecksum checksum block).bind fun payload =>
    if payload.length < 4 then none else some ⟨payload.drop 4, ofLe (payload.take 4)⟩

/-- So many handles, each to a block before the filter. -/
def readHandles (bloomOffset : ℕ) : ℕ → Bytes → Option (List BlockHandle)
  | 0, _ => some []
  | n + 1, d =>
      (getBytes d).bind fun (lastKey, d) =>
      (getUvarint 0 0 d).bind fun (offset, d) =>
      (getUvarint 0 0 d).bind fun (length, d) =>
        if bloomOffset < offset + length % 2 ^ 32 then none
        else (readHandles bloomOffset n d).map fun rest =>
          ⟨lastKey, offset, length % 2 ^ 32⟩ :: rest

structure IndexContents where
  minKey : Bytes
  maxKey : Bytes
  handles : List BlockHandle

def readIndex (file : Bytes) (f : Footer) : Option IndexContents :=
  (pread file f.indexOffset f.indexLen).bind fun block =>
  (verifyTrailingChecksum checksum block).bind fun payload =>
  (getBytes payload).bind fun (minKey, d) =>
  (getBytes d).bind fun (maxKey, d) =>
  (getUvarint 0 0 d).bind fun (count, d) =>
    if file.length < count then none
    else (readHandles f.bloomOffset count d).map fun handles => ⟨minKey, maxKey, handles⟩

/-- An open table: the file, and what of it is kept in memory. -/
structure Opened where
  file : Bytes
  index : List BlockHandle
  bloom : Bloom
  minKey : Bytes
  maxKey : Bytes
  entryCount : ℕ

def openTable (file : Bytes) : Option Opened :=
  (readFooter checksum file).bind fun f =>
  (readBloom checksum file f).bind fun bloom =>
  (readIndex checksum file f).map fun i =>
    ⟨file, i.handles, bloom, i.minKey, i.maxKey, f.entryCount⟩

def Opened.mayContain (t : Opened) (key : Bytes) : Bool :=
  decide (t.minKey ≤ key) && decide (key ≤ t.maxKey) && t.bloom.mayContain key

/-- The entries of a block: its checksum verified, its entry count cut off. -/
def readPayload (file : Bytes) (h : BlockHandle) : Option Bytes :=
  (pread file h.offset h.length).bind fun raw =>
  (verifyTrailingChecksum checksum raw).bind fun payload =>
    if payload.length < 4 then none else some (payload.take (payload.length - 4))

end Reading

theorem getUvarint_shortens {i v : ℕ} {d : Bytes} {r : ℕ × Bytes}
    (h : getUvarint i v d = some r) : r.2.length < d.length := by
  induction d generalizing i v with
  | nil => cases h
  | cons b d ih =>
    rw [getUvarint] at h
    split at h
    · cases h
    split at h
    · split at h
      · cases h
        exact Nat.lt_succ_self _
      · cases h
    · exact Nat.lt_succ_of_lt (ih h)

theorem getBytes_shortens {d : Bytes} {r : Bytes × Bytes} (h : getBytes d = some r) :
    r.2.length < d.length := by
  unfold getBytes at h
  split at h
  · cases h
  · rename_i n rest hn
    have hrest := getUvarint_shortens hn
    split at h
    · cases h
    · cases h
      exact lt_of_le_of_lt (by simp) hrest

/-- Decoding an entry moves on. -/
theorem decodeEntry_shortens {d : Bytes} {r : (Bytes × Entry) × Bytes}
    (h : decodeEntry d = some r) : r.2.length < d.length := by
  unfold decodeEntry at h
  split at h
  · cases h
  · cases h
  · rename_i key tag p hkey
    have hrest := getBytes_shortens hkey
    rw [List.length_cons] at hrest
    split at h
    · cases h
      exact Nat.lt_of_succ_lt hrest
    · split at h
      · split at h
        · cases h
        · rename_i exp q hexp
          obtain ⟨⟨n, q'⟩, hn, heq⟩ := Option.map_eq_some_iff.mp hexp
          have hq := getUvarint_shortens hn
          obtain ⟨s, hs, rfl⟩ := Option.map_eq_some_iff.mp h
          have hs' := getBytes_shortens hs
          cases heq
          change s.2.length < d.length
          change q'.length < p.length at hq
          change s.2.length < q'.length at hs'
          omega
      · cases h

/-- Read entries up to the first key that is not below the target. -/
def scanPayload (key : Bytes) (d : Bytes) : Option (Option Entry) :=
  if d = [] then some none
  else match _h : decodeEntry d with
    | none => none
    | some ((k, e), rest) =>
        if k < key then scanPayload key rest else if k = key then some (some e) else some none
  termination_by d.length
  decreasing_by exact decodeEntry_shortens ‹_›

def Opened.get (checksum : Bytes → UInt32) (t : Opened) (key : Bytes) : Option (Option Entry) :=
  if t.mayContain key then
    match search BlockHandle.lastKey t.index key with
    | none => some none
    | some h => (readPayload checksum t.file h).bind (scanPayload key)
  else some none

/-- The iterator: the block it is in and how far it has come. -/
structure Iter where
  blockIdx : ℕ
  block : Bytes
  pos : ℕ
  done : Bool

def iter : Iter := ⟨0, [], 0, false⟩

def nextEntry (checksum : Bytes → UInt32) (t : Opened) (it : Iter) :
    Option (Option (Bytes × Entry) × Iter) :=
  if it.done then some (none, it)
  else if it.block.length ≤ it.pos then
    if hmore : it.blockIdx < t.index.length then
      match readPayload checksum t.file t.index[it.blockIdx] with
      | none => none
      | some block => nextEntry checksum t ⟨it.blockIdx + 1, block, 0, it.done⟩
    else some (none, { it with done := true })
  else
    match decodeEntry (it.block.drop it.pos) with
    | none => none
    | some (b, rest) =>
        some (some b, { it with pos := it.pos + ((it.block.drop it.pos).length - rest.length) })
  termination_by t.index.length - it.blockIdx

/-- From here on the iterator yields these entries and then the end. -/
def Yields (checksum : Bytes → UInt32) (t : Opened) : Iter → List (Bytes × Entry) → Prop
  | it, [] => ∃ it', nextEntry checksum t it = some (none, it') ∧ it'.done = true
  | it, b :: l => ∃ it', nextEntry checksum t it = some (some b, it') ∧ Yields checksum t it' l

/-! Lookups and iteration over blocks that read back as their entries. -/

/-- Every entry can be encoded: its expiry is a 64-bit integer and it is not too long. -/
def Encodable (l : List (Bytes × Entry)) : Prop :=
  ∀ b ∈ l, InRange b.2 ∧ (encodeEntry b.1 b.2).length < 2 ^ 64

theorem decodeEntry_entries {b : Bytes × Entry} {l : List (Bytes × Entry)}
    (h : Encodable (b :: l)) :
    decodeEntry (encodeEntries (b :: l)) = some (b, encodeEntries l) := by
  obtain ⟨hrange, hlen⟩ := h b List.mem_cons_self
  rw [encodeEntries, List.flatMap_cons, decodeEntry_encodeEntry hrange hlen]
  rfl

theorem encodeEntries_cons_ne_nil (b : Bytes × Entry) (l : List (Bytes × Entry)) :
    encodeEntries (b :: l) ≠ [] := by
  rw [encodeEntries, List.flatMap_cons]
  exact List.append_ne_nil_of_left_ne_nil (encodeEntry_ne_nil b.1 b.2) _

theorem scanPayload_entries (key : Bytes) {l : List (Bytes × Entry)} (h : Encodable l) :
    scanPayload key (encodeEntries l) = some (scanBlock key l) := by
  induction l with
  | nil =>
    rw [scanPayload]
    rfl
  | cons b l ih =>
    have hrest := ih (fun c hc => h c (List.mem_cons_of_mem _ hc))
    rw [scanPayload, if_neg (encodeEntries_cons_ne_nil b l)]
    split
    · rename_i hnone
      rw [decodeEntry_entries h] at hnone
      cases hnone
    · rename_i k e rest hsome
      rw [decodeEntry_entries h] at hsome
      cases hsome
      rw [scanBlock, hrest]
      split
      · rfl
      · split <;> rfl

/-- A handle that leads to the entries of a block. -/
structure Leads (checksum : Bytes → UInt32) (file : Bytes) (h : BlockHandle) (b : Block) :
    Prop where
  lastKey : h.lastKey = b.lastKey
  payload : readPayload checksum file h = some (encodeEntries b.entries)
  encodable : Encodable b.entries

/-- An open table with the filter and range of `s` and handles to its blocks. -/
structure Reads (checksum : Bytes → UInt32) (t : Opened) (s : SsTable) : Prop where
  index : List.Forall₂ (Leads checksum t.file) t.index s.index
  bloom : t.bloom = s.bloom
  minKey : t.minKey = s.summary.minKey
  maxKey : t.maxKey = s.summary.maxKey
  entryCount : t.entryCount = s.summary.entryCount

section Answers

variable {checksum : Bytes → UInt32}

/-- Both searches end at the same block. -/
theorem search_leads {file : Bytes} {hs : List BlockHandle} {bs : List Block}
    (h : List.Forall₂ (Leads checksum file) hs bs) (key : Bytes) :
    (search BlockHandle.lastKey hs key = none ∧ search Block.lastKey bs key = none) ∨
      ∃ i b, search BlockHandle.lastKey hs key = some i ∧ search Block.lastKey bs key = some b ∧
        Leads checksum file i b := by
  induction h with
  | nil => exact Or.inl ⟨rfl, rfl⟩
  | @cons i b hs bs hlead _ ih =>
    rw [search_cons, search_cons, hlead.lastKey]
    split
    · exact ih
    · exact Or.inr ⟨i, b, rfl, rfl, hlead⟩

theorem Reads.get {t : Opened} {s : SsTable} (h : Reads checksum t s) (key : Bytes) :
    t.get checksum key = some (s.get key) := by
  have hmay : t.mayContain key = s.mayContain key := by
    rw [Opened.mayContain, SsTable.mayContain, h.minKey, h.maxKey, h.bloom]
  unfold Opened.get SsTable.get
  rw [hmay]
  split
  · rcases search_leads h.index key with ⟨hi, hb⟩ | ⟨i, b, hi, hb, hlead⟩
    · rw [hi, hb]
    · simp only [hi, hb]
      rw [hlead.payload, Option.bind_some, scanPayload_entries key hlead.encodable]
  · rfl

/-- Inside a block: what is left of it, and then whatever follows. -/
theorem yields_block {t : Opened} {l rest : List (Bytes × Entry)} {it : Iter}
    (hdone : it.done = false) (hl : Encodable l) (hat : it.block.drop it.pos = encodeEntries l)
    (hrest : ∀ pos, it.block.length ≤ pos → Yields checksum t { it with pos := pos } rest) :
    Yields checksum t it (l ++ rest) := by
  induction l generalizing it with
  | nil =>
    have hend : it.block.length ≤ it.pos := List.drop_eq_nil_iff.mp hat
    exact hrest it.pos hend
  | cons b l ih =>
    have hmore : ¬ it.block.length ≤ it.pos := by
      intro hend
      rw [List.drop_eq_nil_iff.mpr hend] at hat
      exact encodeEntries_cons_ne_nil b l hat.symm
    have hsplit : encodeEntries (b :: l) = encodeEntry b.1 b.2 ++ encodeEntries l :=
      List.flatMap_cons
    have hread : (it.block.drop it.pos).length - (encodeEntries l).length =
        (encodeEntry b.1 b.2).length := by
      rw [hat, hsplit, List.length_append, Nat.add_sub_cancel]
    refine ⟨{ it with pos := it.pos + (encodeEntry b.1 b.2).length }, ?_, ?_⟩
    · rw [nextEntry, if_neg (by simp [hdone]), if_neg hmore, hat, decodeEntry_entries hl]
      simp only
      rw [← hat, hread]
    · refine ih hdone (fun c hc => hl c (List.mem_cons_of_mem _ hc)) ?_ hrest
      rw [← List.drop_drop, hat, hsplit, List.drop_left]

/-- Past the end of a block: the blocks that are left. -/
theorem yields_blocks {t : Opened} {bs : List Block} {it : Iter} (hdone : it.done = false)
    (hend : it.block.length ≤ it.pos)
    (hblocks : List.Forall₂ (Leads checksum t.file) (t.index.drop it.blockIdx) bs) :
    Yields checksum t it (bs.flatMap Block.entries) := by
  induction bs generalizing it with
  | nil =>
    have hlast : ¬ it.blockIdx < t.index.length := by
      rw [List.forall₂_nil_right_iff, List.drop_eq_nil_iff] at hblocks
      omega
    refine ⟨{ it with done := true }, ?_, rfl⟩
    rw [nextEntry, if_neg (by simp [hdone]), if_pos hend, dif_neg hlast]
  | cons b bs ih =>
    obtain ⟨i, hs, hlead, htail, hdrop⟩ := List.forall₂_cons_right_iff.mp hblocks
    have hmore : it.blockIdx < t.index.length := by
      by_contra hnone
      rw [List.drop_eq_nil_iff.mpr (by omega)] at hdrop
      cases hdrop
    rw [List.drop_eq_getElem_cons hmore] at hdrop
    obtain ⟨hhead, hnext⟩ := List.cons.inj hdrop
    let it' : Iter := ⟨it.blockIdx + 1, encodeEntries b.entries, 0, it.done⟩
    have hstep : nextEntry checksum t it = nextEntry checksum t it' := by
      rw [nextEntry, if_neg (by simp [hdone]), if_pos hend, dif_pos hmore, hhead, hlead.payload]
    have hyields : Yields checksum t it' (b.entries ++ bs.flatMap Block.entries) := by
      refine yields_block hdone hlead.encodable rfl ?_
      intro pos hpos
      refine ih hdone hpos ?_
      rw [hnext]
      exact htail
    rw [List.flatMap_cons]
    -- the first call goes through the new block, and so do the later ones
    cases hcontents : b.entries ++ bs.flatMap Block.entries with
    | nil | cons =>
      rw [hcontents] at hyields
      unfold Yields at hyields ⊢
      rwa [hstep]

theorem Reads.yields {t : Opened} {s : SsTable} (h : Reads checksum t s) :
    Yields checksum t iter s.iter :=
  yields_blocks rfl (Nat.le_refl 0) h.index

end Answers

end RedisFromScratch.TableReads
