import RedisFromScratch.SsTables

/-!
The bytes of an SSTable file: data blocks that end in an entry count and a
checksum, the filter, the index and a footer of fixed size. The writer streams
blocks out and keeps handles to them. It carries out, byte for byte, what the
writer of whole entries describes, and what it finishes is the layout of the
table that one builds. The checksum may be any function.
-/
namespace RedisFromScratch.TableFiles

open ByteStrings ByteCoding SortedTables BloomFilters EngineTypes EngineCoding SsTables

def magic : ℕ := 0x5246535354423031

def formatVersion : ℕ := 1

/-- Where a data block lies, and the largest key inside it. -/
structure BlockHandle where
  lastKey : Bytes
  offset : ℕ
  length : ℕ
  deriving DecidableEq, Repr

structure FileWriter where
  file : Bytes
  offset : ℕ
  block : Bytes
  blockEntries : ℕ
  blockSize : ℕ
  index : List BlockHandle
  keyHashes : List UInt64
  bitsPerKey : ℕ
  entryCount : ℕ
  minKey : Option Bytes
  lastKey : Bytes

section Writing

variable (checksum : Bytes → UInt32)

/-- A block with its checksum behind it. -/
def withChecksum (payload : Bytes) : Bytes := payload ++ le 4 (checksum payload).toNat

def FileWriter.create (tuning : Tuning) : FileWriter where
  file := []
  offset := 0
  block := []
  blockEntries := 0
  blockSize := max tuning.blockSize 512
  index := []
  keyHashes := []
  bitsPerKey := tuning.bitsPerKey
  entryCount := 0
  minKey := none
  lastKey := []

/-- The length of a block is kept in 32 bits. -/
def FileWriter.flushBlock (w : FileWriter) : FileWriter :=
  if w.blockEntries = 0 then w
  else
    let block := withChecksum checksum (w.block ++ le 4 w.blockEntries)
    { w with
      file := w.file ++ block
      index := w.index ++ [⟨w.lastKey, w.offset, block.length % 2 ^ 32⟩]
      offset := w.offset + block.length
      block := []
      blockEntries := 0 }

def FileWriter.push (w : FileWriter) (key : Bytes) (e : Entry) : FileWriter :=
  { w with
    minKey := some (w.minKey.getD key)
    lastKey := key
    keyHashes := w.keyHashes ++ [hashKey key]
    block := w.block ++ encodeEntry key e
    blockEntries := w.blockEntries + 1
    entryCount := w.entryCount + 1 }

def FileWriter.add (w : FileWriter) (key : Bytes) (e : Entry) : Option FileWriter :=
  if 0 < w.entryCount ∧ key ≤ w.lastKey then none
  else if w.blockSize ≤ (w.push key e).block.length then some ((w.push key e).flushBlock checksum)
  else some (w.push key e)

def FileWriter.addAll : FileWriter → List (Bytes × Entry) → Option FileWriter
  | w, [] => some w
  | w, b :: l => (w.add checksum b.1 b.2).bind (fun w' => w'.addAll l)

def bloomBlock (bloom : Bloom) : Bytes := withChecksum checksum (le 4 bloom.hashes ++ bloom.bits)

def encodeHandle (h : BlockHandle) : Bytes :=
  putBytes h.lastKey ++ (uvarint h.offset ++ uvarint h.length)

def indexBlock (minKey maxKey : Bytes) (index : List BlockHandle) : Bytes :=
  withChecksum checksum
    (putBytes minKey ++ (putBytes maxKey ++ (uvarint index.length ++ index.flatMap encodeHandle)))

/-- What the footer's own checksum covers. -/
def footerFields (bloomOffset bloomLen indexOffset indexLen entryCount : ℕ) : Bytes :=
  le 8 bloomOffset ++ (le 8 bloomLen ++ (le 8 indexOffset ++ (le 8 indexLen ++
    (le 8 entryCount ++ le 4 formatVersion))))

def footer (bloomOffset bloomLen indexOffset indexLen entryCount : ℕ) : Bytes :=
  withChecksum checksum (footerFields bloomOffset bloomLen indexOffset indexLen entryCount) ++
    le 8 magic

/-- The finished file and its summary. -/
def FileWriter.finish (w : FileWriter) : Bytes × TableMeta :=
  let w := w.flushBlock checksum
  let bloom := bloomBlock checksum (fromHashes w.keyHashes w.bitsPerKey)
  let minKey := w.minKey.getD []
  let index := indexBlock checksum minKey w.lastKey w.index
  let indexOffset := w.offset + bloom.length
  let tail := footer checksum w.offset bloom.length indexOffset index.length w.entryCount
  (w.file ++ (bloom ++ (index ++ tail)),
    ⟨indexOffset + index.length + tail.length, w.entryCount, minKey, w.lastKey⟩)

/-- Write a whole file. -/
def writeFile (tuning : Tuning) (l : List (Bytes × Entry)) : Option (Bytes × TableMeta) :=
  ((FileWriter.create tuning).addAll checksum l).map (FileWriter.finish checksum)

/-! The layout of a table. -/

def encodeEntries (l : List (Bytes × Entry)) : Bytes := l.flatMap (fun b => encodeEntry b.1 b.2)

def encodeBlock (l : List (Bytes × Entry)) : Bytes :=
  withChecksum checksum (encodeEntries l ++ le 4 l.length)

def handleOf (b : Block) : BlockHandle := ⟨b.lastKey, b.offset, b.length % 2 ^ 32⟩

def dataBytes (index : List Block) : Bytes :=
  index.flatMap (fun b => encodeBlock checksum b.entries)

def encodeTable (t : SsTable) : Bytes :=
  let data := dataBytes checksum t.index
  let bloom := bloomBlock checksum t.bloom
  let index := indexBlock checksum t.summary.minKey t.summary.maxKey (t.index.map handleOf)
  data ++ (bloom ++ (index ++ footer checksum data.length bloom.length
    (data.length + bloom.length) index.length t.summary.entryCount))

/-- Blocks that lie one after another from an offset on. -/
def Laid : ℕ → List Block → Prop
  | _, [] => True
  | o, b :: rest =>
      b.offset = o ∧ b.length = (encodeBlock checksum b.entries).length ∧ Laid (o + b.length) rest

variable {checksum}

@[simp] theorem encodeEntries_append (l m : List (Bytes × Entry)) :
    encodeEntries (l ++ m) = encodeEntries l ++ encodeEntries m := List.flatMap_append

theorem encodeEntries_singleton (b : Bytes × Entry) : encodeEntries [b] = encodeEntry b.1 b.2 :=
  List.flatMap_singleton _ _

theorem withChecksum_length (payload : Bytes) :
    (withChecksum checksum payload).length = payload.length + 4 := by
  simp [withChecksum]

theorem encodeBlock_length (l : List (Bytes × Entry)) :
    (encodeBlock checksum l).length = (encodeEntries l).length + 8 := by
  simp [encodeBlock, withChecksum_length]

theorem Laid.concat {o : ℕ} {index : List Block} (h : Laid checksum o index) {b : Block}
    (hoffset : b.offset = o + (dataBytes checksum index).length)
    (hlength : b.length = (encodeBlock checksum b.entries).length) :
    Laid checksum o (index ++ [b]) := by
  induction index generalizing o with
  | nil => exact ⟨by simpa [dataBytes] using hoffset, hlength, trivial⟩
  | cons a index ih =>
    obtain ⟨ha, hlen, hrest⟩ := h
    refine ⟨ha, hlen, ih hrest ?_⟩
    rw [hoffset, hlen]
    simp [dataBytes, Nat.add_assoc]

/-- The bytes written so far are the entries taken so far. -/
structure Carries (checksum : Bytes → UInt32) (f : FileWriter) (w : Writer) : Prop where
  file : f.file = dataBytes checksum w.index
  offset : f.offset = w.offset
  offset_eq : w.offset = (dataBytes checksum w.index).length
  block : f.block = encodeEntries w.block
  blockBytes : w.blockBytes = f.block.length
  blockEntries : f.blockEntries = w.block.length
  blockSize : f.blockSize = w.tuning.blockSize
  bitsPerKey : f.bitsPerKey = w.tuning.bitsPerKey
  index : f.index = w.index.map handleOf
  keyHashes : f.keyHashes = w.keyHashes
  entryCount : f.entryCount = w.entryCount
  minKey : f.minKey = w.minKey
  lastKey : f.lastKey = w.lastKey
  laid : Laid checksum 0 w.index

theorem carries_create (tuning : Tuning) :
    Carries checksum (FileWriter.create tuning) (Writer.create tuning) :=
  ⟨rfl, rfl, rfl, rfl, rfl, rfl, rfl, rfl, rfl, rfl, rfl, rfl, rfl, trivial⟩

theorem Carries.push {f : FileWriter} {w : Writer} (h : Carries checksum f w) (key : Bytes)
    (e : Entry) : Carries checksum (f.push key e) (w.push key e) where
  file := h.file
  offset := h.offset
  offset_eq := h.offset_eq
  block := by
    simp only [FileWriter.push, Writer.push]
    rw [encodeEntries_append, encodeEntries_singleton, h.block]
  blockBytes := by simp [FileWriter.push, Writer.push, h.blockBytes]
  blockEntries := by simp [FileWriter.push, Writer.push, h.blockEntries]
  blockSize := h.blockSize
  bitsPerKey := h.bitsPerKey
  index := h.index
  keyHashes := by simp [FileWriter.push, Writer.push, h.keyHashes]
  entryCount := by simp [FileWriter.push, Writer.push, h.entryCount]
  minKey := by simp [FileWriter.push, Writer.push, h.minKey]
  lastKey := rfl
  laid := h.laid

theorem Carries.flushBlock {f : FileWriter} {w : Writer} (h : Carries checksum f w) :
    Carries checksum (f.flushBlock checksum) w.flushBlock := by
  unfold FileWriter.flushBlock Writer.flushBlock
  by_cases hopen : w.block = []
  · have hzero : f.blockEntries = 0 := by rw [h.blockEntries, hopen, List.length_nil]
    rw [if_pos hzero, if_pos hopen]
    exact h
  have hsome : f.blockEntries ≠ 0 := by
    rw [h.blockEntries]
    exact fun hlen => hopen (List.length_eq_zero_iff.mp hlen)
  have hblock : withChecksum checksum (f.block ++ le 4 f.blockEntries) =
      encodeBlock checksum w.block := by
    rw [encodeBlock, h.block, h.blockEntries]
  have hlength : w.blockBytes + 8 = (encodeBlock checksum w.block).length := by
    rw [encodeBlock_length, h.blockBytes, h.block]
  rw [if_neg hsome, if_neg hopen]
  constructor
  · simp [h.file, hblock, dataBytes]
  · simp [h.offset, hblock, hlength]
  · simp [h.offset_eq, hlength, dataBytes]
  · rfl
  · rfl
  · rfl
  · exact h.blockSize
  · exact h.bitsPerKey
  · simp [h.index, h.lastKey, h.offset, hblock, hlength, handleOf]
  · exact h.keyHashes
  · exact h.entryCount
  · exact h.minKey
  · exact h.lastKey
  · exact h.laid.concat (by simp [h.offset_eq]) hlength

theorem Carries.add {f : FileWriter} {w w' : Writer} (h : Carries checksum f w) {key : Bytes}
    {e : Entry} (hadd : w.add key e = some w') :
    ∃ f', f.add checksum key e = some f' ∧ Carries checksum f' w' := by
  have hpush := h.push key e
  unfold Writer.add at hadd
  unfold FileWriter.add
  rw [h.entryCount, h.lastKey, h.blockSize, ← hpush.blockBytes]
  split at hadd
  · cases hadd
  · rename_i habove
    rw [if_neg habove]
    split at hadd
    · rename_i hfull
      cases hadd
      exact ⟨_, if_pos hfull, hpush.flushBlock⟩
    · rename_i hroom
      cases hadd
      exact ⟨_, if_neg hroom, hpush⟩

theorem Carries.addAll {f : FileWriter} {w w' : Writer} (h : Carries checksum f w)
    {l : List (Bytes × Entry)} (hadd : w.addAll l = some w') :
    ∃ f', f.addAll checksum l = some f' ∧ Carries checksum f' w' := by
  induction l generalizing f w with
  | nil =>
    cases hadd
    exact ⟨f, rfl, h⟩
  | cons b l ih =>
    obtain ⟨w₁, hw₁, hrest⟩ := Option.bind_eq_some_iff.mp hadd
    obtain ⟨f₁, hf₁, h₁⟩ := h.add hw₁
    obtain ⟨f', hf', h'⟩ := ih h₁ hrest
    exact ⟨f', by rw [FileWriter.addAll, hf₁, Option.bind_some, hf'], h'⟩

/-- A finished file is the layout of the table its entries make. -/
theorem Carries.finish {f : FileWriter} {w : Writer} (h : Carries checksum f w) :
    (f.finish checksum).1 = encodeTable checksum w.finish := by
  have hf := h.flushBlock
  simp only [FileWriter.finish, encodeTable, Writer.finish]
  rw [hf.file, hf.offset, hf.offset_eq, hf.index, hf.keyHashes, hf.bitsPerKey, hf.minKey,
    hf.lastKey, hf.entryCount]

theorem Carries.finish_laid {f : FileWriter} {w : Writer} (h : Carries checksum f w) :
    Laid checksum 0 w.finish.index := h.flushBlock.laid

/-- Writing an ascending list gives the layout of the table of its entries. -/
theorem writeFile_ascending (tuning : Tuning) {l : List (Bytes × Entry)} (hasc : Ascending l) :
    ∃ file summary w, writeFile checksum tuning l = some (file, summary) ∧
      (Writer.create tuning).addAll l = some w ∧ w.Holds l ∧
      file = encodeTable checksum w.finish ∧ Laid checksum 0 w.finish.index := by
  obtain ⟨w, hw, hholds⟩ := (Writer.create_holds tuning).addAll l (by simpa using hasc)
  have hcreate : Carries checksum (FileWriter.create tuning) (Writer.create tuning) :=
    carries_create tuning
  obtain ⟨f, hf, hcarries⟩ := hcreate.addAll hw
  refine ⟨(f.finish checksum).1, (f.finish checksum).2, w, ?_, hw, hholds, hcarries.finish,
    hcarries.finish_laid⟩
  rw [writeFile, hf]
  rfl

end Writing

end RedisFromScratch.TableFiles
