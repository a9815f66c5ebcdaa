import RedisFromScratch.BloomFilters
import RedisFromScratch.EngineCoding

/-!
Sorted string tables: data blocks cut at a target size, a handle with the last
key of each block, a Bloom filter and the key range. The writer accepts strictly
ascending keys. A lookup goes through the range, the filter and one block, and
answers exactly as the list of entries that was written.
-/
namespace RedisFromScratch.SsTables

open ByteStrings ByteCoding SortedTables BloomFilters EngineTypes EngineCoding

/-- A data block with its handle in the index. -/
structure Block where
  lastKey : Bytes
  offset : ℕ
  length : ℕ
  entries : List (Bytes × Entry)
  deriving DecidableEq, Repr

structure TableMeta where
  fileSize : ℕ
  entryCount : ℕ
  minKey : Bytes
  maxKey : Bytes
  deriving DecidableEq, Repr

structure SsTable where
  index : List Block
  bloom : Bloom
  summary : TableMeta
  deriving DecidableEq, Repr

/-- The options a writer is tuned with. -/
structure Tuning where
  blockSize : ℕ
  bitsPerKey : ℕ
  deriving DecidableEq, Repr

structure Writer where
  tuning : Tuning
  offset : ℕ
  block : List (Bytes × Entry)
  blockBytes : ℕ
  index : List Block
  keyHashes : List UInt64
  entryCount : ℕ
  minKey : Option Bytes
  lastKey : Bytes
  deriving DecidableEq, Repr

def Writer.create (tuning : Tuning) : Writer :=
  ⟨{ tuning with blockSize := max tuning.blockSize 512 }, 0, [], 0, [], [], 0, none, []⟩

def Writer.estimatedSize (w : Writer) : ℕ := w.offset + w.blockBytes

/-- Four bytes of entry count and four of checksum close a block. -/
def Writer.flushBlock (w : Writer) : Writer :=
  if w.block = [] then w
  else { w with
    index := w.index ++ [⟨w.lastKey, w.offset, w.blockBytes + 8, w.block⟩]
    offset := w.offset + (w.blockBytes + 8)
    block := []
    blockBytes := 0 }

/-- The writer after an entry has gone into its open block. -/
def Writer.push (w : Writer) (key : Bytes) (e : Entry) : Writer :=
  { w with
    minKey := some (w.minKey.getD key)
    lastKey := key
    keyHashes := w.keyHashes ++ [hashKey key]
    block := w.block ++ [(key, e)]
    blockBytes := w.blockBytes + (encodeEntry key e).length
    entryCount := w.entryCount + 1 }

/-- Append an entry; keys that do not ascend are refused. -/
def Writer.add (w : Writer) (key : Bytes) (e : Entry) : Option Writer :=
  if 0 < w.entryCount ∧ key ≤ w.lastKey then none
  else if w.tuning.blockSize ≤ (w.push key e).blockBytes then some (w.push key e).flushBlock
  else some (w.push key e)

def bloomBlockSize (b : Bloom) : ℕ := 4 + b.bits.length + 4

def indexBlockSize (minKey maxKey : Bytes) (index : List Block) : ℕ :=
  (putBytes minKey).length + (putBytes maxKey).length + (uvarint index.length).length +
    (index.map (fun h => (putBytes h.lastKey).length + (uvarint h.offset).length +
      (uvarint h.length).length)).sum + 4

def footerSize : ℕ := 56

def Writer.finish (w : Writer) : SsTable :=
  let w := w.flushBlock
  let bloom := fromHashes w.keyHashes w.tuning.bitsPerKey
  let minKey := w.minKey.getD []
  ⟨w.index, bloom,
    ⟨w.offset + bloomBlockSize bloom + indexBlockSize minKey w.lastKey w.index + footerSize,
      w.entryCount, minKey, w.lastKey⟩⟩

def Writer.addAll : Writer → List (Bytes × Entry) → Option Writer
  | w, [] => some w
  | w, b :: l => (w.add b.1 b.2).bind (fun w' => w'.addAll l)

/-- Every entry from the first block to the last. -/
def SsTable.iter (t : SsTable) : List (Bytes × Entry) := t.index.flatMap Block.entries

def SsTable.mayContain (t : SsTable) (key : Bytes) : Bool :=
  decide (t.summary.minKey ≤ key) && decide (key ≤ t.summary.maxKey) && t.bloom.mayContain key

/-- Read a block up to the first key that is not below the target. -/
def scanBlock (key : Bytes) : List (Bytes × Entry) → Option Entry
  | [] => none
  | (k, e) :: rest => if k < key then scanBlock key rest else if k = key then some e else none

def SsTable.get (t : SsTable) (key : Bytes) : Option Entry :=
  if t.mayContain key then
    match search Block.lastKey t.index key with
    | none => none
    | some h => scanBlock key h.entries
  else none

theorem scanBlock_eq_find {l : List (Bytes × Entry)} (hl : Ascending l) (key : Bytes) :
    scanBlock key l = find l key := by
  induction l with
  | nil => rfl
  | cons b l ih =>
    obtain ⟨k, e⟩ := b
    rw [scanBlock, find_cons]
    by_cases hlt : k < key
    · rw [if_pos hlt, if_neg hlt.ne', ih hl.tail]
    · by_cases heq : k = key
      · rw [if_neg hlt, if_pos heq, if_pos heq.symm]
      · have hgt : key < k := lt_of_le_of_ne (not_lt.mp hlt) (Ne.symm heq)
        have hrest := hl.find_of_lt_head hgt
        rw [find_cons, if_neg (Ne.symm heq)] at hrest
        rw [if_neg hlt, if_neg heq, if_neg (Ne.symm heq), hrest]

/-- What a writer knows after the entries `l`. -/
structure Writer.Holds (w : Writer) (l : List (Bytes × Entry)) : Prop where
  entries : w.index.flatMap Block.entries ++ w.block = l
  handles : ∀ h ∈ w.index, ∃ e, h.entries.getLast? = some (h.lastKey, e)
  hashes : w.keyHashes = l.map (fun b => hashKey b.1)
  count : w.entryCount = l.length
  min : w.minKey = l.head?.map Prod.fst
  last : ∀ b, l.getLast? = some b → w.lastKey = b.1

theorem Writer.create_holds (tuning : Tuning) : (Writer.create tuning).Holds [] where
  entries := rfl
  handles := by simp [create]
  hashes := rfl
  count := rfl
  min := rfl
  last := by simp

theorem Writer.Holds.flushBlock {w : Writer} {l : List (Bytes × Entry)} (h : w.Holds l) :
    w.flushBlock.Holds l := by
  unfold Writer.flushBlock
  split
  · exact h
  · rename_i hne
    refine { h with entries := ?_, handles := ?_ }
    · rw [← h.entries]
      simp
    · intro b hb
      rcases List.mem_append.mp hb with hb | hb
      · exact h.handles b hb
      · rw [List.mem_singleton] at hb
        subst hb
        obtain ⟨c, hc⟩ := List.getLast?_isSome.mpr hne |> Option.isSome_iff_exists.mp
        have hlast : w.lastKey = c.1 := by
          apply h.last
          rw [← h.entries, List.getLast?_append, hc]
          rfl
        exact ⟨c.2, by rw [hc, hlast]⟩

theorem Writer.Holds.push {w : Writer} {l : List (Bytes × Entry)} (h : w.Holds l) (key : Bytes)
    (e : Entry) : (w.push key e).Holds (l ++ [(key, e)]) where
  entries := by
    rw [← h.entries]
    simp [Writer.push]
  handles := h.handles
  hashes := by simp [Writer.push, h.hashes]
  count := by simp [Writer.push, h.count]
  min := by
    rw [Writer.push, h.min]
    cases l <;> rfl
  last := by
    intro b hb
    rw [List.getLast?_concat] at hb
    cases hb
    rfl

/-- An ascending entry is accepted. -/
theorem Writer.Holds.add {w : Writer} {l : List (Bytes × Entry)} (h : w.Holds l) {key : Bytes}
    {e : Entry} (hasc : Ascending (l ++ [(key, e)])) :
    ∃ w', w.add key e = some w' ∧ w'.Holds (l ++ [(key, e)]) := by
  have habove : ¬ (0 < w.entryCount ∧ key ≤ w.lastKey) := by
    rintro ⟨hpos, hle⟩
    rw [h.count] at hpos
    obtain ⟨b, hb⟩ := Option.isSome_iff_exists.mp
      (List.getLast?_isSome.mpr (List.ne_nil_of_length_pos hpos))
    have hlt : b.1 < key := (List.pairwise_append.mp hasc).2.2 b
      (List.mem_of_getLast? hb) (key, e) (by simp)
    exact absurd hle (not_le.mpr (h.last b hb ▸ hlt))
  unfold Writer.add
  rw [if_neg habove]
  split
  · exact ⟨_, rfl, (h.push key e).flushBlock⟩
  · exact ⟨_, rfl, h.push key e⟩

theorem Writer.Holds.addAll {w : Writer} {l : List (Bytes × Entry)} (h : w.Holds l)
    (m : List (Bytes × Entry)) (hasc : Ascending (l ++ m)) :
    ∃ w', w.addAll m = some w' ∧ w'.Holds (l ++ m) := by
  induction m generalizing w l with
  | nil => exact ⟨w, rfl, by rwa [List.append_nil]⟩
  | cons b m ih =>
    have hsplit : l ++ b :: m = (l ++ [b]) ++ m := by simp
    rw [hsplit] at hasc ⊢
    obtain ⟨w₁, hadd, hw₁⟩ := h.add (hasc.sublist (List.sublist_append_left _ m))
    obtain ⟨w', hall, hw'⟩ := ih hw₁ hasc
    exact ⟨w', by rw [Writer.addAll, hadd, Option.bind_some, hall], hw'⟩

/-- A table that answers for a non-empty ascending list of entries. -/
structure SsTable.Sound (t : SsTable) : Prop where
  ascending : Ascending t.iter
  min_mem : ∃ e, t.iter.head? = some (t.summary.minKey, e)
  max_mem : ∃ e, t.iter.getLast? = some (t.summary.maxKey, e)
  count : t.summary.entryCount = t.iter.length
  filter : ∀ b ∈ t.iter, t.bloom.mayContain b.1 = true
  tiled : Tiled Block.lastKey Block.entries t.index

theorem SsTable.Sound.range {t : SsTable} (h : t.Sound) {b : Bytes × Entry} (hb : b ∈ t.iter) :
    t.summary.minKey ≤ b.1 ∧ b.1 ≤ t.summary.maxKey := by
  obtain ⟨e, hmin⟩ := h.min_mem
  obtain ⟨e', hmax⟩ := h.max_mem
  have hasc := h.ascending
  constructor
  · cases hiter : t.iter with
    | nil => simp [hiter] at hb
    | cons =>
      rw [hiter] at hmin hb hasc
      cases hmin
      rcases List.mem_cons.mp hb with rfl | hb
      · exact le_rfl
      · exact (hasc.head_lt hb).le
  · obtain ⟨l, hl⟩ := List.getLast?_eq_some_iff.mp hmax
    rw [hl] at hb hasc
    rcases List.mem_append.mp hb with hb | hb
    · exact ((List.pairwise_append.mp hasc).2.2 b hb (t.summary.maxKey, e') (by simp)).le
    · rw [List.mem_singleton] at hb
      rw [hb]

theorem SsTable.Sound.mayContain {t : SsTable} (h : t.Sound) {b : Bytes × Entry}
    (hb : b ∈ t.iter) : t.mayContain b.1 = true := by
  unfold SsTable.mayContain
  simp [(h.range hb).1, (h.range hb).2, h.filter b hb]

theorem SsTable.Sound.block_ascending {t : SsTable} (h : t.Sound) {b : Block}
    (hb : b ∈ t.index) : Ascending b.entries := by
  obtain ⟨pre, post, hsplit⟩ := List.append_of_mem hb
  refine h.ascending.sublist ?_
  rw [SsTable.iter, hsplit, List.flatMap_append, List.flatMap_cons]
  exact (List.sublist_append_left _ _).trans (List.sublist_append_right _ _)

/-- A lookup answers as the written entries do. -/
theorem SsTable.Sound.get_eq {t : SsTable} (h : t.Sound) (key : Bytes) :
    t.get key = find t.iter key := by
  unfold SsTable.get
  split
  · rw [SsTable.iter, h.tiled.find_flatMap key]
    cases hfind : search Block.lastKey t.index key with
    | none => rfl
    | some => exact scanBlock_eq_find (h.block_ascending (mem_of_search hfind)) key
  · rename_i hout
    symm
    apply find_eq_none_of_forall_ne
    intro b hb heq
    exact hout (heq ▸ h.mayContain hb)

/-- Handles that name the last key of their block cut an ascending list in order. -/
theorem tiled_of_handles {index : List Block}
    (hlast : ∀ h ∈ index, ∃ e, h.entries.getLast? = some (h.lastKey, e))
    (hasc : Ascending (index.flatMap Block.entries)) :
    Tiled Block.lastKey Block.entries index := by
  induction index with
  | nil => exact ⟨by simp, List.Pairwise.nil⟩
  | cons a index ih =>
    rw [List.flatMap_cons] at hasc
    obtain ⟨ha, hrest, hcross⟩ := List.pairwise_append.mp hasc
    obtain ⟨hbound, hnext⟩ := ih (fun h hh => hlast h (List.mem_cons_of_mem _ hh)) hrest
    obtain ⟨e, he⟩ := hlast a List.mem_cons_self
    refine ⟨?_, List.pairwise_cons.mpr ⟨?_, hnext⟩⟩
    · intro h hh b hb
      rcases List.mem_cons.mp hh with rfl | hh
      · obtain ⟨l, hl⟩ := List.getLast?_eq_some_iff.mp he
        rw [hl] at hb ha
        rcases List.mem_append.mp hb with hb | hb
        · exact ((List.pairwise_append.mp ha).2.2 b hb (h.lastKey, e) (by simp)).le
        · rw [List.mem_singleton] at hb
          rw [hb]
      · exact hbound h hh b hb
    · intro h hh b hb
      exact hcross _ (List.mem_of_getLast? he) b (List.mem_flatMap.mpr ⟨h, hh, hb⟩)

theorem Writer.flushBlock_block (w : Writer) : w.flushBlock.block = [] := by
  unfold Writer.flushBlock
  split
  · assumption
  · rfl

theorem Writer.Holds.finish_iter {w : Writer} {l : List (Bytes × Entry)} (h : w.Holds l) :
    w.finish.iter = l := by
  have hentries := h.flushBlock.entries
  rwa [w.flushBlock_block, List.append_nil] at hentries

theorem Writer.Holds.finish_count {w : Writer} {l : List (Bytes × Entry)} (h : w.Holds l) :
    w.finish.summary.entryCount = l.length := h.flushBlock.count

/-- A finished table answers for what was added. -/
theorem Writer.Holds.finish_sound {w : Writer} {l : List (Bytes × Entry)} (h : w.Holds l)
    (hne : l ≠ []) (hasc : Ascending l) : w.finish.Sound := by
  have hiter := h.finish_iter
  have hf := h.flushBlock
  constructor
  · rwa [hiter]
  · rw [hiter]
    cases l with
    | nil => exact absurd rfl hne
    | cons b =>
      refine ⟨b.2, ?_⟩
      simp [Writer.finish, hf.min]
  · rw [hiter]
    obtain ⟨b, hb⟩ := Option.isSome_iff_exists.mp (List.getLast?_isSome.mpr hne)
    refine ⟨b.2, ?_⟩
    rw [hb]
    exact congrArg some (Prod.ext (hf.last b hb).symm rfl)
  · rw [hiter, h.finish_count]
  · rw [hiter]
    intro b hb
    have hkeys : w.flushBlock.keyHashes = (l.map Prod.fst).map hashKey := by
      rw [hf.hashes, List.map_map]
      rfl
    have hfilter := mayContain_fromHashes w.flushBlock.tuning.bitsPerKey
      (List.mem_map_of_mem (f := Prod.fst) hb)
    rwa [← hkeys] at hfilter
  · exact tiled_of_handles hf.handles (hiter.symm ▸ hasc : Ascending w.finish.iter)

/-- Write a whole table. -/
def writeTable (tuning : Tuning) (l : List (Bytes × Entry)) : Option SsTable :=
  ((Writer.create tuning).addAll l).map Writer.finish

theorem writeTable_ascending (tuning : Tuning) {l : List (Bytes × Entry)} (hasc : Ascending l) :
    ∃ t, writeTable tuning l = some t ∧ t.iter = l ∧ t.summary.entryCount = l.length ∧
      (l ≠ [] → t.Sound) := by
  obtain ⟨w, hw, hholds⟩ := (Writer.create_holds tuning).addAll l (by simpa using hasc)
  rw [List.nil_append] at hholds
  exact ⟨w.finish, by rw [writeTable, hw, Option.map_some], hholds.finish_iter,
    hholds.finish_count, fun hne => hholds.finish_sound hne hasc⟩

end RedisFromScratch.SsTables
