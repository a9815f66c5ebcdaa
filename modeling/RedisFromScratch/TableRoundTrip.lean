import RedisFromScratch.TableOpening

/-!
An SSTable file read back. Entries that take less than 2^32 bytes, with the count
and the checksum of a block, leave every length and offset of the file within its
field, whatever the block size and the filter size; so the opened table is the
table that was written.
-/
namespace RedisFromScratch.TableRoundTrip

open ByteStrings ByteCoding SortedTables BloomFilters EngineTypes EngineCoding SsTables TableFiles
  TableReads TableOpening

/-- The encoded size of a list: its entries, the count and the checksum. -/
def encodedSize (l : List (Bytes × Entry)) : ℕ := (encodeEntries l).length + 8

theorem uvarint_of_lt {n : ℕ} (h : n < 128) : uvarint n = [UInt8.ofNat n] := by
  rw [uvarint, if_pos h]

theorem uvarint_length_le (k : ℕ) {n : ℕ} (h : n < 128 ^ (k + 1)) :
    (uvarint n).length ≤ k + 1 := by
  induction k generalizing n with
  | zero =>
    rw [uvarint_of_lt (by simpa using h)]
    rfl
  | succ k ih =>
    rw [uvarint]
    split
    · simp
    · have hdiv : n / 128 < 128 ^ (k + 1) := by
        rw [Nat.div_lt_iff_lt_mul (by decide), ← pow_succ]
        exact h
      have hrest := ih hdiv
      rw [List.length_cons]
      omega

theorem uvarint_length_le_ten {n : ℕ} (h : n < 2 ^ 64) : (uvarint n).length ≤ 10 :=
  uvarint_length_le 9 (h.trans (by norm_num))

theorem putBytes_length_le {b : Bytes} (h : b.length < 2 ^ 64) :
    (putBytes b).length ≤ 10 + b.length := by
  have hlen := uvarint_length_le_ten h
  rw [putBytes, List.length_append]
  omega

theorem encodeEntries_cons_length (b : Bytes × Entry) (l : List (Bytes × Entry)) :
    (encodeEntries (b :: l)).length =
      (encodeEntry b.1 b.2).length + (encodeEntries l).length := by
  simp [encodeEntries]

/-- Entries take at least a byte each. -/
theorem length_le_encodeEntries (l : List (Bytes × Entry)) :
    l.length ≤ (encodeEntries l).length := by
  induction l with
  | nil => exact Nat.le_refl 0
  | cons b =>
    have hpos := List.length_pos_of_ne_nil (encodeEntry_ne_nil b.1 b.2)
    rw [encodeEntries_cons_length, List.length_cons]
    omega

theorem key_length_le (key : Bytes) (e : Entry) : key.length ≤ (encodeEntry key e).length := by
  cases e <;> simp only [encodeEntry, putBytes, List.length_append] <;> omega

theorem encodeEntry_length_le {b : Bytes × Entry} {l : List (Bytes × Entry)} (hb : b ∈ l) :
    (encodeEntry b.1 b.2).length ≤ (encodeEntries l).length := by
  have hmem : encodeEntry b.1 b.2 ∈ l.map (fun b => encodeEntry b.1 b.2) :=
    List.mem_map.mpr ⟨b, hb, rfl⟩
  rw [encodeEntries, List.flatMap_def]
  exact (List.sublist_flatten_of_mem hmem).length_le

/-- Blocks that are not empty and name their last key. -/
def Closed (bs : List Block) : Prop :=
  ∀ b ∈ bs, ∃ e, b.entries.getLast? = some (b.lastKey, e)

theorem Closed.tail {b : Block} {bs : List Block} (h : Closed (b :: bs)) : Closed bs :=
  fun c hc => h c (List.mem_cons_of_mem _ hc)

theorem Closed.length_le {bs : List Block} (h : Closed bs) :
    bs.length ≤ (bs.flatMap Block.entries).length := by
  induction bs with
  | nil => exact Nat.le_refl 0
  | cons b bs ih =>
    obtain ⟨e, he⟩ := h b List.mem_cons_self
    have hpos := List.length_pos_of_mem (List.mem_of_getLast? he)
    have hrest := ih h.tail
    rw [List.flatMap_cons, List.length_append, List.length_cons]
    omega

theorem Closed.lastKey_le {bs : List Block} (h : Closed bs) {b : Block} (hb : b ∈ bs) :
    b.lastKey.length ≤ (encodeEntries b.entries).length := by
  obtain ⟨e, he⟩ := h b hb
  exact (key_length_le b.lastKey e).trans (encodeEntry_length_le (List.mem_of_getLast? he))

theorem dataBytes_length (checksum : Bytes → UInt32) (bs : List Block) :
    (dataBytes checksum bs).length =
      (encodeEntries (bs.flatMap Block.entries)).length + 8 * bs.length := by
  induction bs with
  | nil => rfl
  | cons b bs ih =>
    have hcons : dataBytes checksum (b :: bs) =
        encodeBlock checksum b.entries ++ dataBytes checksum bs := List.flatMap_cons
    rw [hcons, List.length_append, encodeBlock_length, ih, List.flatMap_cons, encodeEntries_append,
      List.length_append, List.length_cons]
    omega

/-- A handle takes at most its last key and three varints. -/
theorem Closed.handles_length_le {bs : List Block} (h : Closed bs)
    (hkeys : ∀ b ∈ bs, b.lastKey.length < 2 ^ 64) (hoffsets : ∀ b ∈ bs, b.offset < 2 ^ 64) :
    ((bs.map handleOf).flatMap encodeHandle).length ≤
      30 * bs.length + (encodeEntries (bs.flatMap Block.entries)).length := by
  induction bs with
  | nil => exact Nat.le_refl 0
  | cons b bs ih =>
    have hrest := ih h.tail (fun c hc => hkeys c (List.mem_cons_of_mem _ hc))
      (fun c hc => hoffsets c (List.mem_cons_of_mem _ hc))
    have hkey := h.lastKey_le List.mem_cons_self
    have hput := putBytes_length_le (hkeys b List.mem_cons_self)
    have hoffset := uvarint_length_le_ten (hoffsets b List.mem_cons_self)
    have hsmall : b.length % 2 ^ 32 < 2 ^ 64 := by omega
    have hlength := uvarint_length_le_ten hsmall
    rw [List.map_cons, List.flatMap_cons, encodeHandle_handleOf, List.flatMap_cons,
      encodeEntries_append]
    simp only [List.length_append, List.length_cons]
    omega

theorem bits_length_le (hs : List UInt64) {bitsPerKey : ℕ} (h : bitsPerKey ≤ 1000) :
    (fromHashes hs bitsPerKey).bits.length ≤ 125 * hs.length + 9 := by
  have hmul : hs.length * max bitsPerKey 1 ≤ hs.length * 1000 :=
    Nat.mul_le_mul_left _ (by omega)
  simp only [fromHashes, build_length, List.length_replicate]
  omega

theorem hashes_lt (hs : List UInt64) (bitsPerKey : ℕ) :
    (fromHashes hs bitsPerKey).hashes < 2 ^ 32 := by
  have hcap : (fromHashes hs bitsPerKey).hashes ≤ 30 := Nat.min_le_right _ _
  omega

theorem add_bitsPerKey {w w' : Writer} {key : Bytes} {e : Entry} (h : w.add key e = some w') :
    w'.tuning.bitsPerKey = w.tuning.bitsPerKey := by
  have hflush : ∀ v : Writer, v.flushBlock.tuning = v.tuning := by
    intro v
    unfold Writer.flushBlock
    split <;> rfl
  unfold Writer.add at h
  split at h
  · cases h
  · split at h
    · cases h
      rw [hflush]
      rfl
    · cases h
      rfl

theorem addAll_bitsPerKey {w w' : Writer} {l : List (Bytes × Entry)} (h : w.addAll l = some w') :
    w'.tuning.bitsPerKey = w.tuning.bitsPerKey := by
  induction l generalizing w with
  | nil =>
    cases h
    rfl
  | cons b l ih =>
    obtain ⟨w₁, hw₁, hrest⟩ := Option.bind_eq_some_iff.mp h
    exact (ih hrest).trans (add_bitsPerKey hw₁)

section RoundTrip

variable {checksum : Bytes → UInt32} {tuning : Tuning} {l : List (Bytes × Entry)}

/-- The file of a short enough list stays far below the range of its offsets. -/
theorem encodeTable_length_lt {t : SsTable} (hiter : t.iter = l) (hclosed : Closed t.index)
    (hlaid : Laid checksum 0 t.index) (hsize : encodedSize l < 2 ^ 32)
    (hmin : t.summary.minKey.length ≤ (encodeEntries l).length)
    (hmax : t.summary.maxKey.length ≤ (encodeEntries l).length)
    (hbloom : t.bloom.bits.length ≤ 125 * l.length + 9) :
    (encodeTable checksum t).length < 2 ^ 64 := by
  unfold encodedSize at hsize
  have hentries : t.index.flatMap Block.entries = l := hiter
  have hcount := length_le_encodeEntries l
  have hblocks := hclosed.length_le
  have hdata := dataBytes_length checksum t.index
  rw [hentries] at hblocks hdata
  have hkeys : ∀ b ∈ t.index, b.lastKey.length < 2 ^ 64 := by
    intro b hb
    obtain ⟨e, he⟩ := hclosed b hb
    have hin : (b.lastKey, e) ∈ l := by
      rw [← hentries]
      exact List.mem_flatMap.mpr ⟨b, hb, List.mem_of_getLast? he⟩
    have hle := (key_length_le b.lastKey e).trans (encodeEntry_length_le hin)
    omega
  have hoffsets : ∀ b ∈ t.index, b.offset < 2 ^ 64 := by
    intro b hb
    have hend := Laid.end_le hlaid hb
    omega
  have hhandles := hclosed.handles_length_le hkeys hoffsets
  rw [hentries] at hhandles
  have hputMin := putBytes_length_le (show t.summary.minKey.length < 2 ^ 64 by omega)
  have hputMax := putBytes_length_le (show t.summary.maxKey.length < 2 ^ 64 by omega)
  have hcountLen := uvarint_length_le_ten (show t.index.length < 2 ^ 64 by omega)
  simp only [encodeTable, bloomBlock, indexBlock, withChecksum_length, List.length_append,
    footer_length, le_length, List.length_map, footerSize]
  omega

theorem holds_fits {w : Writer} (hw : (Writer.create tuning).addAll l = some w) (h : w.Holds l)
    (hlaid : Laid checksum 0 w.finish.index) (hne : l ≠ []) (hasc : Ascending l)
    (hrange : ∀ b ∈ l, InRange b.2) (hsize : encodedSize l < 2 ^ 32)
    (hbits : tuning.bitsPerKey ≤ 1000) : Fits checksum w.finish := by
  have hiter := h.finish_iter
  have hsound := h.finish_sound hne hasc
  have hclosed : Closed w.finish.index := h.flushBlock.handles
  have hcount := length_le_encodeEntries l
  have hentry : ∀ b ∈ l, (encodeEntry b.1 b.2).length < 2 ^ 32 := by
    intro b hb
    have hle := encodeEntry_length_le hb
    unfold encodedSize at hsize
    omega
  have hkey : ∀ {k e}, (k, e) ∈ l → k.length ≤ (encodeEntries l).length :=
    fun {k e} hk => (key_length_le k e).trans (encodeEntry_length_le hk)
  constructor
  · exact hlaid
  · intro b hb
    have hin : ∀ c ∈ b.entries, c ∈ l := by
      intro c hc
      rw [← hiter]
      exact List.mem_flatMap.mpr ⟨b, hb, hc⟩
    refine ⟨fun c hc => ⟨hrange c (hin c hc), ?_⟩, ?_⟩
    · exact (hentry c (hin c hc)).trans (by norm_num)
    · obtain ⟨pre, post, hsplit⟩ := List.append_of_mem hb
      have hpart : (encodeEntries b.entries).length ≤ (encodeEntries l).length := by
        rw [← hiter, SsTable.iter, hsplit, List.flatMap_append, List.flatMap_cons,
          encodeEntries_append, encodeEntries_append]
        simp only [List.length_append]
        omega
      rw [encodeBlock_length]
      unfold encodedSize at hsize
      omega
  · exact hashes_lt _ _
  · rw [h.finish_count]
    unfold encodedSize at hsize
    omega
  · obtain ⟨e, hmin⟩ := hsound.min_mem
    obtain ⟨e', hmax⟩ := hsound.max_mem
    rw [hiter] at hmin hmax
    refine encodeTable_length_lt hiter hclosed hlaid hsize (hkey (List.mem_of_head? hmin))
      (hkey (List.mem_of_getLast? hmax)) ?_
    have hlen : w.flushBlock.keyHashes.length = l.length := by
      rw [h.flushBlock.hashes, List.length_map]
    have hbpk : w.flushBlock.tuning.bitsPerKey ≤ 1000 := by
      have hkeep : w.flushBlock.tuning = w.tuning := by
        unfold Writer.flushBlock
        split <;> rfl
      rw [hkeep, addAll_bitsPerKey hw]
      exact hbits
    rw [← hlen]
    exact bits_length_le _ hbpk

/-- Writing entries and opening the file gives a table that yields exactly
them, finds exactly them, and has their key range and count. -/
theorem table_round_trip (checksum : Bytes → UInt32) (tuning : Tuning)
    (l : List (Bytes × Entry)) (hne : l ≠ []) (hasc : Ascending l)
    (hrange : ∀ b ∈ l, InRange b.2) (hsize : encodedSize l < 2 ^ 32)
    (hbits : tuning.bitsPerKey ≤ 1000) :
    ∃ file summary t, writeFile checksum tuning l = some (file, summary) ∧
      openTable checksum file = some t ∧ Yields checksum t iter l ∧
      (∀ b ∈ l, t.get checksum b.1 = some (some b.2)) ∧
      (∀ key, (∀ b ∈ l, b.1 ≠ key) → t.get checksum key = some none) ∧
      l.head?.map Prod.fst = some t.minKey ∧ l.getLast?.map Prod.fst = some t.maxKey ∧
      t.entryCount = l.length := by
  obtain ⟨file, summary, w, hwrite, hw, hholds, rfl, hlaid⟩ :=
    @writeFile_ascending checksum tuning l hasc
  have hfits := holds_fits hw hholds hlaid hne hasc hrange hsize hbits
  obtain ⟨t, hopen, hreads⟩ := hfits.openTable
  have hiter := hholds.finish_iter
  have hsound := hholds.finish_sound hne hasc
  have hget : ∀ key, t.get checksum key = some (find l key) := by
    intro key
    rw [hreads.get, hsound.get_eq, hiter]
  refine ⟨_, summary, t, hwrite, hopen, ?_, ?_, ?_, ?_, ?_, ?_⟩
  · rw [← hiter]
    exact hreads.yields
  · intro b hb
    rw [hget, (hasc.mem_iff_find b.1 b.2).mp hb]
  · intro key hkey
    rw [hget, find_eq_none_of_forall_ne hkey]
  · obtain ⟨e, hmin⟩ := hsound.min_mem
    rw [hiter] at hmin
    rw [hmin, hreads.minKey]
    rfl
  · obtain ⟨e, hmax⟩ := hsound.max_mem
    rw [hiter] at hmax
    rw [hmax, hreads.maxKey]
    rfl
  · rw [hreads.entryCount, hholds.finish_count]

/-- A value that expires and a tombstone, in blocks of the smallest size. -/
theorem two_entries_round_trip :
    ∃ file summary t, writeFile (fun _ => 7) ⟨0, 10⟩
        [([97], .put ⟨[1, 2], 5⟩), ([98], .delete)] = some (file, summary) ∧
      openTable (fun _ => 7) file = some t ∧
      t.get (fun _ => 7) [97] = some (some (.put ⟨[1, 2], 5⟩)) ∧
      t.get (fun _ => 7) [98] = some (some .delete) ∧ t.get (fun _ => 7) [99] = some none := by
  obtain ⟨file, summary, t, hwrite, hopen, -, hlisted, hother, -⟩ := table_round_trip (fun _ => 7)
    ⟨0, 10⟩ [([97], .put ⟨[1, 2], 5⟩), ([98], .delete)] (by simp) (by decide)
    (by simp [InRange])
    (by simp [encodedSize, encodeEntries, encodeEntry, putBytes, uvarint_of_lt, varint, zigzag])
    (by norm_num)
  exact ⟨file, summary, t, hwrite, hopen, hlisted ([97], .put ⟨[1, 2], 5⟩) (by simp),
    hlisted ([98], .delete) (by simp), hother [99] (by simp)⟩

end RoundTrip

end RedisFromScratch.TableRoundTrip
