import RedisFromScratch.TableReads

/-!
Opening the layout of a table. The footer is found from the end of the file, the
filter and the index from the footer, every block from its handle. Whatever the
checksum, the opened table has the handles, the filter and the key range of the
table that was laid out.
-/
namespace RedisFromScratch.TableOpening

open ByteStrings ByteCoding SortedTables BloomFilters EngineTypes EngineCoding SsTables TableFiles
  TableReads

variable {checksum : Bytes → UInt32}

theorem footerFields_length (a b c d e : ℕ) : (footerFields a b c d e).length = 44 := by
  simp [footerFields]

theorem footer_length (a b c d e : ℕ) : (footer checksum a b c d e).length = footerSize := by
  simp [footer, withChecksum, footerFields_length, footerSize]

theorem readFields_footer {a b c d e : ℕ} (ha : a < 2 ^ 64) (hb : b < 2 ^ 64) (hc : c < 2 ^ 64)
    (hd : d < 2 ^ 64) (he : e < 2 ^ 64) :
    readFields (footer checksum a b c d e) = some ⟨a, b, c, d, e⟩ := by
  unfold readFields footer withChecksum footerFields
  simp only [List.append_assoc]
  rw [getFixed_le ha]
  simp only [Option.bind_some]
  rw [getFixed_le hb]
  simp only [Option.bind_some]
  rw [getFixed_le hc]
  simp only [Option.bind_some]
  rw [getFixed_le hd]
  simp only [Option.bind_some]
  rw [getFixed_le he]
  simp only [Option.bind_some]
  rw [getFixed_le (show formatVersion < 256 ^ 4 by decide)]
  rfl

/-- A file that ends in a footer whose blocks lie inside it. -/
theorem readFooter_append {body : Bytes} {a b c d e : ℕ} (ha : a < 2 ^ 64) (hb : b < 2 ^ 64)
    (hc : c < 2 ^ 64) (hd : d < 2 ^ 64) (he : e < 2 ^ 64) (hbloom : a + b ≤ body.length)
    (hindex : c + d ≤ body.length) :
    readFooter checksum (body ++ footer checksum a b c d e) = some ⟨a, b, c, d, e⟩ := by
  have hfields := footerFields_length a b c d e
  have hsize : (body ++ footer checksum a b c d e).length = body.length + footerSize := by
    rw [List.length_append, footer_length]
  have hread : pread (body ++ footer checksum a b c d e) body.length footerSize =
      some (footer checksum a b c d e) := by
    have hmiddle := pread_middle body (footer checksum a b c d e) []
    rwa [List.append_nil, footer_length] at hmiddle
  have hsigned : (footer checksum a b c d e).take (footerSize - 12) = footerFields a b c d e := by
    rw [footer, withChecksum, List.append_assoc]
    exact List.take_left' hfields
  have hrest : (footer checksum a b c d e).drop (footerSize - 12) =
      le 4 (checksum (footerFields a b c d e)).toNat ++ le 8 magic := by
    rw [footer, withChecksum, List.append_assoc]
    exact List.drop_left' hfields
  have hsum : ((footer checksum a b c d e).drop (footerSize - 12)).take 4 =
      le 4 (checksum (footerFields a b c d e)).toNat := by
    rw [hrest]
    exact List.take_left' (le_length 4 _)
  have hmagic : (footer checksum a b c d e).drop (footerSize - 8) = le 8 magic := by
    have hsplit : footerSize - 8 = (footerSize - 12) + 4 := rfl
    rw [hsplit, ← List.drop_drop, hrest]
    exact List.drop_left' (le_length 4 _)
  unfold readFooter
  rw [hsize, if_neg (by omega), Nat.add_sub_cancel, hread, Option.bind_some, hmagic,
    ofLe_le 8 magic (by decide), if_pos rfl, hsigned, hsum,
    ofLe_le 4 _ (checksum (footerFields a b c d e)).toNat_lt, if_pos rfl,
    readFields_footer ha hb hc hd he, Option.bind_some, if_neg (by simp only; omega)]

theorem readBloom_middle {bloom : Bloom} (hhashes : bloom.hashes < 2 ^ 32) (pre post : Bytes)
    (f : Footer) (hoffset : f.bloomOffset = pre.length)
    (hlen : f.bloomLen = (bloomBlock checksum bloom).length) :
    readBloom checksum (pre ++ (bloomBlock checksum bloom ++ post)) f = some bloom := by
  unfold readBloom
  rw [hoffset, hlen, pread_middle, Option.bind_some, bloomBlock, verify_withChecksum,
    Option.bind_some, if_neg (by simp), List.drop_left' (le_length 4 _),
    List.take_left' (le_length 4 _), ofLe_le 4 _ hhashes]

/-- Blocks laid out from `o` end where their bytes end. -/
theorem Laid.end_le {o : ℕ} {bs : List Block} (h : Laid checksum o bs) {b : Block} (hb : b ∈ bs) :
    b.offset + b.length ≤ o + (dataBytes checksum bs).length := by
  induction bs generalizing o with
  | nil => cases hb
  | cons a bs ih =>
    obtain ⟨hoffset, hlength, hrest⟩ := h
    have hdata : (dataBytes checksum (a :: bs)).length =
        a.length + (dataBytes checksum bs).length := by
      simp [dataBytes, hlength]
    rcases List.mem_cons.mp hb with rfl | hb
    · omega
    · have hlater := ih hrest hb
      omega

theorem encodeHandle_handleOf (b : Block) : encodeHandle (handleOf b) =
    putBytes b.lastKey ++ (uvarint b.offset ++ uvarint (b.length % 2 ^ 32)) := rfl

theorem readHandles_handles {bloomOffset : ℕ} {bs : List Block} (rest : Bytes)
    (hkeys : ∀ b ∈ bs, b.lastKey.length < 2 ^ 64) (hbound : bloomOffset < 2 ^ 64)
    (hend : ∀ b ∈ bs, b.offset + b.length ≤ bloomOffset) :
    readHandles bloomOffset bs.length ((bs.map handleOf).flatMap encodeHandle ++ rest) =
      some (bs.map handleOf) := by
  induction bs with
  | nil => rfl
  | cons b bs ih =>
    have hfits := hend b List.mem_cons_self
    have hrest := ih (fun c hc => hkeys c (List.mem_cons_of_mem _ hc))
      (fun c hc => hend c (List.mem_cons_of_mem _ hc))
    rw [List.map_cons, List.flatMap_cons, List.length_cons, encodeHandle_handleOf, readHandles]
    simp only [List.append_assoc]
    rw [getBytes_putBytes _ _ (hkeys b List.mem_cons_self)]
    simp only [Option.bind_some]
    rw [getUvarint_uvarint _ _ (by omega)]
    simp only [Option.bind_some]
    rw [getUvarint_uvarint _ _ (by omega)]
    simp only [Option.bind_some]
    rw [Nat.mod_mod, if_neg (by omega), hrest]
    rfl

/-- A table whose layout can be read back. -/
structure Fits (checksum : Bytes → UInt32) (t : SsTable) : Prop where
  laid : Laid checksum 0 t.index
  blocks : ∀ b ∈ t.index, Encodable b.entries ∧ (encodeBlock checksum b.entries).length < 2 ^ 32
  hashes : t.bloom.hashes < 2 ^ 32
  entryCount : t.summary.entryCount < 2 ^ 64
  file : (encodeTable checksum t).length < 2 ^ 64

theorem flatMap_length_ge {bs : List Block} :
    bs.length ≤ ((bs.map handleOf).flatMap encodeHandle).length := by
  induction bs with
  | nil => exact Nat.le_refl 0
  | cons b =>
    have hone : 1 ≤ (uvarint b.offset).length := by
      rw [uvarint]
      split <;> simp
    simp only [List.map_cons, List.flatMap_cons, List.length_append, List.length_cons, encodeHandle,
      handleOf]
    omega

theorem lastKey_le {bs : List Block} {b : Block} (hb : b ∈ bs) :
    b.lastKey.length ≤ ((bs.map handleOf).flatMap encodeHandle).length := by
  have hmem : encodeHandle (handleOf b) ∈ (bs.map handleOf).map encodeHandle :=
    List.mem_map_of_mem (List.mem_map_of_mem hb)
  have hle := (List.sublist_flatten_of_mem hmem).length_le
  have hkey : b.lastKey.length ≤ (encodeHandle (handleOf b)).length := by
    simp only [encodeHandle, handleOf, putBytes, List.length_append]
    omega
  rw [List.flatMap_def]
  exact hkey.trans hle

theorem readIndex_middle {t : SsTable} (h : Fits checksum t) (pre post : Bytes) (f : Footer)
    (hbloom : f.bloomOffset = (dataBytes checksum t.index).length)
    (hoffset : f.indexOffset = pre.length)
    (hlen : f.indexLen = (indexBlock checksum t.summary.minKey t.summary.maxKey
      (t.index.map handleOf)).length)
    (hfile : (pre ++ (indexBlock checksum t.summary.minKey t.summary.maxKey
      (t.index.map handleOf) ++ post)).length < 2 ^ 64)
    (hdata : (dataBytes checksum t.index).length < 2 ^ 64) :
    readIndex checksum (pre ++ (indexBlock checksum t.summary.minKey t.summary.maxKey
      (t.index.map handleOf) ++ post)) f =
      some ⟨t.summary.minKey, t.summary.maxKey, t.index.map handleOf⟩ := by
  have hcount : t.index.length ≤ ((t.index.map handleOf).flatMap encodeHandle).length :=
    flatMap_length_ge
  have hsize : t.summary.minKey.length < 2 ^ 64 ∧ t.summary.maxKey.length < 2 ^ 64 ∧
      ((t.index.map handleOf).flatMap encodeHandle).length < 2 ^ 64 := by
    simp only [indexBlock, withChecksum_length, List.length_append, putBytes] at hfile
    omega
  have hroom : ¬ (pre ++ (indexBlock checksum t.summary.minKey t.summary.maxKey
      (t.index.map handleOf) ++ post)).length < t.index.length := by
    simp only [indexBlock, withChecksum_length, List.length_append]
    omega
  unfold readIndex
  rw [hoffset, hlen, pread_middle, Option.bind_some]
  nth_rewrite 1 [indexBlock]
  rw [verify_withChecksum, Option.bind_some, getBytes_putBytes _ _ hsize.1]
  simp only [Option.bind_some]
  rw [getBytes_putBytes _ _ hsize.2.1]
  simp only [Option.bind_some, List.length_map]
  rw [getUvarint_uvarint _ _ (by omega)]
  simp only [Option.bind_some]
  have hhandles : readHandles f.bloomOffset t.index.length
      ((t.index.map handleOf).flatMap encodeHandle ++ []) = some (t.index.map handleOf) := by
    apply readHandles_handles
    · exact fun b hb => lt_of_le_of_lt (lastKey_le hb) hsize.2.2
    · rwa [hbloom]
    · intro b hb
      have hend := Laid.end_le h.laid hb
      omega
  rw [List.append_nil] at hhandles
  rw [if_neg hroom, hhandles]
  rfl

/-- Every handle of the layout leads to its block. -/
theorem leads_of_laid {bs : List Block} {o : ℕ} {file : Bytes} (pre post : Bytes)
    (hpre : pre.length = o) (hlaid : Laid checksum o bs)
    (hfile : file = pre ++ (dataBytes checksum bs ++ post))
    (hblocks : ∀ b ∈ bs, Encodable b.entries ∧ (encodeBlock checksum b.entries).length < 2 ^ 32) :
    List.Forall₂ (Leads checksum file) (bs.map handleOf) bs := by
  induction bs generalizing o pre with
  | nil => exact .nil
  | cons b bs ih =>
    obtain ⟨hoffset, hlength, hrest⟩ := hlaid
    obtain ⟨hencodable, hsmall⟩ := hblocks b List.mem_cons_self
    have hdata : dataBytes checksum (b :: bs) =
        encodeBlock checksum b.entries ++ dataBytes checksum bs := List.flatMap_cons
    rw [hdata, List.append_assoc] at hfile
    refine .cons ⟨rfl, ?_, hencodable⟩ ?_
    · have hlen : (handleOf b).length = (encodeBlock checksum b.entries).length := by
        change b.length % 2 ^ 32 = _
        rw [hlength, Nat.mod_eq_of_lt hsmall]
      have hread : pread file (handleOf b).offset (handleOf b).length =
          some (encodeBlock checksum b.entries) := by
        change pread file b.offset (handleOf b).length = _
        rw [hfile, hlen, hoffset, ← hpre]
        exact pread_middle pre _ _
      have htake : (encodeEntries b.entries ++ le 4 b.entries.length).take
          ((encodeEntries b.entries ++ le 4 b.entries.length).length - 4) =
          encodeEntries b.entries := by
        rw [List.length_append, le_length, Nat.add_sub_cancel, List.take_left]
      unfold readPayload
      rw [hread, Option.bind_some, encodeBlock, verify_withChecksum, Option.bind_some,
        if_neg (by simp), htake]
    · refine ih (pre ++ encodeBlock checksum b.entries) ?_ hrest ?_
        (fun c hc => hblocks c (List.mem_cons_of_mem _ hc))
      · rw [List.length_append, hpre, hlength]
      · rw [hfile, List.append_assoc]

/-- Opening the layout of a table gives a table that reads as it. -/
theorem Fits.openTable {t : SsTable} (h : Fits checksum t) :
    ∃ o, openTable checksum (encodeTable checksum t) = some o ∧ Reads checksum o t := by
  obtain ⟨data, hdata⟩ : ∃ data, dataBytes checksum t.index = data := ⟨_, rfl⟩
  obtain ⟨bloom, hbloom⟩ : ∃ bloom, bloomBlock checksum t.bloom = bloom := ⟨_, rfl⟩
  obtain ⟨index, hindex⟩ : ∃ index, indexBlock checksum t.summary.minKey t.summary.maxKey
      (t.index.map handleOf) = index := ⟨_, rfl⟩
  obtain ⟨f, hf⟩ : ∃ f : Footer, f = ⟨data.length, bloom.length, data.length + bloom.length,
      index.length, t.summary.entryCount⟩ := ⟨_, rfl⟩
  obtain ⟨tail, htail⟩ : ∃ tail, footer checksum data.length bloom.length
      (data.length + bloom.length) index.length t.summary.entryCount = tail := ⟨_, rfl⟩
  have hfile : encodeTable checksum t = data ++ (bloom ++ (index ++ tail)) := by
    simp only [encodeTable, hdata, hbloom, hindex, htail]
  have hsize := h.file
  rw [hfile] at hsize
  have hparts := hsize
  simp only [List.length_append] at hparts
  have hfooter : readFooter checksum (data ++ (bloom ++ (index ++ tail))) = some f := by
    have hbody : data ++ (bloom ++ (index ++ tail)) = (data ++ (bloom ++ index)) ++ tail := by
      simp only [List.append_assoc]
    have hlength : (data ++ (bloom ++ index)).length =
        data.length + (bloom.length + index.length) := by
      simp only [List.length_append]
    rw [hbody, ← htail, hf]
    exact readFooter_append (by omega) (by omega) (by omega) (by omega) h.entryCount (by omega)
      (by omega)
  have hreadBloom : readBloom checksum (data ++ (bloom ++ (index ++ tail))) f = some t.bloom := by
    rw [← hbloom]
    exact readBloom_middle h.hashes data (index ++ tail) f (by rw [hf]) (by rw [hf, hbloom])
  have hreadIndex : readIndex checksum (data ++ (bloom ++ (index ++ tail))) f =
      some ⟨t.summary.minKey, t.summary.maxKey, t.index.map handleOf⟩ := by
    rw [← List.append_assoc] at hsize ⊢
    rw [← hindex] at hsize ⊢
    refine readIndex_middle h (data ++ bloom) tail f ?_ ?_ ?_ hsize ?_
    · rw [hf, hdata]
    · rw [hf, List.length_append]
    · rw [hf, hindex]
    · rw [hdata]
      omega
  refine ⟨⟨data ++ (bloom ++ (index ++ tail)), t.index.map handleOf, t.bloom, t.summary.minKey,
    t.summary.maxKey, f.entryCount⟩, ?_, ?_, rfl, rfl, rfl, by rw [hf]⟩
  · rw [hfile, TableReads.openTable, hfooter, Option.bind_some, hreadBloom, Option.bind_some,
      hreadIndex]
    rfl
  · exact leads_of_laid [] (bloom ++ (index ++ tail)) rfl h.laid (by rw [hdata, List.nil_append])
      h.blocks

end RedisFromScratch.TableOpening
