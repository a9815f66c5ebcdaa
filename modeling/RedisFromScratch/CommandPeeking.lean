import RedisFromScratch.CommandRoundTrip

/-!
HasCompleteCommand against ReadCommand. The two look for the end of a count
differently, one for the first CRLF and one for the first LF, and agree all the
same: where the peek finds a complete command, the bytes it has seen decide the
read; and where they hold a well-formed command, the peek finds it.
-/
namespace RedisFromScratch.CommandPeeking

open ByteStrings ReplyWriter BufferedReader StreamParsers ArgumentArena RespReader
open SignedDecimals RespGrammar CommandRoundTrip

variable {lim : Limits} {size : ℕ} {s rest : Bytes}

theorem splitCrlf_eq_some {pre : Bytes} (h : splitCrlf s = some (pre, rest)) :
    s = pre ++ crlf ++ rest := by
  induction s using splitCrlf.induct generalizing pre with
  | case1 | case2 => cases h
  | case3 b c rest' hcr =>
    rw [splitCrlf, if_pos hcr] at h
    cases h
    rw [hcr.1, hcr.2]
    rfl
  | case4 b c rest' hcr ih =>
    rw [splitCrlf, if_neg hcr] at h
    obtain ⟨⟨pre', rest''⟩, hsplit, heq⟩ := Option.map_eq_some_iff.mp h
    cases heq
    rw [ih hsplit]
    rfl

theorem splitCrlf_append {pre : Bytes} (hpre : 13 ∉ pre) (rest : Bytes) :
    splitCrlf (pre ++ crlf ++ rest) = some (pre, rest) := by
  induction pre with
  | nil => rfl
  | cons b pre ih =>
    rw [List.mem_cons, not_or] at hpre
    have htail := ih hpre.2
    have hb : ∀ c : UInt8, ¬ (b = 13 ∧ c = 10) := fun c h => hpre.1 h.1.symm
    cases pre with
    | nil =>
      change splitCrlf (b :: 13 :: 10 :: rest) = _
      rw [splitCrlf, if_neg (hb 13)]
      exact congrArg (Option.map _) htail
    | cons c pre =>
      change splitCrlf (b :: c :: (pre ++ crlf ++ rest)) = _
      rw [splitCrlf, if_neg (hb c)]
      exact congrArg (Option.map _) htail

/-- A count that the reader accepts is the one the peek sees. -/
theorem peekCount_of_readCount {what : String} {n : ℤ}
    (h : (readCount what).parse size s = .done n rest) : peekCount s = some (n, rest) := by
  obtain ⟨t, hdecimal, hrange, -, rfl⟩ := readCount_done_iff.mp h
  have hbounds := hrange
  unfold intRange at hbounds
  unfold peekCount
  rw [splitCrlf_append hdecimal.no_line_break.2, Option.map_some,
    parseInt_of_decimal hdecimal (by omega) (by omega)]
  dsimp only
  rw [if_pos hrange]

/-- A count that the peek sees is in the bytes: the reader accepts it or rejects. -/
theorem readCount_of_peekCount {n : ℤ} (what : String) (h : peekCount s = some (n, rest)) :
    (readCount what).parse size s = .done n rest ∨
      ∃ p, (readCount what).parse size s = .rejected p := by
  cases hread : (readCount what).parse size s with
  | done =>
    rw [peekCount_of_readCount hread] at h
    cases h
    exact Or.inl rfl
  | rejected p => exact Or.inr ⟨p, rfl⟩
  | short =>
    obtain ⟨⟨pre, rest'⟩, hsplit, -⟩ := Option.map_eq_some_iff.mp h
    have hmem : 10 ∈ s := by
      rw [splitCrlf_eq_some hsplit]
      simp [crlf]
    exact absurd hmem (readCount_short hread)

/-- If the peek finds the frames, the bytes decide the read of them. -/
theorem readBulks_decided {n : ℕ} (a : Arena) (h : peekBulks lim n s = true) :
    (readBulks lim n a).parse size s ≠ .short := by
  induction n generalizing s a with
  | zero => exact fun h => by cases h
  | succ n ih =>
    rw [readBulks_succ_parse]
    cases s with
    | nil => cases h
    | cons t s =>
      rw [readBulk_parse]
      rw [peekBulks] at h
      split at h
      · rename_i ht
        rw [if_pos ht]
        exact fun h => by cases h
      rename_i ht
      rw [if_neg ht]
      cases hcount : peekCount s with
      | none =>
        rw [hcount] at h
        cases h
      | some p =>
        obtain ⟨m, tail⟩ := p
        rw [hcount] at h
        dsimp only at h
        rcases readCount_of_peekCount "bulk" hcount with hread | ⟨p, hread⟩
        · rw [hread, Parsed.bind_done, readBody]
          split
          · exact fun h => by cases h
          rename_i hm
          rw [if_neg hm] at h
          split at h
          · cases h
          rw [if_neg (by omega)]
          split
          · exact fun h => by cases h
          have hdrop : (m + 2).toNat = m.toNat + 2 := by omega
          rw [hdrop] at h
          intro hshort
          rw [Parsed.bind_done] at hshort
          cases hrest : (readBulks lim n (a.put (tail.take m.toNat)).2).parse size
              (tail.drop (m.toNat + 2)) with
          | done xs rest' =>
            rw [hrest] at hshort
            cases hshort
          | rejected p =>
            rw [hrest] at hshort
            cases hshort
          | short => exact ih _ h hrest
        · rw [hread]
          exact fun h => by cases h

/-- If the reader accepts the frames, the peek finds them. -/
theorem peekBulks_of_frames {args : List Bytes} {bs : Bytes} (h : Frames lim size args bs)
    (rest : Bytes) : peekBulks lim args.length (bs ++ rest) = true := by
  induction h with
  | nil => rfl
  | @cons arg bs args bs' hframe hframes ih =>
    obtain ⟨t, hdecimal, hsize, hmax, rfl⟩ := hframe
    have hbig := lim.bulkRange
    have hread : (readCount "bulk").parse size (t ++ crlf ++ arg ++ crlf ++ bs' ++ rest) =
        .done arg.length (arg ++ crlf ++ bs' ++ rest) := by
      refine readCount_done_iff.mpr ⟨t, hdecimal, ?_, hsize, by simp⟩
      unfold intRange
      omega
    have hdrop : (arg ++ crlf ++ bs' ++ rest).drop (arg.length + 2) = bs' ++ rest := by
      rw [← List.drop_drop, List.append_assoc, List.append_assoc, List.drop_left]
      rfl
    change peekBulks lim (args.length + 1)
      (typeBulkString :: (t ++ crlf ++ arg ++ crlf ++ bs' ++ rest)) = true
    rw [peekBulks, if_neg (by simp), peekCount_of_readCount hread]
    dsimp only
    rw [if_neg (by omega), if_neg (by simp [crlf]; omega),
      show ((arg.length : ℤ) + 2).toNat = arg.length + 2 by omega, hdrop]
    exact ih

/-- A complete well-formed command within the limits: a multibulk, an array that
counts no arguments, or a line. -/
inductive Complete (lim : Limits) (size : ℕ) : Bytes → Prop
  | multibulk {args : List Bytes} {bs : Bytes} (h : Multibulk lim size args bs) :
      Complete lim size bs
  | nothing {t : Bytes} {n : ℤ} (hdecimal : Decimal t n) (hrange : intRange n) (hn : n ≤ 0)
      (hsize : t.length + 2 ≤ size) : Complete lim size (typeArray :: (t ++ crlf))
  | inline {text : Bytes} (hline : 10 ∉ text) (hstar : (text ++ crlf).head? ≠ some typeArray)
      (hmax : (text.length : ℤ) ≤ lim.maxInlineSize) : Complete lim size (text ++ crlf)

/-- What the peek takes for a command, the bytes decide. -/
theorem readOne_decided (a : Arena) (h : hasComplete lim s = true) :
    (readOne lim a).parse size s ≠ .short := by
  cases s with
  | nil => cases h
  | cons first s =>
    rw [readOne_parse_cons]
    rw [hasComplete] at h
    unfold readAfter
    split at h
    · rename_i hfirst
      rw [if_pos hfirst]
      have hmem : 10 ∈ first :: s := List.contains_iff_mem.mp h
      unfold readInline
      rw [Parser.parse_bind]
      cases hline : readLine.parse size (first :: s) with
      | done =>
        rw [Parsed.bind_done]
        split <;> exact fun h => by cases h
      | rejected => exact fun h => by cases h
      | short => exact absurd hmem (readLine_short_iff.mp hline).1
    · rename_i hfirst
      rw [if_neg hfirst, readMultibulk_parse]
      cases hcount : peekCount s with
      | none =>
        rw [hcount] at h
        cases h
      | some p =>
        obtain ⟨n, rest⟩ := p
        rw [hcount] at h
        rcases readCount_of_peekCount "multibulk" hcount with hread | ⟨p, hread⟩
        · rw [hread, Parsed.bind_done]
          split
          · exact fun h => by cases h
          split
          · exact fun h => by cases h
          rename_i hpos hmax
          dsimp only at h
          rw [if_neg hpos, if_neg hmax] at h
          cases hbulks : (readBulks lim n.toNat a).parse size rest with
          | done | rejected => exact fun h => by cases h
          | short => exact absurd hbulks (readBulks_decided a h)
        · rw [hread]
          exact fun h => by cases h

/-- A complete command at the front of the bytes is found. -/
theorem hasComplete_of_complete {cmd : Bytes} (h : Complete lim size cmd) (rest : Bytes) :
    hasComplete lim (cmd ++ rest) = true := by
  cases h with
  | @multibulk args bs hmulti =>
    obtain ⟨t, frames, hdecimal, hsize, hsome, hmax, hframes, rfl⟩ := hmulti
    have hbig := lim.multiBulkRange
    have hpos := List.length_pos_iff.mpr hsome
    have hread : (readCount "multibulk").parse size (t ++ crlf ++ frames ++ rest) =
        .done args.length (frames ++ rest) := by
      refine readCount_done_iff.mpr ⟨t, hdecimal, ?_, hsize, by simp⟩
      unfold intRange
      omega
    change hasComplete lim (typeArray :: (t ++ crlf ++ frames ++ rest)) = true
    rw [hasComplete, if_neg (by simp), peekCount_of_readCount hread]
    dsimp only
    rw [if_neg (by omega), if_neg (by omega), Int.toNat_natCast]
    exact peekBulks_of_frames hframes rest
  | @nothing t n hdecimal hrange hn hsize =>
    have hread : (readCount "multibulk").parse size (t ++ crlf ++ rest) = .done n rest :=
      readCount_done_iff.mpr ⟨t, hdecimal, hrange, hsize, rfl⟩
    change hasComplete lim (typeArray :: (t ++ crlf ++ rest)) = true
    rw [hasComplete, if_neg (by simp), peekCount_of_readCount hread]
    dsimp only
    rw [if_pos hn]
  | @inline text hline hstar =>
    obtain ⟨first, tail, hcons⟩ : ∃ first tail, text ++ crlf = first :: tail := by
      cases text with
      | nil => exact ⟨13, [10], rfl⟩
      | cons b text => exact ⟨b, text ++ crlf, rfl⟩
    have hmem : 10 ∈ first :: tail := by
      rw [← hcons]
      simp [crlf]
    rw [hcons] at hstar ⊢
    rw [List.cons_append, hasComplete, if_pos (by simpa using hstar), List.contains_iff_mem,
      ← List.cons_append]
    exact List.mem_append_left _ hmem

end RedisFromScratch.CommandPeeking
