import RedisFromScratch.SignedDecimals

/-!
The multibulk grammar, and what the request reader makes of a sequence of bytes
that is all there. A line ends with the first LF, which must follow a CR and must
come within the buffer's size; a command is a counted list of counted frames.
-/
namespace RedisFromScratch.RespGrammar

open ByteStrings ReplyWriter BufferedReader StreamParsers ArgumentArena RespReader SignedDecimals

/-- One argument: `$`, its length, CRLF, its bytes, CRLF. -/
def Frame (lim : Limits) (size : ℕ) (arg bs : Bytes) : Prop :=
  ∃ t, Decimal t arg.length ∧ t.length + 2 ≤ size ∧ (arg.length : ℤ) ≤ lim.maxBulkSize ∧
    bs = typeBulkString :: (t ++ crlf ++ arg ++ crlf)

inductive Frames (lim : Limits) (size : ℕ) : List Bytes → Bytes → Prop
  | nil : Frames lim size [] []
  | cons {arg bs : Bytes} {args : List Bytes} {rest : Bytes} (hframe : Frame lim size arg bs)
      (hframes : Frames lim size args rest) : Frames lim size (arg :: args) (bs ++ rest)

/-- A command: `*`, the number of arguments, CRLF, a frame for each. -/
def Multibulk (lim : Limits) (size : ℕ) (args : List Bytes) (bs : Bytes) : Prop :=
  ∃ t frames, Decimal t args.length ∧ t.length + 2 ≤ size ∧ args ≠ [] ∧
    (args.length : ℤ) ≤ lim.maxMultiBulkLen ∧ Frames lim size args frames ∧
    bs = typeArray :: (t ++ crlf ++ frames)

variable {lim : Limits} {size : ℕ} {s rest : Bytes}

theorem readLine_parse (size : ℕ) (s : Bytes) :
    readLine.parse size s = (Parsed.given (takeLine size 10 s)).bind fun got rest =>
      match got with
      | none => .rejected "too big inline request"
      | some line =>
        if line.length < 2 ∨ line.getD (line.length - 2) 0 ≠ 13 then
          .rejected "unbalanced line terminator"
        else .done (line.take (line.length - 2)) rest := by
  unfold readLine
  rw [Parser.parse_bind, Parser.parse_readSlice]
  rcases takeLine size 10 s with _ | ⟨_ | line, rest⟩
  · rfl
  · rfl
  · simp only [Parsed.given, Parsed.bind_done]
    split <;> rfl

theorem readLine_done_iff {line : Bytes} :
    readLine.parse size s = .done line rest ↔
      s = line ++ crlf ++ rest ∧ 10 ∉ line ∧ line.length + 2 ≤ size := by
  rw [readLine_parse]
  constructor
  · intro h
    rcases htake : takeLine size 10 s with _ | ⟨_ | got, rest'⟩
    · rw [htake] at h
      cases h
    · rw [htake] at h
      cases h
    · rw [htake] at h
      obtain ⟨pre, rfl, hpre, rfl, hlen⟩ := Reader.takeLine_eq_line_iff.mp htake
      simp only [Parsed.given, Parsed.bind_done] at h
      split at h
      · cases h
      · rename_i hcr
        cases h
        rw [not_or, not_not] at hcr
        rcases List.eq_nil_or_concat pre with rfl | ⟨line, b, rfl⟩
        · exact absurd (by decide) hcr.1
        · rw [List.concat_eq_append] at hcr hpre hlen ⊢
          have hb : b = 13 := by simpa using hcr.2
          subst hb
          have hline : (line ++ [13] ++ [10]).take ((line ++ [13] ++ [10]).length - 2) = line := by
            simp
          rw [hline]
          have hfits : line.length + 2 ≤ size := by
            rw [List.length_append, List.length_singleton] at hlen
            omega
          refine ⟨by simp [crlf], ?_, hfits⟩
          intro hmem
          exact hpre (List.mem_append_left _ hmem)
  · rintro ⟨rfl, hline, hlen⟩
    have htake : takeLine size 10 (line ++ crlf ++ rest) = some (some (line ++ crlf), rest) := by
      refine Reader.takeLine_eq_line_iff.mpr ⟨line ++ [13], by simp [crlf], ?_, by simp [crlf], ?_⟩
      · simpa using hline
      · rw [List.length_append, List.length_singleton]
        omega
    rw [htake]
    simp [Parsed.given, crlf]

/-- A line that has not come yet: no LF, and room for more. -/
theorem readLine_short_iff : readLine.parse size s = .short ↔ 10 ∉ s ∧ s.length < size := by
  rw [readLine_parse, ← Reader.takeLine_eq_none_iff]
  rcases takeLine size 10 s with _ | ⟨_ | line, rest⟩
  · exact ⟨fun _ => rfl, fun _ => rfl⟩
  · exact ⟨fun h => (by cases h), fun h => (by cases h)⟩
  · simp only [Parsed.given, Parsed.bind_done]
    split
    · exact ⟨fun h => (by cases h), fun h => (by cases h)⟩
    · exact ⟨fun h => (by cases h), fun h => (by cases h)⟩

theorem readCount_parse (what : String) (size : ℕ) (s : Bytes) :
    (readCount what).parse size s = (readLine.parse size s).bind fun line rest =>
      match parseInt line with
      | none => .rejected ("invalid " ++ what ++ " length")
      | some v =>
        if intRange v then .done v rest else .rejected ("invalid " ++ what ++ " length") := by
  unfold readCount
  rw [Parser.parse_bind]
  congr 1
  funext line rest
  cases parseInt line with
  | none => rfl
  | some =>
    dsimp only
    split <;> rfl

/-- A count is a decimal in the range of the checks, ended by CRLF. -/
theorem readCount_done_iff {what : String} {n : ℤ} :
    (readCount what).parse size s = .done n rest ↔
      ∃ t, Decimal t n ∧ intRange n ∧ t.length + 2 ≤ size ∧ s = t ++ crlf ++ rest := by
  rw [readCount_parse]
  constructor
  · intro h
    cases hline : readLine.parse size s with
    | done line rest' =>
      rw [hline, Parsed.bind_done] at h
      obtain ⟨hs, -, hlen⟩ := readLine_done_iff.mp hline
      cases hint : parseInt line with
      | none =>
        rw [hint] at h
        cases h
      | some v =>
        rw [hint] at h
        dsimp only at h
        split at h
        · rename_i hrange
          cases h
          exact ⟨line, (decimal_of_parseInt hint).1, hrange, hlen, hs⟩
        · cases h
    | rejected | short =>
      rw [hline] at h
      cases h
  · rintro ⟨t, hdecimal, hrange, hlen, rfl⟩
    have hline : readLine.parse size (t ++ crlf ++ rest) = .done t rest :=
      readLine_done_iff.mpr ⟨rfl, hdecimal.no_line_break.1, hlen⟩
    have hbounds := hrange
    unfold intRange at hbounds
    rw [hline, Parsed.bind_done, parseInt_of_decimal hdecimal (by omega) (by omega)]
    exact if_pos hrange

theorem readCount_short {what : String} (h : (readCount what).parse size s = .short) :
    10 ∉ s := by
  rw [readCount_parse] at h
  cases hline : readLine.parse size s with
  | done =>
    rw [hline, Parsed.bind_done] at h
    split at h
    · cases h
    · split at h <;> cases h
  | rejected =>
    rw [hline] at h
    cases h
  | short => exact (readLine_short_iff.mp hline).1

/-- The bytes of an argument and the two behind them. -/
theorem takeFull_takeFull {γ : Type} (n : ℕ) (s : Bytes)
    (f : Bytes → Bytes → Bytes → Parsed UInt8 String γ) :
    ((Parsed.given (takeFull n s)).bind fun bs rest =>
        (Parsed.given (takeFull 2 rest)).bind fun tail rest => f bs tail rest) =
      if s.length < n + 2 then .short
      else f (s.take n) ((s.drop n).take 2) (s.drop (n + 2)) := by
  unfold takeFull
  by_cases hn : n ≤ s.length
  · rw [if_pos hn]
    simp only [Parsed.given, Parsed.bind_done]
    rw [List.length_drop]
    by_cases htail : 2 ≤ s.length - n
    · rw [if_pos htail, if_neg (by omega), List.drop_drop]
      rfl
    · rw [if_neg htail, if_pos (by omega)]
      rfl
  · rw [if_neg hn, if_pos (by omega)]
    rfl

/-- A frame whose length has been read. -/
def readBody (lim : Limits) (a : Arena) (n : ℤ) (s : Bytes) : Parsed UInt8 String (Slice × Arena) :=
  if n < 0 ∨ n > lim.maxBulkSize then .rejected "invalid bulk length"
  else if s.length < n.toNat + 2 then .short
  else if (s.drop n.toNat).take 2 ≠ crlf then .rejected "bulk string not terminated by CRLF"
  else .done (a.put (s.take n.toNat)) (s.drop (n.toNat + 2))

theorem not_crlf_iff {tail : Bytes} (hlen : tail.length = 2) :
    (tail.getD 0 0 ≠ 13 ∨ tail.getD 1 0 ≠ 10) ↔ tail ≠ crlf := by
  obtain ⟨x, y, rfl⟩ := List.length_eq_two.mp hlen
  simp [crlf, Classical.or_iff_not_imp_left]

theorem readBulk_parse (lim : Limits) (a : Arena) (size : ℕ) (t : UInt8) (s : Bytes) :
    (readBulk lim a).parse size (t :: s) =
      if t ≠ typeBulkString then
        .rejected ("expected '$', got '" ++ String.singleton (Char.ofNat t.toNat) ++ "'")
      else ((readCount "bulk").parse size s).bind (readBody lim a) := by
  unfold readBulk
  rw [Parser.parse_bind, Parser.parse_readByte]
  change Parser.parse size (if t ≠ typeBulkString then _ else _) s = _
  split
  · rfl
  · rw [Parser.parse_bind]
    congr 1
    funext n rest
    unfold readBody
    split
    · rfl
    · rename_i hn
      simp only [Parser.parse_bind, Parser.parse_readFull]
      rw [takeFull_takeFull]
      split
      · rfl
      · rename_i hlong
        have hbody : (rest.take n.toNat).length = n.toNat := List.length_take_of_le (by omega)
        have htail : ((rest.drop n.toNat).take 2).length = 2 := by
          rw [List.length_take, List.length_drop]
          omega
        simp only [not_crlf_iff htail]
        split
        · rfl
        · simp only [Parser.parse_pure, Arena.put, hbody]

theorem readBulk_nil (lim : Limits) (a : Arena) (size : ℕ) :
    (readBulk lim a).parse size [] = .short := rfl

/-- The reader accepts exactly the frames. -/
theorem readBulk_done_iff {a : Arena} {x : Slice × Arena} :
    (readBulk lim a).parse size s = .done x rest ↔
      ∃ arg bs, Frame lim size arg bs ∧ s = bs ++ rest ∧ x = a.put arg := by
  constructor
  · intro h
    cases s with
    | nil =>
      rw [readBulk_nil] at h
      cases h
    | cons t s =>
      rw [readBulk_parse] at h
      split at h
      · cases h
      rename_i ht
      rw [not_not] at ht
      subst ht
      cases hcount : (readCount "bulk").parse size s with
      | done n tail =>
        rw [hcount, Parsed.bind_done, readBody] at h
        obtain ⟨text, hdecimal, hrange, hsize, rfl⟩ := readCount_done_iff.mp hcount
        split at h
        · cases h
        split at h
        · cases h
        split at h
        · cases h
        rename_i hn hlong hcr
        rw [not_not] at hcr
        cases h
        have hlen : ((tail.take n.toNat).length : ℤ) = n := by
          rw [List.length_take_of_le (by omega)]
          omega
        refine ⟨tail.take n.toNat, _, ⟨text, ?_, hsize, ?_, rfl⟩, ?_, rfl⟩
        · rwa [hlen]
        · omega
        · have hsplit : tail = tail.take n.toNat ++ (crlf ++ tail.drop (n.toNat + 2)) := by
            rw [← hcr, ← List.drop_drop, List.take_append_drop, List.take_append_drop]
          conv_lhs => rw [hsplit]
          simp
      | rejected | short =>
        rw [hcount] at h
        cases h
  · rintro ⟨arg, bs, ⟨text, hdecimal, hsize, hmax, rfl⟩, rfl, rfl⟩
    have hbig := lim.bulkRange
    have hcount : (readCount "bulk").parse size (text ++ crlf ++ arg ++ crlf ++ rest) =
        .done arg.length (arg ++ crlf ++ rest) := by
      refine readCount_done_iff.mpr ⟨text, hdecimal, ?_, hsize, by simp⟩
      unfold intRange
      omega
    have hcr : ((arg ++ crlf ++ rest).drop arg.length).take 2 = crlf := by
      rw [List.append_assoc, List.drop_left]
      rfl
    have hrest : (arg ++ crlf ++ rest).drop (arg.length + 2) = rest := by
      rw [← List.drop_drop, List.append_assoc, List.drop_left]
      rfl
    rw [List.cons_append, readBulk_parse, if_neg (by simp), hcount, Parsed.bind_done, readBody,
      if_neg (by omega), Int.toNat_natCast, if_neg (by simp [crlf]), hcr, if_neg (by simp),
      hrest, List.append_assoc, List.take_left]

theorem readBulks_succ_parse (lim : Limits) (n : ℕ) (a : Arena) (size : ℕ) (s : Bytes) :
    (readBulks lim (n + 1) a).parse size s = ((readBulk lim a).parse size s).bind fun x rest =>
      ((readBulks lim n x.2).parse size rest).bind fun xs rest =>
        .done (x.1 :: xs.1, xs.2) rest := by
  rw [readBulks, Parser.parse_bind]
  congr 1
  funext x rest
  rw [Parser.parse_bind]
  rfl

theorem readBulks_done_iff {n : ℕ} {a : Arena} {x : List Slice × Arena} :
    (readBulks lim n a).parse size s = .done x rest ↔
      ∃ args bs, args.length = n ∧ Frames lim size args bs ∧ s = bs ++ rest ∧
        x = a.putAll args := by
  induction n generalizing a s x with
  | zero =>
    constructor
    · intro h
      cases h
      exact ⟨[], [], rfl, .nil, rfl, rfl⟩
    · rintro ⟨args, bs, hlen, hframes, rfl, rfl⟩
      cases hframes with
      | nil => rfl
      | cons => cases hlen
  | succ n ih =>
    rw [readBulks_succ_parse]
    constructor
    · intro h
      cases hfirst : (readBulk lim a).parse size s with
      | done y mid =>
        rw [hfirst, Parsed.bind_done] at h
        cases hothers : (readBulks lim n y.2).parse size mid with
        | done =>
          rw [hothers, Parsed.bind_done] at h
          cases h
          obtain ⟨arg, bs, hframe, rfl, rfl⟩ := readBulk_done_iff.mp hfirst
          obtain ⟨args, bs', rfl, hframes, rfl, rfl⟩ := ih.mp hothers
          exact ⟨arg :: args, bs ++ bs', rfl, .cons hframe hframes, by simp, rfl⟩
        | rejected | short =>
          rw [hothers] at h
          cases h
      | rejected | short =>
        rw [hfirst] at h
        cases h
    · rintro ⟨args, bs, hlen, hframes, rfl, rfl⟩
      cases hframes with
      | nil => cases hlen
      | @cons arg bs args bs' hframe hframes =>
        have hfirst : (readBulk lim a).parse size (bs ++ bs' ++ rest) =
            .done (a.put arg) (bs' ++ rest) :=
          readBulk_done_iff.mpr ⟨arg, bs, hframe, by simp, rfl⟩
        have hothers : (readBulks lim n (a.put arg).2).parse size (bs' ++ rest) =
            .done ((a.put arg).2.putAll args) rest :=
          ih.mpr ⟨args, bs', Nat.succ.inj hlen, hframes, rfl, rfl⟩
        rw [hfirst, Parsed.bind_done, hothers]
        rfl

theorem readMultibulk_parse (lim : Limits) (a : Arena) (size : ℕ) (t : UInt8) (s : Bytes) :
    (readMultibulk lim a).parse size (t :: s) =
      ((readCount "multibulk").parse size s).bind fun n rest =>
        if n ≤ 0 then .done (none, a) rest
        else if n > lim.maxMultiBulkLen then .rejected "invalid multibulk length"
        else ((readBulks lim n.toNat a).parse size rest).bind fun xs rest =>
          .done (some xs.1, xs.2) rest := by
  unfold readMultibulk
  rw [Parser.parse_bind, Parser.parse_readByte]
  change Parser.parse size (readCount "multibulk" >>= _ : Read _) s = _
  rw [Parser.parse_bind]
  congr 1
  funext n rest
  split
  · rfl
  split
  · rfl
  rw [Parser.parse_bind]
  rfl

/-- The reader accepts exactly the multibulk commands. -/
theorem readMultibulk_done_iff {a a' : Arena} {slices : List Slice} :
    (readMultibulk lim a).parse size (typeArray :: s) = .done (some slices, a') rest ↔
      ∃ args bs, Multibulk lim size args bs ∧ typeArray :: s = bs ++ rest ∧
        (slices, a') = a.putAll args := by
  rw [readMultibulk_parse]
  constructor
  · intro h
    cases hcount : (readCount "multibulk").parse size s with
    | done n tail =>
      rw [hcount, Parsed.bind_done] at h
      obtain ⟨text, hdecimal, hrange, hsize, rfl⟩ := readCount_done_iff.mp hcount
      split at h
      · cases h
      split at h
      · cases h
      cases hbulks : (readBulks lim n.toNat a).parse size tail with
      | done =>
        rw [hbulks] at h
        cases h
        obtain ⟨args, bs, hlen, hframes, rfl, hput⟩ := readBulks_done_iff.mp hbulks
        have hn : (args.length : ℤ) = n := by omega
        refine ⟨args, _, ⟨text, bs, ?_, hsize, ?_, by omega, hframes, rfl⟩, by simp, hput⟩
        · rwa [hn]
        · rintro rfl
          rw [List.length_nil] at hn
          omega
      | rejected | short =>
        rw [hbulks] at h
        cases h
    | rejected | short =>
      rw [hcount] at h
      cases h
  · rintro ⟨args, bs, ⟨text, frames, hdecimal, hsize, hsome, hmax, hframes, rfl⟩, hs, hput⟩
    rw [List.cons_append] at hs
    obtain rfl := (List.cons.inj hs).2
    have hbig := lim.multiBulkRange
    have hpos := List.length_pos_iff.mpr hsome
    have hcount : (readCount "multibulk").parse size (text ++ crlf ++ frames ++ rest) =
        .done args.length (frames ++ rest) := by
      refine readCount_done_iff.mpr ⟨text, hdecimal, ?_, hsize, by simp⟩
      unfold intRange
      omega
    have hbulks : (readBulks lim args.length a).parse size (frames ++ rest) =
        .done (a.putAll args) rest := readBulks_done_iff.mpr ⟨args, frames, rfl, hframes, rfl, rfl⟩
    rw [hcount, Parsed.bind_done, if_neg (by omega), if_neg (by omega), Int.toNat_natCast, hbulks,
      ← hput]
    rfl

end RedisFromScratch.RespGrammar
