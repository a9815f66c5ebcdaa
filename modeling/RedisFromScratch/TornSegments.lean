import RedisFromScratch.SegmentReplay

/-!
The segmented log cut anywhere behind the header of its last segment. The records that
lie in front of the cut as a whole are replayed, those behind the threshold are applied,
and what replay leaves is a log that was never cut: a second replay applies the same
records and truncates nothing.
-/
namespace RedisFromScratch.TornSegments

open ByteStrings FramedLogs StoreRecords LogRecords SegmentReplay

/-- The records numbered from `n` whose number is above a threshold. -/
def above (afterLSN n : ℕ) (recs : List LogRecord) : List LogRecord :=
  ((List.range' n recs.length).zip recs).filterMap fun p =>
    if afterLSN < p.1 then some p.2 else none

theorem above_eq_drop (afterLSN n : ℕ) (recs : List LogRecord) :
    above afterLSN n recs = recs.drop (afterLSN + 1 - n) := by
  induction recs generalizing n with
  | nil => simp [above]
  | cons rec recs ih =>
    have hrest := ih (n + 1)
    unfold above at hrest ⊢
    rw [List.length_cons, List.range'_succ, List.zip_cons_cons]
    by_cases h : afterLSN < n
    · simp only [List.filterMap_cons, h, if_true, hrest]
      rw [show afterLSN + 1 - (n + 1) = 0 by omega, show afterLSN + 1 - n = 0 by omega]
      rfl
    · simp only [List.filterMap_cons, h, if_false, hrest]
      rw [show afterLSN + 1 - n = afterLSN + 1 - (n + 1) + 1 by omega, List.drop_succ_cons]

/-- Whole segments and a last one that is cut behind its header, at any offset. Its first
`k` records lie in front of the cut as a whole. They and the records of the segments in
front of it are replayed; what is above the threshold is applied, in order. -/
theorem cut_segment_replayed (afterLSN : ℕ) {dir : Dir} {last : Segment} {n : ℕ}
    {recs tail : List LogRecord} (hdir : Contents dir n recs)
    (hlast : WholeSegment last (n + recs.length) tail)
    (hloggable : ∀ rec ∈ recs ++ tail, Loggable rec)
    (hbound : n + recs.length + tail.length < 2 ^ 64) {m : ℕ} (hm : segHeaderSize ≤ m) :
    ∃ k ≤ tail.length,
      (∀ j ≤ tail.length, segHeaderSize +
        (framing.encodeAll (numbered (n + recs.length) (tail.take j))).length ≤ m ↔ j ≤ k) ∧
      ∃ r, replay (dir ++ [{ last with data := last.data.take m }]) afterLSN = .ok r ∧
        r.state.applied = (above afterLSN n (recs ++ tail.take k)).map strip ∧
        (r.truncated = true ↔ segHeaderSize +
          (framing.encodeAll (numbered (n + recs.length) (tail.take k))).length <
            (last.data.take m).length) ∧
        ∃ r', replay r.dir afterLSN = .ok r' ∧ r'.state.applied = r.state.applied ∧
          r'.truncated = false := by
  obtain ⟨firstLSN, createdMs, hfirst, hdata⟩ := hlast
  have hrecs : ∀ rec ∈ recs, Loggable rec := fun r hr => hloggable r (List.mem_append_left _ hr)
  have htail : ∀ rec ∈ tail, Loggable rec := fun r hr => hloggable r (List.mem_append_right _ hr)
  obtain ⟨k, hk, t, hcut, htorn, hwhole⟩ := cut_numberedWith (F := framing)
    (fits_numbered htail hbound) (m - segHeaderSize)
  have hlen : (tail.take k).length = k := List.length_take_of_le hk
  have htake : last.data.take m = encodeSegHeader firstLSN createdMs ++
      (framing.encodeAll (numbered (n + recs.length) (tail.take k)) ++ t) := by
    rw [hdata, List.take_append, encodeSegHeader_length,
      List.take_of_length_le (by rw [encodeSegHeader_length]; exact hm)]
    exact congrArg (encodeSegHeader firstLSN createdMs ++ ·) hcut
  have hdrop : (tail.drop k).length = tail.length - k := List.length_drop
  obtain ⟨last', hreplay, -, hrepaired, -⟩ := replay_torn afterLSN
    { last with data := last.data.take m } (tail.take k) (tail.drop k) hdir hfirst htake
    (by rw [hlen]; exact htorn) hrecs (fun r hr => htail r (List.mem_of_mem_take hr))
    (fun r hr => htail r (List.mem_of_mem_drop hr)) (by omega)
  have hagain := replay_contents afterLSN (hdir.append (.single hrepaired))
    (fun r hr => by
      rcases List.mem_append.mp hr with hr | hr
      · exact hrecs r hr
      · exact htail r (List.mem_of_mem_take hr))
    (by rw [List.length_append, hlen]; omega)
  refine ⟨k, hk, ?_, _, hreplay, ?_, ?_, _, hagain, rfl, rfl⟩
  · intro j hj
    have hj' : (framing.encodeAll (numbered (n + recs.length) (tail.take j))).length ≤
        m - segHeaderSize ↔ j ≤ k := hwhole j hj
    rw [← hj']
    omega
  · rw [above_eq_drop]
    rfl
  · rw [htake, List.length_append, List.length_append, encodeSegHeader_length, decide_eq_true_iff]
    constructor
    · intro ht
      have := List.length_pos_iff.mpr ht
      omega
    · rintro hlt rfl
      rw [List.length_nil] at hlt
      omega

/-- Two segments with a record each, the second cut inside its record. -/
theorem cut_second_of_two_segments : ∃ r r',
    replay ([⟨1, encodeSegHeader 1 0 ++ framing.encodeAll (numbered 1 [.flushAll]), 0⟩] ++
      [⟨2, (encodeSegHeader 2 0 ++ framing.encodeAll (numbered 2 [.flushAll])).take 40, 0⟩]) 0 =
        .ok r ∧
    r.state.applied = [.flushAll] ∧ r.truncated = true ∧ replay r.dir 0 = .ok r' ∧
    r'.state.applied = [.flushAll] ∧ r'.truncated = false := by
  have hwhole : ∀ seq n, n < 2 ^ 64 → WholeSegment
      ⟨seq, encodeSegHeader n 0 ++ framing.encodeAll (numbered n [.flushAll]), 0⟩ n
        [.flushAll] := fun seq n hn => ⟨n, 0, hn, rfl⟩
  have hlen : (framing.encodeAll (numbered 2 [.flushAll])).length = 17 := by
    simp [numbered, framing, Frame.encode_length, frameOf, payload, headerSize]
  obtain ⟨k, hk, hiff, r, hreplay, happlied, htruncated, r', hagain, hsame, hclean⟩ :=
    cut_segment_replayed 0 (.single (hwhole 1 1 (by decide)))
      (hwhole 2 2 (by decide)) (by simp [Loggable, InRange, payload]) (by decide)
      (m := 40) (by decide)
  have hk0 : k = 0 := by
    have hone := (hiff 1 (Nat.le_refl 1)).not
    rw [List.take_of_length_le (by simp), List.length_singleton, hlen, segHeaderSize] at hone
    omega
  subst hk0
  refine ⟨r, r', hreplay, happlied, htruncated.mpr ?_, hagain, hsame.trans happlied, hclean⟩
  rw [List.length_take, List.length_append, encodeSegHeader_length, hlen]
  decide

end RedisFromScratch.TornSegments
