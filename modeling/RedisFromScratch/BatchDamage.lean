import RedisFromScratch.EngineLogs

/-!
Damage inside an engine log. Replay stops at the first record that fails its length or
checksum test and takes it for a torn tail, whatever stands behind it. It refuses a log
only for a record that passes both tests and is out of order or does not decode.
-/
namespace RedisFromScratch.BatchDamage

open ByteStrings ByteCoding FramedLogs ChecksummedFrames EngineTypes EngineCoding EngineLogs

section Refusing

variable {β α σ ε : Type*} {F : Framing β α} {visit : σ → α → Verdict σ ε}

/-- A visitor that only goes on or gives up makes the scan fail exactly if it gives up on
one of the frames. -/
theorem scan_failed_iff (hstop : ∀ s a, visit s a ≠ .stop) (s : σ) (off : ℕ) (d : List β) :
    (∃ e, (F.scan visit s off d).ending = .failed e) ↔ visits visit s (F.frames d) = none := by
  fun_induction F.scan visit s off d with
  | case1 s off d hread | case2 s off d hread =>
    rw [Framing.frames_read, hread]
    simp [visits]
  | case3 s off d a n hread s' hvisit ih =>
    rw [Framing.frames_read, hread]
    simp only [visits, hvisit]
    exact ih
  | case4 s off d a n hread hvisit => exact absurd hvisit (hstop s a)
  | case5 s off d a n hread e hvisit =>
    rw [Framing.frames_read, hread]
    simp [visits, hvisit]

end Refusing

/-- Where a record begins. -/
def offset (number start : ℕ) (batches : List (List Mutation)) (i : ℕ) : ℕ :=
  (logBytes number start (batches.take i)).length

/-- Bytes behind the header are changed. -/
def Changed (number start : ℕ) (batches : List (List Mutation)) (d : Bytes) : Prop :=
  d.length = (logBytes number start batches).length ∧
    d.take logHeader = encodeHeader number start

/-- What stands at the place of record `i` fails the length or the checksum test. -/
def Fails (number start : ℕ) (batches : List (List Mutation)) (d : Bytes) (i : ℕ) : Prop :=
  i < batches.length ∧ framing.read (d.drop (offset number start batches i)) = .damaged

/-- Record `i` is still there, at its place. -/
def Intact (number start : ℕ) (batches : List (List Mutation)) (d : Bytes) (i : ℕ) : Prop :=
  ∃ b, batches[i]? = some b ∧
    framing.encode (recOf (start + 1 + i) b) <+: d.drop (offset number start batches i)

/-- In front of the first record that fails its tests there is one that passes them, and
carries another number than the next or does not decode. -/
def Forged (start : ℕ) (d : Bytes) : Prop :=
  ∃ recs r rest, framing.frames (d.drop logHeader) = recs ++ r :: rest ∧
    (r.seq ≠ start + 1 + recs.length ∨ decodeBatch r.payload = none)

theorem visit_ne_stop (st : ReplayState) (r : Rec) : visit st r ≠ .stop := by
  unfold visit
  split
  · exact nofun
  · split
    · exact nofun
    · exact nofun

/-- What makes a record the next one. -/
theorem visit_next_iff {st : ReplayState} {r : Rec} :
    (∃ st', visit st r = .next st' ∧ st'.expectSeq = st.expectSeq + 1) ↔
      r.seq = st.expectSeq ∧ decodeBatch r.payload ≠ none := by
  unfold visit
  by_cases hseq : r.seq = st.expectSeq
  · rw [if_neg (not_not.mpr hseq)]
    cases hbatch : decodeBatch r.payload with
    | none => simp
    | some => simp [hseq]
  · simp [hseq]

theorem visits_eq_none_iff {st : ReplayState} {frames : List Rec} :
    visits visit st frames = none ↔ ∃ recs r rest, frames = recs ++ r :: rest ∧
      (r.seq ≠ st.expectSeq + recs.length ∨ decodeBatch r.payload = none) := by
  induction frames generalizing st with
  | nil => simp [visits]
  | cons a frames ih =>
    by_cases hnext : a.seq = st.expectSeq ∧ decodeBatch a.payload ≠ none
    · obtain ⟨st', hvisit, hexpect⟩ := visit_next_iff.mpr hnext
      simp only [visits, hvisit, ih, hexpect]
      constructor
      · rintro ⟨recs, r, rest, rfl, hr⟩
        exact ⟨a :: recs, r, rest, rfl, by rwa [List.length_cons, Nat.add_comm recs.length,
          ← Nat.add_assoc]⟩
      · rintro ⟨recs, r, rest, hsplit, hr⟩
        cases recs with
        | nil =>
          obtain ⟨rfl, -⟩ := List.cons.inj hsplit
          exact absurd hr (by simp [hnext])
        | cons a' recs =>
          obtain ⟨-, rfl⟩ := List.cons.inj hsplit
          exact ⟨recs, r, rest, rfl, by rwa [List.length_cons, Nat.add_comm recs.length,
            ← Nat.add_assoc] at hr⟩
    · have hnone : visits visit st (a :: frames) = none := by
        rw [visits]
        cases hvisit : visit st a with
        | next st' =>
          refine absurd (visit_next_iff.mp ⟨st', hvisit, ?_⟩) hnext
          unfold visit at hvisit
          split at hvisit
          · cases hvisit
          · rename_i hseq
            split at hvisit
            · cases hvisit
            · cases hvisit
              rw [not_not.mp hseq]
        | stop | fail => rfl
      simp only [hnone, true_iff]
      refine ⟨[], a, frames, rfl, ?_⟩
      rw [not_and_or, not_not] at hnext
      exact hnext

/-- The file as replay leaves it; only a replay that returns may have cut it. -/
def fileAfter (f : LogFile) : LogFile :=
  match replay f with
  | .ok (_, f') => f'
  | .error _ => f

/-- A changed log is refused, and left as it is, if a record that passes its tests is not
the next one; otherwise it is not refused. -/
theorem changed_log_refused {number start : ℕ} {batches : List (List Mutation)} {d : Bytes}
    (hstart : start < 2 ^ 64) (hchanged : Changed number start batches d) (synced : ℕ) :
    (Forged start d → ∃ e, replay ⟨d, synced⟩ = .error e ∧ fileAfter ⟨d, synced⟩ = ⟨d, synced⟩) ∧
      (¬ Forged start d → ∃ r, replay ⟨d, synced⟩ = .ok r) := by
  have hheader : readHeader d = .ok start := by
    rw [← List.take_append_drop logHeader d, hchanged.2]
    exact readHeader_encoded number start _ hstart
  have hfailed := scan_failed_iff visit_ne_stop ⟨start + 1, start, []⟩ logHeader
    (F := framing) (d.drop logHeader)
  rw [visits_eq_none_iff] at hfailed
  constructor
  · intro hforged
    obtain ⟨e, he⟩ := hfailed.mpr hforged
    have hreplay : replay ⟨d, synced⟩ = .error e := by
      unfold replay
      rw [hheader]
      dsimp only
      rw [he]
    exact ⟨e, hreplay, by rw [fileAfter, hreplay]⟩
  · intro hforged
    unfold replay
    rw [hheader]
    dsimp only
    split
    · exact ⟨_, rfl⟩
    · exact ⟨_, rfl⟩
    · rename_i e he
      exact absurd (hfailed.mp ⟨e, he⟩) hforged

section Overwriting

def removal : List Mutation := [⟨[107], .delete⟩]

theorem removal_fits : BatchFits removal := ⟨by simp [removal, InRange], by decide +kernel⟩

theorem removal_frame_length (seq : ℕ) : (framing.encode (recOf seq removal)).length = 20 := by
  have hlen : (encodeBatch removal).length = 4 := by decide +kernel
  have hfits : (recOf seq removal).raw.Fits 8 maxRecord := by
    refine ⟨by simp [Rec.raw], ?_⟩
    change (encodeBatch removal).length ≤ maxRecord
    rw [hlen]
    decide
  have hframe := Raw.encode_length ieee hfits
  change ((recOf seq removal).raw.encode ieee).length = 20
  rw [hframe]
  change 8 + 8 + (encodeBatch removal).length = 20
  rw [hlen]

theorem logBytes_removals (n : ℕ) :
    (logBytes 1 0 (List.replicate n removal)).length = logHeader + 20 * n := by
  induction n with
  | zero => simp
  | succ n ih =>
    rw [List.replicate_succ', logBytes_append, List.length_append, ih]
    simp only [numberedWith_cons, numberedWith_nil, Framing.encodeAll_cons,
      Framing.encodeAll_nil, List.append_nil, removal_frame_length]
    omega

/-- Twenty bytes that announce more than a record may hold. -/
def garbage : Bytes := List.replicate 20 255

theorem read_garbage (rest : Bytes) : framing.read (garbage ++ rest) = .damaged := by
  have hlen : maxRecord < ofLe (((garbage ++ rest).drop 4).take 4) := by
    rw [List.drop_append_of_le_length (by decide), List.take_append_of_le_length (by decide)]
    decide
  have hread : readRaw ieee 8 maxRecord (garbage ++ rest) = .damaged := by
    unfold readRaw
    rw [if_neg (by simp [garbage]), if_neg (by simp [garbage])]
    rw [if_pos hlen]
  change (readRaw ieee 8 maxRecord (garbage ++ rest)).map Rec.ofRaw = .damaged
  rw [hread]
  rfl

/-- The first of two records is overwritten. -/
def overwritten : Bytes :=
  encodeHeader 1 0 ++ (garbage ++ framing.encode (recOf 2 removal))

/-- The first of three records carries the number nine, the second is overwritten. -/
def forged : Bytes :=
  encodeHeader 1 0 ++ (framing.encode (recOf 9 removal) ++
    (garbage ++ framing.encode (recOf 3 removal)))

theorem forged_record_refused :
    Changed 1 0 (List.replicate 3 removal) forged ∧
    Fails 1 0 (List.replicate 3 removal) forged 1 ∧
    Intact 1 0 (List.replicate 3 removal) forged 2 ∧
    ∃ e, replay ⟨forged, 0⟩ = .error e ∧ fileAfter ⟨forged, 0⟩ = ⟨forged, 0⟩ := by
  have hchanged : Changed 1 0 (List.replicate 3 removal) forged := by
    refine ⟨?_, List.take_left' (encodeHeader_length 1 0)⟩
    rw [logBytes_removals]
    simp [forged, garbage, removal_frame_length]
  have hoff : ∀ n, n ≤ 3 → offset 1 0 (List.replicate 3 removal) n = logHeader + 20 * n := by
    intro n hn
    rw [offset, List.take_replicate, Nat.min_eq_left hn, logBytes_removals]
  have hbody : forged.drop logHeader = framing.encode (recOf 9 removal) ++
      (garbage ++ framing.encode (recOf 3 removal)) := List.drop_left' (encodeHeader_length 1 0)
  have hfits : framing.Fits (recOf 9 removal) := framing_fits (by decide) removal_fits.size
  refine ⟨hchanged, ⟨by simp, ?_⟩, ⟨removal, rfl, ?_⟩,
    (changed_log_refused (by decide) hchanged 0).1 ⟨[], recOf 9 removal, framing.frames
      (garbage ++ framing.encode (recOf 3 removal)), ?_, Or.inl (by decide)⟩⟩
  · rw [hoff 1 (by decide), ← List.drop_drop, hbody,
      List.drop_left' (removal_frame_length 9), read_garbage]
  · rw [hoff 2 (by decide), ← List.drop_drop, hbody, show 20 * 2 = 20 + 20 from rfl,
      ← List.drop_drop, List.drop_left' (removal_frame_length 9), List.drop_left' (by rfl)]
  · rw [hbody, Framing.frames_read, framing.read_encode _ _ hfits]
    dsimp only
    rw [List.drop_left, List.nil_append]

/-- The intact second record is cut off with the overwritten first one. -/
theorem overwritten_record_hides_intact :
    Changed 1 0 (List.replicate 2 removal) overwritten ∧
    Fails 1 0 (List.replicate 2 removal) overwritten 0 ∧
    Intact 1 0 (List.replicate 2 removal) overwritten 1 ∧
    ∃ r, replay ⟨overwritten, 0⟩ = .ok (r, fileAfter ⟨overwritten, 0⟩) ∧ r.batches = [] ∧
      (fileAfter ⟨overwritten, 0⟩).data = encodeHeader 1 0 := by
  have hoff : ∀ n, n ≤ 2 → offset 1 0 (List.replicate 2 removal) n = logHeader + 20 * n := by
    intro n hn
    rw [offset, List.take_replicate, Nat.min_eq_left hn, logBytes_removals]
  have hbody : overwritten.drop logHeader = garbage ++ framing.encode (recOf 2 removal) :=
    List.drop_left' (encodeHeader_length 1 0)
  have hreplay : replay ⟨overwritten, 0⟩ =
      .ok (⟨[], 0, some logHeader⟩, truncateAt ⟨overwritten, 0⟩ logHeader) := by
    unfold replay
    rw [show readHeader overwritten = .ok 0 from readHeader_encoded 1 0 _ (by decide)]
    dsimp only
    rw [hbody, Framing.scan_damaged _ _ _ (read_garbage _)]
  have hafter : fileAfter ⟨overwritten, 0⟩ = truncateAt ⟨overwritten, 0⟩ logHeader := by
    rw [fileAfter, hreplay]
  refine ⟨⟨?_, List.take_left' (encodeHeader_length 1 0)⟩, ⟨by simp, ?_⟩, ⟨removal, rfl, ?_⟩,
    _, by rw [hreplay, hafter], rfl, ?_⟩
  · rw [logBytes_removals]
    simp [overwritten, garbage, removal_frame_length]
  · rw [hoff 0 (by decide), Nat.mul_zero, Nat.add_zero, hbody, read_garbage]
  · rw [hoff 1 (by decide), ← List.drop_drop, hbody, List.drop_left' (by rfl)]
  · rw [hafter]
    exact List.take_left' (encodeHeader_length 1 0)

end Overwriting

end RedisFromScratch.BatchDamage
