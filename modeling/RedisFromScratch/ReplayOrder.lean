import Mathlib.Data.List.Range
import RedisFromScratch.SegmentReplay

/-!
The numbers of the records replay applies. Replay takes the first record it
finds as it is and insists on consecutive numbers from there on, so what it
applies has no hole behind that record; whether there is one in front of it
depends on where the log begins and on the snapshot.
-/
namespace RedisFromScratch.ReplayOrder

open ByteStrings FramedLogs StoreRecords LogRecords SegmentReplay

/-- The readable records of the files, in order. -/
def dirFrames (dir : Dir) : List Frame :=
  dir.flatMap fun seg => framing.frames (seg.data.drop segHeaderSize)

/-- The records replay goes on behind. -/
def visited (dir : Dir) (afterLSN : ℕ) : List Frame :=
  accepted (visit afterLSN) (replayStart afterLSN) (dirFrames dir)

/-- The records replay hands to the applier. -/
def appliedFrames (dir : Dir) (afterLSN : ℕ) : List Frame :=
  (visited dir afterLSN).filter fun f => afterLSN < f.lsn

def Decodes (f : Frame) (rec : LogRecord) : Prop := decodeRecord f.typ f.payload = some rec

theorem dirFrames_cons (seg : Segment) (rest : Dir) :
    dirFrames (seg :: rest) =
      framing.frames (seg.data.drop segHeaderSize) ++ dirFrames rest := List.flatMap_cons

theorem WholeSegment.frames {seg : Segment} {n : ℕ} {recs : List LogRecord}
    (h : WholeSegment seg n recs) (hrecs : ∀ rec ∈ recs, Loggable rec)
    (hn : n + recs.length < 2 ^ 64) :
    framing.frames (seg.data.drop segHeaderSize) = numbered n recs := by
  obtain ⟨firstLSN, createdMs, -, hdata⟩ := h
  rw [hdata, List.drop_left' (by simp), Framing.frames_encodeAll (fits_numbered hrecs hn)]

theorem dirFrames_contents {dir : Dir} {n : ℕ} {recs : List LogRecord} (h : Contents dir n recs)
    (hrecs : ∀ rec ∈ recs, Loggable rec) (hn : n + recs.length < 2 ^ 64) :
    dirFrames dir = numbered n recs := by
  induction h with
  | nil => rfl
  | @cons seg rest n recs more hseg _ ih =>
    rw [List.length_append] at hn
    rw [dirFrames_cons, numbered_append,
      WholeSegment.frames hseg (fun r hr => hrecs r (List.mem_append_left _ hr)) (by omega),
      ih (fun r hr => hrecs r (List.mem_append_right _ hr)) (by omega)]

/-- A segment that is not the last one has to be clean for replay to go on. -/
theorem replayFrom_cons {afterLSN : ℕ} {st : ReplayState} {seg : Segment} {rest : Dir}
    {r : Replayed} (hr : replayFrom afterLSN st (seg :: rest) = .ok r) :
    (∀ e, (replaySegment afterLSN st seg).ending ≠ .failed e) ∧
      (rest = [] ∧ r.state = (replaySegment afterLSN st seg).state ∨
        (replaySegment afterLSN st seg).ending = .clean ∧
          ∃ r', replayFrom afterLSN (replaySegment afterLSN st seg).state rest = .ok r' ∧
            r'.state = r.state) := by
  unfold replayFrom at hr
  cases hending : (replaySegment afterLSN st seg).ending with
  | failed =>
    rw [hending] at hr
    cases hr
  | damaged =>
    rw [hending] at hr
    split_ifs at hr with hrest
    cases hr
    exact ⟨by simp, Or.inl ⟨hrest, rfl⟩⟩
  | clean =>
    rw [hending] at hr
    cases htail : replayFrom afterLSN (replaySegment afterLSN st seg).state rest with
    | error =>
      rw [htail] at hr
      cases hr
    | ok r' =>
      rw [htail] at hr
      cases hr
      exact ⟨by simp, Or.inr ⟨rfl, r', rfl, rfl⟩⟩

theorem replayFrom_visits {afterLSN : ℕ} {dir : Dir} {st : ReplayState} {r : Replayed}
    (hr : replayFrom afterLSN st dir = .ok r) :
    visits (visit afterLSN) st (accepted (visit afterLSN) st (dirFrames dir)) = some r.state := by
  induction dir generalizing st r with
  | nil =>
    cases hr
    rfl
  | cons seg rest ih =>
    obtain ⟨hend, hcases⟩ := replayFrom_cons hr
    obtain ⟨hstate, hclean⟩ := Framing.scan_visits (visit afterLSN) st segHeaderSize
      (seg.data.drop segHeaderSize) hend
    rw [← replaySegment] at hstate hclean
    rw [dirFrames_cons]
    rcases hcases with ⟨rfl, hlast⟩ | ⟨hending, r', hrest, hr'⟩
    · rw [hlast, show dirFrames [] = [] from rfl, List.append_nil]
      exact hstate
    · rw [hclean hending] at hstate
      rw [accepted_append _ hstate, visits_append _ hstate, ih hrest, hr']

theorem replay_visits {afterLSN : ℕ} {dir : Dir} {r : Replayed}
    (hr : replay dir afterLSN = .ok r) :
    visits (visit afterLSN) (replayStart afterLSN) (visited dir afterLSN) = some r.state := by
  unfold replay at hr
  split_ifs at hr
  exact replayFrom_visits hr

/-- What replay does with a record it accepts. -/
theorem visit_next {afterLSN : ℕ} {st st' : ReplayState} {f : Frame}
    (h : visit afterLSN st f = .next st') :
    (st.expectLSN = 0 ∨ f.lsn = st.expectLSN) ∧ st'.expectLSN = (f.lsn + 1) % 2 ^ 64 ∧
      st'.lastLSN = f.lsn ∧
      (if afterLSN < f.lsn then
        ∃ rec, Decodes f rec ∧ st'.applied = st.applied ++ [rec]
      else st'.applied = st.applied) := by
  unfold visit at h
  split_ifs at h with hstop hskip
  · cases h
    refine ⟨by omega, rfl, rfl, ?_⟩
    rw [if_neg (by omega)]
  · dsimp only at h
    split at h
    · cases h
    · rename_i rec hrec
      cases h
      refine ⟨by omega, rfl, rfl, ?_⟩
      rw [if_pos (by omega)]
      exact ⟨rec, hrec, rfl⟩

/-- The records behind the snapshot are decoded and applied one by one. -/
theorem visits_applied {afterLSN : ℕ} {l : List Frame} {st st' : ReplayState}
    (h : visits (visit afterLSN) st l = some st') :
    ∃ new, st'.applied = st.applied ++ new ∧
      List.Forall₂ Decodes (l.filter fun f => afterLSN < f.lsn) new := by
  induction l generalizing st with
  | nil =>
    cases h
    exact ⟨[], by simp, .nil⟩
  | cons f l ih =>
    rw [visits] at h
    cases hv : visit afterLSN st f with
    | next =>
      rw [hv] at h
      obtain ⟨-, -, -, happlied⟩ := visit_next hv
      obtain ⟨new, hnew, hdecodes⟩ := ih h
      split_ifs at happlied with hafter
      · obtain ⟨rec, hrec, hfirst⟩ := happlied
        refine ⟨rec :: new, by rw [hnew, hfirst, List.append_assoc, List.singleton_append], ?_⟩
        rw [List.filter_cons_of_pos (by simpa using hafter)]
        exact .cons hrec hdecodes
      · refine ⟨new, by rw [hnew, happlied], ?_⟩
        rwa [List.filter_cons_of_neg (by simpa using hafter)]
    | stop | fail =>
      rw [hv] at h
      cases h

/-- Accepted records bear consecutive numbers, and the last of them is noted. -/
theorem visits_numbers {afterLSN : ℕ} {l : List Frame} {st st' : ReplayState} {f : Frame}
    (h : visits (visit afterLSN) st (f :: l) = some st')
    (hbound : ∀ g ∈ f :: l, g.lsn + 1 < 2 ^ 64) :
    (st.expectLSN = 0 ∨ f.lsn = st.expectLSN) ∧
      (f :: l).map Frame.lsn = List.range' f.lsn (l.length + 1) ∧
      st'.lastLSN = f.lsn + l.length := by
  induction l generalizing f st with
  | nil =>
    rw [visits] at h
    cases hv : visit afterLSN st f with
    | next =>
      rw [hv] at h
      cases h
      obtain ⟨hexpect, -, hlast, -⟩ := visit_next hv
      exact ⟨hexpect, rfl, hlast⟩
    | stop | fail =>
      rw [hv] at h
      cases h
  | cons g l ih =>
    rw [visits] at h
    cases hv : visit afterLSN st f with
    | next =>
      rw [hv] at h
      obtain ⟨hexpect, hnext, -, -⟩ := visit_next hv
      obtain ⟨hg, hnumbers, hlast⟩ := ih h (fun k hk => hbound k (List.mem_cons_of_mem _ hk))
      -- the number expected next does not wrap around to zero
      rw [Nat.mod_eq_of_lt (hbound f List.mem_cons_self)] at hnext
      have hgf : g.lsn = f.lsn + 1 := by omega
      refine ⟨hexpect, ?_, by rw [hlast, List.length_cons]; omega⟩
      rw [List.map_cons, hnumbers, hgf, List.length_cons, List.range'_succ (s := f.lsn)]
    | stop | fail =>
      rw [hv] at h
      cases h

theorem filter_range' {n after len : ℕ} (h : n ≤ after + 1) :
    (List.range' n len).filter (fun k => after < k) =
      List.range' (after + 1) (n + len - (after + 1)) := by
  induction len generalizing n with
  | zero =>
    rw [show n + 0 - (after + 1) = 0 by omega]
    rfl
  | succ len ih =>
    rw [List.range'_succ]
    by_cases hn : n = after + 1
    · subst hn
      rw [List.filter_eq_self.mpr]
      · rw [← List.range'_succ, Nat.add_sub_cancel_left]
      · intro k hk
        rw [← List.range'_succ, List.mem_range'_1] at hk
        exact decide_eq_true (by omega)
    · rw [List.filter_cons_of_neg (by simp; omega), ih (by omega)]
      congr 1
      omega

theorem accepted_cons {afterLSN : ℕ} {st : ReplayState} {fs l : List Frame} {f : Frame}
    (h : accepted (visit afterLSN) st fs = f :: l) :
    fs.head? = some f ∧ ∀ g ∈ f :: l, g ∈ fs := by
  induction fs generalizing st f l with
  | nil => cases h
  | cons g fs ih =>
    rw [accepted] at h
    cases hv : visit afterLSN st g with
    | next st₁ =>
      rw [hv] at h
      obtain ⟨rfl, rfl⟩ := List.cons.inj h
      refine ⟨rfl, fun k hk => ?_⟩
      rcases List.mem_cons.mp hk with rfl | hk
      · exact List.mem_cons_self
      · cases hrest : accepted (visit afterLSN) st₁ fs with
        | nil =>
          rw [hrest] at hk
          cases hk
        | cons =>
          rw [hrest] at hk
          exact List.mem_cons_of_mem _ ((ih hrest).2 k hk)
    | stop | fail =>
      rw [hv] at h
      cases h

theorem visited_contents {dir : Dir} {n afterLSN : ℕ} {recs : List LogRecord}
    (h : Contents dir n recs) (hrecs : ∀ rec ∈ recs, Loggable rec) (hn : n + recs.length < 2 ^ 64) :
    visited dir afterLSN = numbered n recs := by
  have hvisits : visits (visit afterLSN) (replayStart afterLSN) (numbered n recs) = some
      (advance afterLSN n recs (replayStart afterLSN)) :=
    visits_numbered afterLSN hrecs hn (Or.inl rfl)
  have hall := accepted_append _ hvisits []
  rw [visited, dirFrames_contents h hrecs hn]
  simpa [accepted] using hall

/-- A log of one segment with the records of two wipes, numbered from `n`. -/
def wipesFrom (n : ℕ) : Dir :=
  [⟨1, encodeSegHeader n 0 ++ framing.encodeAll (numbered n [.flushAll, .flushAll]), 0⟩]

theorem flushAll_loggable : Loggable .flushAll := ⟨trivial, Nat.zero_le _⟩

theorem wipesFrom_contents {n : ℕ} (hn : n < 2 ^ 64) :
    Contents (wipesFrom n) n [.flushAll, .flushAll] :=
  .single ⟨n, 0, hn, rfl⟩

theorem two_wipes_loggable : ∀ rec ∈ [LogRecord.flushAll, .flushAll], Loggable rec := by
  intro rec hrec
  have heq : rec = .flushAll := by simpa using hrec
  rw [heq]
  exact flushAll_loggable

theorem wipesFrom_frames {n : ℕ} (hn : n + 2 < 2 ^ 64) :
    dirFrames (wipesFrom n) = [frameOf n .flushAll, frameOf (n + 1) .flushAll] :=
  dirFrames_contents (wipesFrom_contents (by omega)) two_wipes_loggable hn

theorem replay_wipesFrom {n afterLSN : ℕ} (hn : n + 2 < 2 ^ 64) :
    replay (wipesFrom n) afterLSN = .ok ⟨advance afterLSN n [.flushAll, .flushAll]
      (replayStart afterLSN), false, wipesFrom n⟩ :=
  replay_contents afterLSN (wipesFrom_contents (by omega)) two_wipes_loggable hn

end RedisFromScratch.ReplayOrder
