import Mathlib.Data.List.Forall2
import RedisFromScratch.ReplayOrder

/-!
Damage replay refuses. A record that fails its length or checksum test, or that
is out of order, stops replay with an error when it lies in an older segment. In
the last segment it is taken for a torn tail, whatever comes behind it.
-/
namespace RedisFromScratch.ReplayDamage

open ByteStrings ByteCoding FramedLogs StoreRecords LogRecords SegmentReplay ReplayOrder

/-- Files with a header and whole records each. -/
def Framed (dir : Dir) (frames : List (List Frame)) : Prop :=
  List.Forall₂ (fun seg fs => ∃ firstLSN createdMs, firstLSN < 2 ^ 64 ∧
    seg.data = encodeSegHeader firstLSN createdMs ++ framing.encodeAll fs) dir frames

/-- Bytes behind the header are altered or lost. -/
def Damage (seg seg' : Segment) : Prop :=
  seg'.seq = seg.seq ∧ seg'.data.take segHeaderSize = seg.data.take segHeaderSize ∧
    seg'.data.length ≤ seg.data.length

/-- Where a record of a segment begins. -/
def offset (fs : List Frame) (i : ℕ) : ℕ :=
  segHeaderSize + (framing.encodeAll (fs.take i)).length

/-- Record `i` of segment `k` is still there, at its place. -/
def Intact (dir : Dir) (frames : List (List Frame)) (k i : ℕ) : Prop :=
  ∃ seg fs f, dir[k]? = some seg ∧ frames[k]? = some fs ∧ fs[i]? = some f ∧
    framing.encode f <+: seg.data.drop (offset fs i)

/-- What stands at its place fails the length or the checksum test. -/
def Fails (dir : Dir) (frames : List (List Frame)) (k i : ℕ) : Prop :=
  ∃ seg fs f, dir[k]? = some seg ∧ frames[k]? = some fs ∧ fs[i]? = some f ∧
    framing.read (seg.data.drop (offset fs i)) = .damaged

/-- Files of consecutive records, and what damage has made of them. -/
structure Damaged (whole dir : Dir) (frames : List (List Frame)) : Prop where
  framed : Framed whole frames
  consecutive : ∃ n recs, frames.flatten = numbered n recs ∧ (∀ rec ∈ recs, Loggable rec) ∧
    n + recs.length < 2 ^ 64
  damage : List.Forall₂ Damage whole dir

/-- Every record in front of record `i` of segment `k` is intact. -/
def IntactBefore (dir : Dir) (frames : List (List Frame)) (k i : ℕ) : Prop :=
  ∀ k' i' fs, frames[k']? = some fs → i' < fs.length → (k' < k ∨ k' = k ∧ i' < i) →
    Intact dir frames k' i'

/-- Each record is numbered right behind the one before it. -/
def InOrder (l : List Frame) : Prop := l.IsChain fun f g => g.lsn = f.lsn + 1

theorem contents_of_framed {dir : Dir} {frames : List (List Frame)} (h : Framed dir frames) {n : ℕ}
    {recs : List LogRecord} (hrecs : frames.flatten = numbered n recs) : Contents dir n recs := by
  induction h generalizing n recs with
  | nil =>
    cases recs with
    | nil => exact .nil n
    | cons => cases hrecs
  | cons hseg _ ih =>
    rw [List.flatten_cons] at hrecs
    obtain ⟨r₁, r₂, rfl, rfl, hrest⟩ := numberedWith_eq_append hrecs.symm
    obtain ⟨firstLSN, createdMs, hfirst, hdata⟩ := hseg
    exact .cons ⟨firstLSN, createdMs, hfirst, hdata⟩ (ih hrest)

/-- Records intact from the first on leave the front of the file as it was. -/
theorem data_of_intact {seg : Segment} {hdr : Bytes} {fs : List Frame}
    (hhdr : seg.data.take segHeaderSize = hdr) (hlen : hdr.length = segHeaderSize) {i : ℕ}
    (hi : i ≤ fs.length)
    (hintact : ∀ j f, j < i → fs[j]? = some f → framing.encode f <+: seg.data.drop (offset fs j)) :
    seg.data = hdr ++ (framing.encodeAll (fs.take i) ++ seg.data.drop (offset fs i)) := by
  induction i with
  | zero =>
    rw [offset, List.take_zero, Framing.encodeAll_nil, List.nil_append, List.length_nil,
      Nat.add_zero, ← hhdr, List.take_append_drop]
  | succ i ih =>
    have hdata := ih (by omega) (fun j f hj => hintact j f (by omega))
    have hlt : i < fs.length := hi
    obtain ⟨rest, hrest⟩ := hintact i fs[i] (by omega) (List.getElem?_eq_getElem hlt)
    have htake : fs.take (i + 1) = fs.take i ++ [fs[i]] := List.take_succ_eq_append_getElem hlt
    rw [← hrest] at hdata
    have hfront : seg.data = hdr ++ framing.encodeAll (fs.take (i + 1)) ++ rest := by
      rw [htake, Framing.encodeAll_append, Framing.encodeAll_cons, Framing.encodeAll_nil,
        List.append_nil]
      simpa only [List.append_assoc] using hdata
    have hdrop : seg.data.drop (offset fs (i + 1)) = rest := by
      rw [hfront]
      exact List.drop_left' (by rw [List.length_append, hlen, offset])
    rw [hdrop, ← List.append_assoc]
    exact hfront

/-- Damage leaves the headers as they were. -/
theorem headers_of_damage {whole dir : Dir} (h : List.Forall₂ Damage whole dir)
    (hwhole : ∀ seg ∈ whole, (readSegHeader seg.data).isSome) :
    ∀ seg ∈ dir, (readSegHeader seg.data).isSome := by
  induction h with
  | nil => exact hwhole
  | @cons seg₀ seg _ _ hseg _ ih =>
    intro seg' hmem
    rcases List.mem_cons.mp hmem with rfl | hmem
    · have hread := hwhole seg₀ List.mem_cons_self
      unfold readSegHeader at hread ⊢
      rw [hseg.2.1]
      exact hread
    · exact ih (fun s hs => hwhole s (List.mem_cons_of_mem _ hs)) seg' hmem

theorem Damaged.headers {whole dir : Dir} {frames : List (List Frame)}
    (h : Damaged whole dir frames) : ∀ seg ∈ dir, (readSegHeader seg.data).isSome := by
  obtain ⟨n, recs, hflat, -, -⟩ := h.consecutive
  exact headers_of_damage h.damage (contents_of_framed h.framed hflat).header

/-- A segment whose records are all intact is as it was. -/
theorem data_of_all_intact {seg seg' : Segment} {fs : List Frame} {firstLSN : ℕ} {createdMs : ℤ}
    (hdata : seg.data = encodeSegHeader firstLSN createdMs ++ framing.encodeAll fs)
    (hdamage : Damage seg seg')
    (hintact : ∀ j f, fs[j]? = some f → framing.encode f <+: seg'.data.drop (offset fs j)) :
    seg'.data = seg.data := by
  have hhdr : seg'.data.take segHeaderSize = encodeSegHeader firstLSN createdMs := by
    rw [hdamage.2.1, hdata, List.take_left' (by simp)]
  have hfront := data_of_intact hhdr (by simp) (Nat.le_refl fs.length)
    (fun j f _ => hintact j f)
  rw [List.take_length, ← List.append_assoc, ← hdata] at hfront
  have hlen := hdamage.2.2
  have hnil : seg'.data.drop (offset fs fs.length) = [] := by
    rw [hfront, List.length_append] at hlen
    exact List.length_eq_zero_iff.mp (by omega)
  rw [hfront, hnil, List.append_nil]

/-- The segments in front of the first damaged record are as they were. -/
theorem Damaged.older {whole dir : Dir} {frames : List (List Frame)} (h : Damaged whole dir frames)
    {k i : ℕ} (hbefore : IntactBefore dir frames k i) :
    Framed (dir.take k) (frames.take k) := by
  have hlen : whole.length = frames.length := h.framed.length_eq
  have hlen' : whole.length = dir.length := h.damage.length_eq
  refine List.forall₂_iff_get.mpr ⟨by simp; omega, fun j hj hj' => ?_⟩
  rw [List.length_take] at hj hj'
  have hw : j < whole.length := by omega
  have hd : j < dir.length := by omega
  have hf : j < frames.length := by omega
  obtain ⟨firstLSN, createdMs, hfirst, hdata⟩ := h.framed.get hw hf
  have hdamage := h.damage.get hw hd
  refine ⟨firstLSN, createdMs, hfirst, ?_⟩
  simp only [List.get_eq_getElem, List.getElem_take] at hdata hdamage ⊢
  rw [data_of_all_intact hdata hdamage, hdata]
  intro i' f hi'
  obtain ⟨seg, fs, g, hseg, hfs, hg, hin⟩ := hbefore j i' frames[j]
    (List.getElem?_eq_getElem hf) (List.getElem?_eq_some_iff.mp hi').1 (Or.inl (by omega))
  rw [List.getElem?_eq_getElem hd] at hseg
  rw [List.getElem?_eq_getElem hf] at hfs
  cases hseg
  cases hfs
  rw [hi'] at hg
  cases hg
  exact hin

/-- A failing record of an older segment stops replay, if nothing in front of it
is damaged. -/
theorem damage_refused (afterLSN : ℕ) {whole dir : Dir} {frames : List (List Frame)} {k i : ℕ}
    (h : Damaged whole dir frames) (hfails : Fails dir frames k i)
    (hbefore : IntactBefore dir frames k i) (hlast : k + 1 < dir.length) :
    ∃ seq off, replay dir afterLSN = .error (.tornMidLog seq off) := by
  obtain ⟨n, recs, hflat, hrecs, hn⟩ := h.consecutive
  obtain ⟨seg, fs, f, hseg, hfs, hf, hread⟩ := hfails
  have hk : k < dir.length := by omega
  have hsplit : dir = dir.take k ++ (seg :: dir.drop (k + 1)) := by
    have hget := (List.getElem?_eq_some_iff.mp hseg).2
    rw [← hget, ← List.drop_eq_getElem_cons hk, List.take_append_drop]
  have hfsplit : frames = frames.take k ++ (fs :: frames.drop (k + 1)) := by
    obtain ⟨hlt, hget⟩ := List.getElem?_eq_some_iff.mp hfs
    rw [← hget, ← List.drop_eq_getElem_cons hlt, List.take_append_drop]
  -- the records in front: those of the older segments, then those of this one
  have hflat' := hflat
  rw [hfsplit, List.flatten_append, List.flatten_cons, ← List.take_append_drop i fs,
    List.append_assoc] at hflat'
  obtain ⟨r₁, r₂, rfl, hr₁, hr₂⟩ := numberedWith_eq_append hflat'.symm
  obtain ⟨r₃, r₄, rfl, hr₃, -⟩ := numberedWith_eq_append hr₂.symm
  have hcontents := contents_of_framed (h.older hbefore) hr₁
  have hdata : ∃ hdr : Bytes, hdr.length = segHeaderSize ∧ seg.data = hdr ++
      (framing.encodeAll (fs.take i) ++ seg.data.drop (offset fs i)) := by
    have hhdr : segHeaderSize ≤ seg.data.length := by
      have hheader := h.headers seg (List.mem_of_getElem? hseg)
      unfold readSegHeader parseSegHeader at hheader
      split_ifs at hheader with hshort
      · cases hheader
      · cases hheader
      · rw [List.length_take] at hshort
        omega
    refine ⟨_, List.length_take_of_le hhdr, data_of_intact rfl (List.length_take_of_le hhdr)
      (List.getElem?_eq_some_iff.mp hf).1.le (fun j g hj hg => ?_)⟩
    obtain ⟨seg', fs', g', hseg', hfs', hg', hin⟩ := hbefore k j fs hfs
      (List.getElem?_eq_some_iff.mp hg).1 (Or.inr ⟨rfl, hj⟩)
    rw [hseg] at hseg'
    rw [hfs] at hfs'
    cases hseg'
    cases hfs'
    rw [hg] at hg'
    cases hg'
    exact hin
  obtain ⟨hdr, hhdr, hdata⟩ := hdata
  simp only [List.length_append] at hn
  have hloggable : ∀ l : List LogRecord, l ⊆ r₁ ++ (r₃ ++ r₄) → ∀ rec ∈ l, Loggable rec :=
    fun l hl rec hrec => hrecs rec (hl hrec)
  have hold := replayFrom_contents afterLSN hcontents (seg :: dir.drop (k + 1))
    (replayStart afterLSN) (hloggable r₁ (by simp)) (by omega) (Or.inl rfl)
  have hexpect : (advance afterLSN n r₁ (replayStart afterLSN)).expectLSN = 0 ∨
      (advance afterLSN n r₁ (replayStart afterLSN)).expectLSN = n + r₁.length :=
    advance_expect (Or.inl rfl)
  have hvisits := visits_numbered afterLSN (hloggable r₃ (by simp)) (by omega) hexpect
  have hscan : (replaySegment afterLSN (advance afterLSN n r₁ (replayStart afterLSN)) seg).ending =
      .damaged := by
    have hbody : seg.data.drop segHeaderSize =
        framing.encodeAll (fs.take i) ++ seg.data.drop (offset fs i) := by
      conv_lhs => rw [hdata]
      exact List.drop_left' hhdr
    rw [replaySegment, hbody, hr₃, ← numbered,
      Framing.scan_encodeAll (visit afterLSN) (fits_numbered (hloggable r₃ (by simp)) (by omega))
        hvisits, Framing.scan_damaged _ _ _ hread]
  have hmore : dir.drop (k + 1) ≠ [] := by
    rw [Ne, List.drop_eq_nil_iff]
    omega
  rw [replay, if_pos h.headers, hsplit, hold, replayFrom, hscan]
  dsimp only
  rw [if_neg hmore]
  exact ⟨_, _, rfl⟩

/-- Replay gets through every segment but the last only if it accepts all their
records. -/
theorem replayFrom_dropLast {afterLSN : ℕ} {dir : Dir} {st : ReplayState} {r : Replayed}
    (hr : replayFrom afterLSN st dir = .ok r) :
    ∃ st', visits (visit afterLSN) st (dirFrames dir.dropLast) = some st' := by
  induction dir generalizing st r with
  | nil => exact ⟨st, rfl⟩
  | cons seg rest ih =>
    obtain ⟨hend, hcases⟩ := replayFrom_cons hr
    rcases hcases with ⟨rfl, -⟩ | ⟨hending, r', hrest, -⟩
    · exact ⟨st, rfl⟩
    · cases rest with
      | nil => exact ⟨st, rfl⟩
      | cons =>
        obtain ⟨hstate, hclean⟩ := Framing.scan_visits (visit afterLSN) st segHeaderSize
          (seg.data.drop segHeaderSize) hend
        rw [← replaySegment] at hstate hclean
        rw [hclean hending] at hstate
        rw [List.dropLast_cons_cons, dirFrames_cons, visits_append _ hstate]
        exact ih hrest

theorem inOrder_of_visits {afterLSN : ℕ} {l : List Frame} {st st' : ReplayState}
    (h : visits (visit afterLSN) st l = some st') (hbound : ∀ f ∈ l, f.lsn + 1 < 2 ^ 64) :
    InOrder l := by
  cases l with
  | nil => exact .nil
  | cons f l =>
    obtain ⟨-, hnumbers, -⟩ := visits_numbers h hbound
    have hchain := List.isChain_range' f.lsn (l.length + 1) 1
    rw [← hnumbers] at hchain
    exact (List.isChain_map Frame.lsn).mp hchain

/-- A gap or a repeat in front of the last segment stops replay. -/
theorem disorder_refused (afterLSN : ℕ) {dir : Dir} (horder : ¬ InOrder (dirFrames dir.dropLast))
    (hbound : ∀ f ∈ dirFrames dir.dropLast, f.lsn + 1 < 2 ^ 64) :
    ∃ e, replay dir afterLSN = .error e := by
  cases hr : replay dir afterLSN with
  | error e => exact ⟨e, rfl⟩
  | ok =>
    unfold replay at hr
    split_ifs at hr
    obtain ⟨st', hvisits⟩ := replayFrom_dropLast hr
    exact absurd (inOrder_of_visits hvisits hbound) horder

def wipe (lsn : ℕ) : Frame := frameOf lsn .flushAll

/-- A segment of whole records. -/
def segmentOf (seq : ℕ) (fs : List Frame) : Segment :=
  ⟨seq, encodeSegHeader 1 0 ++ framing.encodeAll fs, 0⟩

theorem wipe_fits {lsn : ℕ} (h : lsn < 2 ^ 64) : framing.Fits (wipe lsn) := ⟨h, Nat.zero_le _⟩

theorem segmentOf_frames (seq : ℕ) {fs : List Frame} (hfits : ∀ f ∈ fs, framing.Fits f) :
    framing.frames ((segmentOf seq fs).data.drop segHeaderSize) = fs := by
  rw [segmentOf, List.drop_left' (by simp), Framing.frames_encodeAll hfits]

theorem wipes_disorder : ¬ InOrder [wipe 1, wipe 3] := by
  intro h
  have hnext : (3 : ℕ) = 1 + 1 := (List.isChain_cons_cons.mp h).1
  omega

theorem framed_pair (fs gs : List Frame) :
    Framed [segmentOf 1 fs, segmentOf 2 gs] [fs, gs] :=
  .cons ⟨1, 0, by decide, rfl⟩ (.cons ⟨1, 0, by decide, rfl⟩ .nil)

/-- The first of two records overwritten. -/
def overwritten : Segment :=
  ⟨1, encodeSegHeader 1 0 ++ (List.replicate 17 255 ++ framing.encode (wipe 2)), 0⟩

theorem overwritten_body : overwritten.data.drop segHeaderSize =
    List.replicate 17 255 ++ framing.encode (wipe 2) := List.drop_left' (by simp)

/-- The length in the overwritten header is above the limit. -/
theorem read_overwritten : framing.read (overwritten.data.drop segHeaderSize) = .damaged := by
  rw [overwritten_body]
  have hlen : ¬ (List.replicate 17 255 ++ framing.encode (wipe 2)).length < headerSize := by
    simp [headerSize]
  have hplen : maxRecordSize <
      ofLe (((List.replicate 17 255 ++ framing.encode (wipe 2)).drop 4).take 4) := by
    rw [List.drop_append_of_le_length (by simp), List.take_append_of_le_length (by simp)]
    decide
  rw [framing_read, readRecord, if_neg (by simp), if_neg hlen]
  rw [if_pos hplen]

/-- Records 1 and 3 in the only segment. -/
theorem replaySegment_gap :
    replaySegment 0 (replayStart 0) (segmentOf 1 [wipe 1, wipe 3]) =
      ⟨advance 0 1 [.flushAll] (replayStart 0), segHeaderSize + 17, .damaged⟩ := by
  have hbody : (segmentOf 1 [wipe 1, wipe 3]).data.drop segHeaderSize =
      framing.encodeAll (numbered 1 [.flushAll]) ++ (framing.encode (wipe 3) ++ []) := by
    rw [segmentOf, List.drop_left' (by simp)]
    simp [numbered, wipe]
  have hlen : (framing.encodeAll (numbered 1 [.flushAll])).length = 17 := by
    simp [numbered, framing, Frame.encode_length, frameOf, payload, headerSize]
  have hone : ∀ rec ∈ [LogRecord.flushAll], Loggable rec := by
    simp [flushAll_loggable]
  rw [replaySegment, hbody, Framing.scan_encodeAll (visit 0) (fits_numbered hone (by decide))
    (visits_numbered 0 hone (by decide) (Or.inl rfl)), Framing.scan_frame _ _ _
    (wipe_fits (by decide)), hlen]
  rfl

end RedisFromScratch.ReplayDamage
