import RedisFromScratch.EngineWal

/-!
An engine log that is written without I/O errors, cut anywhere behind its header and
replayed. What is in the file is the batches appended, in order. Replay hands over
those that lie in front of the cut as a whole, says whether anything was cut short, and
leaves a file that replays to the same batches.
-/
namespace RedisFromScratch.TornBatches

open ByteStrings FramedLogs EngineTypes EngineCoding EngineLogs EngineWal

/-- The calls on one log, none of whose system calls fails; the batches are those that
were appended so far. Appends may be followed by a flush, as the buffer's limit asks. -/
inductive Calls (number start : ℕ) : List (List Mutation) → Log → Prop
  | create : Calls number start [] (Log.create number start)
  | append {batches : List (List Mutation)} {l : Log} {muts : List Mutation} {w : Wal}
      (h : Calls number start batches l) (happend : l.wal.append muts = some w) :
      Calls number start (batches ++ [muts]) { l with wal := w }
  | op {batches : List (List Mutation)} {l : Log} (h : Calls number start batches l) (op : Op) :
      Calls number start batches (op.run .fine l).1

/-- A call that meets no error succeeds and loses nothing. -/
theorem run_fine_keeps (op : Op) (l : Log) :
    (op.run .fine l).1.lost = l.lost ∧ (op.run .fine l).1.wal.number = l.wal.number ∧
      (op.run .fine l).2 = true := by
  have hdrain : (l.drain .fine).1.lost = l.lost ∧
      (l.drain .fine).1.wal.number = l.wal.number ∧ (l.drain .fine).2 = true := by
    unfold Log.drain
    split
    · exact ⟨rfl, rfl, rfl⟩
    · exact ⟨rfl, rfl, rfl⟩
  have hsync : (l.syncLocked .fine).1.lost = l.lost ∧
      (l.syncLocked .fine).1.wal.number = l.wal.number ∧ (l.syncLocked .fine).2 = true := by
    unfold Log.syncLocked
    cases hd : l.drain .fine with
    | mk =>
      rw [hd] at hdrain
      obtain ⟨hlost, hnumber, rfl⟩ := hdrain
      dsimp only
      split
      · exact ⟨hlost, hnumber, rfl⟩
      · exact ⟨hlost, hnumber, rfl⟩
  unfold Op.run
  split
  · cases op with
    | flush => exact hdrain
    | syncTo | syncAll => exact hsync
  · exact ⟨rfl, rfl, rfl⟩

/-- The log holds the batches, and each is within the limit append checks. -/
theorem Calls.holds {number start : ℕ} {batches : List (List Mutation)} {l : Log}
    (h : Calls number start batches l) :
    l.Holds start batches ∧ l.lost = false ∧ l.wal.number = number ∧
      ∀ b ∈ batches, (encodeBatch b).length ≤ maxRecord := by
  induction h with
  | create => exact ⟨holds_create number start, rfl, rfl, by simp⟩
  | @append batches l muts w _ happend ih =>
    obtain ⟨hholds, hlost, hnumber, hsize⟩ := ih
    refine ⟨hholds.append happend, hlost, ?_, ?_⟩
    · unfold Wal.append at happend
      split at happend
      · cases happend
      · cases happend
        exact hnumber
    · intro b hb
      rcases List.mem_append.mp hb with hb | hb
      · exact hsize b hb
      · rw [List.mem_singleton.mp hb]
        unfold Wal.append at happend
        split at happend
        · cases happend
        · omega
  | @op batches l _ op ih =>
    obtain ⟨hholds, hlost, hnumber, hsize⟩ := ih
    obtain ⟨hlost', hnumber', -⟩ := run_fine_keeps op l
    exact ⟨(hholds.run op (fun _ => hlost) .fine).1, hlost'.trans hlost, hnumber'.trans hnumber,
      hsize⟩

/-- A flush that meets no error takes every batch to the file. -/
theorem Calls.flushed {number start : ℕ} {batches : List (List Mutation)} {l : Log}
    (h : Calls number start batches l) :
    (Op.run .fine .flush l).1.file.data = logBytes number start batches := by
  obtain ⟨hholds, hlost, hnumber, -⟩ := h.holds
  obtain ⟨hafter, hdone, -, -⟩ := hholds.run .flush (fun _ => hlost) .fine
  obtain ⟨hlost', hnumber', hok⟩ := run_fine_keeps .flush l
  have hwritten := hdone hok
  have hdata := (hafter.intact (hlost'.trans hlost)).1
  rw [hnumber', hnumber, List.take_of_length_le (by omega)] at hdata
  exact hdata

/-- Cut behind its header, the bytes of a log are those of its first batches and some of
the next. -/
theorem take_logBytes (number : ℕ) {start : ℕ} {batches : List (List Mutation)}
    (hfits : ∀ b ∈ batches, BatchFits b) (hseq : start + 1 + batches.length ≤ 2 ^ 64) {n : ℕ}
    (hn : logHeader ≤ n) :
    ∃ k ≤ batches.length, ∃ t,
      (logBytes number start batches).take n = logBytes number start (batches.take k) ++ t ∧
      framing.Torn (numberedWith recOf (start + 1 + k) (batches.drop k)) t ∧
      ∀ j ≤ batches.length, (logBytes number start (batches.take j)).length ≤ n ↔ j ≤ k := by
  obtain ⟨k, hk, t, htake, htorn, hwhole⟩ :=
    cut_numberedWith (F := framing) (numbered_fits hfits hseq) (n - logHeader)
  refine ⟨k, hk, t, ?_, htorn, ?_⟩
  · rw [logBytes, List.take_append, encodeHeader_length, htake,
      List.take_of_length_le (by rw [encodeHeader_length]; exact hn), logBytes, List.append_assoc]
  · intro j hj
    rw [← hwhole j hj, logBytes, List.length_append, encodeHeader_length]
    omega

/-- A log written without errors and cut at any offset behind its header: `k` batches lie
in front of the cut as a whole. They are handed over under their numbers, the log is
called truncated exactly if more than them was left, and replaying what replay leaves
gives the same. -/
theorem cut_log_replayed {number start : ℕ} {batches : List (List Mutation)} {l : Log}
    (hcalls : Calls number start batches l)
    (hrange : ∀ b ∈ batches, ∀ m ∈ b, InRange m.entry)
    (hseq : start + 1 + batches.length ≤ 2 ^ 64) {n : ℕ} (hn : logHeader ≤ n) (synced : ℕ) :
    ∃ k ≤ batches.length,
      (∀ j ≤ batches.length, (logBytes number start (batches.take j)).length ≤ n ↔ j ≤ k) ∧
      ∃ r f, replay ⟨(Op.run .fine .flush l).1.file.data.take n, synced⟩ = .ok (r, f) ∧
        r.batches = numberedBatches start (batches.take k) ∧ r.lastSequence = start + k ∧
        (r.truncatedAt.isSome ↔ (logBytes number start (batches.take k)).length <
          ((Op.run .fine .flush l).1.file.data.take n).length) ∧
        replay f = .ok ({ r with truncatedAt := none }, f) := by
  have hfits : ∀ b ∈ batches, BatchFits b := fun b hb => ⟨hrange b hb, hcalls.holds.2.2.2 b hb⟩
  obtain ⟨k, hk, t, htake, htorn, hwhole⟩ := take_logBytes number hfits hseq hn
  have hlen : (batches.take k).length = k := List.length_take_of_le hk
  have hsplit : batches.take k ++ batches.drop k = batches := List.take_append_drop k batches
  have hfirst := @replay_torn_eq number synced start (batches.take k) (batches.drop k) t
    (by rw [hsplit]; exact hfits) (by rw [hsplit]; exact hseq) (by rw [hlen]; exact htorn)
  have hsecond : ∀ synced, replay ⟨logBytes number start (batches.take k), synced⟩ =
      .ok (⟨numberedBatches start (batches.take k), start + (batches.take k).length, none⟩,
        ⟨logBytes number start (batches.take k), synced⟩) := by
    intro synced
    have hwhole := @replay_torn_eq number synced start (batches.take k) [] []
      (by rw [List.append_nil]; exact fun b hb => hfits b (List.mem_of_mem_take hb))
      (by rw [List.append_nil, hlen]; omega) (Or.inl rfl)
    simp only [List.append_nil, if_true] at hwhole
    exact hwhole
  rw [hcalls.flushed, htake]
  refine ⟨k, hk, hwhole, _, _, hfirst, rfl, by rw [hlen], ?_, hsecond _⟩
  by_cases ht : t = []
  · simp [ht]
  · have := List.length_pos_iff.mpr ht
    simp only [ht, if_false, Option.isSome_some, List.length_append, true_iff]
    omega

/-- A log of one batch, cut inside its record: nothing is handed over, and the cut is
reported. -/
theorem cut_inside_only_batch : ∃ l r f, Calls 1 0 [[⟨[107], .delete⟩]] l ∧
    replay ⟨(Op.run .fine .flush l).1.file.data.take 40, 0⟩ = .ok (r, f) ∧
    r.batches = [] ∧ r.truncatedAt.isSome ∧ replay f = .ok ({ r with truncatedAt := none }, f) := by
  obtain ⟨w, hw⟩ : ∃ w, (Log.create 1 0).wal.append [⟨[107], .delete⟩] = some w :=
    ⟨_, if_neg (by decide +kernel)⟩
  have hcalls : Calls 1 0 [[⟨[107], .delete⟩]] _ := .append .create hw
  obtain ⟨k, hk, hwhole, r, f, hreplay, hbatches, -, htruncated, hagain⟩ :=
    cut_log_replayed hcalls (by simp [InRange]) (by simp) (n := 40) (by decide) 0
  have hlen : (logBytes 1 0 [[⟨[107], .delete⟩]]).length = 48 := by decide +kernel
  have hk0 : k = 0 := by
    have hone := (hwhole 1 (Nat.le_refl 1)).not
    rw [List.take_of_length_le (by simp), hlen] at hone
    omega
  subst hk0
  refine ⟨_, r, f, hcalls, hreplay, hbatches, ?_, hagain⟩
  rw [htruncated, hcalls.flushed, List.length_take, hlen, List.take_zero,
    logBytes_nil, encodeHeader_length]
  decide

end RedisFromScratch.TornBatches
