import RedisFromScratch.FileSwaps
import RedisFromScratch.SnapshotFiles

/-!
Writing a snapshot. The image goes to a temporary file through a buffered writer,
in the chunks that the writer hands over, and is renamed over the previous one when
it is complete. The keyspace is walked in between, and the walk may fail.
-/
namespace RedisFromScratch.SnapshotWrites

open ByteStrings StoreRecords BufferedReader BufferedWriter FileSwaps SnapshotFiles

inductive WriteError
  | createDir
  | create
  | writeHeader
  | writeEntry
  | iter
  | writeFooter
  | flush
  | fsync
  | stat
  | close
  | rename
  | syncDir
  deriving DecidableEq, Repr

def cleanup (pid : ℕ) : List (FileOp UInt8) := [.close (.temp pid), .remove (.temp pid)]

/-- A snapshot in progress: the counters of the footer, the buffered writer, and the
operations so far. -/
structure Progress where
  count : ℕ
  bodyLen : ℕ
  sum : UInt32
  bw : Writer UInt8
  steps : List (Step UInt8 WriteError)

section Write

variable (pid : ℕ)

def chunkSteps (err : WriteError) (chunks : List Bytes) : List (Step UInt8 WriteError) :=
  chunks.map fun c => ⟨.write (.temp pid) c, cleanup pid, err⟩

def writeBuffered (err : WriteError) (p : Bytes) (g : Progress) : Progress :=
  { g with
    bw := (g.bw.writeLoop true (fun _ => none) p).1
    steps := g.steps ++ chunkSteps pid err (g.bw.writeLoop true (fun _ => none) p).2 }

def emit (g : Progress) (pair : Bytes × Record) : Progress :=
  let buf := encodeEntry pair.1 pair.2
  { writeBuffered pid .writeEntry buf g with
    count := (g.count + 1) % 2 ^ 64
    bodyLen := (g.bodyLen + buf.length) % 2 ^ 64
    sum := crcUpdate g.sum buf }

def start (lsn : ℕ) (createdAtMs : ℤ) : Progress :=
  writeBuffered pid .writeHeader (encodeHeader lsn createdAtMs)
    ⟨0, 0, 0, Writer.new (1 <<< 20) bufferSize_pos, []⟩

/-- Everything that is written, up to the flush of the writer. -/
def written (lsn : ℕ) (createdAtMs : ℤ) (pairs : List (Bytes × Record)) :
    List (Step UInt8 WriteError) :=
  let g := pairs.foldl (emit pid) (start pid lsn createdAtMs)
  let g := { g with steps := g.steps ++ [⟨.callback, cleanup pid, .iter⟩] }
  let g := writeBuffered pid .writeFooter (encodeFooter g.count g.bodyLen g.sum) g
  g.steps ++ chunkSteps pid .flush (g.bw.flush none).2

/-- What comes before the rename. -/
def prepare (lsn : ℕ) (createdAtMs : ℤ) (pairs : List (Bytes × Record)) :
    List (Step UInt8 WriteError) :=
  ⟨.mkdirAll, [], .createDir⟩ :: ⟨.create (.temp pid), [], .create⟩ ::
    (written pid lsn createdAtMs pairs ++
      [⟨.fsync (.temp pid), cleanup pid, .fsync⟩, ⟨.stat (.temp pid), cleanup pid, .stat⟩,
        ⟨.close (.temp pid), [.remove (.temp pid)], .close⟩])

def writeSteps (lsn : ℕ) (createdAtMs : ℤ) (pairs : List (Bytes × Record)) :
    List (Step UInt8 WriteError) :=
  prepare pid lsn createdAtMs pairs ++ swap pid .rename .syncDir

end Write

/-- Steps that append, and bytes not handed over yet: together the given ones. -/
structure Streams (pid : ℕ) (g : Progress) (stream : Bytes) : Prop where
  live : g.bw.failed = false
  appends : ∀ s ∈ g.steps, Appends pid s
  stream : g.steps.flatMap (fun s => s.op.appended) ++ g.bw.pending = stream

section Streams

variable {pid : ℕ}

theorem spares_cleanup : ∀ op ∈ cleanup pid, Spares op := by
  intro op hop
  rcases List.mem_cons.mp hop with rfl | hop
  · exact fun _ => rfl
  · exact spares_removal op hop

theorem appends_chunkSteps (err : WriteError) (chunks : List Bytes) :
    ∀ s ∈ chunkSteps pid err chunks, Appends pid s := by
  intro s hs
  obtain ⟨chunk, -, rfl⟩ := List.mem_map.mp hs
  exact ⟨Or.inl ⟨chunk, rfl⟩, spares_cleanup⟩

theorem appended_chunkSteps (err : WriteError) (chunks : List Bytes) :
    (chunkSteps pid err chunks).flatMap (fun s => s.op.appended) = chunks.flatten := by
  induction chunks with
  | nil => rfl
  | cons c chunks ih =>
    rw [List.flatten_cons, ← ih]
    rfl

theorem Streams.writeBuffered {g : Progress} {stream : Bytes} (h : Streams pid g stream)
    (err : WriteError) (p : Bytes) : Streams pid (writeBuffered pid err p g) (stream ++ p) := by
  obtain ⟨hlive, hstream⟩ := g.bw.writeLoop_stream true p h.live
  refine ⟨hlive, ?_, ?_⟩
  · intro s hs
    rcases List.mem_append.mp hs with hs | hs
    · exact h.appends s hs
    · exact appends_chunkSteps _ _ s hs
  · change (g.steps ++ chunkSteps pid err _).flatMap _ ++
      (g.bw.writeLoop true (fun _ => none) p).1.pending = _
    rw [List.flatMap_append, appended_chunkSteps, List.append_assoc, hstream, ← List.append_assoc,
      h.stream]

/-- What has been emitted so far, and the counters for it. -/
structure Emitted (pid : ℕ) (g : Progress) (front : Bytes) (pairs : List (Bytes × Record)) :
    Prop where
  streams : Streams pid g (front ++ body pairs)
  count : g.count = pairs.length % 2 ^ 64
  bodyLen : g.bodyLen = (body pairs).length % 2 ^ 64
  sum : g.sum = bodySum 0 pairs

theorem Emitted.emit {g : Progress} {front : Bytes} {pairs : List (Bytes × Record)}
    (h : Emitted pid g front pairs) (pair : Bytes × Record) :
    Emitted pid (emit pid g pair) front (pairs ++ [pair]) := by
  have hbody : body (pairs ++ [pair]) = body pairs ++ encodeEntry pair.1 pair.2 := by
    simp [body]
  refine ⟨?_, ?_, ?_, ?_⟩
  · have hwritten := h.streams.writeBuffered .writeEntry (encodeEntry pair.1 pair.2)
    rw [hbody, ← List.append_assoc]
    exact ⟨hwritten.live, hwritten.appends, hwritten.stream⟩
  · change (g.count + 1) % 2 ^ 64 = _
    rw [h.count, List.length_append, List.length_singleton, Nat.mod_add_mod]
  · change (g.bodyLen + _) % 2 ^ 64 = _
    rw [h.bodyLen, hbody, List.length_append, Nat.mod_add_mod]
  · change crcUpdate g.sum _ = _
    rw [h.sum, bodySum, bodySum, List.foldl_append]
    rfl

theorem emitted_foldl {g : Progress} {front : Bytes} {before : List (Bytes × Record)}
    (h : Emitted pid g front before) (pairs : List (Bytes × Record)) :
    Emitted pid (pairs.foldl (SnapshotWrites.emit pid) g) front (before ++ pairs) := by
  induction pairs generalizing g before with
  | nil => rwa [List.append_nil]
  | cons pair pairs ih =>
    rw [List.foldl_cons, List.append_cons]
    exact ih (h.emit pair)

theorem emitted_start (lsn : ℕ) (createdAtMs : ℤ) :
    Emitted pid (start pid lsn createdAtMs) (encodeHeader lsn createdAtMs) [] := by
  have hnew : Streams pid ⟨0, 0, 0, Writer.new (1 <<< 20) bufferSize_pos, []⟩ [] :=
    ⟨rfl, by simp, rfl⟩
  refine ⟨?_, rfl, rfl, rfl⟩
  have hstart := hnew.writeBuffered .writeHeader (encodeHeader lsn createdAtMs)
  rw [List.nil_append] at hstart
  rw [show body [] = [] from rfl, List.append_nil]
  exact hstart

/-- What is written is the image. -/
theorem written_image {lsn : ℕ} {createdAtMs : ℤ} {pairs : List (Bytes × Record)}
    (hsize : (image lsn createdAtMs pairs).length < 2 ^ 64) :
    (∀ s ∈ written pid lsn createdAtMs pairs, Appends pid s) ∧
      (written pid lsn createdAtMs pairs).flatMap (fun s => s.op.appended) =
        image lsn createdAtMs pairs := by
  have hcount := length_le_body pairs
  have hlen : (body pairs).length < 2 ^ 64 := by
    rw [image_length] at hsize
    omega
  have hemitted := emitted_foldl (@emitted_start pid lsn createdAtMs) pairs
  rw [List.nil_append] at hemitted
  obtain ⟨hstreams, hkeys, hbodyLen, hsum⟩ := hemitted
  rw [Nat.mod_eq_of_lt (by omega)] at hkeys
  rw [Nat.mod_eq_of_lt hlen] at hbodyLen
  unfold written
  obtain ⟨g, hg⟩ : ∃ g, g = pairs.foldl (emit pid) (start pid lsn createdAtMs) := ⟨_, rfl⟩
  rw [← hg] at hstreams hkeys hbodyLen hsum ⊢
  have hwalked : Streams pid { g with steps := g.steps ++ [⟨.callback, cleanup pid, .iter⟩] }
      (encodeHeader lsn createdAtMs ++ body pairs) := by
    refine ⟨hstreams.live, ?_, ?_⟩
    · intro s hs
      rcases List.mem_append.mp hs with hs | hs
      · exact hstreams.appends s hs
      · rw [List.mem_singleton.mp hs]
        exact ⟨Or.inr rfl, spares_cleanup⟩
    · rw [← hstreams.stream, List.flatMap_append]
      simp [FileOp.appended]
  have hfooter := hwalked.writeBuffered .writeFooter (encodeFooter g.count g.bodyLen g.sum)
  obtain ⟨-, hflushed⟩ := Writer.flush_stream _ hfooter.live
  constructor
  · intro s hs
    rcases List.mem_append.mp hs with hs | hs
    · exact hfooter.appends s hs
    · exact appends_chunkSteps _ _ s hs
  · rw [List.flatMap_append, appended_chunkSteps, hflushed, hfooter.stream, hkeys, hbodyLen, hsum,
      List.append_assoc]
    rfl

/-- When the rename is due, the temporary file is the image. -/
theorem prepare_image {lsn : ℕ} {createdAtMs : ℤ} {pairs : List (Bytes × Record)}
    (hsize : (image lsn createdAtMs pairs).length < 2 ^ 64) :
    Prepares pid (prepare pid lsn createdAtMs pairs) (image lsn createdAtMs pairs) := by
  obtain ⟨happends, hstream⟩ := @written_image pid _ _ _ hsize
  unfold prepare
  constructor
  · intro s hs
    simp only [List.mem_cons, List.mem_append, List.not_mem_nil, or_false] at hs
    rcases hs with rfl | rfl | hs | rfl | rfl | rfl
    · exact harmless_quiet (fun _ => rfl) (fun _ _ => rfl) spares_nil _
    · exact ⟨spares_create, fun _ _ => rfl, spares_nil⟩
    · exact (happends s hs).harmless
    · exact harmless_quiet (fun _ => rfl) (fun _ _ => rfl) spares_cleanup _
    · exact harmless_quiet (fun _ => rfl) (fun _ _ => rfl) spares_cleanup _
    · exact harmless_quiet (fun _ => rfl) (fun _ _ => rfl) spares_removal _
  · intro fs
    have hcreated : (FileOp.create (.temp pid)).apply fs (.temp pid) = some [] :=
      Function.update_self _ _ _
    have hwritten := perform_appends happends hcreated
    rw [hstream, List.nil_append] at hwritten
    rw [List.map_cons, List.map_cons, List.map_append]
    change perform (_ ++ _) ((FileOp.create (.temp pid)).apply fs) (.temp pid) = _
    rw [perform_append]
    exact hwritten

end Streams

section Loads

variable {σ : Type}

/-- What Load makes of an image: its pairs in order, and its numbers. -/
def loaded (put : Applier σ) (store : σ) (lsn : ℕ) (createdAtMs : ℤ)
    (pairs : List (Bytes × Record)) : Except LoadError (Info × σ) :=
  (applyAll put 0 store pairs).map fun store =>
    (⟨lsn, createdAtMs, pairs.length, (image lsn createdAtMs pairs).length⟩, store)

/-- Write can return, and then Load hands over the pairs that were emitted, in order, and
returns the numbers given. After a kill Load does what it did before, or that. -/
theorem snapshot_replaced (room : ℕ → ℕ) (put : Applier σ)
    {feed : Bytes → List (Event UInt8 ReadError)} (hfeed : ∀ d, upcoming (feed d) = d)
    (pid : ℕ) {lsn : ℕ} {createdAtMs : ℤ} {pairs : List (Bytes × Record)} (hlsn : lsn < 2 ^ 64)
    (hlow : -2 ^ 63 ≤ createdAtMs) (hhigh : createdAtMs < 2 ^ 63)
    (hpairs : ∀ p ∈ pairs, Storable p) (hsize : (image lsn createdAtMs pairs).length < 2 ^ 63)
    (fs : Files UInt8) :
    (∃ fs', Ends (writeSteps pid lsn createdAtMs pairs) fs .returned fs') ∧
    (∀ fs', Ends (writeSteps pid lsn createdAtMs pairs) fs .returned fs' → ∀ store,
      load room put feed store (fs' .target) = loaded put store lsn createdAtMs pairs) ∧
    ∀ fs', Ends (writeSteps pid lsn createdAtMs pairs) fs .killed fs' →
      (∀ store, load room put feed store (fs' .target) = load room put feed store (fs .target)) ∨
      ∀ store, load room put feed store (fs' .target) = loaded put store lsn createdAtMs pairs := by
  have hload := fun store => load_image room put hfeed hlsn hlow hhigh hpairs hsize store
  refine ⟨⟨_, ends_returned _ fs⟩, ?_, ?_⟩
  · intro fs' hends store
    rcases ends_swap (prepare_image (by omega)) hends with ⟨hne, -⟩ | htarget
    · exact absurd rfl hne
    · rw [htarget]
      exact hload store
  · intro fs' hends
    rcases ends_swap (prepare_image (by omega)) hends with ⟨-, htarget⟩ | htarget
    · left
      intro store
      rw [htarget]
    · right
      intro store
      rw [htarget]
      exact hload store

end Loads

/-- The file's bytes in one piece, and then its end. -/
def inOnePiece (d : Bytes) : List (Event UInt8 ReadError) := putBack d [.fail .eof]

def keep (pairs : List (Bytes × Record)) (key : Bytes) (rec : Record) :
    Option (List (Bytes × Record)) := some (pairs ++ [(key, rec)])

/-- One pair, saved to an empty directory and loaded. -/
theorem one_pair_saved_and_loaded : ∃ fs',
    Ends (writeSteps 1 7 9 [([107], ⟨[118], 5⟩)]) (fun _ => none) .returned fs' ∧
    load id keep inOnePiece [] (fs' .target) = .ok (⟨7, 9, 1, 65⟩, [([107], ⟨[118], 5⟩)]) := by
  have hlen : (image 7 9 [([107], ⟨[118], 5⟩)]).length = 65 := by
    rw [image_length]
    decide +kernel
  have hfeed : ∀ d, upcoming (inOnePiece d) = d := by
    intro d
    rw [inOnePiece, upcoming_putBack, upcoming, List.append_nil]
  obtain ⟨⟨fs', hends⟩, hreturned, -⟩ := snapshot_replaced id keep hfeed 1
    (show 7 < 2 ^ 64 by decide) (show -2 ^ 63 ≤ 9 by decide) (by decide)
    (show ∀ p ∈ [([107], ⟨[118], 5⟩)], Storable p by simp [Storable, LogRecords.Int64Range])
    (by rw [hlen]; decide) (fun _ => none)
  refine ⟨fs', hends, ?_⟩
  rw [hreturned fs' hends [], loaded, hlen]
  rfl

end RedisFromScratch.SnapshotWrites
