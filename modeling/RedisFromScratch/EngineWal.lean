import Mathlib.Logic.Function.Basic
import RedisFromScratch.EngineLogs
import RedisFromScratch.Runs

/-!
The open log of the engine: a buffer of encoded records, the file behind it,
and counters that say how far the file and its stable part reach. A drain takes
the whole buffer whether or not the write succeeds. As long as no write has
failed the file and the buffer together are the records appended.
-/
namespace RedisFromScratch.EngineWal

open ByteStrings FramedLogs EngineTypes EngineLogs

inductive SyncPolicy
  | always
  | everySecond
  | never
  deriving DecidableEq, Repr

structure Wal where
  number : ℕ
  bytes : Bytes
  nextSeq : ℕ
  lastAppended : ℕ
  written : ℕ
  synced : ℕ
  deriving DecidableEq, Repr

/-- An open log and its file. Whether a write of records has ever failed is
remembered for the proofs; the code does not. -/
structure Log where
  wal : Wal
  file : LogFile
  lost : Bool
  deriving DecidableEq, Repr

/-- How the system calls of one section end: how many bytes a failing write
leaves behind, and whether the fsync fails. -/
structure Io where
  write : Option ℕ
  syncFails : Bool
  deriving DecidableEq, Repr

def Io.fine : Io := ⟨none, false⟩

def Wal.create (number startSeq : ℕ) : Wal :=
  ⟨number, [], startSeq + 1, startSeq, startSeq, startSeq⟩

/-- The header is on stable storage before the log is used. -/
def headerFile (number startSeq : ℕ) : LogFile :=
  ⟨encodeHeader number startSeq, (encodeHeader number startSeq).length⟩

def Log.create (number startSeq : ℕ) : Log :=
  ⟨Wal.create number startSeq, headerFile number startSeq, false⟩

def Wal.append (w : Wal) (muts : List Mutation) : Option Wal :=
  if maxRecord < (encodeBatch muts).length then none
  else some { w with
    bytes := w.bytes ++ framing.encode (recOf w.nextSeq muts)
    nextSeq := w.nextSeq + 1
    lastAppended := w.nextSeq }

namespace Log

def drain (φ : Io) (l : Log) : Log × Bool :=
  if l.wal.bytes = [] then (l, true)
  else
    match φ.write with
    | none => (⟨{ l.wal with bytes := [], written := l.wal.nextSeq - 1 },
        { l.file with data := l.file.data ++ l.wal.bytes }, l.lost⟩, true)
    | some n => (⟨{ l.wal with bytes := [] },
        { l.file with data := l.file.data ++ l.wal.bytes.take n }, true⟩, false)

def syncLocked (φ : Io) (l : Log) : Log × Bool :=
  match l.drain φ with
  | (l, false) => (l, false)
  | (l, true) =>
      if l.wal.written ≤ l.wal.synced then (l, true)
      else if φ.syncFails then (l, false)
      else ({ l with
        wal := { l.wal with synced := l.wal.written }
        file := { l.file with synced := l.file.data.length } }, true)

end Log

/-- The calls that make records reach the file. -/
inductive Op
  | flush
  | syncTo (seq : ℕ)
  | syncAll
  deriving DecidableEq, Repr

/-- What a commit does before a write is acknowledged. -/
def commitOp (seq : ℕ) : SyncPolicy → Option Op
  | .always => some (.syncTo seq)
  | .everySecond => some .flush
  | .never => none

/-- The look at the counters before the lock; `n` is the last number handed out
when the call began. -/
def Op.Fast (n : ℕ) (w : Wal) : Op → Prop
  | .flush => n ≤ w.written
  | .syncTo seq => seq ≤ w.synced
  | .syncAll => False

/-- The second look, under the lock of the file, leads to a drain. -/
def Op.Drains (w : Wal) : Op → Prop
  | .flush => w.written < w.lastAppended
  | .syncTo seq => w.synced < seq
  | .syncAll => True

instance (w : Wal) (op : Op) : Decidable (op.Drains w) := by
  cases op <;> unfold Op.Drains <;> infer_instance

/-- The section under the lock of the file. -/
def Op.run (φ : Io) (op : Op) (l : Log) : Log × Bool :=
  if op.Drains l.wal then
    match op with
    | .flush => l.drain φ
    | .syncTo _ => l.syncLocked φ
    | .syncAll => l.syncLocked φ
  else (l, true)

/-- The log and its counters describe these batches. Past a failed write the
file still holds whole batches and at most one cut short. -/
structure Log.Holds (start : ℕ) (batches : List (List Mutation)) (l : Log) : Prop where
  next : l.wal.nextSeq = start + batches.length + 1
  last : l.wal.lastAppended = start + batches.length
  low : start ≤ l.wal.synced
  mid : l.wal.synced ≤ l.wal.written
  high : l.wal.written ≤ l.wal.lastAppended
  stable : l.file.synced =
    (logBytes l.wal.number start (batches.take (l.wal.synced - start))).length
  whole : Tears l.wal.number start batches l.file.data
  reach : logBytes l.wal.number start (batches.take (l.wal.written - start)) <+: l.file.data
  intact : l.lost = false →
    l.file.data = logBytes l.wal.number start (batches.take (l.wal.written - start)) ∧
      l.file.data ++ l.wal.bytes = logBytes l.wal.number start batches

section

variable {start : ℕ} {batches : List (List Mutation)} {l : Log}

theorem holds_create (number start : ℕ) : (Log.create number start).Holds start [] where
  next := by simp [Log.create, Wal.create]
  last := by simp [Log.create, Wal.create]
  low := Nat.le_refl _
  mid := Nat.le_refl _
  high := Nat.le_refl _
  stable := by simp [Log.create, headerFile]
  whole := by simpa [Log.create, headerFile, Wal.create] using tears_all number start []
  reach := by simp [Log.create, headerFile, Wal.create]
  intact _ := by simp [Log.create, headerFile, Wal.create]

theorem Log.Holds.append (h : l.Holds start batches) {muts : List Mutation} {w : Wal}
    (hw : l.wal.append muts = some w) :
    Log.Holds start (batches ++ [muts]) { l with wal := w } := by
  unfold Wal.append at hw
  split at hw
  · cases hw
  cases Option.some.inj hw
  have hnext := h.next
  have hlast := h.last
  have hhigh := h.high
  have htake : ∀ n, n ≤ l.wal.written → (batches ++ [muts]).take (n - start) =
      batches.take (n - start) := fun n hn => List.take_append_of_le_length (by omega)
  refine ⟨?_, ?_, h.low, h.mid, ?_, ?_, h.whole.append _, ?_, ?_⟩
  · simp only [List.length_append, List.length_singleton]
    omega
  · simp only [List.length_append, List.length_singleton]
    omega
  · dsimp only
    omega
  · dsimp only
    rw [htake _ h.mid]
    exact h.stable
  · dsimp only
    rw [htake _ (Nat.le_refl _)]
    exact h.reach
  · intro hlost
    obtain ⟨hdata, hall⟩ := h.intact hlost
    dsimp only
    refine ⟨by rw [htake _ (Nat.le_refl _)]; exact hdata, ?_⟩
    rw [← List.append_assoc, hall, logBytes_append, hnext, numberedWith_cons, numberedWith_nil,
      Framing.encodeAll_cons, Framing.encodeAll_nil, List.append_nil,
      show start + 1 + batches.length = start + batches.length + 1 by omega]

/-- Until a write fails, the buffer is the batches the file lacks. -/
theorem Log.Holds.bytes_eq (h : l.Holds start batches) (hlost : l.lost = false) :
    l.wal.bytes = framing.encodeAll (numberedWith recOf (start + 1 + (l.wal.written - start))
      (batches.drop (l.wal.written - start))) := by
  obtain ⟨hdata, hall⟩ := h.intact hlost
  have hlast := h.last
  have hhigh := h.high
  have hsplit := logBytes_append l.wal.number start (batches.take (l.wal.written - start))
    (batches.drop (l.wal.written - start))
  rw [List.take_append_drop, ← hall, hdata, List.length_take_of_le (by omega)] at hsplit
  exact List.append_cancel_left hsplit

theorem Log.Holds.bytes_eq_nil_iff (h : l.Holds start batches) (hlost : l.lost = false) :
    l.wal.bytes = [] ↔ l.wal.written = l.wal.lastAppended := by
  have hbytes := h.bytes_eq hlost
  have hlast := h.last
  have hlow := h.low.trans h.mid
  have hhigh := h.high
  constructor
  · intro hnil
    rw [hnil] at hbytes
    cases hrest : batches.drop (l.wal.written - start) with
    | nil =>
      have := List.drop_eq_nil_iff.mp hrest
      omega
    | cons =>
      rw [hrest, numberedWith_cons, Framing.encodeAll_cons] at hbytes
      exact absurd (List.append_eq_nil_iff.mp hbytes.symm).1 (encode_ne_nil _)
  · intro heq
    rw [hbytes, List.drop_eq_nil_of_le (by omega), numberedWith_nil, Framing.encodeAll_nil]

/-- The whole buffer reaches the file. -/
theorem Log.Holds.wrote (h : l.Holds start batches) (hlost : l.lost = false) :
    Log.Holds start batches ⟨{ l.wal with bytes := [], written := l.wal.nextSeq - 1 },
      { l.file with data := l.file.data ++ l.wal.bytes }, l.lost⟩ := by
  have hnext := h.next
  have hlast := h.last
  have hmid := h.mid
  have hhigh := h.high
  have hall := (h.intact hlost).2
  have hend : l.wal.nextSeq - 1 - start = batches.length := by omega
  refine ⟨h.next, h.last, h.low, by dsimp only; omega, by dsimp only; omega, h.stable, ?_, ?_, ?_⟩
  · dsimp only
    rw [hall]
    exact tears_all _ _ _
  · dsimp only
    rw [hend, List.take_length, hall]
  · intro _
    rw [hend, List.take_length, List.append_nil]
    exact ⟨hall, hall⟩

/-- A failed write leaves some of the buffer in the file, and the rest nowhere. -/
theorem Log.Holds.lose (h : l.Holds start batches) (hlost : l.lost = false) (n : ℕ) :
    Log.Holds start batches ⟨{ l.wal with bytes := [] },
      { l.file with data := l.file.data ++ l.wal.bytes.take n }, true⟩ := by
  refine ⟨h.next, h.last, h.low, h.mid, h.high, h.stable, ?_, ?_, fun hno => by cases hno⟩
  · refine Tears.of_prefix (tears_all l.wal.number start batches) ?_ ?_
    · refine List.IsPrefix.trans ?_ (List.prefix_append _ _)
      rw [(h.intact hlost).1, logBytes]
      exact List.prefix_append _ _
    · dsimp only
      rw [← (h.intact hlost).2, List.prefix_append_right_inj]
      exact List.take_prefix n _
  · exact h.reach.trans (List.prefix_append _ _)

/-- A drain leaves whole batches in the file; if it succeeds, all of them. -/
theorem Log.Holds.drain (h : l.Holds start batches) (hlost : l.lost = false) (φ : Io) :
    (l.drain φ).1.Holds start batches ∧
      ((l.drain φ).2 = true → (l.drain φ).1.lost = false ∧
        (l.drain φ).1.wal.written = start + batches.length) ∧
      l.wal.synced ≤ (l.drain φ).1.wal.synced ∧ l.wal.written ≤ (l.drain φ).1.wal.written := by
  have hnext := h.next
  have hlast := h.last
  have hhigh := h.high
  unfold Log.drain
  by_cases hnil : l.wal.bytes = []
  · rw [if_pos hnil]
    have hwritten := (h.bytes_eq_nil_iff hlost).mp hnil
    exact ⟨h, fun _ => ⟨hlost, by rw [hwritten, hlast]⟩, Nat.le_refl _, Nat.le_refl _⟩
  rw [if_neg hnil]
  cases φ.write with
  | none =>
    exact ⟨h.wrote hlost, fun _ => ⟨hlost, by dsimp only; omega⟩, Nat.le_refl _,
      by dsimp only; omega⟩
  | some n => exact ⟨h.lose hlost n, Bool.noConfusion, Nat.le_refl _, Nat.le_refl _⟩

theorem Log.Holds.fsynced (h : l.Holds start batches) (hlost : l.lost = false) :
    Log.Holds start batches { l with
      wal := { l.wal with synced := l.wal.written }
      file := { l.file with synced := l.file.data.length } } where
  next := h.next
  last := h.last
  low := h.low.trans h.mid
  mid := Nat.le_refl _
  high := h.high
  stable := congrArg List.length (h.intact hlost).1
  whole := h.whole
  reach := h.reach
  intact := h.intact

theorem Log.Holds.syncLocked (h : l.Holds start batches) (hlost : l.lost = false) (φ : Io) :
    (l.syncLocked φ).1.Holds start batches ∧
      ((l.syncLocked φ).2 = true → (l.syncLocked φ).1.wal.synced = start + batches.length) ∧
      l.wal.synced ≤ (l.syncLocked φ).1.wal.synced ∧
      l.wal.written ≤ (l.syncLocked φ).1.wal.written := by
  obtain ⟨hd, hok, hsync, hwrite⟩ := h.drain hlost φ
  unfold Log.syncLocked
  cases hdrain : l.drain φ with
  | mk l' ok =>
    rw [hdrain] at hd hok hsync hwrite
    cases ok with
    | false => exact ⟨hd, Bool.noConfusion, hsync, hwrite⟩
    | true =>
      obtain ⟨hlost', hwritten⟩ := hok rfl
      have hmid := hd.mid
      dsimp only at hwritten hsync hwrite hmid ⊢
      split
      · rename_i hle
        exact ⟨hd, fun _ => by dsimp only; omega, hsync, hwrite⟩
      split
      · exact ⟨hd, Bool.noConfusion, hsync, hwrite⟩
      · exact ⟨hd.fsynced hlost', fun _ => hwritten, by dsimp only; omega, hwrite⟩

/-- What a section under the lock of the file leaves, and what its success says. -/
theorem Log.Holds.run (h : l.Holds start batches) (op : Op)
    (hlost : op.Drains l.wal → l.lost = false) (φ : Io) :
    (op.run φ l).1.Holds start batches ∧
      ((op.run φ l).2 = true → match op with
        | .flush => start + batches.length ≤ (op.run φ l).1.wal.written
        | .syncTo seq => min seq (start + batches.length) ≤ (op.run φ l).1.wal.synced
        | .syncAll => start + batches.length ≤ (op.run φ l).1.wal.synced) ∧
      l.wal.synced ≤ (op.run φ l).1.wal.synced ∧ l.wal.written ≤ (op.run φ l).1.wal.written := by
  have hlast := h.last
  unfold Op.run
  by_cases hdrains : op.Drains l.wal
  · rw [if_pos hdrains]
    cases op with
    | flush =>
      obtain ⟨hd, hok, hsync, hwrite⟩ := h.drain (hlost hdrains) φ
      exact ⟨hd, fun ht => (hok ht).2.ge, hsync, hwrite⟩
    | syncTo =>
      obtain ⟨hd, hok, hsync, hwrite⟩ := h.syncLocked (hlost hdrains) φ
      exact ⟨hd, fun ht => (Nat.min_le_right _ _).trans (hok ht).ge, hsync, hwrite⟩
    | syncAll =>
      obtain ⟨hd, hok, hsync, hwrite⟩ := h.syncLocked (hlost hdrains) φ
      exact ⟨hd, fun ht => (hok ht).ge, hsync, hwrite⟩
  · rw [if_neg hdrains]
    refine ⟨h, fun _ => ?_, Nat.le_refl _, Nat.le_refl _⟩
    cases op with
    | flush =>
      simp only [Op.Drains, not_lt] at hdrains
      dsimp only
      omega
    | syncTo =>
      simp only [Op.Drains, not_lt] at hdrains
      exact (Nat.min_le_left _ _).trans hdrains
    | syncAll => exact absurd trivial hdrains

/-- A record within the file: its bytes are in `d`, and replay of `d` finds it. -/
structure Recovered (number start : ℕ) (batches : List (List Mutation)) (seq : ℕ) (d : Bytes) :
    Prop where
  inside : logBytes number start (batches.take (seq - start)) <+: d
  replayed : ∀ synced, ∃ muts r f, batches[seq - start - 1]? = some muts ∧
    EngineLogs.replay ⟨d, synced⟩ = .ok (r, f) ∧ (seq, muts) ∈ r.batches

theorem mem_numberedBatches {start seq : ℕ} {kept : List (List Mutation)} (hlow : start < seq)
    (hseq : seq - start ≤ kept.length) :
    ∃ muts, kept[seq - start - 1]? = some muts ∧ (seq, muts) ∈ numberedBatches start kept := by
  have hlt : seq - start - 1 < kept.length := by omega
  refine ⟨kept[seq - start - 1], List.getElem?_eq_getElem hlt, ?_⟩
  rw [numberedBatches, numberedWith_split (start + 1) (List.getElem?_eq_getElem hlt),
    show start + 1 + (seq - start - 1) = seq by omega]
  exact List.mem_append_right _ List.mem_cons_self

/-- Replay of any file that reaches a record finds it. -/
theorem recovered_of_prefix {number : ℕ} {d : Bytes} {seq : ℕ}
    (hd : Tears number start batches d) (hfits : ∀ b ∈ batches, BatchFits b)
    (hbound : start + 1 + batches.length ≤ 2 ^ 64) (hlow : start < seq)
    (hseq : seq ≤ start + batches.length)
    (hpre : logBytes number start (batches.take (seq - start)) <+: d) :
    Recovered number start batches seq d := by
  refine ⟨hpre, fun synced => ?_⟩
  obtain ⟨kept, rest, cut, f, hsplit, hreach, hreplay⟩ := hd.replay hfits hbound synced
  have hkept := hreach (seq - start) (by omega) hpre
  obtain ⟨muts, hget, hmem⟩ := mem_numberedBatches hlow hkept
  refine ⟨muts, _, f, ?_, hreplay, hmem⟩
  rw [hsplit, List.getElem?_append_left (by omega)]
  exact hget

theorem logBytes_take_mono (number start : ℕ) (batches : List (List Mutation)) {i j : ℕ}
    (h : i ≤ j) : logBytes number start (batches.take i) <+:
      logBytes number start (batches.take j) := by
  have hsplit : batches.take j = batches.take i ++ (batches.take j).drop i := by
    conv_lhs => rw [← List.take_append_drop i (batches.take j), List.take_take,
      Nat.min_eq_left h]
  rw [hsplit, logBytes_append]
  exact List.prefix_append _ _

/-- What the counter says is written, replay finds. -/
theorem Log.Holds.recovered (h : l.Holds start batches) (hfits : ∀ b ∈ batches, BatchFits b)
    (hbound : start + 1 + batches.length ≤ 2 ^ 64) {seq : ℕ} (hlow : start < seq)
    (hseq : seq ≤ l.wal.written) : Recovered l.wal.number start batches seq l.file.data := by
  have hlast := h.last
  have hhigh := h.high
  exact recovered_of_prefix h.whole hfits hbound hlow (by omega)
    ((logBytes_take_mono _ _ _ (by omega)).trans h.reach)

/-- What the counter says is synced, replay finds however the file is cut behind
its stable part. -/
theorem Log.Holds.recovered_cut (h : l.Holds start batches) (hfits : ∀ b ∈ batches, BatchFits b)
    (hbound : start + 1 + batches.length ≤ 2 ^ 64) {seq : ℕ} (hlow : start < seq)
    (hseq : seq ≤ l.wal.synced) {d : Bytes} (hcut : l.file.data.take l.file.synced <+: d)
    (hd : d <+: l.file.data) : Recovered l.wal.number start batches seq d := by
  have hlast := h.last
  have hmid := h.mid
  have hhigh := h.high
  have hstable : l.file.data.take l.file.synced =
      logBytes l.wal.number start (batches.take (l.wal.synced - start)) := by
    rw [h.stable]
    exact List.prefix_iff_eq_take.mp ((logBytes_take_mono _ _ _ (by omega)).trans h.reach) |>.symm
  rw [hstable] at hcut
  have hheader : encodeHeader l.wal.number start <+: d := by
    refine List.IsPrefix.trans ?_ hcut
    rw [logBytes]
    exact List.prefix_append _ _
  have htears := h.whole.of_prefix hheader hd
  exact recovered_of_prefix htears hfits hbound hlow (by omega)
    ((logBytes_take_mono _ _ _ (by omega)).trans hcut)

end

end RedisFromScratch.EngineWal
