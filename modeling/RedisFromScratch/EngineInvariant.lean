import RedisFromScratch.EngineRuns

/-!
What a run keeps of its directory. The logs from the manifest's log number on
are one for each memtable, oldest first, and hold its batches; all but the
newest are completely written. Between the pop of a flushed memtable and the
manifest write that retires its log, the log still stands there, and its
entries are on top of the version.
-/
namespace RedisFromScratch.EngineInvariant

open ByteStrings SortedTables NewestWins EngineTypes EngineLogs EngineWal SsTables Versions LsmTree
open Compaction TreeContents EngineRuns Relation Runs

variable {F : Type} {o : Options} {sc : Scores F} {policy : SyncPolicy} {s s' : State}

/-- The memtable a segment stands for. -/
def Segment.table (g : Segment) : MemTable := g.base.insertAll (writes g.batches.flatten)

def Segment.frozen (g : Segment) : Frozen := ⟨g.number, Segment.table g⟩

/-- A log and its file hold a segment's batches. -/
structure Backs (w : Wal) (f : LogFile) (g : Segment) : Prop where
  number : w.number = g.number
  holds : Log.Holds g.start g.batches ⟨w, f, false⟩
  fits : ∀ b ∈ g.batches, BatchFits b
  bound : g.start + g.batches.length + 1 < 2 ^ 64

/-- Everything appended is in the file. -/
def Complete (w : Wal) : Prop := w.written = w.lastAppended

/-- The memtable of the log being retired is in the version already. -/
def PoppedOk (t : TreeRuns.State) (popped rest : List Segment) : Prop :=
  match t.job with
  | .retired _ m => ∃ g, popped = [g] ∧ rest.head?.map Segment.number = some m ∧
      ∀ k e, (Segment.table g).lookup k = some e → versionEntry t k = some e
  | _ => popped = []

/-- The version the manifest in the directory names. -/
def storedVersion (t : TreeRuns.State) : Version :=
  match t.job with
  | .publishing next _ => next
  | _ => t.version

structure LogInv (s : State) : Prop where
  tree : TreeInvariant.Inv s.tree
  layout : ∃ popped rest, s.live = popped ++ rest ∧
    rest.map Segment.frozen = s.tree.immutable.reverse ++ [⟨s.tree.logNumber, s.tree.active⟩] ∧
    PoppedOk s.tree popped rest
  backed : ∀ g ∈ s.live, ∃ w f, s.wals.lookup g.number = some w ∧
    s.logs.lookup g.number = some f ∧ Backs w f g ∧
    (g.number ≠ s.tree.logNumber ∨ s.tree.freezing ≠ none → Complete w)
  ordered : s.live.Pairwise (fun a b => a.number < b.number)
  chained : s.live.IsChain (fun a b => b.start = a.start + a.batches.length)
  oldest : s.live.head?.map Segment.number = some s.stored.logNumber
  numbers : ∀ g ∈ s.live, g.number < s.tree.nextFileNumber
  freezing : ∀ n, s.tree.freezing = some n → n < s.tree.nextFileNumber ∧
    (∀ g ∈ s.live, g.number < n) ∧ s.wals.lookup n = none ∧
    ∀ f, s.logs.lookup n = some f → ∃ start, start < 2 ^ 64 ∧ f.data <+: encodeHeader n start
  files : ∀ n f, s.logs.lookup n = some f → s.stored.logNumber ≤ n →
    (∃ g ∈ s.live, g.number = n) ∨ s.tree.freezing = some n
  opened : ∀ n w, s.wals.lookup n = some w → n < s.tree.nextFileNumber
  version : s.stored.version = storedVersion s.tree
  forgetting : ∀ n m, s.tree.job = .forgetting n m → m = s.stored.logNumber

theorem LogInv.newest (h : LogInv s) : ∃ l g, s.live = l ++ [g] ∧ g.number = s.tree.logNumber ∧
    Segment.table g = s.tree.active := by
  obtain ⟨popped, rest, hlive, hmem, -⟩ := h.layout
  obtain ⟨l, r, rfl, -, hlast⟩ := List.map_eq_append_iff.mp hmem
  obtain ⟨g, rfl, hg⟩ := List.map_eq_singleton_iff.mp hlast
  refine ⟨popped ++ l, g, by rw [hlive, List.append_assoc], ?_, ?_⟩
  · exact congrArg Frozen.logNumber hg
  · exact congrArg Frozen.table hg

/-- No live log is below the manifest's number. -/
theorem LogInv.low (h : LogInv s) {g : Segment} (hg : g ∈ s.live) :
    s.stored.logNumber ≤ g.number := by
  have hordered := h.ordered
  have holdest := h.oldest
  cases hlive : s.live with
  | nil =>
    rw [hlive] at hg
    cases hg
  | cons =>
    rw [hlive] at hg hordered holdest
    rw [← Option.some.inj holdest]
    rcases List.mem_cons.mp hg with rfl | hin
    · exact le_rfl
    · exact ((List.pairwise_cons.mp hordered).1 g hin).le

/-- A log right after its creation. -/
theorem backs_create (n : ℕ) {start : ℕ} (base : MemTable) (hbound : start + 1 < 2 ^ 64) :
    Backs (Wal.create n start) (headerFile n start) ⟨n, start, [], base⟩ :=
  ⟨rfl, holds_create _ _, fun b hb => (by cases hb), hbound⟩

theorem started_inv (h : Started s) : LogInv s := by
  obtain ⟨start, hstart, hlive, hfile, hwal⟩ := h.live
  refine ⟨TreeInvariant.inv_opened h.opened, ⟨[], s.live, rfl, ?_, ?_⟩,
    ?_, ?_, ?_, ?_, ?_, ?_, ?_, ?_, ?_, ?_⟩
  · rw [hlive, h.opened.immutable]
    rfl
  · rw [PoppedOk, h.opened.job]
  · intro g hg
    rw [hlive, List.mem_singleton] at hg
    subst hg
    exact ⟨_, _, hwal, hfile, backs_create _ _ hstart, fun _ => rfl⟩
  · rw [hlive]
    exact List.pairwise_singleton _ _
  · rw [hlive]
    exact .singleton _
  · rw [hlive, h.logNumber]
    rfl
  · intro g hg
    rw [hlive, List.mem_singleton] at hg
    subst hg
    exact h.number
  · intro n hn
    rw [h.opened.freezing] at hn
    cases hn
  · intro n f hf hle
    left
    rw [h.logNumber] at hle
    exact ⟨_, hlive ▸ List.mem_singleton_self _, le_antisymm hle (h.only n f hf)⟩
  · intro n w hw
    rw [h.wals n w hw]
    exact h.number
  · rw [h.version, storedVersion, h.opened.job]
  · intro n m hjob
    rw [h.opened.job] at hjob
    cases hjob

section LogOps

/-- Without I/O errors an operation succeeds and loses nothing. -/
theorem run_fine (l : Log) (op : Op) : (op.run Io.fine l).1.lost = l.lost ∧
    (op.run Io.fine l).1.wal.number = l.wal.number ∧ (op.run Io.fine l).2 = true := by
  have hdrain : (l.drain Io.fine).1.lost = l.lost ∧
      (l.drain Io.fine).1.wal.number = l.wal.number ∧ (l.drain Io.fine).2 = true := by
    unfold Log.drain
    split <;> exact ⟨rfl, rfl, rfl⟩
  have hsync : (l.syncLocked Io.fine).1.lost = l.lost ∧
      (l.syncLocked Io.fine).1.wal.number = l.wal.number ∧ (l.syncLocked Io.fine).2 = true := by
    unfold Log.syncLocked
    obtain ⟨h1, h2, h3⟩ := hdrain
    cases hd : l.drain Io.fine with
    | mk =>
      rw [hd] at h1 h2 h3
      subst h3
      dsimp only
      split
      · exact ⟨h1, h2, rfl⟩
      · exact ⟨h1, h2, rfl⟩
  unfold Op.run
  split
  · cases op with
    | flush => exact hdrain
    | syncTo | syncAll => exact hsync
  · exact ⟨rfl, rfl, rfl⟩

variable {w : Wal} {f : LogFile} {g : Segment}

/-- An operation on a log keeps what the log holds and only moves it on. -/
theorem Backs.run (h : Backs w f g) (op : Op) :
    Backs (op.run Io.fine ⟨w, f, false⟩).1.wal (op.run Io.fine ⟨w, f, false⟩).1.file g ∧
      w.written ≤ (op.run Io.fine ⟨w, f, false⟩).1.wal.written ∧
      w.synced ≤ (op.run Io.fine ⟨w, f, false⟩).1.wal.synced ∧
      (op.run Io.fine ⟨w, f, false⟩).1.wal.lastAppended = w.lastAppended := by
  obtain ⟨hlost, hnumber, -⟩ := run_fine ⟨w, f, false⟩ op
  obtain ⟨hholds, -, hsynced, hwritten⟩ := h.holds.run op (fun _ => rfl) Io.fine
  have hlog : (op.run Io.fine ⟨w, f, false⟩).1 = ⟨(op.run Io.fine ⟨w, f, false⟩).1.wal,
      (op.run Io.fine ⟨w, f, false⟩).1.file, false⟩ := by
    generalize (op.run Io.fine ⟨w, f, false⟩).1 = l at hlost
    cases l
    exact congrArg (Log.mk _ _) hlost
  refine ⟨⟨hnumber.trans h.number, hlog ▸ hholds, h.fits, h.bound⟩, hwritten, hsynced, ?_⟩
  exact hholds.last.trans h.holds.last.symm

theorem Backs.complete_run (h : Backs w f g) (op : Op) (hc : Complete w) :
    Complete (op.run Io.fine ⟨w, f, false⟩).1.wal := by
  obtain ⟨hb, hwritten, -, hlast⟩ := h.run op
  have hhigh := hb.holds.high
  unfold Complete at hc ⊢
  dsimp only at hhigh
  omega

theorem Backs.complete_flush (h : Backs w f g) :
    Complete (Op.run Io.fine .flush ⟨w, f, false⟩).1.wal := by
  obtain ⟨hb, -, -, -⟩ := h.run .flush
  have hhigh := hb.holds.high
  have hlast := hb.holds.last
  have hall := (h.holds.run .flush (fun _ => rfl) Io.fine).2.1 (run_fine ⟨w, f, false⟩ .flush).2.2
  unfold Complete
  dsimp only at hhigh hlast hall
  omega

/-- A whole log: its file is its batches. -/
theorem Backs.data_eq (h : Backs w f g) (hc : Complete w) :
    f.data = logBytes g.number g.start g.batches ∧ w.bytes = [] := by
  have hbytes := (h.holds.bytes_eq_nil_iff rfl).mpr hc
  obtain ⟨-, hall⟩ := h.holds.intact rfl
  rw [hbytes, List.append_nil, h.number] at hall
  exact ⟨hall, hbytes⟩

end LogOps

section RunOp

variable (s) (n : ℕ) (op : Op)

/-- Operations on a log change the logs and their writers, nothing else. -/
theorem runOp_frame : ∃ wals logs, s.runOp n op = { s with wals := wals, logs := logs } := by
  unfold State.runOp
  split
  · exact ⟨_, _, rfl⟩
  · exact ⟨s.wals, s.logs, rfl⟩

theorem runCommit_frame (policy : SyncPolicy) (handle seq : ℕ) :
    ∃ wals logs, s.runCommit policy handle seq = { s with wals := wals, logs := logs } := by
  unfold State.runCommit
  split
  · exact ⟨s.wals, s.logs, rfl⟩
  · exact runOp_frame s handle _

theorem runOp_tree : (s.runOp n op).tree = s.tree := by
  obtain ⟨wals, logs, hrun⟩ := runOp_frame s n op
  rw [hrun]

theorem runOp_stored : (s.runOp n op).stored = s.stored := by
  obtain ⟨wals, logs, hrun⟩ := runOp_frame s n op
  rw [hrun]

theorem runOp_live : (s.runOp n op).live = s.live := by
  obtain ⟨wals, logs, hrun⟩ := runOp_frame s n op
  rw [hrun]

theorem runOp_retired : (s.runOp n op).retired = s.retired := by
  obtain ⟨wals, logs, hrun⟩ := runOp_frame s n op
  rw [hrun]

theorem runOp_writer : (s.runOp n op).writer = s.writer := by
  obtain ⟨wals, logs, hrun⟩ := runOp_frame s n op
  rw [hrun]

theorem runOp_acked : (s.runOp n op).acked = s.acked := by
  obtain ⟨wals, logs, hrun⟩ := runOp_frame s n op
  rw [hrun]

/-- What an operation does to the log at a number. -/
theorem runOp_lookup (m : ℕ) : (m = n ∧ ∃ w f, s.wals.lookup n = some w ∧
      s.logs.lookup n = some f ∧
      (s.runOp n op).wals.lookup m = some (op.run Io.fine ⟨w, f, false⟩).1.wal ∧
      (s.runOp n op).logs.lookup m = some (op.run Io.fine ⟨w, f, false⟩).1.file) ∨
    ((s.runOp n op).wals.lookup m = s.wals.lookup m ∧
      (s.runOp n op).logs.lookup m = s.logs.lookup m ∧
      (m = n → s.wals.lookup n = none ∨ s.logs.lookup n = none)) := by
  unfold State.runOp
  split
  · rename_i w f hw hf
    by_cases hm : m = n
    · subst hm
      left
      refine ⟨rfl, w, f, hw, hf, ?_, ?_⟩
      · rw [Table.lookup_insert, if_pos rfl]
      · rw [Table.lookup_insert, if_pos rfl]
    · right
      refine ⟨?_, ?_, fun h => absurd h hm⟩
      · rw [Table.lookup_insert, if_neg hm]
      · rw [Table.lookup_insert, if_neg hm]
  · rename_i hno
    right
    refine ⟨rfl, rfl, fun _ => ?_⟩
    cases hw : s.wals.lookup n with
    | none => exact Or.inl rfl
    | some w =>
      cases hf : s.logs.lookup n with
      | none => exact Or.inr rfl
      | some f => exact absurd hf (hno w f hw)

end RunOp

theorem LogInv.runOp (h : LogInv s) (n : ℕ) (op : Op) : LogInv (s.runOp n op) := by
  have htree := runOp_tree s n op
  have hstored := runOp_stored s n op
  have hlive := runOp_live s n op
  refine ⟨htree ▸ h.tree, ?_, ?_, hlive ▸ h.ordered, hlive ▸ h.chained, ?_, ?_, ?_, ?_, ?_, ?_, ?_⟩
  · rw [hlive, htree]
    exact h.layout
  · intro g hg
    rw [hlive] at hg
    obtain ⟨w, f, hw, hf, hb, hc⟩ := h.backed g hg
    rw [htree]
    rcases runOp_lookup s n op g.number with ⟨hm, w', f', hw', hf', hwal, hfile⟩ | ⟨hwal, hfile, -⟩
    · rw [← hm, hw] at hw'
      rw [← hm, hf] at hf'
      cases hw'
      cases hf'
      exact ⟨_, _, hwal, hfile, (hb.run op).1, fun hcond => hb.complete_run op (hc hcond)⟩
    · exact ⟨w, f, hwal.trans hw, hfile.trans hf, hb, hc⟩
  · rw [hlive, hstored]
    exact h.oldest
  · rw [hlive, htree]
    exact h.numbers
  · intro m hm
    rw [htree] at hm ⊢
    rw [hlive]
    obtain ⟨hlt, hnew, hwal, hfile⟩ := h.freezing m hm
    rcases runOp_lookup s n op m with ⟨hmn, w, f, hw, -⟩ | ⟨hsame, hlog, -⟩
    · rw [← hmn, hwal] at hw
      cases hw
    · exact ⟨hlt, hnew, hsame.trans hwal, fun f hf => hfile f (hlog ▸ hf)⟩
  · intro m f hf hle
    rw [hstored] at hle
    rw [hlive, htree]
    rcases runOp_lookup s n op m with ⟨hmn, w, f', -, hf', -⟩ | ⟨-, hsame, -⟩
    · exact h.files m f' (hmn ▸ hf') hle
    · exact h.files m f (hsame ▸ hf) hle
  · intro m w hw
    rw [htree]
    rcases runOp_lookup s n op m with ⟨hmn, w', f, hw', -⟩ | ⟨hsame, -⟩
    · exact h.opened m w' (hmn ▸ hw')
    · exact h.opened m w (hsame ▸ hw)
  · rw [hstored, htree]
    exact h.version
  · rw [hstored, htree]
    exact h.forgetting

end RedisFromScratch.EngineInvariant
