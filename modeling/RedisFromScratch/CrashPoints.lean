import RedisFromScratch.EngineWriters

/-!
A kill between any two steps. The manifest on disk names the version in memory
or the next one, and the logs it still needs hold what the memtables hold. A
log that was already flushed lies on its own table and says the same; a log
under creation holds nothing yet. This takes every record in its file: an
acknowledged write has put it there unless the policy is to leave it in memory.
-/
namespace RedisFromScratch.CrashPoints

open ByteStrings FramedLogs SortedTables NewestWins EngineTypes EngineLogs EngineWal SsTables
open Versions LsmTree Compaction TreeContents TreeInvariant EngineRuns EngineInvariant EngineSteps
open EngineWriters Relation Runs

variable {F : Type} {o : Options} {sc : Scores F} {policy : SyncPolicy} {s s' : State} {d : Disk}

/-- The batches replay finds in a log; one it refuses has none. -/
def logRecords (f : LogFile) : List (List Mutation) :=
  match replay f with
  | .ok (r, _) => r.batches.map Prod.snd
  | .error _ => []

/-- The records of the logs the manifest still needs, in log order. -/
def Disk.records (d : Disk) : List (List Mutation) :=
  d.neededLogs.flatMap (fun b => logRecords b.2)

/-- The tree the manifest names, overlaid with the records. -/
def Disk.overlay (d : Disk) (k : Bytes) : Option Entry :=
  (lastWrite k (writes (Disk.records d).flatten)).or
    (newest (versionSources d.tables d.loaded.version) k)

/-- The directory a kill leaves is a recovery point of the memory it ended. -/
structure CrashPoint (s : State) (d : Disk) : Prop where
  complete : ∀ n, Names d.loaded.version n → ∃ t, d.tables.lookup n = some (some t)
  apart : ∀ l, 0 < l → (d.loaded.version.level l).Pairwise (fun f g => f.maxKey < g.minKey)
  content : ∀ now, s.tree.clock ≤ now → ∀ k,
    s.tree.tree.get k now = .ok (seen now (Disk.overlay d k))

section Records

theorem map_snd_numberedBatches (start : ℕ) (batches : List (List Mutation)) :
    (numberedBatches start batches).map Prod.snd = batches := by
  unfold numberedBatches
  generalize start + 1 = n
  induction batches generalizing n with
  | nil => rfl
  | cons b batches ih => rw [numberedWith_cons, List.map_cons, ih]

theorem replay_whole (number synced : ℕ) {start : ℕ} {batches : List (List Mutation)}
    (hfits : ∀ b ∈ batches, BatchFits b) (hbound : start + 1 + batches.length ≤ 2 ^ 64) :
    ∃ cut f, replay ⟨logBytes number start batches, synced⟩ =
      .ok (⟨numberedBatches start batches, start + batches.length, cut⟩, f) := by
  have htorn : framing.Torn (numberedWith recOf (start + 1 + batches.length) []) [] := Or.inl rfl
  obtain ⟨cut, f, hreplay, -⟩ := replay_torn number synced (by rwa [List.append_nil])
    (by rwa [List.append_nil]) htorn
  rw [List.append_nil] at hreplay
  exact ⟨cut, f, hreplay⟩

theorem replay_header (number synced : ℕ) {start : ℕ} (hstart : start < 2 ^ 64) :
    ∃ cut f, replay ⟨encodeHeader number start, synced⟩ = .ok (⟨[], start, cut⟩, f) := by
  have hnone : ∀ b ∈ ([] : List (List Mutation)), BatchFits b := fun b hb => by cases hb
  obtain ⟨cut, f, hreplay⟩ := replay_whole number synced hnone hstart
  rw [logBytes_nil] at hreplay
  exact ⟨cut, f, hreplay⟩

theorem logRecords_whole (number synced : ℕ) {start : ℕ} {batches : List (List Mutation)}
    (hfits : ∀ b ∈ batches, BatchFits b) (hbound : start + 1 + batches.length ≤ 2 ^ 64) :
    logRecords ⟨logBytes number start batches, synced⟩ = batches := by
  obtain ⟨cut, f, hreplay⟩ := replay_whole number synced hfits hbound
  rw [logRecords, hreplay]
  exact map_snd_numberedBatches start batches

/-- A log whose header is being written has no records. -/
theorem logRecords_header {number start synced : ℕ} {data : Bytes} (hstart : start < 2 ^ 64)
    (h : data <+: encodeHeader number start) : logRecords ⟨data, synced⟩ = [] := by
  by_cases hlen : data.length < logHeader
  · rw [logRecords, replay, readHeader, if_pos hlen]
  · have hdata : data = logBytes number start [] := by
      rw [logBytes_nil]
      exact h.eq_of_length (le_antisymm h.length_le (by rw [encodeHeader_length]; omega))
    rw [hdata]
    exact logRecords_whole number synced (fun b hb => by cases hb) (by rw [List.length_nil]; omega)

end Records

/-- Every record of the live logs is in its file. -/
def Written (s : State) : Prop := ∀ g ∈ s.live, ∀ w, s.wals.lookup g.number = some w → Complete w

theorem neededLogs_ascending (d : Disk) : Ascending d.neededLogs := d.logs.sorted.filter _

theorem mem_neededLogs {n : ℕ} {f : LogFile} :
    (n, f) ∈ d.neededLogs ↔ d.logs.lookup n = some f ∧ d.loaded.logNumber ≤ n := by
  rw [Disk.neededLogs, List.mem_filter, Table.mem_entries_iff]
  simp

/-- What the end of a process leaves of a log replays as its first batches, at
least those whose bytes are all there. -/
theorem replay_cut {w : Wal} {f f' : LogFile} {g : Segment} (hb : Backs w f g)
    (hpre : f'.data <+: f.data ++ w.bytes) (hheader : logHeader ≤ f'.data.length) :
    ∃ kept rest cut f₁, g.batches = kept ++ rest ∧
      replay f' = .ok (⟨numberedBatches g.start kept, g.start + kept.length, cut⟩, f₁) ∧
      ∀ i ≤ g.batches.length,
        (logBytes g.number g.start (g.batches.take i)).length ≤ f'.data.length →
          i ≤ kept.length := by
  have hall := (hb.holds.intact rfl).2
  have hbound := hb.bound
  rw [hall, hb.number] at hpre
  have hhead : encodeHeader g.number g.start <+: f'.data := by
    refine List.prefix_of_prefix_length_le (List.prefix_append _ _) hpre ?_
    rw [encodeHeader_length]
    exact hheader
  have htears := Tears.of_prefix (tears_all g.number g.start g.batches) hhead hpre
  obtain ⟨kept, rest, cut, f₁, hsplit, hreach, hreplay⟩ :=
    htears.replay hb.fits (by omega) f'.synced
  refine ⟨kept, rest, cut, f₁, hsplit, hreplay, fun i hi hlen => ?_⟩
  refine hreach i hi (List.prefix_of_prefix_length_le ?_ hpre hlen)
  conv_rhs => rw [← List.take_length (l := g.batches)]
  exact logBytes_take_mono _ _ _ hi

theorem logRecords_cut {w : Wal} {f f' : LogFile} {g : Segment} (hb : Backs w f g)
    (hpre : f'.data <+: f.data ++ w.bytes) (hheader : logHeader ≤ f'.data.length) :
    (∃ p, replay f' = .ok p) ∧ ∃ j ≤ g.batches.length, logRecords f' = g.batches.take j ∧
      ∀ i ≤ g.batches.length,
        (logBytes g.number g.start (g.batches.take i)).length ≤ f'.data.length → i ≤ j := by
  obtain ⟨kept, rest, cut, f₁, hsplit, hreplay, hreach⟩ := replay_cut hb hpre hheader
  have hrecords : logRecords f' = kept := by
    rw [logRecords, hreplay]
    exact map_snd_numberedBatches g.start kept
  refine ⟨⟨_, hreplay⟩, kept.length, ?_, ?_, hreach⟩
  · rw [hsplit, List.length_append]
    exact Nat.le_add_right _ _
  · rw [hrecords, hsplit, List.take_left]

variable {floor : LogFile → ℕ}

/-- A live log and what is left of it. -/
theorem log_left (h : LogInv s) (hleft : Leaves floor s d) {g : Segment} (hg : g ∈ s.live) :
    ∃ w f f', s.wals.lookup g.number = some w ∧ Backs w f g ∧
      d.logs.lookup g.number = some f' ∧ f'.data <+: f.data ++ w.bytes ∧
      floor f ≤ f'.data.length := by
  obtain ⟨w, f, hw, hf, hb, -⟩ := h.backed g hg
  obtain ⟨f', hf'⟩ := hleft.names g.number f hf
  obtain ⟨f₁, hf₁, hpre, hlen⟩ := hleft.logs g.number f' hf'
  rw [hf] at hf₁
  cases hf₁
  rw [State.buffered, hw] at hpre
  exact ⟨w, f, f', hw, hb, hf', hpre, hlen⟩

/-- A log the manifest needs is live, or is being created and has no records. -/
theorem log_needed (h : LogInv s) (hleft : Leaves floor s d) {n : ℕ} {f' : LogFile}
    (hmem : (n, f') ∈ d.neededLogs) : (∃ g ∈ s.live, g.number = n) ∨
      (s.tree.freezing = some n ∧ ∃ f start, s.logs.lookup n = some f ∧ start < 2 ^ 64 ∧
        f'.data <+: f.data ∧ f.data <+: encodeHeader n start ∧ floor f ≤ f'.data.length) := by
  have hloaded := Leaves.loaded hleft
  obtain ⟨hf', hle⟩ := mem_neededLogs.mp hmem
  obtain ⟨f, hf, hpre, hlen⟩ := hleft.logs n f' hf'
  rw [hloaded] at hle
  rcases h.files n f hf hle with hlive | hfreezing
  · exact Or.inl hlive
  · obtain ⟨-, -, hnone, hcreated⟩ := h.freezing n hfreezing
    obtain ⟨start, hstart, hheader⟩ := hcreated f hf
    have hbuffered : s.buffered n = [] := by rw [State.buffered, hnone]; rfl
    rw [hbuffered, List.append_nil] at hpre
    exact Or.inr ⟨hfreezing, f, start, hf, hstart, hpre, hheader, hlen⟩

/-- If only the newest log may be short, the directory has all batches but the
last ones of that log. -/
theorem records_left (h : LogInv s) (hleft : Leaves floor s d)
    (hheader : ∀ g ∈ s.live, ∀ w f, s.wals.lookup g.number = some w → Backs w f g →
      logHeader ≤ floor f)
    (hwhole : ∀ g ∈ s.live, g.number ≠ s.tree.logNumber → ∀ w f,
      s.wals.lookup g.number = some w → Backs w f g →
        (logBytes g.number g.start g.batches).length ≤ floor f) :
    ∃ l g j, s.live = l ++ [g] ∧ g.number = s.tree.logNumber ∧ j ≤ g.batches.length ∧
      Disk.records d = l.flatMap Segment.batches ++ g.batches.take j ∧
      ∃ w f, s.wals.lookup g.number = some w ∧ Backs w f g ∧ ∀ i ≤ g.batches.length,
        (logBytes g.number g.start (g.batches.take i)).length ≤ floor f → i ≤ j := by
  have hloaded := Leaves.loaded hleft
  obtain ⟨l, g, hl, hnumber, -⟩ := h.newest
  have hordered := h.ordered
  rw [hl] at hordered
  have hlt : ∀ g' ∈ l, g'.number < g.number := fun g' hg' =>
    (List.pairwise_append.mp hordered).2.2 g' hg' g (List.mem_singleton_self g)
  have hg : g ∈ s.live := by simp [hl]
  obtain ⟨w₀, f₀, f₀', hw₀, hb₀, hf₀', hpre₀, hlen₀⟩ := log_left h hleft hg
  obtain ⟨-, j, hj, hrecords₀, hreach₀⟩ :=
    logRecords_cut hb₀ hpre₀ ((hheader g hg w₀ f₀ hw₀ hb₀).trans hlen₀)
  refine ⟨l, g, j, hl, hnumber, hj, ?_, w₀, f₀, hw₀, hb₀,
    fun i hi hlen => hreach₀ i hi (hlen.trans hlen₀)⟩
  let found : Segment → List (List Mutation) := fun g' =>
    if g'.number = s.tree.logNumber then g'.batches.take j else g'.batches
  have hrecords : Disk.records d = s.live.flatMap found := by
    refine flatMap_ascending (neededLogs_ascending d) Segment.number h.ordered _ _ ?_ ?_
    · intro g' hg'
      obtain ⟨w, f, f', hw, hb, hf', hpre, hlen⟩ := log_left h hleft hg'
      refine ⟨(g'.number, f'), mem_neededLogs.mpr ⟨hf', hloaded ▸ h.low hg'⟩, rfl, ?_⟩
      by_cases hcurrent : g'.number = s.tree.logNumber
      · have hsame : g' = g := by
          rw [hl] at hg'
          rcases List.mem_append.mp hg' with hold | hnewest
          · exact absurd (hlt g' hold) (by omega)
          · exact List.mem_singleton.mp hnewest
        subst hsame
        rw [hf₀'] at hf'
        cases hf'
        exact hrecords₀.trans (if_pos hcurrent).symm
      · have hfull := (hwhole g' hg' hcurrent w f hw hb).trans hlen
        obtain ⟨-, i, hi, hrec, hreach⟩ :=
          logRecords_cut hb hpre ((hheader g' hg' w f hw hb).trans hlen)
        have hle := hreach g'.batches.length le_rfl (by rw [List.take_length]; exact hfull)
        rw [List.take_of_length_le hle] at hrec
        exact hrec.trans (if_neg hcurrent).symm
    · rintro ⟨n, f'⟩ hmem hno
      rcases log_needed h hleft hmem with ⟨g', hg', hn⟩ | ⟨-, f, start, -, hstart, hpre, hhead, -⟩
      · exact absurd hn (hno g' hg')
      · exact logRecords_header hstart (hpre.trans hhead)
  rw [hrecords, hl, List.flatMap_append, List.flatMap_singleton]
  congr 1
  · refine List.flatMap_congr (fun g' hg' => if_neg ?_)
    have := hlt g' hg'
    omega
  · exact if_pos hnumber

/-- What is written of a log is in its file. -/
theorem written_length {w : Wal} {f : LogFile} {g : Segment} (hb : Backs w f g) {i : ℕ}
    (hi : i ≤ w.written - g.start) :
    (logBytes g.number g.start (g.batches.take i)).length ≤ f.data.length := by
  have hreach := hb.holds.reach
  rw [hb.number] at hreach
  exact ((logBytes_take_mono _ _ _ hi).trans hreach).length_le

theorem header_length {w : Wal} {f : LogFile} {g : Segment} (hb : Backs w f g) :
    logHeader ≤ f.data.length := by
  have hlen := written_length hb (Nat.zero_le _)
  rwa [List.take_zero, logBytes_nil, encodeHeader_length] at hlen

/-- A complete log is in its file. -/
theorem complete_length {w : Wal} {f : LogFile} {g : Segment} (hb : Backs w f g)
    (hc : Complete w) : (logBytes g.number g.start g.batches).length ≤ f.data.length :=
  (congrArg List.length (hb.data_eq hc).1).ge

/-- The logs a kill leaves hold the batches of the live segments, but for the
last ones that were not written. -/
theorem records_killed (h : LogInv s) (hkill : Killed s d) :
    ∃ l g j, s.live = l ++ [g] ∧ g.number = s.tree.logNumber ∧ j ≤ g.batches.length ∧
      Disk.records d = l.flatMap Segment.batches ++ g.batches.take j ∧
      ∃ w, s.wals.lookup g.number = some w ∧ w.written - g.start ≤ j := by
  obtain ⟨l, g, j, hl, hnumber, hj, hrecords, w, f, hw, hb, hreach⟩ := records_left h hkill
    (fun g hg w f hw hb => header_length hb) (fun g hg hne w f hw hb => by
      obtain ⟨w', f', hw', -, -, hc⟩ := h.backed g hg
      rw [hw] at hw'
      cases hw'
      exact complete_length hb (hc (Or.inl hne)))
  have hlast := hb.holds.last
  have hhigh := hb.holds.high
  dsimp only at hlast hhigh
  exact ⟨l, g, j, hl, hnumber, hj, hrecords, w, hw,
    hreach _ (by omega) (written_length hb le_rfl)⟩

/-- The logs on disk hold the batches of the live segments. -/
theorem records_eq (h : LogInv s) (hwritten : Written s) (hkill : Killed s d) :
    Disk.records d = s.live.flatMap Segment.batches := by
  obtain ⟨l, g, j, hl, -, hj, hrecords, w, hw, hreach⟩ := records_killed h hkill
  have hg : g ∈ s.live := by simp [hl]
  obtain ⟨w', f, hw', -, hb, -⟩ := h.backed g hg
  rw [hw] at hw'
  cases hw'
  have hlast := hb.holds.last
  have hc : w.written = w.lastAppended := hwritten g hg w hw
  dsimp only at hlast
  rw [hrecords, hl, List.flatMap_append, List.flatMap_singleton,
    List.take_of_length_le (by omega)]

section Memory

theorem table_entry (g : Segment) (k : Bytes) : (Segment.table g).lookup k =
    (lastWrite k (writes g.batches.flatten)).or (g.base.lookup k) :=
  Table.lookup_insertAll _ _ _

theorem table_lookup {g : Segment} (hg : g.base = Table.empty) (k : Bytes) :
    (Segment.table g).lookup k = lastWrite k (writes g.batches.flatten) := by
  rw [table_entry, hg, Table.lookup_empty, Option.or_none]

/-- Segments as sources, the newest first. -/
theorem lastWrite_segments {gs : List Segment} (h : ∀ g ∈ gs, g.base = Table.empty) (k : Bytes) :
    lastWrite k (writes (gs.flatMap Segment.batches).flatten) =
      newest (gs.map (fun g => (Segment.table g).entries)).reverse k := by
  induction gs with
  | nil => rfl
  | cons g gs ih =>
    rw [List.flatMap_cons, List.flatten_append, writes_append, lastWrite_append,
      ih (fun g' hg' => h g' (List.mem_cons_of_mem _ hg')), List.map_cons, List.reverse_cons,
      newest_append, newest_cons, newest_nil, Option.or_none,
      ← table_lookup (h g List.mem_cons_self)]
    rfl

/-- The memtables are the segments not yet popped. -/
theorem memEntry_rest {t : TreeRuns.State} {rest : List Segment}
    (h : rest.map Segment.frozen = t.immutable.reverse ++ [⟨t.logNumber, t.active⟩]) (k : Bytes) :
    newest (rest.map (fun g => (Segment.table g).entries)).reverse k = memEntry t k := by
  have hsources : rest.map (fun g => (Segment.table g).entries) =
      (memSources t.active t.immutable).reverse := by
    have hmap := congrArg (List.map (fun f : Frozen => f.table.entries)) h
    rw [List.map_map, List.map_append, List.map_reverse] at hmap
    rw [memSources, List.reverse_cons]
    exact hmap
  rw [hsources, List.reverse_reverse]
  rfl

/-- The segments over the version the manifest names are the content of the
memory, for readers who come later. -/
theorem segments_agree (h : LogInv s) (k : Bytes) :
    Agrees s.tree.clock
      ((newest (s.live.map (fun g => (Segment.table g).entries)).reverse k).or
        (newest (versionSources s.tree.files (storedVersion s.tree)) k))
      (s.tree.tree.content k) := by
  have hjobOk := h.tree.job
  obtain ⟨popped, rest, hlive, hmem, hpopped⟩ := h.layout
  rw [hlive, List.map_append, List.reverse_append, newest_append, memEntry_rest hmem, content_eq,
    Option.or_assoc]
  by_cases hretired : ∃ n m, s.tree.job = .retired n m
  · obtain ⟨n, m, hjob⟩ := hretired
    unfold PoppedOk at hpopped
    rw [hjob] at hpopped
    obtain ⟨g, rfl, -, hin⟩ := hpopped
    rw [storedVersion, hjob]
    refine .of_eq (congrArg (Option.or _) ?_)
    rw [List.map_singleton, List.reverse_singleton, newest_cons, newest_nil, Option.or_none]
    change ((Segment.table g).lookup k).or _ = _
    cases hk : (Segment.table g).lookup k with
    | none => rfl
    | some e => exact (hin k e hk).symm
  · rw [poppedOk_of_not_retired (fun n m hjob => hretired ⟨n, m, hjob⟩)] at hpopped
    rw [hpopped, List.map_nil, List.reverse_nil, newest_nil, Option.none_or]
    by_cases hpublishing : ∃ next work, s.tree.job = .publishing next work
    · obtain ⟨next, work, hjob⟩ := hpublishing
      rw [storedVersion, hjob]
      cases work with
      | flush =>
        refine .of_eq ?_
        rw [← content_eq]
        exact content_install_flush h.tree hjob k
      | compaction =>
        rw [hjob] at hjobOk
        exact (hjobOk.work.2 s.tree.clock hjobOk.work.1 k).symm.under _
    · have hversion : storedVersion s.tree = s.tree.version := by
        unfold storedVersion
        split
        · rename_i next work hjob
          exact absurd ⟨next, work, hjob⟩ hpublishing
        · rfl
      rw [hversion]
      exact .refl _ _

theorem overlay_agrees (h : LogInv s) (hbase : Unbased s) (k : Bytes) :
    Agrees s.tree.clock
      ((lastWrite k (writes (s.live.flatMap Segment.batches).flatten)).or
        (newest (versionSources s.tree.files (storedVersion s.tree)) k))
      (s.tree.tree.content k) := by
  rw [lastWrite_segments hbase]
  exact segments_agree h k

/-- The version the manifest names is well formed on disk. -/
theorem stored_wellFormed {t : TreeRuns.State} (h : Inv t) :
    WellFormed t.files (storedVersion t) := by
  have hok := h.job
  unfold storedVersion
  split
  · rename_i next work hjob
    rw [hjob] at hok
    exact hok.wellFormed
  · exact h.wellFormed

end Memory

/-- Where every record has reached its file, a kill leaves a recovery point. -/
theorem crashPoint_of_written (h : LogInv s) (hbase : Unbased s) (hwritten : Written s)
    (hkill : Killed s d) : CrashPoint s d := by
  have hloaded := Leaves.loaded hkill
  have hversion : d.loaded.version = storedVersion s.tree := by rw [hloaded, h.version]
  have hwf := stored_wellFormed h.tree
  refine ⟨?_, ?_, ?_⟩
  · intro n hn
    rw [hkill.tables]
    exact names_stored hwf (hversion ▸ hn)
  · intro l hl
    rw [hversion]
    exact hwf.disjoint l hl
  · intro now hnow k
    rw [Tree.get_eq_content h.tree.wellFormed, Disk.overlay, records_eq h hwritten hkill, hversion,
      hkill.tables]
    exact congrArg Except.ok ((overlay_agrees h hbase k) now hnow).symm

/-- The directory as the process has written it. -/
def onDisk (s : State) : Disk := ⟨some s.stored, s.logs, s.tree.files⟩

theorem killed_onDisk (s : State) : Killed s (onDisk s) where
  manifest := rfl
  tables := rfl
  logs _ f' h := ⟨f', h, List.prefix_append _ _, le_rfl⟩
  names _ f h := ⟨f, h⟩

section Example

open EngineCommit (putK)
open TreeSteps (eagerOptions wholeScores)

theorem replay_flushedLog : ∃ cut f, replay flushedLog.file = .ok (⟨[(1, putK)], 1, cut⟩, f) := by
  have hfile : flushedLog.file = ⟨logBytes 1 0 [putK], logHeader⟩ := by
    rw [logBytes, numberedWith_cons, numberedWith_nil, Framing.encodeAll_cons,
      Framing.encodeAll_nil, List.append_nil]
    rfl
  rw [hfile]
  exact replay_whole 1 logHeader (fun b hb => List.mem_singleton.mp hb ▸ putK_fits)
    (show 0 + 1 + [putK].length ≤ 2 ^ 64 by decide)

theorem acknowledge_oneRecord (policy : SyncPolicy) :
    ReflTransGen (Step eagerOptions wholeScores policy) (EngineRuns.init 0)
      { (oneRecord (.committing 1 1 1) []).runCommit policy 1 1 with
        writer := fun _ => .idle
        acked := [(1, 1)] } := by
  have hcommit : Step eagerOptions wholeScores policy (oneRecord (.committing 1 1 1) []) _ :=
    .commit (oneRecord (.committing 1 1 1) []) 0 1 1 1 rfl
  rw [show (oneRecord (.committing 1 1 1) []).writer =
    Function.update (fun _ => .idle) 0 (.committing 1 1 1) from rfl, Function.update_idem,
    Function.update_eq_self_iff.mpr rfl] at hcommit
  exact (guarded_run_is_run (oneRecord_run (fun _ _ => True) (fun _ _ _ => trivial))).tail hcommit

end Example

end RedisFromScratch.CrashPoints
