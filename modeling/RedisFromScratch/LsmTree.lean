import RedisFromScratch.NewestWins
import RedisFromScratch.Versions

/-!
The log-structured merge tree: an active memtable, frozen ones, and the levels
of files. Its logical content is, for each key, the entry of the newest source
that has one. Point reads ask the sources in that order, skip files by range
and filter, and on deeper levels ask one file only.
-/
namespace RedisFromScratch.LsmTree

open ByteStrings SortedTables NewestWins EngineTypes SsTables Versions
open StoreRecords (Record)

/-- The SSTables of a directory. A file that is still being written is there
without a table. -/
abbrev TableFiles := Table ℕ (Option SsTable)

inductive EngineError
  | missingFile (number : ℕ)
  | damagedFile (number : ℕ)
  | keysMustAscend
  deriving DecidableEq, Repr

/-- A memtable awaiting its flush, and the log that backs it. -/
structure Frozen where
  logNumber : ℕ
  table : MemTable

structure Tree where
  active : MemTable
  /-- Newest first. -/
  immutable : List Frozen
  version : Version
  files : TableFiles

def openTable (files : TableFiles) (f : FileMeta) : Except EngineError SsTable :=
  match files.lookup f.number with
  | none => .error (.missingFile f.number)
  | some none => .error (.damagedFile f.number)
  | some (some t) => .ok t

/-- Look in one file, if its range and its filter allow. -/
def lookupFile (files : TableFiles) (f : FileMeta) (key : Bytes) (nowMs : ℤ) :
    Except EngineError (Option (Option Record)) :=
  if f.MayContain key then
    match openTable files f with
    | .error e => .error e
    | .ok t => if t.mayContain key then .ok (answer nowMs (t.get key)) else .ok none
  else .ok none

def lookupFiles (files : TableFiles) (key : Bytes) (nowMs : ℤ) :
    List FileMeta → Except EngineError (Option (Option Record))
  | [] => .ok none
  | f :: fs =>
      match lookupFile files f key nowMs with
      | .error e => .error e
      | .ok (some a) => .ok (some a)
      | .ok none => lookupFiles files key nowMs fs

/-- One file a level. -/
def lookupLevels (files : TableFiles) (v : Version) (key : Bytes) (nowMs : ℤ) :
    List ℕ → Except EngineError (Option (Option Record))
  | [] => .ok none
  | l :: ls =>
      match v.findInLevel l key with
      | none => lookupLevels files v key nowMs ls
      | some f =>
          match lookupFile files f key nowMs with
          | .error e => .error e
          | .ok (some a) => .ok (some a)
          | .ok none => lookupLevels files v key nowMs ls

/-- The first memtable with an opinion. -/
def lookupMem (active : MemTable) (immutable : List Frozen) (key : Bytes) (nowMs : ℤ) :
    Option (Option Record) :=
  match active.lookupAt key nowMs with
  | some a => some a
  | none => immutable.findSome? (fun f => f.table.lookupAt key nowMs)

/-- A point read: memtables, level 0, then one file of each deeper level. -/
def Tree.get (t : Tree) (key : Bytes) (nowMs : ℤ) : Except EngineError (Option Record) :=
  match lookupMem t.active t.immutable key nowMs with
  | some a => .ok a
  | none =>
      match lookupFiles t.files key nowMs (t.version.level 0) with
      | .error e => .error e
      | .ok (some a) => .ok a
      | .ok none =>
          match lookupLevels t.files t.version key nowMs
              (List.range' 1 (t.version.levelCount - 1)) with
          | .error e => .error e
          | .ok (some a) => .ok a
          | .ok none => .ok none

def entriesOf (files : TableFiles) (f : FileMeta) : List (Bytes × Entry) :=
  match files.lookup f.number with
  | some (some t) => t.iter
  | _ => []

/-- Level 0 by descending number, then the levels below it. -/
def versionSources (files : TableFiles) (v : Version) : List (List (Bytes × Entry)) :=
  (sortLevel 0 (v.level 0) ++ (v.levels.drop 1).flatten).map (entriesOf files)

def memSources (active : MemTable) (immutable : List Frozen) : List (List (Bytes × Entry)) :=
  active.entries :: immutable.map (fun f => f.table.entries)

def Tree.sources (t : Tree) : List (List (Bytes × Entry)) :=
  memSources t.active t.immutable ++ versionSources t.files t.version

/-- The logical content: the entry of the newest source that holds the key. -/
def Tree.content (t : Tree) (key : Bytes) : Option Entry := newest t.sources key

/-- The file a manifest entry names is complete and is what the entry says. -/
def Backed (files : TableFiles) (f : FileMeta) : Prop :=
  ∃ t, files.lookup f.number = some (some t) ∧ t.Sound ∧ f = .fromTable f.number t.summary

structure WellFormed (files : TableFiles) (v : Version) : Prop extends v.Ordered where
  backed : ∀ l, ∀ f ∈ v.level l, Backed files f

theorem Backed.entriesOf_eq {files : TableFiles} {f : FileMeta} {t : SsTable}
    (h : files.lookup f.number = some (some t)) : entriesOf files f = t.iter := by
  rw [entriesOf, h]

theorem Backed.range {files : TableFiles} {f : FileMeta} (h : Backed files f)
    {b : Bytes × Entry} (hb : b ∈ entriesOf files f) : f.MayContain b.1 := by
  obtain ⟨t, hfile, hsound, hf⟩ := h
  rw [Backed.entriesOf_eq hfile] at hb
  have hmin : f.minKey = t.summary.minKey := by rw [hf]; rfl
  have hmax : f.maxKey = t.summary.maxKey := by rw [hf]; rfl
  exact ⟨hmin ▸ (hsound.range hb).1, hmax ▸ (hsound.range hb).2⟩

theorem Backed.ascending {files : TableFiles} {f : FileMeta} (h : Backed files f) :
    Ascending (entriesOf files f) := by
  obtain ⟨t, hfile, hsound, -⟩ := h
  rw [Backed.entriesOf_eq hfile]
  exact hsound.ascending

/-- A file is not asked for keys it does not hold. -/
theorem Backed.find_eq_none {files : TableFiles} {f : FileMeta} (h : Backed files f) {key : Bytes}
    (hkey : ¬ f.MayContain key) : find (entriesOf files f) key = none := by
  apply find_eq_none_of_forall_ne
  intro b hb heq
  exact hkey (heq ▸ h.range hb)

theorem Backed.lookupFile_eq {files : TableFiles} {f : FileMeta} (h : Backed files f)
    (key : Bytes) (nowMs : ℤ) :
    lookupFile files f key nowMs = .ok (answer nowMs (find (entriesOf files f) key)) := by
  unfold lookupFile
  split
  · obtain ⟨t, hfile, hsound, -⟩ := h
    rw [Backed.entriesOf_eq hfile, openTable, hfile]
    dsimp only
    split
    · rw [hsound.get_eq]
    · rename_i hout
      rw [find_eq_none_of_forall_ne]
      · rfl
      · intro b hb heq
        exact hout (heq ▸ hsound.mayContain hb)
  · rename_i hkey
    rw [h.find_eq_none hkey]
    rfl

theorem answer_or (nowMs : ℤ) (o p : Option Entry) :
    answer nowMs (o.or p) = (answer nowMs o).or (answer nowMs p) := by
  rw [answer_eq, answer_eq, answer_eq, Option.map_or]

theorem lookupFiles_eq {files : TableFiles} {fs : List FileMeta}
    (h : ∀ f ∈ fs, Backed files f) (key : Bytes) (nowMs : ℤ) :
    lookupFiles files key nowMs fs =
      .ok (answer nowMs (newest (fs.map (entriesOf files)) key)) := by
  induction fs with
  | nil => rfl
  | cons f fs ih =>
    rw [lookupFiles, (h f List.mem_cons_self).lookupFile_eq, List.map_cons, newest_cons,
      answer_or, ih (fun g hg => h g (List.mem_cons_of_mem _ hg))]
    cases answer nowMs (find (entriesOf files f) key) <;> rfl

theorem WellFormed.tiled {files : TableFiles} {v : Version} (h : WellFormed files v) {l : ℕ}
    (hl : 0 < l) : Tiled FileMeta.maxKey (entriesOf files) (v.level l) := by
  refine ⟨fun f hf b hb => ((h.backed l f hf).range hb).2, ?_⟩
  refine (h.disjoint l hl).imp_of_mem ?_
  intro a f _ hf hlt b hb
  exact hlt.trans_le ((h.backed l f hf).range hb).1

/-- The candidate of a deeper level answers for the whole level. -/
theorem WellFormed.newest_level {files : TableFiles} {v : Version} (h : WellFormed files v)
    {l : ℕ} (hl : 0 < l) (key : Bytes) :
    newest ((v.level l).map (entriesOf files)) key =
      (v.findInLevel l key).bind (fun f => find (entriesOf files f) key) := by
  rw [newest_eq_find, ← List.flatMap_def, (h.tiled hl).find_flatMap, Version.findInLevel]
  cases hs : search FileMeta.maxKey (v.level l) key with
  | none => rfl
  | some f =>
    dsimp only
    by_cases hkey : f.MayContain key
    · rw [if_pos hkey]
    · rw [if_neg hkey, Option.bind_some, (h.backed l f (mem_of_search hs)).find_eq_none hkey,
        Option.bind_none]

theorem WellFormed.lookupLevels_eq {files : TableFiles} {v : Version} (h : WellFormed files v)
    (key : Bytes) (nowMs : ℤ) {ls : List ℕ} (hls : ∀ l ∈ ls, 0 < l) :
    lookupLevels files v key nowMs ls =
      .ok (answer nowMs (newest ((ls.flatMap v.level).map (entriesOf files)) key)) := by
  induction ls with
  | nil => rfl
  | cons l ls ih =>
    rw [lookupLevels, ih (fun l' hl' => hls l' (List.mem_cons_of_mem _ hl')), List.flatMap_cons,
      List.map_append, newest_append, h.newest_level (hls l List.mem_cons_self), answer_or]
    cases hf : v.findInLevel l key with
    | none => rfl
    | some f =>
      dsimp only
      rw [(h.backed l f (Version.mem_of_findInLevel hf)).lookupFile_eq, Option.bind_some]
      cases answer nowMs (find (entriesOf files f) key) <;> rfl

theorem flatMap_level_range' (v : Version) (s n : ℕ) (h : s + n = v.levels.length) :
    (List.range' s n).flatMap v.level = (v.levels.drop s).flatten := by
  induction n generalizing s with
  | zero =>
    rw [List.drop_eq_nil_of_le (by omega)]
    rfl
  | succ n ih =>
    have hs : s < v.levels.length := by omega
    rw [List.range'_succ, List.flatMap_cons, ih (s + 1) (by omega), List.drop_eq_getElem_cons hs,
      List.flatten_cons, Version.level, List.getD_eq_getElem?_getD, List.getElem?_eq_getElem hs,
      Option.getD_some]

theorem WellFormed.versionSources_eq {files : TableFiles} {v : Version} (h : WellFormed files v) :
    versionSources files v = (v.level 0 ++ (v.levels.drop 1).flatten).map (entriesOf files) := by
  rw [versionSources, sortLevel_newest h.newest]

/-- The answer of some levels of a version, the first of them first. -/
def levelsEntry (files : TableFiles) (v : Version) (ls : List ℕ) (key : Bytes) : Option Entry :=
  newest ((ls.flatMap v.level).map (entriesOf files)) key

@[simp] theorem levelsEntry_cons (files : TableFiles) (v : Version) (l : ℕ) (ls : List ℕ)
    (key : Bytes) : levelsEntry files v (l :: ls) key =
      (newest ((v.level l).map (entriesOf files)) key).or (levelsEntry files v ls key) := by
  simp [levelsEntry]

@[simp] theorem levelsEntry_append (files : TableFiles) (v : Version) (ls ms : List ℕ)
    (key : Bytes) : levelsEntry files v (ls ++ ms) key =
      (levelsEntry files v ls key).or (levelsEntry files v ms key) := by
  simp [levelsEntry]

theorem levelsEntry_congr (files : TableFiles) {v v' : Version} {ls : List ℕ}
    (h : ∀ l ∈ ls, v'.level l = v.level l) (key : Bytes) :
    levelsEntry files v' ls key = levelsEntry files v ls key := by
  have hlevels : ls.flatMap v'.level = ls.flatMap v.level := by
    rw [List.flatMap_def, List.flatMap_def, List.map_congr_left h]
  rw [levelsEntry, hlevels, levelsEntry]

theorem WellFormed.newest_version {files : TableFiles} {v : Version} (h : WellFormed files v)
    (key : Bytes) :
    newest (versionSources files v) key =
      levelsEntry files v (List.range' 0 maxLevels) key := by
  have hdeep := flatMap_level_range' v 1 6 (by rw [h.count]; rfl)
  rw [h.versionSources_eq, ← hdeep]
  rfl

theorem lookupMem_eq (active : MemTable) (immutable : List Frozen) (key : Bytes) (nowMs : ℤ) :
    lookupMem active immutable key nowMs =
      answer nowMs (newest (memSources active immutable) key) := by
  have htable : ∀ m : MemTable, m.lookupAt key nowMs = answer nowMs (find m.entries key) :=
    fun _ => rfl
  have hfrozen : ∀ fs : List Frozen, fs.findSome? (fun f => f.table.lookupAt key nowMs) =
      answer nowMs (newest (fs.map (fun f => f.table.entries)) key) := by
    intro fs
    induction fs with
    | nil => rfl
    | cons f fs ih =>
      rw [List.findSome?_cons, htable, ih, List.map_cons, newest_cons, answer_or]
      cases answer nowMs (find f.table.entries key) <;> rfl
  rw [lookupMem, htable, hfrozen, memSources, newest_cons, answer_or]
  cases answer nowMs (find active.entries key) <;> rfl

/-- A point read returns the logical content as a reader of that time sees it. -/
theorem Tree.get_eq_content {t : Tree} (h : WellFormed t.files t.version) (key : Bytes)
    (nowMs : ℤ) : t.get key nowMs = .ok (seen nowMs (t.content key)) := by
  have hcount : 1 + (t.version.levelCount - 1) = t.version.levels.length := by
    have := h.count
    simp only [Version.levelCount, maxLevels] at this ⊢
    omega
  rw [Tree.get, lookupMem_eq, lookupFiles_eq (h.backed 0),
    h.lookupLevels_eq key nowMs (fun l hl => (List.mem_range'_1.mp hl).1),
    flatMap_level_range' _ _ _ hcount, Tree.content, Tree.sources, h.versionSources_eq,
    List.map_append, newest_append, newest_append]
  have hseen : ∀ o : Option Entry, seen nowMs o = (answer nowMs o).join := by
    intro o
    rw [answer_eq]
    cases o <;> rfl
  rw [hseen, answer_or, answer_or]
  generalize answer nowMs (newest (memSources t.active t.immutable) key) = a
  generalize answer nowMs (newest (List.map (entriesOf t.files) (t.version.level 0)) key) = b
  generalize answer nowMs (newest (List.map (entriesOf t.files)
    (List.drop 1 t.version.levels).flatten) key) = c
  cases a <;> cases b <;> cases c <;> rfl

end RedisFromScratch.LsmTree
