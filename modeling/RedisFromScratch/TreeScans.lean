import RedisFromScratch.BoundedMerges
import RedisFromScratch.TreeContents

/-!
Range scans. A scan reads the beginning of every memtable and file, lets newer
sources overwrite older ones, and fills a page up to the first key at which
some source was cut off. Expiry is resolved for what comes from a memtable; what
comes from a file is taken as it is, so a page can hold an expired record.
-/
namespace RedisFromScratch.TreeScans

open ByteStrings SortedTables NewestWins EngineTypes SsTables Versions LsmTree Compaction
open CompactionAgreement TreeRuns TreeInvariant TreeSteps TreeContents BoundedMerges Relation Runs
open StoreRecords (Record)

/-- The merge of a scan: a tombstone stays as an absent record. -/
abbrev Merge := Table Bytes (Option Record)

/-- Copy entries until `take` are copied. The key is the last one copied, if
there were more. -/
def collectLoop (view : Entry → Option Record) (take : ℕ) :
    ℕ → Option Bytes → List (Bytes × Entry) → Merge → Option Bytes × Merge
  | _, _, [], into => (none, into)
  | n, last, (k, e) :: l, into =>
      if n = take then (last, into)
      else collectLoop view take (n + 1) (some k) l (into.insert k (view e))

def collectFromMemtable (t : MemTable) (start : Bytes) (take : ℕ) (nowMs : ℤ) (into : Merge) :
    Option Bytes × Merge :=
  collectLoop (Entry.live nowMs) take 0 none (t.atOrAfter start) into

/-- An entry of a file, with expiry left for later. -/
def unexpired : Entry → Option Record
  | .delete => none
  | .put r => some r

/-- The loop over a file passes over the keys before the start. -/
def collectFrom (start : Bytes) (take : ℕ) :
    ℕ → Option Bytes → List (Bytes × Entry) → Merge → Option Bytes × Merge
  | _, _, [], into => (none, into)
  | n, last, (k, e) :: l, into =>
      if k < start then collectFrom start take n last l into
      else if n = take then (last, into)
      else collectFrom start take (n + 1) (some k) l (into.insert k (unexpired e))

def collectFromFile (files : TableFiles) (f : FileMeta) (start : Bytes) (take : ℕ) (into : Merge) :
    Except EngineError (Option Bytes × Merge) :=
  if f.maxKey < start then .ok (none, into)
  else
    match openTable files f with
    | .error e => .error e
    | .ok t => .ok (collectFrom start take 0 none t.iter into)

abbrev Gather := Gathered Bytes (Option Record)

def gatherMemtables (start : Bytes) (take : ℕ) (nowMs : ℤ) (ts : List MemTable) (g : Gather) :
    Gather :=
  ts.foldl (fun g t =>
    let c := collectFromMemtable t start take nowMs g.merged
    ⟨c.2, note c.1 g.boundary⟩) g

def gatherFiles (files : TableFiles) (start : Bytes) (take : ℕ) :
    List FileMeta → Gather → Except EngineError Gather
  | [], g => .ok g
  | f :: fs, g =>
      match collectFromFile files f start take g.merged with
      | .error e => .error e
      | .ok c => gatherFiles files start take fs ⟨c.2, note c.1 g.boundary⟩

/-- Deepest level first, and level 0 from its oldest file. -/
def filesOldestFirst (v : Version) : List FileMeta :=
  (List.range' 1 (v.levelCount - 1)).reverse.flatMap v.level ++ (v.level 0).reverse

def memtablesOldestFirst (t : Tree) : List MemTable :=
  (t.immutable.map Frozen.table).reverse ++ [t.active]

/-- The merge a page is taken from, and how far it goes. -/
def gather (t : Tree) (start : Bytes) (take : ℕ) (nowMs : ℤ) : Except EngineError Gather :=
  let newest := gatherMemtables start take nowMs (memtablesOldestFirst t) ⟨Table.empty, none⟩
  match gatherFiles t.files start take (filesOldestFirst t.version)
      ⟨Table.empty, newest.boundary⟩ with
  | .error e => .error e
  | .ok g => .ok ⟨g.merged.insertAll newest.merged.entries, g.boundary⟩

def successor (k : Bytes) : Bytes := k ++ [0]

/-- At least one record a page, and one more entry of each source than that. -/
def pageLimit (limit : ℕ) : ℕ := max limit 1

def takePage (limit : ℕ) (g : Gather) : List (Bytes × Record) × Option Bytes :=
  let page := pageLoop (pageLimit limit) g.boundary g.merged.entries []
  (page.1, page.2.or (g.boundary.map successor))

def scan (t : Tree) (start : Bytes) (limit : ℕ) (nowMs : ℤ) :
    Except EngineError (List (Bytes × Record) × Option Bytes) :=
  match gather t start (pageLimit limit + 1) nowMs with
  | .error e => .error e
  | .ok g => .ok (takePage limit g)

/-- Page after page, for at most `fuel` of them. -/
def scanAll (t : Tree) (limit : ℕ) (nowMs : ℤ) :
    ℕ → Bytes → Except EngineError (Option (List (Bytes × Record)))
  | 0, _ => .ok none
  | fuel + 1, start =>
      match scan t start limit nowMs with
      | .error e => .error e
      | .ok (page, none) => .ok (some page)
      | .ok (page, some next) =>
          match scanAll t limit nowMs fuel next with
          | .error e => .error e
          | .ok rest => .ok (rest.map (page ++ ·))

/-- The number of live keys, by pages of ten thousand. -/
def exactLen (t : Tree) (nowMs : ℤ) (fuel : ℕ) : Except EngineError (Option ℕ) :=
  match scanAll t 10000 nowMs fuel [] with
  | .error e => .error e
  | .ok pairs => .ok (pairs.map List.length)

/-- A source as a scan sees it. -/
def viewed (view : Entry → Option Record) (start : Bytes) (l : List (Bytes × Entry)) :
    List (Bytes × Option Record) :=
  (l.filter (fun b => start ≤ b.1)).map (fun b => (b.1, view b.2))

section Collecting

variable {start : Bytes} {take : ℕ}

theorem viewed_ascending (view : Entry → Option Record) (start : Bytes)
    {l : List (Bytes × Entry)} (h : Ascending l) : Ascending (viewed view start l) := by
  rw [viewed, Ascending, List.pairwise_map]
  exact h.filter _

theorem find_viewed (view : Entry → Option Record) (start : Bytes) (l : List (Bytes × Entry))
    (k : Bytes) : find (viewed view start l) k =
      if start ≤ k then (find l k).map view else none := by
  have hmap : ∀ m : List (Bytes × Entry),
      find (m.map (fun b => (b.1, view b.2))) k = (find m k).map view := by
    intro m
    induction m with
    | nil => rfl
    | cons b m ih =>
      rw [List.map_cons, find_cons, find_cons, ih]
      split <;> rfl
  have hfilter := find_filter_key l (fun i => decide (start ≤ i)) k
  rw [viewed, hmap]
  simp only [decide_eq_true_eq] at hfilter
  rw [hfilter]
  split <;> rfl

theorem mem_viewed {view : Entry → Option Record} {start : Bytes} {l : List (Bytes × Entry)}
    {b : Bytes × Option Record} (h : b ∈ viewed view start l) :
    start ≤ b.1 ∧ ∃ e, (b.1, e) ∈ l := by
  obtain ⟨c, hc, rfl⟩ := List.mem_map.mp h
  exact ⟨of_decide_eq_true (List.mem_filter.mp hc).2, c.2, (List.mem_filter.mp hc).1⟩

/-- The loop copies a beginning of its source and says where it was cut. -/
theorem collectLoop_eq (view : Entry → Option Record) (n : ℕ) (hn : n ≤ take)
    (last : Option Bytes) (l : List (Bytes × Entry)) (into : Merge) :
    collectLoop view take n last l into =
      (if take - n < l.length then ((l.take (take - n)).getLast?.map Prod.fst).or last else none,
        into.insertAll ((l.take (take - n)).map (fun b => (b.1, view b.2)))) := by
  induction l generalizing n last into with
  | nil => simp [collectLoop, Table.insertAll]
  | cons b l ih =>
    rw [collectLoop]
    by_cases hfull : n = take
    · subst n
      simp [Table.insertAll]
    · obtain ⟨m, hm⟩ : ∃ m, take - n = m + 1 := ⟨take - n - 1, by omega⟩
      have hm' : take - (n + 1) = m := by omega
      rw [if_neg hfull, ih (n + 1) (by omega), hm, hm', List.take_succ_cons, List.map_cons,
        List.getLast?_cons, List.length_cons]
      refine Prod.ext ?_ rfl
      by_cases hlen : m < l.length
      · rw [if_pos hlen, if_pos (by omega)]
        cases (l.take m).getLast? <;> rfl
      · rw [if_neg hlen, if_neg (by omega)]

theorem collectFrom_eq (n : ℕ) (last : Option Bytes) (l : List (Bytes × Entry)) (into : Merge) :
    collectFrom start take n last l into =
      collectLoop unexpired take n last (l.filter (fun b => start ≤ b.1)) into := by
  induction l generalizing n last into with
  | nil => rfl
  | cons b l ih =>
    obtain ⟨k, e⟩ := b
    rw [collectFrom]
    by_cases hk : k < start
    · rw [if_pos hk, ih, List.filter_cons_of_neg (by simpa using hk)]
    · rw [if_neg hk, List.filter_cons_of_pos (by simpa using hk), collectLoop]
      split
      · rfl
      · exact ih _ _ _

theorem add_viewed (view : Entry → Option Record) (start : Bytes) (l : List (Bytes × Entry))
    (g : Gather) :
    (⟨(collectLoop view take 0 none (l.filter (fun b => start ≤ b.1)) g.merged).2,
      note (collectLoop view take 0 none (l.filter (fun b => start ≤ b.1)) g.merged).1
        g.boundary⟩ : Gather) = g.add take (viewed view start l) := by
  rw [collectLoop_eq view 0 (Nat.zero_le _), Gathered.add, viewed, cutKey, Nat.sub_zero,
    List.length_map, ← List.map_take, List.getLast?_map, Option.map_map, Option.or_none]
  rfl

theorem gatherMemtables_eq (nowMs : ℤ) (ts : List MemTable) (g : Gather) :
    gatherMemtables start take nowMs ts g =
      g.addAll take (ts.map (fun t => viewed (Entry.live nowMs) start t.entries)) := by
  induction ts generalizing g with
  | nil => rfl
  | cons t ts ih =>
    rw [gatherMemtables, List.foldl_cons]
    change gatherMemtables start take nowMs ts _ = _
    rw [ih]
    exact congrArg (fun g' : Gather => g'.addAll take _) (add_viewed _ start t.entries g)

theorem gatherFiles_eq (start : Bytes) (take : ℕ) {files : TableFiles} {fs : List FileMeta}
    (h : ∀ f ∈ fs, Backed files f) (g : Gather) :
    gatherFiles files start take fs g =
      .ok (g.addAll take (fs.map (fun f => viewed unexpired start (entriesOf files f)))) := by
  induction fs generalizing g with
  | nil => rfl
  | cons f fs ih =>
    have hrest := ih (fun f' hf' => h f' (List.mem_cons_of_mem _ hf'))
    have hf := h f List.mem_cons_self
    have hfile : ∃ c, collectFromFile files f start take g.merged = .ok c ∧
        (⟨c.2, note c.1 g.boundary⟩ : Gather) =
          g.add take (viewed unexpired start (entriesOf files f)) := by
      unfold collectFromFile
      by_cases hmax : f.maxKey < start
      · have hnil : viewed unexpired start (entriesOf files f) = [] := by
          rw [viewed, List.map_eq_nil_iff, List.filter_eq_nil_iff]
          intro b hb
          have hle := (hf.range hb).2
          simpa using hle.trans_lt hmax
        refine ⟨_, if_pos hmax, ?_⟩
        rw [hnil, Gathered.add, List.take_nil, cutKey, List.length_nil,
          if_neg (Nat.not_lt_zero _)]
        rfl
      · obtain ⟨t, hlookup, -, -⟩ := hf
        rw [if_neg hmax, openTable, hlookup]
        refine ⟨_, rfl, ?_⟩
        rw [Backed.entriesOf_eq hlookup, collectFrom_eq]
        exact add_viewed unexpired start t.iter g
    obtain ⟨c, hc, hadd⟩ := hfile
    rw [gatherFiles, hc]
    dsimp only
    rw [hadd, hrest]
    rfl

end Collecting

section Trust

variable {t : Tree}

theorem newest_viewed (view : Entry → Option Record) {start k : Bytes} (hk : start ≤ k)
    (ls : List (List (Bytes × Entry))) :
    newest (ls.map (viewed view start)) k = (newest ls k).map view := by
  induction ls with
  | nil => rfl
  | cons l ls ih =>
    rw [List.map_cons, newest_cons, newest_cons, ih, find_viewed, if_pos hk, Option.map_or]

theorem backed_oldestFirst (h : WellFormed t.files t.version) :
    ∀ f ∈ filesOldestFirst t.version, Backed t.files f := by
  intro f hf
  rcases List.mem_append.mp hf with hf | hf
  · obtain ⟨l, -, hl⟩ := List.mem_flatMap.mp hf
    exact h.backed l f hl
  · exact h.backed 0 f (List.mem_reverse.mp hf)

/-- The files of a scan, newest first, answer as the version does: on a deeper
level at most one file has the key. -/
theorem newest_oldestFirst (h : WellFormed t.files t.version) (k : Bytes) :
    newest ((filesOldestFirst t.version).reverse.map (entriesOf t.files)) k =
      newest (versionSources t.files t.version) k := by
  have hlevel : ∀ l, 0 < l → newest ((t.version.level l).reverse.map (entriesOf t.files)) k =
      newest ((t.version.level l).map (entriesOf t.files)) k := by
    intro l hl
    have hone := one_holds h hl k
    have hback : (((t.version.level l).map (entriesOf t.files)).reverse).Pairwise
        (fun a b => find a k = none ∨ find b k = none) :=
      List.pairwise_reverse.mpr (hone.imp Or.symm)
    rw [List.map_reverse]
    ext e
    rw [newest_eq_some_iff hback, newest_eq_some_iff hone]
    simp only [List.mem_reverse]
  have hlevels : ∀ ls : List ℕ, (∀ l ∈ ls, 0 < l) →
      newest ((ls.reverse.flatMap t.version.level).reverse.map (entriesOf t.files)) k =
        levelsEntry t.files t.version ls k := by
    intro ls hls
    induction ls with
    | nil => rfl
    | cons l ls ih =>
      rw [List.reverse_cons, List.flatMap_append, List.reverse_append, List.flatMap_singleton,
        List.map_append, newest_append, hlevel l (hls l List.mem_cons_self),
        ih (fun l' hl' => hls l' (List.mem_cons_of_mem _ hl')), levelsEntry_cons]
  have hcount : t.version.levelCount - 1 = 6 := by
    rw [Version.levelCount, h.count]
    rfl
  have hsplit : List.range' 0 maxLevels = 0 :: List.range' 1 6 := rfl
  rw [filesOldestFirst, List.reverse_append, List.reverse_reverse, List.map_append, newest_append,
    hcount, hlevels _ (fun l hl => (List.mem_range'_1.mp hl).1), h.newest_version, hsplit,
    levelsEntry_cons]

/-- Everything a scan may read. -/
def scanSources (t : Tree) : List (List (Bytes × Entry)) :=
  (memtablesOldestFirst t).map Table.entries ++ (filesOldestFirst t.version).map (entriesOf t.files)

/-- A key some source binds, from the start of the scan on. -/
def Bound (t : Tree) (start k : Bytes) : Prop :=
  start ≤ k ∧ ∃ l ∈ scanSources t, ∃ e, (k, e) ∈ l

theorem bound_of_memtable {start k : Bytes} {w : Option Record} {view : Entry → Option Record}
    (h : ∃ l ∈ (memtablesOldestFirst t).map (fun m => viewed view start m.entries), (k, w) ∈ l) :
    Bound t start k := by
  obtain ⟨l, hl, hk⟩ := h
  obtain ⟨m, hm, rfl⟩ := List.mem_map.mp hl
  obtain ⟨hle, e, he⟩ := mem_viewed hk
  exact ⟨hle, _, List.mem_append_left _ (List.mem_map_of_mem hm), e, he⟩

theorem bound_of_file {start k : Bytes} {w : Option Record} {view : Entry → Option Record}
    (h : ∃ l ∈ (filesOldestFirst t.version).map (fun f => viewed view start (entriesOf t.files f)),
      (k, w) ∈ l) : Bound t start k := by
  obtain ⟨l, hl, hk⟩ := h
  obtain ⟨f, hf, rfl⟩ := List.mem_map.mp hl
  obtain ⟨hle, e, he⟩ := mem_viewed hk
  exact ⟨hle, _, List.mem_append_right _ (List.mem_map_of_mem hf), e, he⟩

/-- What a scan gathers: a merge of keys from `start` on that up to its boundary
is the content, with expiry resolved in the memtables only. -/
theorem gather_spec (h : WellFormed t.files t.version) (start : Bytes) {take : ℕ}
    (htake : 0 < take) (nowMs : ℤ) : ∃ g, gather t start take nowMs = .ok g ∧
      (∀ k w, g.merged.lookup k = some w → Bound t start k) ∧
      (∀ k, start ≤ k → Within g.boundary k → g.merged.lookup k =
        ((newest (memSources t.active t.immutable) k).map (Entry.live nowMs)).or
          ((newest (versionSources t.files t.version) k).map unexpired)) ∧
      ∀ b, g.boundary = some b → Bound t start b := by
  have hfiles := fun g => gatherFiles_eq start take (backed_oldestFirst h) g
  have hmemasc : ∀ l ∈ (memtablesOldestFirst t).map
      (fun m => viewed (Entry.live nowMs) start m.entries), Ascending l := by
    intro l hl
    obtain ⟨m, -, rfl⟩ := List.mem_map.mp hl
    exact viewed_ascending _ _ m.sorted
  have hfileasc : ∀ l ∈ (filesOldestFirst t.version).map
      (fun f => viewed unexpired start (entriesOf t.files f)), Ascending l := by
    intro l hl
    obtain ⟨f, hf, rfl⟩ := List.mem_map.mp hl
    exact viewed_ascending _ _ (backed_oldestFirst h f hf).ascending
  refine ⟨_, by rw [gather, gatherMemtables_eq, hfiles], ?_, ?_, ?_⟩
  · intro k w hk
    rw [Table.lookup_insertAll, Table.lastWrite_entries] at hk
    rcases Option.or_eq_some_iff.mp hk with hk | ⟨-, hk⟩
    · rcases mem_addAll hk with hk | hk
      · cases hk
      · exact bound_of_memtable hk
    · rcases mem_addAll hk with hk | hk
      · cases hk
      · exact bound_of_file hk
  · intro k hstart hk
    have hsplit := (within_addAll k).mp hk
    rw [Table.lookup_insertAll, Table.lastWrite_entries, lookup_addAll htake hmemasc hsplit.1,
      lookup_addAll htake hfileasc hk, ← List.map_reverse, ← List.map_reverse,
      ← newest_oldestFirst h k, ← newest_viewed _ hstart, ← newest_viewed _ hstart,
      Table.lookup_empty, Option.or_none, Option.or_none, List.map_map]
    have hmem : (memtablesOldestFirst t).reverse.map
        (fun m => viewed (Entry.live nowMs) start m.entries) =
          (memSources t.active t.immutable).map (viewed (Entry.live nowMs) start) := by
      simp [memtablesOldestFirst, memSources]
    rw [hmem]
    rfl
  · intro b hb
    rcases boundary_addAll hb with hb | ⟨l, hl, hcut⟩
    · rcases boundary_addAll hb with hb | ⟨l, hl, hcut⟩
      · cases hb
      · obtain ⟨w, hw⟩ := mem_of_cutKey hcut
        exact bound_of_memtable ⟨l, hl, hw⟩
    · obtain ⟨w, hw⟩ := mem_of_cutKey hcut
      exact bound_of_file ⟨l, hl, hw⟩

end Trust

variable {F : Type}

/-- A page holds what the newest sources of its keys say, up to expiry in files. -/
theorem mem_page {t : Tree} (h : WellFormed t.files t.version) {start : Bytes} {limit : ℕ}
    {nowMs : ℤ} {page : List (Bytes × Record)} {next : Option Bytes}
    (hscan : scan t start limit nowMs = .ok (page, next)) {b : Bytes × Record} (hb : b ∈ page) :
    ((newest (memSources t.active t.immutable) b.1).map (Entry.live nowMs)).or
      ((newest (versionSources t.files t.version) b.1).map unexpired) = some (some b.2) := by
  obtain ⟨g, hg, hbound, hlook, -⟩ := gather_spec h start (Nat.succ_pos (pageLimit limit)) nowMs
  rw [scan, hg] at hscan
  cases hscan
  obtain ⟨pre, post, hsplit, hpre, hout, -⟩ :=
    pageLoop_split (pageLimit limit) g.boundary g.merged.entries []
  rw [hout, List.nil_append, mem_liveOf] at hb
  have hmem : g.merged.lookup b.1 = some (some b.2) := by
    rw [← Table.mem_entries_iff, hsplit]
    exact List.mem_append_left _ hb
  rw [← hlook b.1 (hbound _ _ hmem).1 (hpre _ hb), hmem]

/-- The newest entry of no key is a record in a file that has expired. -/
def FilesUnexpired (s : State) (nowMs : ℤ) : Prop :=
  ∀ k r, memEntry s k = none → versionEntry s k = some (.put r) → ¬ r.Expired nowMs

theorem page_live {s : State} (hinv : Inv s) {nowMs : ℤ} (hfiles : FilesUnexpired s nowMs)
    {start : Bytes} {limit : ℕ} {page : List (Bytes × Record)} {next : Option Bytes}
    (hscan : scan s.tree start limit nowMs = .ok (page, next)) {b : Bytes × Record}
    (hb : b ∈ page) : s.tree.get b.1 nowMs = .ok (some b.2) := by
  have hvalue := mem_page (t := s.tree) hinv.wellFormed hscan hb
  rw [Tree.get_eq_content (t := s.tree) hinv.wellFormed, content_eq]
  change ((memEntry s b.1).map (Entry.live nowMs)).or ((versionEntry s b.1).map unexpired) = _
    at hvalue
  cases hm : memEntry s b.1 with
  | some =>
    rw [hm] at hvalue
    exact congrArg Except.ok (Option.some.inj hvalue)
  | none =>
    rw [hm] at hvalue
    cases hv : versionEntry s b.1 with
    | none =>
      rw [hv] at hvalue
      cases hvalue
    | some e =>
      rw [hv] at hvalue
      cases e with
      | delete => cases hvalue
      | put r =>
        have hr : r = b.2 := Option.some.inj (Option.some.inj hvalue)
        subst hr
        exact congrArg Except.ok (if_neg (hfiles b.1 b.2 hm hv))

end RedisFromScratch.TreeScans
