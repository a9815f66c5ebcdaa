import RedisFromScratch.ScanPaging
import Mathlib.Data.Finset.Card
import Mathlib.Data.List.Dedup

/-!
The pages of a scan at the smallest time, at which nothing looks expired. A key
before the next start is in the page or has no record for any reader, unless the
page is full and resumes beyond its boundary: then the keys one source was not
asked for are skipped, however large the pages are.
-/
namespace RedisFromScratch.FlushPages

open ByteStrings SortedTables NewestWins EngineTypes SsTables Versions LsmTree Compaction
open CompactionAgreement TreeRuns TreeInvariant TreeSteps TreeContents BoundedMerges TreeScans
open ScanPaging Relation Runs
open StoreRecords (Record)

/-- The smallest time there is. -/
def i64Min : ℤ := -2 ^ 63

/-- No reader sees a record at the key, whatever the time. -/
def Gone (t : Tree) (k : Bytes) : Prop := ∀ r, t.content k = some (.put r) → r.Expired i64Min

/-- The keys with an entry, from a start on. -/
def boundKeys (t : Tree) (start : Bytes) : Finset Bytes :=
  (t.sources.flatten.map Prod.fst).toFinset.filter (fun k => start ≤ k)

theorem mem_boundKeys {t : Tree} {start k : Bytes} :
    k ∈ boundKeys t start ↔ start ≤ k ∧ t.content k ≠ none := by
  have hcontent : t.content k ≠ none ↔ k ∈ t.sources.flatten.map Prod.fst := by
    rw [Tree.content, newest_eq_find, Ne, find_eq_none_iff, List.mem_map]
    simp only [not_forall, not_not, exists_prop]
  rw [boundKeys, Finset.mem_filter, List.mem_toFinset, hcontent, and_comm]

section Page

variable {t : Tree} {start : Bytes}

theorem content_ne_none_of_bound (hwf : WellFormed t.files t.version) {k : Bytes}
    (h : Bound t start k) : t.content k ≠ none := by
  obtain ⟨-, l, hl, e, he⟩ := h
  intro hnone
  rw [Tree.content, Tree.sources, newest_append, Option.or_eq_none_iff, ← newest_oldestFirst hwf,
    newest_eq_none_iff, newest_eq_none_iff] at hnone
  have hfind : find l k = none := by
    rcases List.mem_append.mp hl with hl | hl
    · refine hnone.1 l ?_
      simpa [memtablesOldestFirst, memSources, or_comm] using hl
    · refine hnone.2 l ?_
      rw [List.map_reverse]
      exact List.mem_reverse.mpr hl
  exact (find_eq_none_iff l k).mp hfind _ he rfl

/-- A page goes from its start up to the key the next one starts at, and there
is a key with an entry among those it has passed. -/
structure PageFrom (t : Tree) (start : Bytes) (page : List (Bytes × Record))
    (next : Option Bytes) : Prop where
  start_le : ∀ b ∈ page, start ≤ b.1
  before : ∀ n, next = some n → ∀ b ∈ page, b.1 < n
  progress : ∀ n, next = some n → ∃ x, start ≤ x ∧ x < n ∧ t.content x ≠ none

/-- There are fewer keys from the next start on than there were before the page. -/
theorem PageFrom.card_lt {t' : Tree} {page : List (Bytes × Record)} {next : Option Bytes}
    (h : PageFrom t start page next) {n : Bytes} (hn : next = some n)
    (hkeys : ∀ k, n ≤ k → t'.content k ≠ none → t.content k ≠ none) :
    (boundKeys t' n).card < (boundKeys t start).card := by
  obtain ⟨x, hx, hxn, hcontent⟩ := h.progress n hn
  refine Finset.card_lt_card ((Finset.ssubset_iff_of_subset ?_).mpr ⟨x, ?_, ?_⟩)
  · intro k hk
    obtain ⟨hle, hk⟩ := mem_boundKeys.mp hk
    exact mem_boundKeys.mpr ⟨(hx.trans_lt hxn).le.trans hle, hkeys k hle hk⟩
  · exact mem_boundKeys.mpr ⟨hx, hcontent⟩
  · exact fun hmem => absurd (mem_boundKeys.mp hmem).1 (not_le.mpr hxn)

theorem merged_of_live {g : Gather} {k : Bytes} {r : Record} {nowMs : ℤ}
    (hlook : g.merged.lookup k = ((newest (memSources t.active t.immutable) k).map
      (Entry.live nowMs)).or ((newest (versionSources t.files t.version) k).map unexpired))
    (hcontent : t.content k = some (.put r)) (hlive : ¬ r.Expired nowMs) :
    (k, some r) ∈ g.merged.entries := by
  rw [Table.mem_entries_iff, hlook]
  rw [Tree.content, Tree.sources, newest_append] at hcontent
  cases hmem : newest (memSources t.active t.immutable) k with
  | some =>
    rw [hmem] at hcontent
    cases hcontent
    simp [Entry.live, hlive]
  | none =>
    rw [hmem, Option.none_or] at hcontent
    rw [hcontent]
    rfl

/-- Every scan returns a page. A key before the next start is in it, or gone,
unless the page is full and the next start lies beyond the boundary. -/
theorem page_spec (hwf : WellFormed t.files t.version) (start : Bytes) (limit : ℕ) :
    ∃ page next, scan t start limit i64Min = .ok (page, next) ∧ PageFrom t start page next ∧
      (Tight t limit i64Min start → ∀ k, start ≤ k → (∀ n, next = some n → k < n) →
        Gone t k ∨ ∃ r, (k, r) ∈ page) := by
  obtain ⟨g, hg, hbound, hlook, hcut⟩ :=
    gather_spec hwf start (Nat.succ_pos (pageLimit limit)) i64Min
  refine ⟨_, _, by rw [scan, hg], ?_⟩
  have hfrom : ∀ b ∈ (takePage limit g).1, Bound t start b.1 ∧ Within g.boundary b.1 := by
    intro b hb
    obtain ⟨hmem, hin⟩ := mem_pageLoop hb
    exact ⟨hbound _ _ ((g.merged.mem_entries_iff _ _).mp hmem), hin⟩
  have hcovers : ∀ k, start ≤ k → Within g.boundary k →
      (∀ r, (k, some r) ∈ g.merged.entries → (k, r) ∈ (takePage limit g).1) →
        Gone t k ∨ ∃ r, (k, r) ∈ (takePage limit g).1 := by
    intro k hk hin hpage
    by_cases hgone : Gone t k
    · exact Or.inl hgone
    · simp only [Gone, not_forall] at hgone
      obtain ⟨r, hcontent, hlive⟩ := hgone
      exact Or.inr ⟨r, hpage r (merged_of_live (hlook k hk hin) hcontent hlive)⟩
  cases hnext : (pageLoop (pageLimit limit) g.boundary g.merged.entries []).2 with
  | some k =>
    -- the page is full
    obtain ⟨hlen, hbefore, hall⟩ := pageLoop_full g.merged.sorted hnext
    have hstart : (takePage limit g).2 = some k := by rw [takePage, hnext, Option.some_or]
    have hpos : 0 < pageLimit limit := Nat.lt_of_lt_of_le Nat.one_pos (le_max_right limit 1)
    obtain ⟨b, hb⟩ := List.exists_mem_of_length_pos (hlen ▸ hpos)
    refine ⟨⟨fun b hb => (hfrom b hb).1.1, ?_, ?_⟩, ?_⟩
    · intro n hn
      cases hstart.symm.trans hn
      exact hbefore
    · intro n hn
      cases hstart.symm.trans hn
      exact ⟨b.1, (hfrom b hb).1.1, hbefore b hb, content_ne_none_of_bound hwf (hfrom b hb).1⟩
    · intro htight x hx hlt
      have hxk := hlt k hstart
      exact hcovers x hx (fun c hc => hxk.le.trans (htight g hg k hnext c hc))
        (fun r hr => hall x r hr hxk)
  | none =>
    have hstart : (takePage limit g).2 = g.boundary.map successor := by
      rw [takePage, hnext, Option.none_or]
    refine ⟨⟨fun b hb => (hfrom b hb).1.1, ?_, ?_⟩, ?_⟩
    · intro n hn b hb
      obtain ⟨c, hc, rfl⟩ := Option.map_eq_some_iff.mp (hstart.symm.trans hn)
      exact ((hfrom b hb).2 c hc).trans_lt (lt_append_zero c)
    · intro n hn
      obtain ⟨c, hc, rfl⟩ := Option.map_eq_some_iff.mp (hstart.symm.trans hn)
      exact ⟨c, (hcut c hc).1, lt_append_zero c, content_ne_none_of_bound hwf (hcut c hc)⟩
    · intro _ x hx hlt
      have hin : Within g.boundary x := by
        intro c hc
        by_contra hgt
        have hnext' := hlt (successor c) (by rw [hstart, hc, Option.map_some])
        exact absurd hnext' (not_lt.mpr (append_zero_le_of_lt (not_le.mp hgt)))
      exact hcovers x hx hin (fun r hr => pageLoop_rest g.merged.sorted hnext hr hin)

end Page

section Crowded

def crowdedKey (i : ℕ) : Bytes := 98 :: List.replicate i 0

def crowdedPage (n : ℕ) : List (Bytes × Record) :=
  (List.range n).map (fun i => (crowdedKey i, ⟨[1], 0⟩))

/-- A tombstone for `a`, `n` keys between `b` and `c`, and `c`. -/
def crowdedBatch (n : ℕ) : List Mutation :=
  ⟨[97], .delete⟩ :: ((crowdedPage n).map (fun b => ⟨b.1, .put b.2⟩) ++ [⟨[99], .put ⟨[1], 0⟩⟩])

/-- A frozen memtable with `d` and an active one with a crowded batch. -/
def crowded (n : ℕ) : State :=
  { init 0 with
    active := Table.empty.insertAll (writes (crowdedBatch n))
    immutable := [⟨1, Table.empty.insertAll (writes [⟨[100], .put ⟨[1], 0⟩⟩])⟩]
    nextFileNumber := 3
    logNumber := 2 }

theorem crowdedKey_strictMono : StrictMono crowdedKey := by
  refine strictMono_nat_of_lt_succ (fun i => ?_)
  have hsucc : crowdedKey (i + 1) = crowdedKey i ++ [0] := by
    rw [crowdedKey, List.replicate_succ', ← List.cons_append]
    rfl
  exact hsucc ▸ lt_append_zero (crowdedKey i)

theorem crowdedPage_ascending (n : ℕ) : Ascending (crowdedPage n) := by
  rw [crowdedPage, Ascending, List.pairwise_map]
  exact List.pairwise_lt_range.imp (fun hlt => crowdedKey_strictMono hlt)

theorem mem_crowdedPage {n : ℕ} {b : Bytes × Record} (h : b ∈ crowdedPage n) :
    [97] < b.1 ∧ b.1 < [99] := by
  obtain ⟨i, -, rfl⟩ := List.mem_map.mp h
  exact ⟨List.cons_lt_cons_iff.mpr (Or.inl (by decide)),
    List.cons_lt_cons_iff.mpr (Or.inl (by decide))⟩

/-- The part of the active memtable a page of `n` records asks for. -/
def crowdedFront (n : ℕ) : List (Bytes × Option Record) :=
  ([97], none) :: (crowdedPage n).map (fun b => (b.1, some b.2))

theorem crowdedFront_length (n : ℕ) : (crowdedFront n).length = n + 1 := by
  rw [crowdedFront, List.length_cons, List.length_map, crowdedPage, List.length_map,
    List.length_range]

/-- Anything from `c` on goes behind the crowd. -/
theorem crowdedFront_ascending (n : ℕ) {b : Bytes × Option Record} (hb : [99] ≤ b.1) :
    Ascending (crowdedFront n ++ [b]) := by
  have hpage : ∀ c ∈ crowdedFront n, c.1 < [99] := by
    intro c hc
    rcases List.mem_cons.mp hc with rfl | hc
    · decide
    · obtain ⟨d, hd, rfl⟩ := List.mem_map.mp hc
      exact (mem_crowdedPage hd).2
  refine List.pairwise_append.mpr ⟨List.pairwise_cons.mpr ⟨?_, ?_⟩, List.pairwise_singleton _ _, ?_⟩
  · intro c hc
    obtain ⟨d, hd, rfl⟩ := List.mem_map.mp hc
    exact (mem_crowdedPage hd).1
  · rw [List.pairwise_map]
    exact crowdedPage_ascending n
  · intro c hc b' hb'
    rw [List.mem_singleton.mp hb']
    exact (hpage c hc).trans_le hb

theorem live_put (nowMs : ℤ) (v : Bytes) : Entry.live nowMs (.put ⟨v, 0⟩) = some ⟨v, 0⟩ := by
  rw [Entry.live, if_neg]
  exact fun h => h.1 rfl

theorem viewed_crowded (n : ℕ) (nowMs : ℤ) :
    viewed (Entry.live nowMs) [] (crowded n).active.entries =
      crowdedFront n ++ [([99], some ⟨[1], 0⟩)] := by
  have hview : (writes (crowdedBatch n)).map (fun b => (b.1, b.2.live nowMs)) =
      crowdedFront n ++ [([99], some ⟨[1], 0⟩)] := by
    simp only [writes, crowdedBatch, crowdedFront, crowdedPage, List.map_cons, List.map_append,
      List.map_map, List.map_nil, List.cons_append, Function.comp_def, live_put]
    rfl
  have hasc : Ascending (writes (crowdedBatch n)) := by
    have hall := crowdedFront_ascending n (b := ([99], some ⟨[1], 0⟩)) le_rfl
    rw [← hview, Ascending, List.pairwise_map] at hall
    exact hall
  have hentries : (crowded n).active.entries = writes (crowdedBatch n) :=
    entries_insertAll_ascending hasc
  have hall : ∀ b ∈ writes (crowdedBatch n), decide (([] : Bytes) ≤ b.1) = true :=
    fun b _ => decide_eq_true (not_lt.mp (List.not_lt_nil b.1))
  rw [viewed, hentries, List.filter_eq_self.mpr hall, hview]

/-- The boundary is the last key of the crowd, and the merge goes on to `d`. -/
theorem crowded_gather (m : ℕ) (nowMs : ℤ) :
    ∃ g, gather (crowded (m + 1)).tree [] (m + 2) nowMs = .ok g ∧
      g.boundary = some (crowdedKey m) ∧
      g.merged.entries = crowdedFront (m + 1) ++ [([100], some ⟨[1], 0⟩)] := by
  let front := crowdedFront (m + 1)
  let c : Bytes × Option Record := ([99], some ⟨[1], 0⟩)
  let d : Bytes × Option Record := ([100], some ⟨[1], 0⟩)
  have hfrozen : viewed (Entry.live nowMs) []
      (Table.empty.insertAll (writes [⟨[100], .put ⟨[1], 0⟩⟩])).entries = [d] := by
    change [(_, Entry.live nowMs (.put ⟨[1], 0⟩))] = _
    rw [live_put]
  have hlast : front.getLast? = some (crowdedKey m, some ⟨[1], 0⟩) := by
    change (crowdedFront (m + 1)).getLast? = _
    rw [crowdedFront, crowdedPage, List.range_succ, List.map_append, List.map_append]
    exact List.getLast?_concat (l := ([97], none) :: _)
  have htake : (front ++ [c]).take (m + 2) = front := List.take_left' (crowdedFront_length (m + 1))
  have hcut : cutKey (m + 2) (front ++ [c]) = some (crowdedKey m) := by
    rw [cutKey, if_pos, htake, hlast, Option.map_some]
    rw [List.length_append, crowdedFront_length]
    exact Nat.lt_succ_self _
  have hall : Ascending (front ++ [d]) :=
    crowdedFront_ascending (m + 1) (show [99] ≤ [100] by decide)
  have hfront : Ascending front := hall.sublist (List.sublist_append_left front [d])
  have hfiles : filesOldestFirst (crowded (m + 1)).tree.version = [] := by rfl
  have hmem : memtablesOldestFirst (crowded (m + 1)).tree =
      [Table.empty.insertAll (writes [⟨[100], .put ⟨[1], 0⟩⟩]), (crowded (m + 1)).active] := rfl
  refine ⟨_, by rw [gather, hfiles, gatherFiles, gatherMemtables_eq, hmem, List.map_cons,
    List.map_cons, List.map_nil, hfrozen, viewed_crowded], ?_, ?_⟩
  · change note (cutKey (m + 2) (front ++ [c])) none = _
    rw [hcut]
    rfl
  · change (Table.empty.insertAll ((Table.empty.insert d.1 d.2).insertAll
      ((front ++ [c]).take (m + 2))).entries).entries = _
    refine Table.entries_eq_of_lookup (u := ⟨front ++ [d], hall⟩) (fun k => ?_)
    rw [Table.lookup_insertAll, Table.lastWrite_entries, Table.lookup_insertAll, htake,
      lastWrite_ascending hfront, Table.lookup_empty, Option.or_none]
    exact (find_append front [d] k).symm

/-- The page is full at the end of the crowd, and the next merged key is `d`. -/
theorem crowded_scan (m : ℕ) (nowMs : ℤ) : scan (crowded (m + 1)).tree [] (m + 1) nowMs =
    .ok (crowdedPage (m + 1), some [100]) := by
  obtain ⟨g, hg, hboundary, hmerged⟩ := crowded_gather m nowMs
  have hlimit : pageLimit (m + 1) = m + 1 := max_eq_left (Nat.succ_pos m)
  have hlength : (crowdedPage (m + 1)).length = m + 1 := by
    rw [crowdedPage, List.length_map, List.length_range]
  have hwithin : ∀ b ∈ crowdedPage (m + 1), Within (some (crowdedKey m)) b.1 := by
    intro b hb
    obtain ⟨i, hi, rfl⟩ := List.mem_map.mp hb
    exact (within_some _ _).mpr
      (crowdedKey_strictMono.monotone (Nat.lt_succ_iff.mp (List.mem_range.mp hi)))
  have hfirst : Within (some (crowdedKey m)) [97] :=
    (within_some _ _).mpr (List.cons_lt_cons_iff.mpr (Or.inl (by decide))).le
  have hloop : pageLoop (m + 1) (some (crowdedKey m))
      (crowdedFront (m + 1) ++ [([100], some ⟨[1], 0⟩)]) [] =
        (crowdedPage (m + 1), some [100]) := by
    rw [crowdedFront, List.cons_append, pageLoop, if_neg (by simp), if_pos hfirst,
      pageLoop_live _ hwithin [] (by simp [hlength]), List.nil_append, pageLoop,
      if_pos hlength]
  rw [scan, hlimit, hg]
  dsimp only
  rw [takePage, hlimit, hboundary, hmerged, hloop]
  rfl

theorem crowded_content (n : ℕ) : (crowded n).tree.content [99] = some (.put ⟨[1], 0⟩) := by
  have hwrites : ∃ l, writes (crowdedBatch n) = l ++ [([99], .put ⟨[1], 0⟩)] :=
    ⟨([97], .delete) :: writes ((crowdedPage n).map (fun b => ⟨b.1, .put b.2⟩)), by
      rw [List.cons_append]
      exact congrArg _ (writes_append _ _)⟩
  obtain ⟨l, hl⟩ := hwrites
  have hactive : (crowded n).active.lookup [99] = some (.put ⟨[1], 0⟩) := by
    change (Table.empty.insertAll (writes (crowdedBatch n))).lookup [99] = _
    rw [Table.lookup_insertAll, hl, lastWrite_append]
    rfl
  rw [content_eq, memEntry_eq, hactive]
  rfl

end Crowded

end RedisFromScratch.FlushPages
