import RedisFromScratch.TreeScans

/-!
Following a scan from page to page. Every page makes progress, so the walk
ends. A page that ends at the boundary resumes just behind it and loses
nothing. A full page resumes at the next merged key; when that key lies beyond
the boundary, the keys a source was not asked for in between are skipped.
-/
namespace RedisFromScratch.ScanPaging

open ByteStrings SortedTables NewestWins EngineTypes SsTables Versions LsmTree Compaction
open CompactionAgreement TreeRuns TreeInvariant TreeSteps TreeContents BoundedMerges TreeScans
open Relation Runs
open StoreRecords (Record)

variable {F : Type}

def NoExpiry (t : Tree) : Prop := ∀ l ∈ t.sources, ∀ b ∈ l, ∀ r, b.2 = .put r → r.expireAt = 0

/-- One page leads to the next. -/
def Resumes (t : Tree) (limit : ℕ) (nowMs : ℤ) (start next : Bytes) : Prop :=
  ∃ page, scan t start limit nowMs = .ok (page, some next)

/-- If the page fills up, the key it resumes at is not beyond the boundary. -/
def Tight (t : Tree) (limit : ℕ) (nowMs : ℤ) (start : Bytes) : Prop :=
  ∀ g, gather t start (pageLimit limit + 1) nowMs = .ok g →
    ∀ k, (pageLoop (pageLimit limit) g.boundary g.merged.entries []).2 = some k →
      Within g.boundary k

section Pages

variable {t : Tree} {start : Bytes} {limit : ℕ} {nowMs : ℤ}

theorem live_of_noExpiry (h : NoExpiry t) {ls : List (List (Bytes × Entry))}
    (hls : ∀ l ∈ ls, l ∈ t.sources) (k : Bytes) :
    (newest ls k).map (Entry.live nowMs) = (newest ls k).map unexpired := by
  cases hk : newest ls k with
  | none => rfl
  | some e =>
    rw [newest, List.findSome?_eq_some_iff] at hk
    obtain ⟨pre, l, post, rfl, hfind, -⟩ := hk
    have hmem := mem_of_find hfind
    cases e with
    | delete => rfl
    | put r =>
      have hzero := h l (hls l (by simp)) _ hmem r rfl
      have hlive : ¬ r.Expired nowMs := fun hexp => hexp.1 hzero
      simp [Entry.live, unexpired, hlive]

/-- Without expiry the trusted part of the merge is the content. -/
theorem gather_content (hwf : WellFormed t.files t.version) (hexp : NoExpiry t) (start : Bytes)
    (limit : ℕ) (nowMs : ℤ) : ∃ g, gather t start (pageLimit limit + 1) nowMs = .ok g ∧
      (∀ k w, g.merged.lookup k = some w → Bound t start k) ∧
      (∀ k, start ≤ k → Within g.boundary k →
        g.merged.lookup k = (t.content k).map unexpired) ∧
      ∀ b, g.boundary = some b → Bound t start b := by
  obtain ⟨g, hg, hbound, hlook, hcut⟩ :=
    gather_spec hwf start (Nat.succ_pos (pageLimit limit)) nowMs
  refine ⟨g, hg, hbound, fun k hk hin => ?_, hcut⟩
  rw [hlook k hk hin, live_of_noExpiry hexp (fun l hl => List.mem_append_left _ hl) k,
    ← Option.map_or, Tree.content, Tree.sources, newest_append]

theorem unexpired_eq_some {o : Option Entry} {r : Record} :
    o.map unexpired = some (some r) ↔ o = some (.put r) := by
  match o with
  | none => simp
  | some .delete => simp [unexpired]
  | some (.put r') => simp [unexpired]

/-- What a page says about the keys before the one it resumes at. -/
structure PageOk (t : Tree) (start : Bytes) (page : List (Bytes × Record))
    (next : Option Bytes) : Prop where
  ascending : Ascending page
  sound : ∀ b ∈ page, start ≤ b.1 ∧ t.content b.1 = some (.put b.2)
  complete : ∀ k r, start ≤ k → (∀ n, next = some n → k < n) → t.content k = some (.put r) →
    (k, r) ∈ page
  before : ∀ n, next = some n → ∀ b ∈ page, b.1 < n
  progress : ∀ n, next = some n → start < n ∧ ∃ x, Bound t start x ∧ x < n

/-- The bindings of a merge that a page has visited, and those behind them. -/
structure Visited (t : Tree) (start : Bytes) (boundary : Option Bytes)
    (pre post : List (Bytes × Option Record)) : Prop where
  sorted : Ascending (pre ++ post)
  within : ∀ b ∈ pre, Within boundary b.1
  bound : ∀ b ∈ pre, Bound t start b.1
  sound : ∀ b ∈ liveOf pre, start ≤ b.1 ∧ t.content b.1 = some (.put b.2)
  /-- A live key within the boundary is in the page unless it comes behind it. -/
  found : ∀ k r, start ≤ k → Within boundary k → t.content k = some (.put r) →
    (∀ b ∈ post, b.1 ≠ k) → (k, r) ∈ liveOf pre

section Visited

variable {boundary : Option Bytes} {pre post : List (Bytes × Option Record)}

theorem visited_of_merged {merged : Table Bytes (Option Record)}
    (hbound : ∀ k w, merged.lookup k = some w → Bound t start k)
    (hlook : ∀ k, start ≤ k → Within boundary k → merged.lookup k = (t.content k).map unexpired)
    (hsplit : merged.entries = pre ++ post) (hpre : ∀ b ∈ pre, Within boundary b.1) :
    Visited t start boundary pre post := by
  have hmerged : ∀ k v, (k, v) ∈ pre → merged.lookup k = some v := by
    intro k v hk
    rw [← Table.mem_entries_iff, hsplit]
    exact List.mem_append_left _ hk
  refine ⟨hsplit ▸ merged.sorted, hpre, fun b hb => hbound _ _ (hmerged _ _ hb), ?_, ?_⟩
  · intro b hb
    have hb := mem_liveOf.mp hb
    have hstart := (hbound _ _ (hmerged _ _ hb)).1
    have hcontent := (hlook b.1 hstart (hpre _ hb)).symm.trans (hmerged _ _ hb)
    exact ⟨hstart, unexpired_eq_some.mp hcontent⟩
  · intro k r hk hin hcontent hpost
    have hmem : (k, some r) ∈ merged.entries := by
      rw [Table.mem_entries_iff, hlook k hk hin]
      exact unexpired_eq_some.mpr hcontent
    rw [hsplit] at hmem
    rcases List.mem_append.mp hmem with hmem | hmem
    · exact mem_liveOf.mpr hmem
    · exact absurd rfl (hpost _ hmem)

/-- The page is full, and the next merged key is known. -/
theorem Visited.full {k : Bytes} {v : Option Record}
    (h : Visited t start boundary pre ((k, v) :: post)) (hk : Within boundary k)
    (hpos : 0 < (liveOf pre).length) : PageOk t start (liveOf pre) (some k) := by
  obtain ⟨hprelt, hpostlt, hcross⟩ := List.pairwise_append.mp h.sorted
  have hbefore : ∀ b ∈ liveOf pre, b.1 < k := by
    intro b hb
    exact hcross _ (mem_liveOf.mp hb) (k, v) List.mem_cons_self
  have hkpost : ∀ b ∈ (k, v) :: post, k ≤ b.1 := by
    intro b hb
    rcases List.mem_cons.mp hb with rfl | hb
    · exact le_rfl
    · exact ((List.pairwise_cons.mp hpostlt).1 b hb).le
  refine ⟨liveOf_ascending hprelt, h.sound, ?_, ?_, ?_⟩
  · intro x r hx hlt hcontent
    have hxk := hlt k rfl
    refine h.found x r hx (fun b hb => hxk.le.trans (hk b hb)) hcontent ?_
    rintro b hb rfl
    exact absurd (hkpost b hb) (not_le.mpr hxk)
  · intro n hn
    cases hn
    exact hbefore
  · intro n hn
    cases hn
    obtain ⟨b, hb⟩ := List.exists_mem_of_length_pos hpos
    exact ⟨(h.sound b hb).1.trans_lt (hbefore b hb), b.1, h.bound _ (mem_liveOf.mp hb),
      hbefore b hb⟩

/-- Nothing was cut off, and nothing is left. -/
theorem Visited.last (h : Visited t start none pre post)
    (hstop : ∀ b, post.head? = some b → ¬ Within none b.1) :
    PageOk t start (liveOf pre) none := by
  have hnil : post = [] := by
    cases post with
    | nil => rfl
    | cons b => exact absurd (within_none _) (hstop b rfl)
  refine ⟨liveOf_ascending (List.pairwise_append.mp h.sorted).1, h.sound, ?_,
    fun n hn => (by cases hn), fun n hn => (by cases hn)⟩
  intro x r hx _ hcontent
  exact h.found x r hx (within_none x) hcontent (by simp [hnil])

/-- The page ends at the boundary and resumes just behind it. -/
theorem Visited.cut {c : Bytes} (h : Visited t start (some c) pre post) (hc : Bound t start c)
    (hstop : ∀ b, post.head? = some b → ¬ Within (some c) b.1) :
    PageOk t start (liveOf pre) (some (successor c)) := by
  obtain ⟨hprelt, hpostlt, -⟩ := List.pairwise_append.mp h.sorted
  have hpost : ∀ b ∈ post, c < b.1 := by
    intro b hb
    cases post with
    | nil => cases hb
    | cons b₀ =>
      have hfirst : c < b₀.1 := not_le.mp (fun hle => hstop b₀ rfl ((within_some c _).mpr hle))
      rcases List.mem_cons.mp hb with rfl | hb
      · exact hfirst
      · exact hfirst.trans ((List.pairwise_cons.mp hpostlt).1 b hb)
  refine ⟨liveOf_ascending hprelt, h.sound, ?_, ?_, ?_⟩
  · intro x r hx hlt hcontent
    have hxc : x ≤ c := by
      by_contra hgt
      exact absurd (hlt _ rfl) (not_lt.mpr (append_zero_le_of_lt (not_le.mp hgt)))
    refine h.found x r hx ((within_some c x).mpr hxc) hcontent ?_
    rintro b hb rfl
    exact absurd hxc (not_le.mpr (hpost b hb))
  · intro n hn b hb
    cases hn
    have hle := (within_some c _).mp (h.within _ (mem_liveOf.mp hb))
    exact hle.trans_lt (lt_append_zero c)
  · intro n hn
    cases hn
    exact ⟨hc.1.trans_lt (lt_append_zero c), c, hc, lt_append_zero c⟩

end Visited

theorem page_ok (hwf : WellFormed t.files t.version) (hexp : NoExpiry t)
    (htight : Tight t limit nowMs start) :
    ∃ page next, scan t start limit nowMs = .ok (page, next) ∧ PageOk t start page next := by
  obtain ⟨g, hg, hbound, hlook, hcut⟩ := gather_content hwf hexp start limit nowMs
  refine ⟨_, _, by rw [scan, hg], ?_⟩
  obtain ⟨pre, post, hsplit, hpre, hout, hend⟩ :=
    pageLoop_split (pageLimit limit) g.boundary g.merged.entries []
  rw [List.nil_append] at hout
  have hvisited := visited_of_merged hbound hlook hsplit hpre
  rw [takePage, hout]
  rcases hend with ⟨k, v, post', rfl, hnext, hfull⟩ | ⟨hnext, hstop⟩
  · rw [hnext, Option.some_or]
    refine hvisited.full (htight g hg k hnext) ?_
    rw [← hout, hfull]
    exact Nat.lt_of_lt_of_le Nat.one_pos (le_max_right _ _)
  · rw [hnext, Option.none_or]
    cases hb : g.boundary with
    | none =>
      rw [hb] at hvisited hstop
      exact hvisited.last hstop
    | some c =>
      rw [hb] at hvisited hstop
      exact hvisited.cut (hcut c hb) hstop

/-- How many entries a scan from a key has before it. -/
def remaining (t : Tree) (start : Bytes) : ℕ :=
  ((scanSources t).flatten.filter (fun b => start ≤ b.1)).length

theorem remaining_lt {next : Bytes} (hlt : start < next)
    (h : ∃ x, Bound t start x ∧ x < next) : remaining t next < remaining t start := by
  obtain ⟨x, ⟨hx, l, hl, e, he⟩, hxn⟩ := h
  have hmem : (x, e) ∈ (scanSources t).flatten := List.mem_flatten.mpr ⟨l, hl, he⟩
  have hsub : ((scanSources t).flatten.filter (fun b => next ≤ b.1)) =
      ((scanSources t).flatten.filter (fun b => start ≤ b.1)).filter (fun b => next ≤ b.1) := by
    rw [List.filter_filter]
    apply List.filter_congr
    intro b _
    by_cases hb : next ≤ b.1
    · simp [hb, hlt.le.trans hb]
    · simp [hb]
  rw [remaining, remaining, hsub]
  refine List.length_filter_lt_length_iff_exists.mpr ⟨(x, e), ?_, ?_⟩
  · exact List.mem_filter.mpr ⟨hmem, by simpa using hx⟩
  · simpa using hxn

/-- The walk ends, with every live key from its start on. -/
theorem scanAll_exact (hwf : WellFormed t.files t.version) (hexp : NoExpiry t) (fuel : ℕ)
    (start : Bytes) (hfuel : remaining t start < fuel)
    (htight : ∀ s', ReflTransGen (Resumes t limit nowMs) start s' → Tight t limit nowMs s') :
    ∃ pairs, scanAll t limit nowMs fuel start = .ok (some pairs) ∧ Ascending pairs ∧
      ∀ k r, (k, r) ∈ pairs ↔ start ≤ k ∧ t.content k = some (.put r) := by
  induction fuel generalizing start with
  | zero => exact absurd hfuel (Nat.not_lt_zero _)
  | succ fuel ih =>
    obtain ⟨page, next, hscan, hok⟩ := page_ok hwf hexp (htight start .refl)
    cases next with
    | none =>
      refine ⟨page, by rw [scanAll, hscan], hok.ascending, fun k r => ⟨hok.sound (k, r), ?_⟩⟩
      rintro ⟨hk, hcontent⟩
      exact hok.complete k r hk (fun n hn => by cases hn) hcontent
    | some n =>
      obtain ⟨hlt, hprogress⟩ := hok.progress n rfl
      have hless := remaining_lt hlt hprogress
      obtain ⟨rest, hrest, hasc, hmem⟩ := ih n (by omega)
        (fun s' hs' => htight s' (.head ⟨page, hscan⟩ hs'))
      refine ⟨page ++ rest, ?_, ?_, fun k r => ?_⟩
      · rw [scanAll, hscan]
        dsimp only
        rw [hrest]
        rfl
      · refine List.pairwise_append.mpr ⟨hok.ascending, hasc, ?_⟩
        intro a ha b hb
        exact (hok.before n rfl a ha).trans_le ((hmem b.1 b.2).mp hb).1
      · rw [List.mem_append, hmem]
        constructor
        · rintro (hk | ⟨hk, hcontent⟩)
          · exact hok.sound (k, r) hk
          · exact ⟨hlt.le.trans hk, hcontent⟩
        · rintro ⟨hk, hcontent⟩
          by_cases hkn : k < n
          · exact Or.inl (hok.complete k r hk (fun m hm => Option.some.inj hm ▸ hkn) hcontent)
          · exact Or.inr ⟨not_lt.mp hkn, hcontent⟩

end Pages

/-- A frozen memtable with `d`, and an active one with a tombstone for `a` and
records for `b` and `c`. -/
def fourKeys : State :=
  { init 0 with
    active := Table.empty.insertAll
      (writes [⟨[97], .delete⟩, ⟨[98], .put ⟨[1], 0⟩⟩, ⟨[99], .put ⟨[1], 0⟩⟩])
    immutable := [⟨1, Table.empty.insertAll (writes [⟨[100], .put ⟨[1], 0⟩⟩])⟩]
    nextFileNumber := 3
    logNumber := 2 }

/-- Any batch over a frozen memtable with `d`. -/
theorem overFrozen_reachable (muts : List Mutation) : Reachable eagerOptions wholeScores
    { init 0 with
      active := Table.empty.insertAll (writes muts)
      immutable := [⟨1, Table.empty.insertAll (writes [⟨[100], .put ⟨[1], 0⟩⟩])⟩]
      nextFileNumber := 3
      logNumber := 2 } := by
  have hfreeze := (oneWrite_reachable 0 [⟨[100], .put ⟨[1], 0⟩⟩]).tail
    ⟨_, .allocateLog _ rfl (by decide)⟩
  have hswap := hfreeze.tail ⟨_, .swapLog _ 2 rfl⟩
  exact ⟨init 0, init_opened 0, hswap.tail ⟨_, .append _ muts rfl⟩⟩

theorem fourKeys_reachable : Reachable eagerOptions wholeScores fourKeys :=
  overFrozen_reachable [⟨[97], .delete⟩, ⟨[98], .put ⟨[1], 0⟩⟩, ⟨[99], .put ⟨[1], 0⟩⟩]

end RedisFromScratch.ScanPaging
