import RedisFromScratch.FlushAll

/-!
The engine as its client sees it: a map from keys to records, and the requests
that read and change it. Every request is one step, except for a wipe, which is
a scan of a page and the deletion of what the page holds, again and again. The
map is the content of the running tree.
-/
namespace RedisFromScratch.EngineRequests

open ByteStrings SortedTables NewestWins EngineTypes SsTables Versions LsmTree Compaction
open CompactionAgreement TreeRuns TreeInvariant TreeSteps TreeContents BoundedMerges TreeScans
open ScanPaging FlushPages FlushAll StoreRecords

abbrev Map := Bytes → Option Record

def Map.empty : Map := fun _ => none

/-- How far a wipe has come. -/
inductive Wipe
  | scanning (start : Bytes)
  | writing (page : List (Bytes × Record)) (next : Option Bytes)

/-- The keys a wipe is done with. -/
def Wipe.Behind : Wipe → Bytes → Prop
  | .scanning start, k => k < start
  | .writing page next, k => (∀ n, next = some n → k < n) ∧ ∀ b ∈ page, b.1 ≠ k

inductive Rpc
  | get (key : Bytes) (nowMs : ℤ)
  | put (key : Bytes) (rec : Record)
  | delete (key : Bytes) (nowMs : ℤ)
  | batchWrite (muts : List StoreRecords.Mutation)
  | flushAll (wipe : Wipe)

inductive Reply
  | done
  | found (rec : Option Record)
  | existed (b : Bool)

def Map.applyAll (m : Map) (muts : List StoreRecords.Mutation) : Map :=
  muts.foldl (fun m mu => Function.update m mu.key mu.outcome) m

def Map.eraseAll (m : Map) (page : List (Bytes × Record)) : Map :=
  page.foldl (fun m b => Function.update m b.1 none) m

/-- A request carried out as a whole. -/
def Rpc.whole : Rpc → Map → Map × Reply
  | .get key nowMs, m => (m, .found (live nowMs (m key)))
  | .put key rec, m => (Function.update m key (some rec), .done)
  | .delete key nowMs, m =>
      (Function.update m key none, .existed (live nowMs (m key)).isSome)
  | .batchWrite muts, m => (m.applyAll muts, .done)
  | .flushAll _, _ => (Map.empty, .done)

/-- What a page of a wipe may be: records of the map, between its start and the
key the next page starts at. -/
structure PageOf (m : Map) (start : Bytes) (page : List (Bytes × Record))
    (next : Option Bytes) : Prop where
  start_le : ∀ b ∈ page, start ≤ b.1
  before : ∀ n, next = some n → ∀ b ∈ page, b.1 < n
  holds : ∀ b ∈ page, m b.1 = some b.2
  progress : ∀ n, next = some n → start < n

/-- The page has skipped nothing. -/
def Complete (m : Map) (start : Bytes) (page : List (Bytes × Record)) (next : Option Bytes) :
    Prop :=
  ∀ k, start ≤ k → (∀ n, next = some n → k < n) → (∀ b ∈ page, b.1 ≠ k) → live i64Min (m k) = none

/-- One step of the engine on a request, which then goes on or is answered. -/
inductive Exec : Map → Rpc → Map → Rpc ⊕ Reply → Prop
  | whole (m : Map) (rpc : Rpc) (h : ∀ wipe, rpc ≠ .flushAll wipe) :
      Exec m rpc (rpc.whole m).1 (.inr (rpc.whole m).2)
  | scanPage (m : Map) (start : Bytes) (page : List (Bytes × Record)) (next : Option Bytes)
      (h : PageOf m start page next) :
      Exec m (.flushAll (.scanning start)) m (.inl (.flushAll (.writing page next)))
  | writePage (m : Map) (page : List (Bytes × Record)) (n : Bytes) :
      Exec m (.flushAll (.writing page (some n))) (m.eraseAll page)
        (.inl (.flushAll (.scanning n)))
  | writeLast (m : Map) (page : List (Bytes × Record)) :
      Exec m (.flushAll (.writing page none)) (m.eraseAll page) (.inr .done)

section Maps

variable (m : Map)

theorem applyAll_eq (muts : List StoreRecords.Mutation) (k : Bytes) : m.applyAll muts k =
    (lastWrite k (muts.map (fun mu => (mu.key, mu.outcome)))).getD (m k) := by
  induction muts generalizing m with
  | nil => rfl
  | cons mu muts ih =>
    change Map.applyAll (Function.update m mu.key mu.outcome) muts k = _
    rw [ih, List.map_cons, lastWrite_cons]
    cases lastWrite k (muts.map (fun mu => (mu.key, mu.outcome))) with
    | some => rfl
    | none =>
      by_cases hk : k = mu.key
      · subst hk
        simp
      · simp [hk]

theorem applyAll_of_not_mem {muts : List StoreRecords.Mutation} {k : Bytes}
    (h : ∀ mu ∈ muts, mu.key ≠ k) : m.applyAll muts k = m k := by
  rw [applyAll_eq, (lastWrite_eq_none_iff k _).mpr]
  · rfl
  · intro b hb
    obtain ⟨mu, hmu, rfl⟩ := List.mem_map.mp hb
    exact h mu hmu

/-- Where a batch writes, what it leaves does not depend on what was there. -/
theorem applyAll_of_mem (m' : Map) {muts : List StoreRecords.Mutation} {k : Bytes}
    (h : ∃ mu ∈ muts, mu.key = k) : m.applyAll muts k = m'.applyAll muts k := by
  rw [applyAll_eq, applyAll_eq]
  cases hlast : lastWrite k (muts.map (fun mu => (mu.key, mu.outcome))) with
  | some => rfl
  | none =>
    obtain ⟨mu, hmu, hkey⟩ := h
    exact absurd hkey ((lastWrite_eq_none_iff k _).mp hlast (mu.key, mu.outcome)
      (List.mem_map_of_mem (f := fun mu => (mu.key, mu.outcome)) hmu))

theorem eraseAll_eq (page : List (Bytes × Record)) (k : Bytes) :
    ((∃ b ∈ page, b.1 = k) → m.eraseAll page k = none) ∧
      ((∀ b ∈ page, b.1 ≠ k) → m.eraseAll page k = m k) := by
  induction page generalizing m with
  | nil => exact ⟨fun h => (by simp at h), fun _ => rfl⟩
  | cons b page ih =>
    have hcons : m.eraseAll (b :: page) = Map.eraseAll (Function.update m b.1 none) page := rfl
    rw [hcons]
    obtain ⟨hin, hout⟩ := ih (Function.update m b.1 none)
    by_cases hrest : ∃ c ∈ page, c.1 = k
    · refine ⟨fun _ => hin hrest, fun hne => ?_⟩
      obtain ⟨c, hc, hck⟩ := hrest
      exact absurd hck (hne c (List.mem_cons_of_mem _ hc))
    · have hsame := hout (fun c hc hck => hrest ⟨c, hc, hck⟩)
      rw [hsame]
      by_cases hk : b.1 = k
      · subst hk
        exact ⟨fun _ => Function.update_self _ _ _, fun hne =>
          absurd rfl (hne b List.mem_cons_self)⟩
      · refine ⟨fun ⟨c, hc, hck⟩ => ?_, fun _ => Function.update_of_ne (Ne.symm hk) _ _⟩
        rcases List.mem_cons.mp hc with rfl | hc
        · exact absurd hck hk
        · exact absurd ⟨c, hc, hck⟩ hrest

end Maps

section Tree

variable {F : Type}

/-- The records of a tree. -/
def records (t : Tree) : Map := fun k => (t.content k).bind unexpired

/-- A mutation as the engine's service reads it. -/
def toEngine (mu : StoreRecords.Mutation) : EngineTypes.Mutation :=
  ⟨mu.key, if mu.delete then .delete else .put mu.record⟩

theorem live_records (o : Option Entry) (nowMs : ℤ) :
    live nowMs (o.bind unexpired) = seen nowMs o := by
  match o with
  | none => rfl
  | some .delete => rfl
  | some (.put r) => rfl

theorem content_of_page {t : Tree} (h : WellFormed t.files t.version) {start : Bytes}
    {page : List (Bytes × Record)} {next : Option Bytes} {nowMs : ℤ} {limit : ℕ}
    (hscan : scan t start limit nowMs = .ok (page, next)) {b : Bytes × Record} (hb : b ∈ page) :
    records t b.1 = some b.2 := by
  have hpage := mem_page h hscan hb
  rw [records, Tree.content, Tree.sources, newest_append]
  cases hmem : newest (memSources t.active t.immutable) b.1 with
  | some e =>
    rw [hmem] at hpage
    cases e with
    | delete => cases hpage
    | put r =>
      by_cases hr : r.Expired nowMs
      · simp [Entry.live, hr] at hpage
      · simpa [Entry.live, unexpired, hr] using hpage
  | none =>
    rw [hmem] at hpage
    cases hfile : newest (versionSources t.files t.version) b.1 with
    | none =>
      rw [hfile] at hpage
      cases hpage
    | some =>
      rw [hfile] at hpage
      exact Option.some.inj hpage

/-- The running tree carries out the requests of the map of its records: a read
answers from it, a batch changes it as the batch says, and a page of a wipe is a
page of it, with nothing skipped where the page is tight. -/
theorem tree_carries_out (o : Options) (sc : Scores F) (s : State) (hreach : Reachable o sc s) :
    (∀ key now, s.tree.get key now = .ok (live now (records s.tree key))) ∧
    (∀ muts s', Step o sc s (.append (muts.map toEngine)) s' →
      records s'.tree = (records s.tree).applyAll muts) ∧
    (∀ start page next, scan s.tree start 10000 i64Min = .ok (page, next) →
      PageOf (records s.tree) start page next ∧
      (Tight s.tree 10000 i64Min start → Complete (records s.tree) start page next)) := by
  have hinv := inv_reachable hreach
  refine ⟨?_, ?_, ?_⟩
  · intro key now
    rw [Tree.get_eq_content (t := s.tree) hinv.wellFormed, records, live_records]
  · intro muts s' hstep
    funext k
    have hwrites : writes (muts.map toEngine) =
        muts.map (fun mu => (mu.key, if mu.delete then Entry.delete else .put mu.record)) :=
      List.map_map
    have houtcome : muts.map (fun mu => (mu.key, mu.outcome)) =
        (writes (muts.map toEngine)).map (fun b => (b.1, unexpired b.2)) := by
      rw [hwrites, List.map_map]
      apply List.map_congr_left
      intro mu _
      simp only [Mutation.outcome, Function.comp_apply]
      split <;> rfl
    rw [applyAll_eq, houtcome, lastWrite_map, records, content_append hinv hstep]
    cases lastWrite k (writes (muts.map toEngine)) with
    | some | none => rfl
  · intro start page next hscan
    obtain ⟨page', next', hscan', hfrom, hcovers⟩ :=
      page_spec (t := s.tree) hinv.wellFormed start 10000
    cases hscan'.symm.trans hscan
    refine ⟨⟨hfrom.start_le, hfrom.before, fun b hb => content_of_page (t := s.tree)
      hinv.wellFormed hscan hb, ?_⟩, ?_⟩
    · intro n hn
      obtain ⟨x, hx, hxn, -⟩ := hfrom.progress n hn
      exact hx.trans_lt hxn
    · intro htight k hk hlt hpage
      have hgone : Gone s.tree k := (hcovers htight k hk hlt).resolve_right
        (fun ⟨r, hr⟩ => absurd rfl (hpage (k, r) hr))
      rw [records, live_records]
      match hcontent : s.tree.content k with
      | none => rfl
      | some .delete => rfl
      | some (.put r) => exact if_pos (hgone r hcontent)

/-- A write in a fresh directory is read from the map. -/
theorem first_write_carried_out : ∃ s, Reachable eagerOptions wholeScores s ∧
    s.tree.get [107] 0 = .ok (live 0 (records s.tree [107])) := by
  have hreach : Reachable eagerOptions wholeScores (oneWrite 0 [⟨[107], .put ⟨[118], 0⟩⟩]) :=
    ⟨TreeRuns.init 0, TreeRuns.init_opened 0, oneWrite_reachable 0 _⟩
  exact ⟨_, hreach, (tree_carries_out _ _ _ hreach).1 [107] 0⟩

end Tree

end RedisFromScratch.EngineRequests
