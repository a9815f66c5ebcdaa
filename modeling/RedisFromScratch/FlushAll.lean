import RedisFromScratch.FlushPages
import RedisFromScratch.KeptEntries

/-!
Wiping the engine. A call walks the keys by pages of ten thousand and writes a
tombstone for every key of a page before it asks for the next one. Freezes,
flushes and compactions go on in between. Behind the walk every key is gone for
good, as long as no full page resumes beyond its boundary; the keys such a page
skips are still there when the call returns.
-/
namespace RedisFromScratch.FlushAll

open ByteStrings SortedTables NewestWins EngineTypes SsTables Versions LsmTree Compaction
open CompactionAgreement TreeRuns TreeInvariant TreeSteps TreeContents BoundedMerges TreeScans
open ScanPaging KeptEntries FlushPages Relation Runs
open StoreRecords (Record)

variable {F : Type} {o : Options} {sc : Scores F}

def tombstones (page : List (Bytes × Record)) : List Mutation :=
  page.map (fun b => ⟨b.1, .delete⟩)

/-- Where a call is: before a scan, between a page and its tombstones, or over. -/
inductive Stage
  | scanning (start : Bytes)
  | writing (page : List (Bytes × Record)) (next : Option Bytes)
  | failed
  | done

/-- Where the next scan will start. -/
def Stage.next : Stage → Option Bytes
  | .scanning start => some start
  | .writing _ next => next
  | _ => none

/-- The page whose tombstones are still to be written. -/
def Stage.page : Stage → List (Bytes × Record)
  | .writing page _ => page
  | _ => []

def resume : Option Bytes → Stage
  | some k => .scanning k
  | none => .done

theorem resume_next (next : Option Bytes) : (resume next).next = next := by cases next <;> rfl

theorem resume_page (next : Option Bytes) : (resume next).page = [] := by cases next <;> rfl

/-- A running tree, a call on it, and how many pages the call has read. -/
structure Flush where
  state : State
  stage : Stage
  pages : ℕ

/-- The call's steps, and the steps of everything but writers. -/
inductive FlushStep (o : Options) (sc : Scores F) : Flush → Flush → Prop
  | background (f : Flush) (a : Act) (s : State) (hstep : Step o sc f.state a s)
      (ha : ∀ muts, a ≠ .append muts) : FlushStep o sc f { f with state := s }
  | scan (f : Flush) (start : Bytes) (page : List (Bytes × Record)) (next : Option Bytes)
      (hstage : f.stage = .scanning start) (hlock : f.state.freezing = none)
      (hscan : scan f.state.tree start 10000 i64Min = .ok (page, next)) :
      FlushStep o sc f { f with stage := .writing page next, pages := f.pages + 1 }
  | scanFails (f : Flush) (start : Bytes) (e : EngineError) (hstage : f.stage = .scanning start)
      (hlock : f.state.freezing = none) (hscan : scan f.state.tree start 10000 i64Min = .error e) :
      FlushStep o sc f { f with stage := .failed }
  | skip (f : Flush) (next : Option Bytes) (hstage : f.stage = .writing [] next) :
      FlushStep o sc f { f with stage := resume next }
  | write (f : Flush) (page : List (Bytes × Record)) (next : Option Bytes) (s : State)
      (hstage : f.stage = .writing page next) (hne : page ≠ [])
      (hstep : Step o sc f.state (.append (tombstones page)) s) :
      FlushStep o sc f { f with state := s, stage := resume next }
  -- a write that fails may have reached the memtable
  | writeFails (f : Flush) (page : List (Bytes × Record)) (next : Option Bytes) (s : State)
      (hstage : f.stage = .writing page next) (hne : page ≠ [])
      (hs : s = f.state ∨ Step o sc f.state (.append (tombstones page)) s) :
      FlushStep o sc f { f with state := s, stage := .failed }

/-- The page about to be written must be tight. -/
def TightPage (f f' : Flush) : Prop :=
  ∀ start, f.stage = .scanning start → f'.stage ≠ f.stage → Tight f.state.tree 10000 i64Min start

/-- The keys a call still has before it, and one for its last page. -/
def keysLeft (t : Tree) : Option Bytes → ℕ
  | some n => (boundKeys t n).card + 1
  | none => 0

/-- Behind the next start every key is gone or about to go. -/
structure Emptying (keys : ℕ) (f : Flush) : Prop where
  inv : Inv f.state
  dropping : Dropping f.state
  budget : f.pages + keysLeft f.state.tree f.stage.next ≤ keys + 1
  before : ∀ n, f.stage.next = some n → ∀ b ∈ f.stage.page, b.1 < n
  gone : f.stage ≠ .failed → ∀ k, (∀ n, f.stage.next = some n → k < n) →
    Gone f.state.tree k ∨ ∃ r, (k, r) ∈ f.stage.page

section Steps

variable {s s' : State}

theorem keysLeft_mono {next : Option Bytes} (h : ∀ n, next = some n → ∀ k, n ≤ k →
    s'.tree.content k ≠ none → s.tree.content k ≠ none) :
    keysLeft s'.tree next ≤ keysLeft s.tree next := by
  cases next with
  | none => exact le_rfl
  | some n =>
    refine Nat.succ_le_succ (Finset.card_le_card (fun k hk => ?_))
    obtain ⟨hle, hcontent⟩ := mem_boundKeys.mp hk
    exact mem_boundKeys.mpr ⟨hle, h n rfl k hle hcontent⟩

/-- What a batch of tombstones leaves at a key. -/
theorem content_tombstones (hinv : Inv s) {page : List (Bytes × Record)}
    (hstep : Step o sc s (.append (tombstones page)) s') (k : Bytes) :
    ((∃ r, (k, r) ∈ page) → s'.tree.content k = some .delete) ∧
      ((∀ b ∈ page, b.1 ≠ k) → s'.tree.content k = s.tree.content k) := by
  have hcontent := content_append hinv hstep k
  have hwrites : writes (tombstones page) = page.map (fun b => (b.1, Entry.delete)) :=
    List.map_map
  rw [hwrites] at hcontent
  cases hlast : lastWrite k (page.map (fun b => (b.1, Entry.delete))) with
  | some =>
    rw [hlast, Option.some_or] at hcontent
    obtain ⟨b, hb, heq⟩ := List.mem_map.mp (mem_of_lastWrite hlast)
    cases heq
    exact ⟨fun _ => hcontent, fun hne => absurd rfl (hne b hb)⟩
  | none =>
    rw [hlast, Option.none_or] at hcontent
    refine ⟨?_, fun _ => hcontent⟩
    rintro ⟨r, hr⟩
    exact absurd rfl ((lastWrite_eq_none_iff k _).mp hlast (k, .delete)
      (List.mem_map_of_mem (f := fun b => (b.1, Entry.delete)) hr))

variable {keys : ℕ} {f f' : Flush}

theorem Emptying.background (h : Emptying keys f) {a : Act} (hstep : Step o sc f.state a s)
    (ha : ∀ muts, a ≠ .append muts) : Emptying keys { f with state := s } := by
  have hkept := content_kept h.inv h.dropping hstep ha
  refine ⟨inv_step h.inv hstep, dropping_step h.inv h.dropping hstep, ?_, h.before, ?_⟩
  · refine le_trans (Nat.add_le_add_left (keysLeft_mono (fun _ _ k _ hk => ?_)) _) h.budget
    rcases hkept k with hsame | hnone
    · exact hsame ▸ hk
    · exact absurd hnone hk
  · intro hfailed k hk
    refine (h.gone hfailed k hk).imp_left (fun hgone r hr => ?_)
    rcases hkept k with hsame | hnone
    · exact hgone r (hsame.symm.trans hr)
    · cases hnone.symm.trans hr

theorem Emptying.scan (h : Emptying keys f) {start : Bytes} {page : List (Bytes × Record)}
    {next : Option Bytes} (hstage : f.stage = .scanning start)
    (hscan : scan f.state.tree start 10000 i64Min = .ok (page, next))
    (htight : Tight f.state.tree 10000 i64Min start) :
    Emptying keys { f with stage := .writing page next, pages := f.pages + 1 } := by
  obtain ⟨page', next', hscan', hfrom, hcovers⟩ := page_spec (t := f.state.tree)
    h.inv.wellFormed start 10000
  cases hscan'.symm.trans hscan
  have hbudget := h.budget
  rw [hstage] at hbudget
  change f.pages + ((boundKeys f.state.tree start).card + 1) ≤ keys + 1 at hbudget
  refine ⟨h.inv, h.dropping, ?_, hfrom.before, ?_⟩
  · change f.pages + 1 + keysLeft f.state.tree next ≤ keys + 1
    cases next with
    | none =>
      change f.pages + 1 + 0 ≤ keys + 1
      omega
    | some n =>
      have hlt : (boundKeys f.state.tree n).card < (boundKeys f.state.tree start).card :=
        hfrom.card_lt rfl (fun _ _ hk => hk)
      change f.pages + 1 + ((boundKeys f.state.tree n).card + 1) ≤ keys + 1
      omega
  · intro _ k hk
    by_cases hstart : start ≤ k
    · exact hcovers htight k hstart hk
    · -- the key lies behind the start
      have hold := h.gone (by simp [hstage]) k (fun n hn => by
        rw [hstage] at hn
        cases hn
        exact not_le.mp hstart)
      rw [hstage] at hold
      refine hold.imp_right ?_
      rintro ⟨r, hr⟩
      cases hr

theorem Emptying.skip (h : Emptying keys f) {next : Option Bytes}
    (hstage : f.stage = .writing [] next) : Emptying keys { f with stage := resume next } := by
  have hbudget := h.budget
  have hgone := h.gone
  rw [hstage] at hbudget hgone
  refine ⟨h.inv, h.dropping, ?_, ?_, ?_⟩
  · rw [resume_next]
    exact hbudget
  · rw [resume_page]
    simp
  · rw [resume_next, resume_page]
    exact fun _ => hgone (by simp)

theorem Emptying.write (h : Emptying keys f) {page : List (Bytes × Record)}
    {next : Option Bytes} (hstage : f.stage = .writing page next)
    (hstep : Step o sc f.state (.append (tombstones page)) s) :
    Emptying keys { f with state := s, stage := resume next } := by
  have hcontent := content_tombstones h.inv hstep
  have hbudget := h.budget
  have hgone := h.gone
  have hbefore := h.before
  rw [hstage] at hbudget hgone hbefore
  refine ⟨inv_step h.inv hstep, dropping_step h.inv h.dropping hstep, ?_, ?_, ?_⟩
  · rw [resume_next]
    refine le_trans (Nat.add_le_add_left (keysLeft_mono (fun n hn k hle hk => ?_)) _) hbudget
    rw [(hcontent k).2] at hk
    · exact hk
    · rintro b hb rfl
      exact absurd (hbefore n hn b hb) (not_lt.mpr hle)
  · rw [resume_page]
    simp
  · rw [resume_next, resume_page]
    intro _ k hk
    refine Or.inl (fun r hr => ?_)
    by_cases hin : ∃ r, (k, r) ∈ page
    · rw [(hcontent k).1 hin] at hr
      cases hr
    · have hsame := (hcontent k).2 (fun b hb heq => hin ⟨b.2, heq ▸ hb⟩)
      exact (hgone (by simp) k hk).resolve_right hin r (hsame.symm.trans hr)

theorem Emptying.step (h : Emptying keys f)
    (hstep : Guarded (FlushStep o sc) TightPage f f') : Emptying keys f' := by
  obtain ⟨hstep, htight⟩ := hstep
  cases hstep with
  | background a s hstep ha => exact h.background hstep ha
  | scan start page next hstage hlock hscan =>
    exact h.scan hstage hscan (htight start hstage (by simp [hstage]))
  | scanFails start e hstage hlock hscan =>
    obtain ⟨page, next, hok, -⟩ := page_spec (t := f.state.tree) h.inv.wellFormed start 10000
    rw [hok] at hscan
    cases hscan
  | skip next hstage => exact h.skip hstage
  | write page next s hstage hne hstep => exact h.write hstage hstep
  | writeFails page next s hstage hne hs =>
    have hbudget := (Nat.le_add_right _ _).trans h.budget
    refine ⟨?_, ?_, hbudget, fun n hn => (by cases hn), fun hne => absurd rfl hne⟩
    · rcases hs with rfl | hstep
      · exact h.inv
      · exact inv_step h.inv hstep
    · rcases hs with rfl | hstep
      · exact h.dropping
      · exact dropping_step h.inv h.dropping hstep

theorem Emptying.start (hreach : Reachable o sc s) :
    Emptying (boundKeys s.tree []).card ⟨s, .scanning [], 0⟩ where
  inv := inv_reachable hreach
  dropping := dropping_reachable hreach
  budget := le_of_eq (Nat.zero_add _)
  before n _ b hb := by cases hb
  gone _ k hk := absurd (hk [] rfl) (List.not_lt_nil k)

theorem get_of_gone {t : Tree} (hwf : WellFormed t.files t.version) {k : Bytes} (h : Gone t k)
    {now : ℤ} (hnow : i64Min ≤ now) : t.get k now = .ok none := by
  rw [Tree.get_eq_content hwf]
  match hcontent : t.content k with
  | none => rfl
  | some .delete => rfl
  | some (.put r) =>
    have hexpired := (h r hcontent).mono hnow
    rw [seen_some, Entry.live, if_pos hexpired]

end Steps

/-- From any start a call can go on to its end, and it leaves the keys behind
the start alone. -/
theorem flush_returns (o : Options) (sc : Scores F) {s : State} (hinv : Inv s)
    (hlock : s.freezing = none) (start : Bytes) (pages : ℕ) :
    ∃ f, ReflTransGen (FlushStep o sc) ⟨s, .scanning start, pages⟩ f ∧
      f.stage = .done ∧ Inv f.state ∧
      ∀ k, k < start → f.state.tree.content k = s.tree.content k := by
  induction hm : (boundKeys s.tree start).card using Nat.strong_induction_on
    generalizing s start pages with
  | _ m ih =>
    obtain ⟨page, next, hscan, hfrom, -⟩ := page_spec (t := s.tree) hinv.wellFormed start 10000
    have hread : FlushStep o sc ⟨s, .scanning start, pages⟩ ⟨s, .writing page next, pages + 1⟩ :=
      .scan ⟨s, .scanning start, pages⟩ start page next rfl hlock hscan
    obtain ⟨s', hinv', hlock', hwrite, hsame⟩ : ∃ s', Inv s' ∧ s'.freezing = none ∧
        FlushStep o sc ⟨s, .writing page next, pages + 1⟩ ⟨s', resume next, pages + 1⟩ ∧
        ∀ k, (∀ b ∈ page, b.1 ≠ k) → s'.tree.content k = s.tree.content k := by
      by_cases hne : page = []
      · subst hne
        exact ⟨s, hinv, hlock, .skip ⟨s, .writing [] next, pages + 1⟩ next rfl, fun _ _ => rfl⟩
      · have hstep : Step o sc s (.append (tombstones page)) _ := .append s _ hlock
        exact ⟨_, inv_step hinv hstep, hlock,
          .write ⟨s, .writing page next, pages + 1⟩ page next _ rfl hne hstep,
          fun k hk => (content_tombstones hinv hstep k).2 hk⟩
    have hbehind : ∀ k, k < start → s'.tree.content k = s.tree.content k := fun k hk =>
      hsame k (fun b hb heq => absurd hk (not_lt.mpr (heq ▸ hfrom.start_le b hb)))
    cases next with
    | none => exact ⟨_, (ReflTransGen.single hread).tail hwrite, rfl, hinv', hbehind⟩
    | some n =>
      obtain ⟨x, hx, hxn, -⟩ := hfrom.progress n rfl
      have hless : (boundKeys s'.tree n).card < m := by
        rw [← hm]
        refine hfrom.card_lt rfl (fun k hle hk => ?_)
        rwa [hsame k (fun b hb heq => absurd (hfrom.before n rfl b hb)
          (not_lt.mpr (heq ▸ hle)))] at hk
      obtain ⟨f, hrun, hdone, hf, hkeep⟩ := ih _ hless hinv' hlock' n (pages + 1) rfl
      refine ⟨f, ((ReflTransGen.single hread).tail hwrite).trans hrun, hdone, hf, fun k hk => ?_⟩
      rw [hkeep k (hk.trans (hx.trans_lt hxn)), hbehind k hk]

end RedisFromScratch.FlushAll
