import RedisFromScratch.TreeContents

/-!
Point reads beside writers and background work. A read looks at the memtables
at one instant and takes the version at a later one; in between entries are
written, frozen, flushed and compacted. What the version then says was the
content at some instant of the call, unless a compaction dropped a record that
had expired on its clock and not yet at the reader's time.
-/
namespace RedisFromScratch.PointReads

open ByteStrings SortedTables NewestWins EngineTypes SsTables Versions LsmTree Compaction
open CompactionAgreement TreeRuns TreeInvariant TreeSteps TreeContents Relation Runs
open StoreRecords (Record)

variable {F : Type} {o : Options} {sc : Scores F} {s s' : State}

/-- A compaction installed between the two looks of a read used no time later
than the read's own. -/
def ClockBehindReaders (s s' : State) : Prop :=
  ∀ next plan reads, s.job = .publishing next (.compaction plan reads) → s'.version = next →
    ∀ i key nowMs, s.reader i = .missed key nowMs → ∀ k, reads k ≤ nowMs

/-- The states of one call, from the request to the answer: reader `i` asks, is
never idle, and has its result in the last one. -/
structure Call (step : State → State → Prop) (i : ℕ) (key : Bytes) (nowMs : ℤ)
    (result : Except EngineError (Option Record)) (first : State) (states : List State) :
    Prop where
  steps : (first :: states).IsChain step
  asked : first.reader i = .asked key nowMs
  busy : ∀ t ∈ states, t.reader i ≠ .idle
  answered : ∃ key' nowMs', ((first :: states).getLast (List.cons_ne_nil _ _)).reader i =
    .done key' nowMs' result

/-- The result is the content at some instant of the call. -/
def Linearizable (key : Bytes) (nowMs : ℤ) (result : Except EngineError (Option Record))
    (states : List State) : Prop :=
  ∃ t ∈ states, result = .ok (seen nowMs (t.tree.content key))

theorem newest_candidates {files : TableFiles} {v : Version} (h : WellFormed files v)
    (key : Bytes) : newest ((candidates v key).map (entriesOf files)) key =
      newest (versionSources files v) key := by
  have hlevels : ∀ ls : List ℕ, (∀ l ∈ ls, 0 < l) →
      newest ((ls.filterMap (fun l => v.findInLevel l key)).map (entriesOf files)) key =
        levelsEntry files v ls key := by
    intro ls hls
    induction ls with
    | nil => rfl
    | cons l ls ih =>
      rw [levelsEntry_cons, h.newest_level (hls l List.mem_cons_self),
        ← ih (fun l' hl' => hls l' (List.mem_cons_of_mem _ hl'))]
      rw [List.filterMap_cons]
      cases v.findInLevel l key with
      | none => rfl
      | some => exact newest_cons _ _ key
  have hcount : v.levelCount - 1 = 6 := by
    rw [Version.levelCount, h.count]
    rfl
  have hsplit : List.range' 0 maxLevels = 0 :: List.range' 1 6 := rfl
  rw [candidates, List.map_append, newest_append, hcount,
    hlevels _ (fun l hl => (List.mem_range'_1.mp hl).1), h.newest_version, hsplit, levelsEntry_cons]

theorem candidates_named (v : Version) (key : Bytes) :
    ∀ f ∈ candidates v key, ∃ l, f ∈ v.level l := by
  intro f hf
  rcases List.mem_append.mp hf with hf | hf
  · exact ⟨0, hf⟩
  · obtain ⟨l, -, hl⟩ := List.mem_filterMap.mp hf
    exact ⟨l, Version.mem_of_findInLevel hl⟩

section Instants

variable (key : Bytes) (nowMs : ℤ) (past : Option Record → Prop)

/-- What a call relies on at each of its stages; `past` are the values the key
has at the instants of the call. -/
def ReaderOk (s : State) : Reader → Prop
  | .asked k t => k = key ∧ t = nowMs
  -- the version, and every memtable that may still get into it, say something past
  | .missed k t => k = key ∧ t = nowMs ∧ past (seen nowMs (versionEntry s key)) ∧
      (∀ e, s.active.lookup key = some e → past (e.live nowMs)) ∧
      ∀ f ∈ s.immutable, ∀ e, f.table.lookup key = some e → past (e.live nowMs)
  | .reading h k t todo => k = key ∧ t = nowMs ∧ (∀ f ∈ todo, ∃ l, f ∈ h.version.level l) ∧
      past (seen nowMs (newest (todo.map (entriesOf s.files)) key))
  | .done _ _ result => ∃ x, result = .ok x ∧ past x
  | _ => False

variable {key nowMs past}

theorem seen_eq_answer {o : Option Entry} {a : Option Record} (h : answer nowMs o = some a) :
    seen nowMs o = a := by
  rw [answer_eq] at h
  cases o with
  | none => cases h
  | some => exact Option.some.inj h

theorem seen_or_of_answer {o : Option Entry} (rest : Option Entry) {a : Option Record}
    (h : answer nowMs o = some a) : seen nowMs (o.or rest) = a := by
  cases o with
  | none => cases h
  | some =>
    rw [Option.some_or]
    exact seen_eq_answer h

theorem answer_eq_none {o : Option Entry} (h : answer nowMs o = none) : o = none := by
  rw [answer_eq, Option.map_eq_none_iff] at h
  exact h

theorem readerOk_afterMem (hpast : past (seen nowMs (s.tree.content key))) :
    ReaderOk key nowMs past s
      (afterMem key nowMs (lookupMem s.active s.immutable key nowMs)) := by
  rw [content_eq] at hpast
  rw [lookupMem_eq]
  change ReaderOk key nowMs past s (afterMem key nowMs (answer nowMs (memEntry s key)))
  cases ha : answer nowMs (memEntry s key) with
  | some a =>
    rw [seen_or_of_answer _ ha] at hpast
    exact ⟨a, rfl, hpast⟩
  | none =>
    have hm := answer_eq_none ha
    rw [hm, Option.none_or] at hpast
    rw [memEntry_eq, Option.or_eq_none_iff] at hm
    refine ⟨rfl, rfl, hpast, fun e he => ?_, fun f hf e he => ?_⟩
    · rw [hm.1] at he
      cases he
    · have hnone := (newest_eq_none_iff _ _).mp hm.2 _ (List.mem_map_of_mem hf)
      rw [Table.lookup, hnone] at he
      cases he

theorem readerOk_afterFile {h : Handle} {f : FileMeta} {todo : List FileMeta}
    (hf : Backed s.files f) (hnamed : ∀ g ∈ todo, ∃ l, g ∈ h.version.level l)
    (hpast : past (seen nowMs (newest ((f :: todo).map (entriesOf s.files)) key))) :
    ReaderOk key nowMs past s
      (afterFile h key nowMs todo (lookupFile s.files f key nowMs)) := by
  rw [hf.lookupFile_eq]
  rw [List.map_cons, newest_cons] at hpast
  cases ha : answer nowMs (find (entriesOf s.files f) key) with
  | some a =>
    rw [seen_or_of_answer _ ha] at hpast
    exact ⟨a, rfl, hpast⟩
  | none =>
    rw [answer_eq_none ha, Option.none_or] at hpast
    exact ⟨rfl, rfl, hnamed, hpast⟩

theorem held_wellFormed (h : Inv s) {i : ℕ} {hd : Handle} (hheld : (s.reader i).holds = some hd) :
    WellFormed s.files hd.version ∧ ∀ n, Names hd.version n → Named s n := by
  rcases h.held i hd hheld with rfl | ⟨p, hp, rfl⟩
  · exact ⟨h.wellFormed, fun n hn => Or.inl hn⟩
  · exact ⟨h.parked p hp, fun n hn => Or.inr ⟨p, hp, hn⟩⟩

/-- A reader that the step is not its own. -/
theorem readerOk_other {a : Act} (h : Inv s) (hstep : Step o sc s a s')
    (hcond : ClockBehindReaders s s') (hpast : past (seen nowMs (s'.tree.content key))) {i : ℕ}
    (hsame : s'.reader i = s.reader i) (hok : ReaderOk key nowMs past s (s.reader i)) :
    ReaderOk key nowMs past s' (s.reader i) := by
  cases hr : s.reader i with
  | idle | asked | done | holding => rw [hr] at hok; exact hok
  | reading hd k t todo =>
    rw [hr] at hok
    obtain ⟨rfl, rfl, hnamed, hvalue⟩ := hok
    have hheld : (s.reader i).holds = some hd := by rw [hr]; rfl
    have hentries : todo.map (entriesOf s'.files) = todo.map (entriesOf s.files) := by
      apply List.map_congr_left
      intro f hf
      obtain ⟨l, hl⟩ := hnamed f hf
      exact entriesOf_congr
        (lookup_step h hstep ((held_wellFormed h hheld).2 _ ⟨l, f, hl, rfl⟩))
    exact ⟨rfl, rfl, hnamed, by rw [hentries]; exact hvalue⟩
  | missed k t =>
    rw [hr] at hok
    obtain ⟨rfl, rfl, hversion, hactive, hfrozen⟩ := hok
    have hkept : s'.version = s.version → past (seen t (versionEntry s' k)) := by
      intro heq
      rw [versionEntry_step h hstep heq]
      exact hversion
    cases hstep with
    | append muts =>
      refine ⟨rfl, rfl, hkept rfl, fun e he => ?_, hfrozen⟩
      rw [content_eq, memEntry_append] at hpast
      rw [Table.lookup_insertAll] at he
      cases hw : lastWrite k (writes muts) with
      | none =>
        rw [hw, Option.none_or] at he
        exact hactive e he
      | some =>
        rw [hw, Option.some_or] at he hpast
        cases he
        exact hpast
    | swapLog =>
      refine ⟨rfl, rfl, hkept rfl, fun e he => (by cases he), fun f hf => ?_⟩
      rcases List.mem_cons.mp hf with rfl | hf
      · exact hactive
      · exact hfrozen f hf
    | popFrozen =>
      exact ⟨rfl, rfl, hkept rfl, hactive, fun f hf => hfrozen f (List.dropLast_subset _ hf)⟩
    | swapVersion next w hjob =>
      refine ⟨rfl, rfl, ?_, hactive, hfrozen⟩
      have hjobok := h.job
      rw [hjob] at hjobok
      change past (seen t (newest (versionSources s.files next) k))
      cases w with
      | flush frozen =>
        obtain ⟨hlast, hnewest⟩ := hjobok.work
        rw [hnewest k]
        cases hk : frozen.table.lookup k with
        | none => exact hversion
        | some e => exact hfrozen frozen (List.mem_of_getLast? hlast) e hk
      | compaction plan reads =>
        have hclock := hcond next plan reads hjob rfl i k t hr
        rw [← hjobok.work.2 t hclock k t le_rfl]
        exact hversion
    | _ => exact ⟨rfl, rfl, hkept rfl, hactive, hfrozen⟩

/-- One step of the call, by whomever it is. -/
theorem readerOk_step {a : Act} (h : Inv s) (hstep : Step o sc s a s')
    (hcond : ClockBehindReaders s s') (hpast : past (seen nowMs (s.tree.content key)))
    (hpast' : past (seen nowMs (s'.tree.content key))) {i : ℕ} (hbusy : s'.reader i ≠ .idle)
    (hok : ReaderOk key nowMs past s (s.reader i)) :
    ReaderOk key nowMs past s' (s'.reader i) := by
  have hother : s'.reader i = s.reader i → ReaderOk key nowMs past s' (s'.reader i) := by
    intro hsame
    rw [hsame]
    exact readerOk_other h hstep hcond hpast' hsame hok
  -- a read step of another reader leaves this one where it is
  have hread : ∀ j r, s' = s.setReader j r → (j = i → ReaderOk key nowMs past s r) →
      ReaderOk key nowMs past s' (s'.reader i) := by
    rintro j r rfl hown
    by_cases hji : j = i
    · subst j
      rw [State.setReader_reader, Function.update_self]
      exact hown rfl
    · exact hother (by rw [State.setReader_reader, Function.update_of_ne (Ne.symm hji)])
  have hidle : ∀ j, s' = s.setReader j .idle → ReaderOk key nowMs past s' (s'.reader i) := by
    intro j heq
    refine hread j .idle heq (fun hji => absurd ?_ hbusy)
    rw [heq, hji, State.setReader_reader, Function.update_self]
  cases hstep with
  | ask j k t hj | hold j hj =>
    refine hread j _ rfl ?_
    rintro rfl
    rw [hj] at hok
    exact hok.elim
  | readMem j k t hj =>
    refine hread j _ rfl ?_
    rintro rfl
    rw [hj] at hok
    obtain ⟨rfl, rfl⟩ := hok
    exact readerOk_afterMem hpast
  | clone j k t hj =>
    refine hread j _ rfl ?_
    rintro rfl
    rw [hj] at hok
    obtain ⟨rfl, rfl, hversion, -⟩ := hok
    refine ⟨rfl, rfl, candidates_named _ _, ?_⟩
    rw [newest_candidates h.wellFormed]
    exact hversion
  | readFile j hd k t f todo hj =>
    refine hread j _ rfl ?_
    rintro rfl
    rw [hj] at hok
    obtain ⟨rfl, rfl, hnamed, hvalue⟩ := hok
    have hheld : (s.reader j).holds = some hd := by rw [hj]; rfl
    obtain ⟨l, hl⟩ := hnamed f List.mem_cons_self
    exact readerOk_afterFile ((held_wellFormed h hheld).1.backed l f hl)
      (fun g hg => hnamed g (List.mem_cons_of_mem _ hg)) hvalue
  | readEnd j hd k t hj =>
    refine hread j _ rfl ?_
    rintro rfl
    rw [hj] at hok
    exact ⟨none, rfl, hok.2.2.2⟩
  | answered j | drop j => exact hidle j rfl
  | _ => exact hother rfl

/-- The whole call. -/
theorem readerOk_call {i : ℕ} {states : List State} (h : Inv s)
    (hchain : (s :: states).IsChain (Guarded (Moves o sc) ClockBehindReaders))
    (hbusy : ∀ t ∈ states, t.reader i ≠ .idle)
    (hpast : ∀ t ∈ s :: states, past (seen nowMs (t.tree.content key)))
    (hok : ReaderOk key nowMs past s (s.reader i)) :
    ReaderOk key nowMs past ((s :: states).getLast (List.cons_ne_nil _ _))
      (((s :: states).getLast (List.cons_ne_nil _ _)).reader i) := by
  induction states generalizing s with
  | nil => exact hok
  | cons t states ih =>
    obtain ⟨⟨⟨a, hstep⟩, hcond⟩, hrest⟩ := List.isChain_cons_cons.mp hchain
    have hnext := readerOk_step h hstep hcond (hpast s List.mem_cons_self)
      (hpast t (List.mem_cons_of_mem _ List.mem_cons_self)) (hbusy t List.mem_cons_self) hok
    rw [List.getLast_cons (List.cons_ne_nil _ _)]
    exact ih (inv_step h hstep) hrest (fun u hu => hbusy u (List.mem_cons_of_mem _ hu))
      (fun u hu => hpast u (List.mem_cons_of_mem _ hu)) hnext

end Instants

/-- Point reads are linearizable in every run whose compactions, when installed
between the two looks of a read, went by times no later than the read's. -/
theorem get_linearizable (o : Options) (sc : Scores F) (s₀ first : State) (states : List State)
    (h₀ : Opened s₀) (hrun : ReflTransGen (Moves o sc) s₀ first)
    (i : ℕ) (key : Bytes) (nowMs : ℤ) (result : Except EngineError (Option Record))
    (hcall : Call (Guarded (Moves o sc) ClockBehindReaders) i key nowMs result first states) :
    Linearizable key nowMs result (first :: states) := by
  obtain ⟨hsteps, hasked, hbusy, key', nowMs', hdone⟩ := hcall
  let past : Option Record → Prop :=
    fun x => ∃ t ∈ first :: states, x = seen nowMs (t.tree.content key)
  have hok : ReaderOk key nowMs past _ _ := readerOk_call (inv_run h₀ hrun) hsteps hbusy
    (fun t ht => ⟨t, ht, rfl⟩) (by rw [hasked]; exact ⟨rfl, rfl⟩)
  rw [hdone] at hok
  obtain ⟨x, rfl, t, ht, rfl⟩ := hok
  exact ⟨t, ht, rfl⟩

/-- A read that finds its key in the active memtable. -/
theorem get_of_memtable_linearizable : ∃ first states,
    Call (Guarded (Moves eagerOptions wholeScores) ClockBehindReaders) 0 [107] 0
      (.ok (some ⟨[118], 0⟩)) first states ∧
    Linearizable [107] 0 (.ok (some ⟨[118], 0⟩)) (first :: states) := by
  let s := oneWrite 0 [⟨[107], .put ⟨[118], 0⟩⟩]
  have hask : Moves eagerOptions wholeScores s (s.setReader 0 (.asked [107] 0)) :=
    ⟨_, .ask s 0 [107] 0 rfl⟩
  have hread : Moves eagerOptions wholeScores (s.setReader 0 (.asked [107] 0)) _ :=
    ⟨_, .readMem (s.setReader 0 (.asked [107] 0)) 0 [107] 0 rfl rfl⟩
  have hcall : Call (Guarded (Moves eagerOptions wholeScores) ClockBehindReaders) 0 [107] 0
      (.ok (some ⟨[118], 0⟩)) _ [_] :=
    ⟨.cons_cons ⟨hread, fun next plan reads hjob => (by cases hjob)⟩ (.singleton _), rfl,
      (fun t ht hidle => by
        rw [List.mem_singleton.mp ht] at hidle
        cases hidle), [107], 0, rfl⟩
  exact ⟨_, _, hcall, get_linearizable eagerOptions wholeScores (init 0) _ _ (init_opened 0)
    ((oneWrite_reachable 0 _).tail hask) 0 [107] 0 _ hcall⟩

/-- The version with one flushed file, and the plan to move it down. -/
def flushedVersion (t : SsTable) : Version := Version.new.addFile 0 (.fromTable 3 t.summary)

def firstPlan (t : SsTable) : Plan := ⟨0, 1, [.fromTable 3 t.summary], []⟩

theorem pick_firstPlan (t : SsTable) :
    pickCompaction eagerOptions wholeScores Table.empty (flushedVersion t) =
      some (firstPlan t) := by
  have hlevels : flushedVersion t = ⟨[[.fromTable 3 t.summary], [], [], [], [], [], []]⟩ := rfl
  have hbest : bestLevel eagerOptions wholeScores (flushedVersion t) = some (1, 0) := by
    simp [hlevels, bestLevel, Version.level, Version.levelCount, eagerOptions, wholeScores,
      Version.levelBytes, List.range'_succ]
  rw [pickCompaction, hbest]
  rfl

theorem install_firstPlan (t : SsTable) :
    installVersion (flushedVersion t) (firstPlan t) [] = .ok Version.new := rfl

/-- Compacting a lone record that has expired leaves no table. -/
theorem output_firstPlan {files : TableFiles} {t : SsTable} {r : Record}
    (hfile : files.lookup 3 = some (some t)) (hiter : t.iter = [([107], .put r)])
    {now : ℤ} (hexpired : r.Expired now) (hwf : WellFormed files (flushedVersion t)) :
    outputTables eagerOptions files (flushedVersion t) (firstPlan t) (fun _ => now) = .ok [] := by
  obtain ⟨outs, houts, hflat, houtsound⟩ := outputTables_ok eagerOptions hwf
    (pickCompaction_valid (pick_firstPlan t)) (fun _ => now)
  have hnone : survivors (flushedVersion t) (firstPlan t) (fun _ => now)
      ((firstPlan t).sources.map (entriesOf files)) = [] := by
    refine List.filter_eq_nil_iff.mpr (fun b hb => ?_)
    obtain ⟨l, hl, hbl⟩ := mem_mergeAll hb
    have hentries : l = t.iter := by
      rw [List.mem_singleton.mp hl]
      exact Backed.entriesOf_eq (f := .fromTable 3 t.summary) hfile
    rw [hentries, hiter] at hbl
    rw [List.mem_singleton.mp hbl]
    have hbottom : IsBottomMost (flushedVersion t) 1 := by
      intro l' hl'
      have hpos : 0 ≠ l' := by
        have := (List.mem_range'_1.mp hl').1
        omega
      rw [flushedVersion, Version.level_addFile _ _ _ (by decide), if_neg hpos, Version.level_new]
    have hdropped : Dropped (flushedVersion t) (firstPlan t).outputLevel (fun _ => now)
        ([107], .put r) := ⟨hexpired, Or.inl hbottom⟩
    simp [hdropped]
  rw [houts]
  cases outs with
  | nil => rfl
  | cons t' =>
    obtain ⟨e, hmin⟩ := (houtsound t' List.mem_cons_self).min_mem
    rw [hnone, List.flatMap_cons, List.append_eq_nil_iff] at hflat
    rw [hflat.1] at hmin
    cases hmin

/-- A record that expires at 5 is on level 0. A read at time 0 misses the
memtables; the key is written again; a compaction at time 10 drops the old
record; the read then takes the version and finds nothing, although the key
was bound at every instant. -/
theorem get_misses_bound_key : ∃ first states,
    ReflTransGen (Moves eagerOptions wholeScores) (init 0) first ∧
    Call (Moves eagerOptions wholeScores) 0 [107] 0 (.ok none) first states ∧
    ¬ Linearizable [107] 0 (.ok none) (first :: states) := by
  let old : Mutation := ⟨[107], .put ⟨[118], 5⟩⟩
  let new : Mutation := ⟨[107], .put ⟨[119], 0⟩⟩
  obtain ⟨t, hiter, hsound, hflush⟩ := flush_completes (s := oneWrite 0 [old]) eagerOptions
    wholeScores rfl rfl rfl (by decide)
  let s := afterFlush (oneWrite 0 [old]) t
  have hrun : ReflTransGen (Moves eagerOptions wholeScores) (init 0) s :=
    (oneWrite_reachable 0 _).trans hflush
  have hinv : Inv s := inv_run (init_opened 0) hrun
  have hfile : s.files.lookup 3 = some (some t) := by
    change ((Table.insert _ 3 none).insert 3 (some t)).lookup 3 = _
    rw [Table.lookup_insert, if_pos rfl]
  let first := s.setReader 0 (.asked [107] 0)
  let s1 := s.setReader 0 (.missed [107] 0)
  let s2 := { s1 with active := s1.active.insertAll (writes [new]) }
  let s3 := { s2 with clock := 10 }
  let s4 := { s3 with job := .merging (firstPlan t) (fun _ => 10) [] none [] }
  let s5 := { s4 with job := .publishing Version.new (.compaction (firstPlan t) (fun _ => 10)) }
  let s6 := { s5 with
    version := Version.new
    installs := s5.installs + 1
    job := .parking ⟨s5.handle, (firstPlan t).sources.map FileMeta.number⟩
      (.compaction (firstPlan t) (fun _ => 10)) }
  let s7 := s6.setReader 0 (.reading s6.handle [107] 0 [])
  let s8 := s7.setReader 0 (.done [107] 0 (.ok none))
  have hagain : first.setReader 0 (.missed [107] 0) = s1 := by
    simp [first, s1, State.setReader]
  refine ⟨first, [s1, s2, s3, s4, s5, s6, s7, s8], hrun.tail ⟨_, .ask s 0 [107] 0 rfl⟩,
    ⟨?_, rfl, ?_, [107], 0, rfl⟩, ?_⟩
  · refine .cons_cons (hagain ▸ ⟨_, .readMem first 0 [107] 0 rfl rfl⟩) ?_
    refine .cons_cons ⟨_, .append s1 [new] rfl⟩ ?_
    refine .cons_cons ⟨_, .tick s2 10 (show (0 : ℤ) ≤ 10 by decide)⟩ ?_
    refine .cons_cons ⟨_, .startCompaction s3 (firstPlan t) _ [] rfl (pick_firstPlan t)
      (output_firstPlan hfile hiter (by decide) hinv.wellFormed)⟩ ?_
    refine .cons_cons ⟨_, .publishCompaction s4 (firstPlan t) _ [] _ rfl (fun _ => le_rfl)
      (install_firstPlan t)⟩ ?_
    refine .cons_cons ⟨_, .swapVersion s5 _ _ rfl⟩ ?_
    refine .cons_cons ⟨_, .clone s6 0 [107] 0 rfl⟩ ?_
    exact .cons_cons ⟨_, .readEnd s7 0 s6.handle [107] 0 rfl⟩ (.singleton _)
  · simp [s1, s2, s3, s4, s5, s6, s7, s8]
  · have hempty : WellFormed s.files Version.new :=
      ⟨Version.new_ordered, fun l f hf => by
        rw [Version.level_new] at hf
        cases hf⟩
    have hold : seen 0 (s.tree.content [107]) = some ⟨[118], 5⟩ := by
      have hnewest := (addNewest_ok hempty hfile hsound (fun m hm => by
        obtain ⟨l, f, hf, -⟩ := hm
        rw [Version.level_new] at hf
        cases hf)).2.2 [107]
      rw [hiter] at hnewest
      rw [content_eq, versionEntry]
      exact congrArg (seen 0) hnewest
    have hnew : seen 0 (s2.tree.content [107]) = some ⟨[119], 0⟩ := rfl
    rintro ⟨u, hu, hr⟩
    have hvalue : seen 0 (u.tree.content [107]) = seen 0 (s.tree.content [107]) ∨
        seen 0 (u.tree.content [107]) = seen 0 (s2.tree.content [107]) := by
      simp only [List.mem_cons, List.not_mem_nil, or_false] at hu
      rcases hu with rfl | rfl | rfl | rfl | rfl | rfl | rfl | rfl | rfl
      · exact Or.inl rfl
      · exact Or.inl rfl
      all_goals exact Or.inr rfl
    rw [hold, hnew] at hvalue
    rw [← Except.ok.inj hr] at hvalue
    simp at hvalue

end RedisFromScratch.PointReads
