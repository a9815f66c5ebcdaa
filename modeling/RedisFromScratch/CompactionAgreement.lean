import RedisFromScratch.Compaction

/-!
What a compaction leaves behind. The outputs hold the merged entries of the
inputs and of the files they overlap, without the dropped ones; they fit
between the files that stay. Level by level the answer for a key is the same,
except for an obsolete entry that nothing deeper could have answered.
-/
namespace RedisFromScratch.CompactionAgreement

open ByteStrings SortedTables NewestWins EngineTypes SsTables Versions LsmTree Compaction

/-- Cutting loses nothing and leaves sound tables. -/
theorem cutTables_ascending (o : Options) (w : Option Writer) (pre l : List (Bytes × Entry))
    (hw : (w.getD (Writer.create o.tuning)).Holds pre) (hpre : w.isSome ↔ pre ≠ [])
    (hasc : Ascending (pre ++ l)) :
    ∃ ts, cutTables o w l = some ts ∧ ts.flatMap SsTable.iter = pre ++ l ∧ ∀ t ∈ ts, t.Sound := by
  induction l generalizing w pre with
  | nil =>
    rw [List.append_nil] at hasc ⊢
    cases w with
    | none =>
      have hnil : pre = [] := by simpa using hpre
      exact ⟨[], rfl, by simp [hnil], by simp⟩
    | some w =>
      have hne : pre ≠ [] := by simpa using hpre
      exact ⟨[w.finish], rfl, by simpa using Writer.Holds.finish_iter hw,
        by simpa using Writer.Holds.finish_sound hw hne hasc⟩
  | cons b l ih =>
    have hsplit : pre ++ b :: l = (pre ++ [b]) ++ l := by simp
    rw [hsplit] at hasc ⊢
    have hfront := hasc.sublist (List.sublist_append_left (pre ++ [b]) l)
    obtain ⟨w', hadd, hw'⟩ := hw.add hfront
    have hcut : cutTables o w (b :: l) =
        if o.maxFileBytes ≤ w'.estimatedSize then
          (cutTables o none l).map (fun ts => w'.finish :: ts)
        else cutTables o (some w') l := by
      cases w <;> simp only [cutTables, hadd]
    rw [hcut]
    split
    · obtain ⟨ts, hts, hiter, hsound⟩ := ih none []
        (Writer.create_holds o.tuning) (by simp)
        (hasc.sublist (List.sublist_append_right (pre ++ [b]) l))
      refine ⟨w'.finish :: ts, by rw [hts, Option.map_some], ?_, ?_⟩
      · rw [List.flatMap_cons, hw'.finish_iter, hiter, List.nil_append]
      · intro t ht
        rcases List.mem_cons.mp ht with rfl | ht
        · exact hw'.finish_sound (by simp) hfront
        · exact hsound t ht
    · exact ih (some w') (pre ++ [b]) hw' (by simp) hasc

theorem mapM_openTable {files : TableFiles} {fs : List FileMeta}
    (h : ∀ f ∈ fs, Backed files f) :
    ∃ ts, fs.mapM (openTable files) = .ok ts ∧
      ts.map SsTable.iter = fs.map (entriesOf files) := by
  induction fs with
  | nil => exact ⟨[], rfl, rfl⟩
  | cons f fs ih =>
    obtain ⟨t, hfile, -⟩ := h f List.mem_cons_self
    obtain ⟨ts, hts, hiter⟩ := ih (fun g hg => h g (List.mem_cons_of_mem _ hg))
    have hopen : openTable files f = .ok t := by rw [openTable, hfile]
    refine ⟨t :: ts, ?_, ?_⟩
    · rw [List.mapM_cons, hopen, hts]
      rfl
    · rw [List.map_cons, List.map_cons, hiter, Backed.entriesOf_eq hfile]

section Plans

variable {files : TableFiles} {v v' : Version} {plan : Plan} {now : Bytes → ℤ}

theorem mem_level_of_mem_inputs (hp : plan.Valid v) {f : FileMeta} (hf : f ∈ plan.inputs) :
    f ∈ v.level plan.level := by
  rcases hp.inputs with ⟨hl, hin⟩ | ⟨-, g, hg, hin⟩
  · rw [hl, ← hin]
    exact hf
  · rw [hin, List.mem_singleton] at hf
    exact hf ▸ hg

theorem overlapping_sublist (hp : plan.Valid v) :
    plan.overlapping.Sublist (v.level plan.outputLevel) := by
  obtain ⟨f, fs, -, hov⟩ := hp.overlaps
  rw [hov]
  exact List.filter_sublist

theorem sources_backed (h : WellFormed files v) (hp : plan.Valid v) :
    ∀ f ∈ plan.sources, Backed files f := by
  intro f hf
  rcases List.mem_append.mp hf with hf | hf
  · exact h.backed _ f (mem_level_of_mem_inputs hp hf)
  · exact h.backed _ f ((overlapping_sublist hp).subset hf)

theorem sources_ascending (h : WellFormed files v) (hp : plan.Valid v) :
    ∀ l ∈ plan.sources.map (entriesOf files), Ascending l := by
  intro l hl
  obtain ⟨f, hf, rfl⟩ := List.mem_map.mp hl
  exact (sources_backed h hp f hf).ascending

theorem survivors_ascending (h : WellFormed files v) (hp : plan.Valid v) :
    Ascending (survivors v plan now (plan.sources.map (entriesOf files))) :=
  (mergeAll_ascending (sources_ascending h hp)).filter _

/-- A compaction of a chosen plan writes its survivors. -/
theorem outputTables_ok (o : Options) (h : WellFormed files v) (hp : plan.Valid v)
    (now : Bytes → ℤ) :
    ∃ outs, outputTables o files v plan now = .ok outs ∧
      outs.flatMap SsTable.iter = survivors v plan now (plan.sources.map (entriesOf files)) ∧
      ∀ t ∈ outs, t.Sound := by
  obtain ⟨ts, hts, hiter⟩ := mapM_openTable (sources_backed h hp)
  obtain ⟨outs, houts, hflat, hsound⟩ := cutTables_ascending o none []
    (survivors v plan now (plan.sources.map (entriesOf files)))
    (Writer.create_holds o.tuning) (by simp) (by simpa using survivors_ascending h hp)
  refine ⟨outs, ?_, by simpa using hflat, hsound⟩
  rw [outputTables, hts]
  dsimp only
  rw [hiter, houts]

/-- What the survivors answer: the newest of the sources, unless it was dropped. -/
theorem find_survivors (h : WellFormed files v) (hp : plan.Valid v) (k : Bytes) :
    find (survivors v plan now (plan.sources.map (entriesOf files))) k =
      ((newest (plan.inputs.map (entriesOf files)) k).or
        (newest (plan.overlapping.map (entriesOf files)) k)).bind
          (fun e => if Dropped v plan.outputLevel now (k, e) then none else some e) := by
  have hasc := sources_ascending h hp
  rw [survivors, (mergeAll_ascending hasc).find_filter, find_mergeAll hasc, Plan.sources,
    List.map_append, newest_append]
  congr 1
  funext e
  by_cases hd : Dropped v plan.outputLevel now (k, e) <;> simp [hd]

/-- Two files of a deeper level never hold the same key. -/
theorem one_holds (h : WellFormed files v) {l : ℕ} (hl : 0 < l) (k : Bytes) :
    ((v.level l).map (entriesOf files)).Pairwise
      (fun a b => find a k = none ∨ find b k = none) := by
  rw [List.pairwise_map]
  refine (h.disjoint l hl).imp_of_mem ?_
  intro a b ha hb hlt
  by_cases hk : a.MayContain k
  · right
    apply (h.backed l b hb).find_eq_none
    intro hkb
    exact absurd (hk.2.trans_lt (hlt.trans_le hkb.1)) (lt_irrefl k)
  · exact Or.inl ((h.backed l a ha).find_eq_none hk)

theorem newest_sublist {l : ℕ} (h : WellFormed files v) (hl : 0 < l) {taken : List FileMeta}
    (hsub : taken.Sublist (v.level l)) (k : Bytes) (e : Entry) :
    newest (taken.map (entriesOf files)) k = some e ↔
      ∃ f ∈ taken, find (entriesOf files f) k = some e := by
  rw [newest_eq_some_iff ((one_holds h hl k).sublist (hsub.map _))]
  simp

/-- Taking files out of a deeper level splits its answer. -/
theorem split_level {l : ℕ} (h : WellFormed files v) (hl : 0 < l) {taken : List FileMeta}
    (hsub : taken.Sublist (v.level l)) (k : Bytes) :
    let rest := (v.level l).filter (fun f => !(taken.map FileMeta.number).contains f.number)
    (∀ e, newest (taken.map (entriesOf files)) k = some e →
      newest ((v.level l).map (entriesOf files)) k = some e ∧
        newest (rest.map (entriesOf files)) k = none) ∧
    (newest (taken.map (entriesOf files)) k = none →
      newest ((v.level l).map (entriesOf files)) k = newest (rest.map (entriesOf files)) k) := by
  intro rest
  have hrest : rest.Sublist (v.level l) := List.filter_sublist
  have hmem : ∀ f ∈ v.level l, f ∈ rest ↔ f ∉ taken := by
    intro f hf
    simp only [rest, List.mem_filter, hf, true_and, Bool.not_eq_true', List.contains_eq_mem,
      decide_eq_false_iff_not, List.mem_map, not_exists, not_and]
    constructor
    · intro hno hin
      exact hno f hin rfl
    · intro hout g hg heq
      exact hout ((h.unique l l g f (hsub.subset hg) hf heq).2 ▸ hg)
  constructor
  · intro e he
    obtain ⟨f, hf, hfind⟩ := (newest_sublist h hl hsub k e).mp he
    have hlevel := (newest_sublist h hl (List.Sublist.refl _) k e).mpr
      ⟨f, hsub.subset hf, hfind⟩
    refine ⟨hlevel, newest_eq_none_of_forall ?_⟩
    intro m hm
    obtain ⟨g, hg, rfl⟩ := List.mem_map.mp hm
    have hgl := hrest.subset hg
    have hne : f ≠ g := fun heq => (hmem g hgl).mp hg (heq ▸ hf)
    have hapart := (h.apart hl).forall (hsub.subset hf) hgl hne
    have hkf := (h.backed l f (hsub.subset hf)).range (mem_of_find hfind)
    apply (h.backed l g hgl).find_eq_none
    intro hkg
    rcases hapart with hlt | hlt
    · exact absurd (hkf.2.trans_lt (hlt.trans_le hkg.1)) (lt_irrefl k)
    · exact absurd (hkg.2.trans_lt (hlt.trans_le hkf.1)) (lt_irrefl k)
  · intro hnone
    have htaken := (newest_eq_none_iff _ k).mp hnone
    apply Option.ext
    intro e
    rw [newest_sublist h hl (List.Sublist.refl _) k e, newest_sublist h hl hrest k e]
    constructor
    · rintro ⟨f, hf, hfind⟩
      refine ⟨f, (hmem f hf).mpr ?_, hfind⟩
      intro hin
      rw [htaken _ (List.mem_map_of_mem hin)] at hfind
      cases hfind
    · rintro ⟨f, hf, hfind⟩
      exact ⟨f, hrest.subset hf, hfind⟩

def outputMeta (p : ℕ × SsTable) : FileMeta := .fromTable p.1 p.2.summary

/-- The outputs of a compaction under their numbers, as they stand in the
directory before they are installed. -/
structure Written (files : TableFiles) (v : Version) (plan : Plan) (now : Bytes → ℤ)
    (outputs : List (ℕ × SsTable)) : Prop where
  iter : outputs.flatMap (fun p => p.2.iter) =
    survivors v plan now (plan.sources.map (entriesOf files))
  sound : ∀ p ∈ outputs, p.2.Sound
  stored : ∀ p ∈ outputs, files.lookup p.1 = some (some p.2)
  distinct : outputs.Pairwise (fun a b => a.1 ≠ b.1)
  fresh : ∀ p ∈ outputs, ∀ l, ∀ g ∈ v.level l, g.number ≠ p.1

variable {outputs : List (ℕ × SsTable)}

theorem Written.entriesOf_eq (hw : Written files v plan now outputs) {p : ℕ × SsTable}
    (hp : p ∈ outputs) : entriesOf files (outputMeta p) = p.2.iter :=
  Backed.entriesOf_eq (hw.stored p hp)

theorem Written.backed (hw : Written files v plan now outputs) {p : ℕ × SsTable}
    (hp : p ∈ outputs) : Backed files (outputMeta p) :=
  ⟨p.2, hw.stored p hp, hw.sound p hp, rfl⟩

/-- What an output holds comes from one of the sources. -/
theorem Written.source (hw : Written files v plan now outputs) {p : ℕ × SsTable}
    (hp : p ∈ outputs) {b : Bytes × Entry} (hb : b ∈ p.2.iter) :
    ∃ f ∈ plan.sources, b ∈ entriesOf files f := by
  have hmem : b ∈ survivors v plan now (plan.sources.map (entriesOf files)) := by
    rw [← hw.iter]
    exact List.mem_flatMap.mpr ⟨p, hp, hb⟩
  obtain ⟨l, hl, hbl⟩ := mem_mergeAll (List.mem_filter.mp hmem).1
  obtain ⟨f, hf, rfl⟩ := List.mem_map.mp hl
  exact ⟨f, hf, hbl⟩

/-- A file of the output level that stays lies on one side of all sources. -/
theorem stays_aside (h : WellFormed files v) (hp : plan.Valid v) {g : FileMeta}
    (hg : g ∈ v.level plan.outputLevel) (hout : g ∉ plan.overlapping) :
    (∀ f ∈ plan.sources, ∀ b ∈ entriesOf files f, g.maxKey < b.1) ∨
      (∀ f ∈ plan.sources, ∀ b ∈ entriesOf files f, b.1 < g.minKey) := by
  have hpos : 0 < plan.outputLevel := by rw [hp.output]; exact Nat.succ_pos _
  obtain ⟨f₀, fs, hin, hov⟩ := hp.overlaps
  have hspan := hull_spans f₀ fs
  rw [← hin] at hspan
  have hoverlaps : ∀ f ∈ plan.overlapping, f.Overlaps (hull f₀ fs).1 (hull f₀ fs).2 := by
    intro f hf
    rw [hov] at hf
    exact of_decide_eq_true (List.mem_filter.mp hf).2
  have hnot : ¬ g.Overlaps (hull f₀ fs).1 (hull f₀ fs).2 := by
    intro hyes
    apply hout
    rw [hov]
    exact List.mem_filter.mpr ⟨hg, decide_eq_true hyes⟩
  have hgrange := h.ranges _ g hg
  have hapart : ∀ f ∈ plan.overlapping, Apart f g := fun f hf =>
    (h.apart hpos).forall ((overlapping_sublist hp).subset hf) hg (fun heq => hout (heq ▸ hf))
  by_cases hlo : g.minKey ≤ (hull f₀ fs).2
  -- below the hull
  · have hbelow : g.maxKey < (hull f₀ fs).1 := not_le.mp (fun hle => hnot ⟨hlo, hle⟩)
    left
    intro f hf b hb
    have hbf := (sources_backed h hp f hf).range hb
    rcases List.mem_append.mp hf with hf | hf
    · exact hbelow.trans_le ((hspan f hf).1.trans hbf.1)
    · rcases hapart f hf with hlt | hlt
      · exact absurd ((hoverlaps f hf).2.trans_lt (hlt.trans_le hgrange)) (not_lt.mpr hbelow.le)
      · exact hlt.trans_le hbf.1
  · have habove : (hull f₀ fs).2 < g.minKey := not_le.mp hlo
    right
    intro f hf b hb
    have hbf := (sources_backed h hp f hf).range hb
    rcases List.mem_append.mp hf with hf | hf
    · exact (hbf.2.trans (hspan f hf).2).trans_lt habove
    · rcases hapart f hf with hlt | hlt
      · exact hbf.2.trans_lt hlt
      · exact absurd (hgrange.trans_lt (hlt.trans_le (hoverlaps f hf).1)) (not_lt.mpr habove.le)

theorem Written.outputMeta_range (hw : Written files v plan now outputs) {p : ℕ × SsTable}
    (hp : p ∈ outputs) : (∃ e, ((outputMeta p).minKey, e) ∈ p.2.iter) ∧
      ∃ e, ((outputMeta p).maxKey, e) ∈ p.2.iter := by
  obtain ⟨e, he⟩ := (hw.sound p hp).min_mem
  obtain ⟨e', he'⟩ := (hw.sound p hp).max_mem
  exact ⟨⟨e, List.mem_of_head? he⟩, e', List.mem_of_getLast? he'⟩

theorem Written.apart_staying (h : WellFormed files v) (hp : plan.Valid v)
    (hw : Written files v plan now outputs) {p : ℕ × SsTable} (hpo : p ∈ outputs) {g : FileMeta}
    (hg : g ∈ v.level plan.outputLevel) (hout : g ∉ plan.overlapping) :
    Apart g (outputMeta p) := by
  obtain ⟨⟨e, hmin⟩, e', hmax⟩ := hw.outputMeta_range hpo
  rcases stays_aside h hp hg hout with hside | hside
  · obtain ⟨f, hf, hb⟩ := hw.source hpo hmin
    exact Or.inl (hside f hf _ hb)
  · obtain ⟨f, hf, hb⟩ := hw.source hpo hmax
    exact Or.inr (hside f hf _ hb)

theorem Written.apart_outputs (h : WellFormed files v) (hp : plan.Valid v)
    (hw : Written files v plan now outputs) : (outputs.map outputMeta).Pairwise Apart := by
  have hasc : Ascending (outputs.flatMap (fun p => p.2.iter)) :=
    hw.iter ▸ survivors_ascending h hp
  rw [List.pairwise_map]
  refine (List.pairwise_flatMap.mp hasc).2.imp_of_mem ?_
  intro a b ha hb hlt
  obtain ⟨-, e, hmax⟩ := hw.outputMeta_range ha
  obtain ⟨⟨e', hmin⟩, -⟩ := hw.outputMeta_range hb
  exact Or.inl (hlt _ hmax _ hmin)

/-- The version a compaction starts from, without what it merged. -/
def cleared (v : Version) (plan : Plan) : Version :=
  (v.removeFiles plan.level (plan.inputs.map FileMeta.number)).removeFiles
    plan.outputLevel (plan.overlapping.map FileMeta.number)

theorem level_cleared (h : WellFormed files v) (hp : plan.Valid v) (l : ℕ) :
    (cleared v plan).level l =
      if l = plan.level then
        (v.level l).filter (fun f => !(plan.inputs.map FileMeta.number).contains f.number)
      else if l = plan.outputLevel then
        (v.level l).filter (fun f => !(plan.overlapping.map FileMeta.number).contains f.number)
      else v.level l := by
  have hcount := h.count
  have hout := hp.output
  have hbound := hp.bound
  rw [cleared, Version.level_removeFiles _ _ l (by rw [Version.removeFiles_count]; omega),
    Version.level_removeFiles v _ l (by omega)]
  by_cases hl : l = plan.level
  · rw [if_neg (by omega), if_pos hl.symm, if_pos hl]
  by_cases hl' : l = plan.outputLevel
  · rw [if_pos hl'.symm, if_neg (Ne.symm hl), if_neg hl, if_pos hl']
  · rw [if_neg (Ne.symm hl'), if_neg (Ne.symm hl), if_neg hl, if_neg hl']

theorem cleared_sublist (h : WellFormed files v) (hp : plan.Valid v) (l : ℕ) :
    ((cleared v plan).level l).Sublist (v.level l) := by
  rw [level_cleared h hp]
  split
  · exact List.filter_sublist
  split
  · exact List.filter_sublist
  · exact List.Sublist.refl _

theorem cleared_ordered (h : WellFormed files v) (hp : plan.Valid v) :
    (cleared v plan).Ordered := by
  have hout := hp.output
  have hbound := hp.bound
  exact (h.toOrdered.removeFiles (by omega) _).removeFiles hbound _

theorem not_mem_overlapping_of_cleared (h : WellFormed files v) (hp : plan.Valid v)
    {g : FileMeta} (hg : g ∈ (cleared v plan).level plan.outputLevel) : g ∉ plan.overlapping := by
  have hout := hp.output
  rw [level_cleared h hp, if_neg (by omega), if_pos rfl] at hg
  intro hin
  have hno := (List.mem_filter.mp hg).2
  rw [Bool.not_eq_true', List.contains_eq_mem, decide_eq_false_iff_not] at hno
  exact hno (List.mem_map_of_mem hin)

/-- The outputs find their place, and the result passes its check. -/
theorem install_ok (h : WellFormed files v) (hp : plan.Valid v)
    (hw : Written files v plan now outputs) :
    ∃ v', installVersion v plan (outputs.map outputMeta) = .ok v' ∧ WellFormed files v' ∧
      (v'.level plan.outputLevel).Perm
        ((cleared v plan).level plan.outputLevel ++ outputs.map outputMeta) ∧
      ∀ l, l ≠ plan.outputLevel → v'.level l = (cleared v plan).level l := by
  have hpos : 0 < plan.outputLevel := by rw [hp.output]; exact Nat.succ_pos _
  obtain ⟨hord, hperm, hother⟩ := (cleared_ordered h hp).addFiles hpos hp.bound
    (outputs.map outputMeta)
    (by
      intro f hf
      obtain ⟨p, hpo, rfl⟩ := List.mem_map.mp hf
      obtain ⟨⟨e, hmin⟩, -⟩ := hw.outputMeta_range hpo
      exact ((hw.sound p hpo).range hmin).2)
    (by
      intro f hf g hg
      obtain ⟨p, hpo, rfl⟩ := List.mem_map.mp hf
      exact Written.apart_staying h hp hw hpo ((cleared_sublist h hp _).subset hg)
        (not_mem_overlapping_of_cleared h hp hg))
    (hw.apart_outputs h hp)
    (by
      intro f hf l g hg
      obtain ⟨p, hpo, rfl⟩ := List.mem_map.mp hf
      exact hw.fresh p hpo l g ((cleared_sublist h hp l).subset hg))
    (by
      rw [List.pairwise_map]
      exact hw.distinct)
  refine ⟨_, ?_, ⟨hord, ?_⟩, hperm, hother⟩
  · have hvalid := hord.validate_ok
    unfold installVersion
    rw [cleared] at hvalid
    simp only [hvalid]
    rfl
  · intro l f hf
    by_cases hl : l = plan.outputLevel
    · subst hl
      rcases List.mem_append.mp (hperm.mem_iff.mp hf) with hf | hf
      · exact h.backed _ f ((cleared_sublist h hp _).subset hf)
      · obtain ⟨p, hpo, rfl⟩ := List.mem_map.mp hf
        exact hw.backed hpo
    · rw [hother l hl] at hf
      exact h.backed l f ((cleared_sublist h hp l).subset hf)

/-- A key whose newest entry was dropped is bound nowhere deeper. -/
theorem Dropped.deeper_none (h : WellFormed files v) {l : ℕ} {k : Bytes} {e : Entry}
    (hd : Dropped v l now (k, e)) :
    levelsEntry files v (List.range' (l + 1) (maxLevels - (l + 1))) k = none := by
  apply newest_eq_none_of_forall
  intro m hm
  obtain ⟨f, hf, rfl⟩ := List.mem_map.mp hm
  obtain ⟨l', hl', hfl⟩ := List.mem_flatMap.mp hf
  have hcount : v.levelCount = maxLevels := h.count
  apply (h.backed l' f hfl).find_eq_none
  intro hk
  rcases hd.2 with hbottom | hbelow
  · rw [hbottom l' (hcount ▸ hl')] at hfl
    cases hfl
  · exact hbelow ⟨l', hcount ▸ hl', f, hfl, hk⟩

/-- The output level after the outputs have found their place. -/
theorem newest_output (h' : WellFormed files v') (hpos : 0 < plan.outputLevel)
    (hw : Written files v plan now outputs) {rest : List FileMeta}
    (hrest : rest.Sublist (v.level plan.outputLevel)) (h : WellFormed files v)
    (hperm : (v'.level plan.outputLevel).Perm (rest ++ outputs.map outputMeta)) (k : Bytes) :
    newest ((v'.level plan.outputLevel).map (entriesOf files)) k =
      (find (survivors v plan now (plan.sources.map (entriesOf files))) k).or
        (newest (rest.map (entriesOf files)) k) := by
  have hiff := newest_sublist h' hpos (List.Sublist.refl (v'.level plan.outputLevel)) k
  have houts : find (survivors v plan now (plan.sources.map (entriesOf files))) k =
      newest (outputs.map (fun p => p.2.iter)) k := by
    rw [newest_eq_find, ← List.flatMap_def, hw.iter]
  rw [houts]
  cases hs : newest (outputs.map (fun p => p.2.iter)) k with
  | some =>
    rw [Option.some_or, hiff]
    rw [newest, List.findSome?_map] at hs
    obtain ⟨p, hp, hfind⟩ := List.exists_of_findSome?_eq_some hs
    refine ⟨outputMeta p, hperm.mem_iff.mpr (List.mem_append_right _ (List.mem_map_of_mem hp)), ?_⟩
    rw [hw.entriesOf_eq hp]
    exact hfind
  | none =>
    rw [Option.none_or]
    apply Option.ext
    intro e
    rw [hiff, newest_sublist h hpos hrest]
    constructor
    · rintro ⟨f, hf, hfind⟩
      rcases List.mem_append.mp (hperm.mem_iff.mp hf) with hf | hf
      · exact ⟨f, hf, hfind⟩
      · obtain ⟨p, hp, rfl⟩ := List.mem_map.mp hf
        rw [hw.entriesOf_eq hp, (newest_eq_none_iff _ k).mp hs _ (List.mem_map_of_mem hp)] at hfind
        cases hfind
    · rintro ⟨f, hf, hfind⟩
      exact ⟨f, hperm.mem_iff.mpr (List.mem_append_left _ hf), hfind⟩

/-- The inputs and what stays of their level share out the level's answer. -/
theorem split_inputs (h : WellFormed files v) (hp : plan.Valid v) (k : Bytes) :
    (∀ e, newest (plan.inputs.map (entriesOf files)) k = some e →
      newest ((v.level plan.level).map (entriesOf files)) k = some e ∧
        newest (((cleared v plan).level plan.level).map (entriesOf files)) k = none) ∧
    (newest (plan.inputs.map (entriesOf files)) k = none →
      newest ((v.level plan.level).map (entriesOf files)) k =
        newest (((cleared v plan).level plan.level).map (entriesOf files)) k) := by
  rw [level_cleared h hp, if_pos rfl]
  rcases hp.inputs with ⟨hl, hin⟩ | ⟨hl, f, hf, hin⟩
  · have hnone : (v.level plan.level).filter
        (fun f => !(plan.inputs.map FileMeta.number).contains f.number) = [] := by
      rw [List.filter_eq_nil_iff, hl, hin]
      intro f hf
      simpa using ⟨f, hf, rfl⟩
    rw [hnone, hin, hl]
    exact ⟨fun e he => ⟨he, rfl⟩, id⟩
  · have hsub : plan.inputs.Sublist (v.level plan.level) := by
      rw [hin]
      exact List.singleton_sublist.mpr hf
    exact split_level h hl hsub k

/-- A key of the inputs is in no file of the output level that stays. -/
theorem staying_none (h : WellFormed files v) (hp : plan.Valid v) {k : Bytes} {e : Entry}
    (hk : newest (plan.inputs.map (entriesOf files)) k = some e) :
    newest (((cleared v plan).level plan.outputLevel).map (entriesOf files)) k = none := by
  rw [newest, List.findSome?_map] at hk
  obtain ⟨f, hf, hfind⟩ := List.exists_of_findSome?_eq_some hk
  apply newest_eq_none_of_forall
  intro m hm
  obtain ⟨g, hg, rfl⟩ := List.mem_map.mp hm
  have hgl := (cleared_sublist h hp _).subset hg
  apply (h.backed _ g hgl).find_eq_none
  intro hkg
  have hmem : f ∈ plan.sources := List.mem_append_left _ hf
  rcases stays_aside h hp hgl (not_mem_overlapping_of_cleared h hp hg) with hside | hside
  · exact absurd hkg.2 (not_le.mpr (hside f hmem _ (mem_of_find hfind)))
  · exact absurd hkg.1 (not_le.mpr (hside f hmem _ (mem_of_find hfind)))

theorem range_split {l : ℕ} (h : l + 1 < maxLevels) : List.range' 0 maxLevels =
    List.range' 0 l ++ l :: (l + 1) :: List.range' (l + 1 + 1) (maxLevels - (l + 1 + 1)) := by
  obtain ⟨n, hn⟩ : ∃ n, maxLevels = l + (n + 1 + 1) := ⟨maxLevels - (l + 1 + 1), by omega⟩
  have hsplit : List.range' 0 l ++ List.range' (0 + 1 * l) (n + 1 + 1) =
      List.range' 0 (l + (n + 1 + 1)) := List.range'_append
  rw [Nat.zero_add, Nat.one_mul, List.range'_succ, List.range'_succ] at hsplit
  rw [hn, ← hsplit, show l + (n + 1 + 1) - (l + 1 + 1) = n by omega]

/-- A deeper answer `o` that gives way to what survives of it. -/
theorem agrees_of_survivors {t : ℤ} {o z : Option Entry} {k : Bytes} (ht : ∀ k, now k ≤ t)
    (hz : ∀ e, o = some e → Dropped v plan.outputLevel now (k, e) → z = none) :
    Agrees t (o.or z)
      ((o.bind (fun e =>
        if Dropped v plan.outputLevel now (k, e) then none else some e)).or z) := by
  cases o with
  | none => exact .refl t _
  | some e =>
    rw [Option.bind_some]
    by_cases hd : Dropped v plan.outputLevel now (k, e)
    · rw [if_pos hd, hz e rfl hd]
      have hobs : e.Obsolete (now k) := hd.1
      exact (Agrees.of_obsolete hobs).mono (ht k)
    · rw [if_neg hd]
      exact .refl t _

/-- The entry of a key before and after an install. What lies above the merge is
kept, of the merge itself the survivors are, and below a dropped entry there is
nothing. -/
theorem install_newest (h : WellFormed files v) (hp : plan.Valid v)
    (hw : Written files v plan now outputs) (h' : WellFormed files v')
    (hperm : (v'.level plan.outputLevel).Perm
      ((cleared v plan).level plan.outputLevel ++ outputs.map outputMeta))
    (hother : ∀ l, l ≠ plan.outputLevel → v'.level l = (cleared v plan).level l) (k : Bytes) :
    ∃ a o z : Option Entry, newest (versionSources files v) k = a.or (o.or z) ∧
      newest (versionSources files v') k = a.or ((o.bind (fun e =>
        if Dropped v plan.outputLevel now (k, e) then none else some e)).or z) ∧
      ∀ e, o = some e → Dropped v plan.outputLevel now (k, e) → z = none := by
  have hout := hp.output
  have hpos : 0 < plan.outputLevel := by omega
  have hsame : ∀ l, l ≠ plan.level → l ≠ plan.outputLevel → v'.level l = v.level l := by
    intro l hl hl'
    rw [hother l hl', level_cleared h hp, if_neg hl, if_neg hl']
  rw [h.newest_version, h'.newest_version, range_split (hout ▸ hp.bound), ← hout]
  simp only [levelsEntry_append, levelsEntry_cons]
  have hshallow : levelsEntry files v' (List.range' 0 plan.level) k =
      levelsEntry files v (List.range' 0 plan.level) k := by
    refine levelsEntry_congr files (fun l hl => ?_) k
    have hlt := (List.mem_range'_1.mp hl).2
    exact hsame l (by omega) (by omega)
  have hdeeper : levelsEntry files v' (List.range' (plan.outputLevel + 1)
      (maxLevels - (plan.outputLevel + 1))) k = levelsEntry files v (List.range'
        (plan.outputLevel + 1) (maxLevels - (plan.outputLevel + 1))) k := by
    refine levelsEntry_congr files (fun l hl => ?_) k
    have hge := (List.mem_range'_1.mp hl).1
    exact hsame l (by omega) (by omega)
  rw [hshallow, hdeeper, newest_output h' hpos hw (cleared_sublist h hp _) h hperm,
    find_survivors h hp,
    hother plan.level (by omega)]
  obtain ⟨hinSome, hinNone⟩ := split_inputs h hp k
  have hov := split_level h hpos (overlapping_sublist hp) k
  have hrest : (cleared v plan).level plan.outputLevel = (v.level plan.outputLevel).filter
      (fun f => !(plan.overlapping.map FileMeta.number).contains f.number) := by
    rw [level_cleared h hp, if_neg (by omega), if_pos rfl]
  rw [← hrest] at hov
  have hdeep : ∀ e, Dropped v plan.outputLevel now (k, e) →
      levelsEntry files v (List.range' (plan.outputLevel + 1)
        (maxLevels - (plan.outputLevel + 1))) k = none := fun e hd => Dropped.deeper_none h hd
  generalize levelsEntry files v (List.range' 0 plan.level) k = top
  generalize levelsEntry files v (List.range' (plan.outputLevel + 1)
    (maxLevels - (plan.outputLevel + 1))) k = deep at hdeep ⊢
  cases hin : newest (plan.inputs.map (entriesOf files)) k with
  | some e =>
    -- an input decides, and neither its level nor the output level has more
    rw [(hinSome e hin).1, (hinSome e hin).2, staying_none h hp hin]
    refine ⟨top, some e, deep, rfl, ?_, fun e' _ hd => hdeep e' hd⟩
    rw [Option.some_or, Option.none_or, Option.or_none]
  | none =>
    rw [hinNone hin, Option.none_or]
    generalize newest (((cleared v plan).level plan.level).map (entriesOf files)) k = kept
    cases ho : newest (plan.overlapping.map (entriesOf files)) k with
    | some e =>
      rw [(hov.1 e ho).1, (hov.1 e ho).2]
      refine ⟨top.or kept, some e, deep, Option.or_assoc.symm, ?_, fun e' _ hd => hdeep e' hd⟩
      rw [Option.or_none, Option.or_assoc]
    | none =>
      rw [hov.2 ho, Option.bind_none, Option.none_or]
      exact ⟨_, none, none, (Option.or_none).symm, (Option.or_none).symm, fun e he => by cases he⟩

/-- No reader at or after the clock the compaction read can tell the versions
apart. -/
theorem install_agrees {t : ℤ} (h : WellFormed files v) (hp : plan.Valid v)
    (hw : Written files v plan now outputs) (ht : ∀ k, now k ≤ t) (h' : WellFormed files v')
    (hperm : (v'.level plan.outputLevel).Perm
      ((cleared v plan).level plan.outputLevel ++ outputs.map outputMeta))
    (hother : ∀ l, l ≠ plan.outputLevel → v'.level l = (cleared v plan).level l) (k : Bytes) :
    Agrees t (newest (versionSources files v) k) (newest (versionSources files v') k) := by
  obtain ⟨a, o, z, hbefore, hafter, hz⟩ := install_newest h hp hw h' hperm hother k
  rw [hbefore, hafter]
  exact (agrees_of_survivors ht hz).under a

/-- An install keeps the entry of a key or leaves the key without one. -/
theorem install_keeps_or_drops (h : WellFormed files v) (hp : plan.Valid v)
    (hw : Written files v plan now outputs) (h' : WellFormed files v')
    (hperm : (v'.level plan.outputLevel).Perm
      ((cleared v plan).level plan.outputLevel ++ outputs.map outputMeta))
    (hother : ∀ l, l ≠ plan.outputLevel → v'.level l = (cleared v plan).level l) (k : Bytes) :
    newest (versionSources files v') k = newest (versionSources files v) k ∨
      newest (versionSources files v') k = none := by
  obtain ⟨a, o, z, hbefore, hafter, hz⟩ := install_newest h hp hw h' hperm hother k
  rw [hbefore, hafter]
  cases a with
  | some => exact Or.inl rfl
  | none =>
    cases o with
    | none => exact Or.inl rfl
    | some e =>
      rw [Option.bind_some]
      by_cases hd : Dropped v plan.outputLevel now (k, e)
      · rw [if_pos hd, hz e rfl hd]
        exact Or.inr rfl
      · rw [if_neg hd]
        exact Or.inl rfl

end Plans

end RedisFromScratch.CompactionAgreement
