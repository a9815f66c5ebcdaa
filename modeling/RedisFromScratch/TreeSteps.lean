import RedisFromScratch.TreeInvariant

/-!
Every step keeps the invariant of the running tree. The writers, the sweeps and
the readers leave alone what the job relies on; the job takes its file from a
fresh number through its table to a version that names it. In particular no
reader ever finds a file of its version unlinked.
-/
namespace RedisFromScratch.TreeSteps

open ByteStrings SortedTables NewestWins EngineTypes SsTables Versions LsmTree Compaction
open CompactionAgreement TreeRuns TreeInvariant Relation Runs

variable {F : Type} {o : Options} {sc : Scores F} {s s' : State}

section Publishing

variable {files : TableFiles} {v : Version}

/-- A table flushed under a new number comes before everything the version had. -/
theorem addNewest_ok (h : WellFormed files v) {n : ℕ} {t : SsTable}
    (hfile : files.lookup n = some (some t)) (hsound : t.Sound) (hnew : ∀ m, Names v m → m < n) :
    WellFormed files (v.addFile 0 (.fromTable n t.summary)) ∧
      (∀ m, Names (v.addFile 0 (.fromTable n t.summary)) m → Names v m ∨ m = n) ∧
      ∀ k, newest (versionSources files (v.addFile 0 (.fromTable n t.summary))) k =
        (find t.iter k).or (newest (versionSources files v) k) := by
  obtain ⟨e, hmin⟩ := hsound.min_mem
  have hrange := (hsound.range (List.mem_of_head? hmin)).2
  obtain ⟨hord, hzero, hdeep⟩ := h.toOrdered.addNewest (f := .fromTable n t.summary) hrange
    (fun l g hg => hnew _ ⟨l, g, hg, rfl⟩)
  have hmem : ∀ l f, f ∈ (v.addFile 0 (.fromTable n t.summary)).level l →
      f = .fromTable n t.summary ∨ f ∈ v.level l := by
    intro l f hf
    cases l with
    | zero => exact List.mem_cons.mp (hzero ▸ hf)
    | succ l => exact Or.inr (hdeep (l + 1) l.succ_pos ▸ hf)
  have hwf : WellFormed files (v.addFile 0 (.fromTable n t.summary)) := by
    refine ⟨hord, fun l f hf => ?_⟩
    rcases hmem l f hf with rfl | hf
    · exact ⟨t, hfile, hsound, rfl⟩
    · exact h.backed l f hf
  refine ⟨hwf, ?_, fun k => ?_⟩
  · rintro m ⟨l, f, hf, rfl⟩
    rcases hmem l f hf with rfl | hf
    · exact Or.inr rfl
    · exact Or.inl ⟨l, f, hf, rfl⟩
  · have hsplit : List.range' 0 maxLevels = 0 :: List.range' 1 6 := rfl
    have hentries : entriesOf files (.fromTable n t.summary) = t.iter :=
      Backed.entriesOf_eq (f := .fromTable n t.summary) hfile
    rw [hwf.newest_version, h.newest_version, hsplit, levelsEntry_cons, levelsEntry_cons, hzero,
      List.map_cons, newest_cons, hentries, Option.or_assoc]
    congr 2
    exact levelsEntry_congr files (fun l hl => hdeep l (List.mem_range'_1.mp hl).1) k

/-- The outputs of a merge stand in for its sources. -/
theorem install_names (h : WellFormed files v) {plan : Plan} (hp : plan.Valid v)
    {now : Bytes → ℤ} {done : List (ℕ × SsTable)} (hw : Written files v plan now done)
    {v' : Version} (hinstall : installVersion v plan (done.map outputMeta) = .ok v') :
    WellFormed files v' ∧ (∀ n, Names v' n → Names v n ∨ ∃ p ∈ done, p.1 = n) ∧
      (∀ n ∈ plan.sources.map FileMeta.number, Names v n ∧ ¬ Names v' n) ∧
      ∀ t, (∀ k, now k ≤ t) → ∀ k,
        Agrees t (newest (versionSources files v) k) (newest (versionSources files v') k) := by
  obtain ⟨v'', hok, hwf, hperm, hother⟩ := install_ok h hp hw
  obtain rfl : v'' = v' := by
    rw [hinstall] at hok
    exact (Except.ok.inj hok).symm
  have hmem : ∀ l f, f ∈ v''.level l →
      f ∈ (cleared v plan).level l ∨ ∃ p ∈ done, outputMeta p = f := by
    intro l f hf
    by_cases hl : l = plan.outputLevel
    · subst hl
      rcases List.mem_append.mp (hperm.mem_iff.mp hf) with hf | hf
      · exact Or.inl hf
      · exact Or.inr (List.mem_map.mp hf)
    · exact Or.inl (hother l hl ▸ hf)
  have hlevel : ∀ f ∈ plan.sources, (f ∈ plan.inputs ∧ f ∈ v.level plan.level) ∨
      (f ∈ plan.overlapping ∧ f ∈ v.level plan.outputLevel) := by
    intro f hf
    rcases List.mem_append.mp hf with hin | hin
    · exact Or.inl ⟨hin, mem_level_of_mem_inputs hp hin⟩
    · exact Or.inr ⟨hin, (overlapping_sublist hp).subset hin⟩
  refine ⟨hwf, ?_, ?_, fun t ht k => install_agrees h hp hw ht hwf hperm hother k⟩
  · rintro n ⟨l, f, hf, rfl⟩
    rcases hmem l f hf with hf | ⟨p, hpd, rfl⟩
    · exact Or.inl ⟨l, f, (cleared_sublist h hp l).subset hf, rfl⟩
    · exact Or.inr ⟨p, hpd, rfl⟩
  · intro n hn
    obtain ⟨f, hf, rfl⟩ := List.mem_map.mp hn
    have hnamed : Names v f.number := by
      rcases hlevel f hf with ⟨-, hl⟩ | ⟨-, hl⟩
      · exact ⟨_, f, hl, rfl⟩
      · exact ⟨_, f, hl, rfl⟩
    refine ⟨hnamed, ?_⟩
    rintro ⟨l, g, hg, hgn⟩
    rcases hmem l g hg with hg | ⟨p, hpd, rfl⟩
    · -- numbers are unique, so the file would have stayed on the level it was taken from
      have hold := (cleared_sublist h hp l).subset hg
      have hout := hp.output
      rw [level_cleared h hp] at hg
      rcases hlevel f hf with ⟨hin, hl⟩ | ⟨hin, hl⟩
      · obtain ⟨rfl, rfl⟩ := h.unique _ _ g f hold hl hgn
        rw [if_pos rfl, List.mem_filter] at hg
        have hno := hg.2
        rw [Bool.not_eq_true', List.contains_eq_mem, decide_eq_false_iff_not] at hno
        exact hno (List.mem_map_of_mem hin)
      · obtain ⟨rfl, rfl⟩ := h.unique _ _ g f hold hl hgn
        rw [if_neg (by omega), if_pos rfl, List.mem_filter] at hg
        have hno := hg.2
        rw [Bool.not_eq_true', List.contains_eq_mem, decide_eq_false_iff_not] at hno
        exact hno (List.mem_map_of_mem hin)
    · obtain ⟨l', g', hg', hg'n⟩ := hnamed
      exact hw.fresh p hpd l' g' hg' (hg'n.trans hgn.symm)

end Publishing

/-- The number an allocation hands out is fresh. -/
theorem fresh_next (h : Inv s) (hversion : s'.version = s.version) (hchain : chain s' = chain s)
    (hdoomed : s'.doomed = s.doomed) (hnext : s'.nextFileNumber = s.nextFileNumber + 1) :
    Fresh s' s.nextFileNumber where
  bound := by omega
  newer m hm := h.named_lt (Or.inl (hversion ▸ hm))
  chain p hp hn := by
    rw [hchain] at hp
    exact absurd (h.named_lt (Or.inr ⟨p, hp, hn⟩)) (Nat.lt_irrefl _)
  doomed hd := by
    rw [hdoomed] at hd
    exact absurd (h.doomed _ hd).1 (Nat.lt_irrefl _)

theorem fresh_rejob {n : ℕ} (h : Fresh s n) (hversion : s'.version = s.version)
    (hchain : chain s' = chain s) (hdoomed : s'.doomed = s.doomed)
    (hnext : s.nextFileNumber ≤ s'.nextFileNumber) : Fresh s' n where
  bound := h.bound.trans_le hnext
  newer m hm := h.newer m (hversion ▸ hm)
  chain p hp := h.chain p (hchain ▸ hp)
  doomed hd := h.doomed (hdoomed ▸ hd)

theorem chain_of_job (hpending : s'.pending = s.pending) (hold : ∀ p w, s.job ≠ .parking p w)
    (hnew : ∀ p w, s'.job ≠ .parking p w) : chain s' = chain s := by
  have hnone : ∀ t : State, (∀ p w, t.job ≠ .parking p w) → chain t = t.pending := by
    intro t ht
    rw [chain]
    split
    · rename_i p w heq
      exact absurd heq (ht p w)
    · exact List.append_nil _
  rw [hnone s hold, hnone s' hnew, hpending]

/-- A file of the job is written under a number no version names. -/
theorem lookup_insert_named {n : ℕ} {x : Option SsTable} (hn : ¬ Named s n) :
    ∀ m, Named s m → (s.files.insert n x).lookup m = s.files.lookup m := by
  intro m hm
  rw [Table.lookup_insert, if_neg]
  rintro rfl
  exact hn hm

theorem lookup_insert_lt (h : Inv s) {n next : ℕ} {x : Option SsTable} (hn : n < next)
    (hnext : s.nextFileNumber ≤ next) :
    ∀ m y, (s.files.insert n x).lookup m = some y → m < next := by
  intro m y hm
  rw [Table.lookup_insert] at hm
  split at hm
  · rename_i heq
    exact heq ▸ hn
  · exact (h.numbers m y hm).trans_le hnext

theorem inv_append (h : Inv s) (active : MemTable) : Inv { s with active := active } :=
  h.frame ⟨rfl, fun _ _ => rfl, fun _ hf => hf, fun _ hp => hp, fun _ hn => Or.inl hn, le_rfl,
    le_rfl⟩ rfl rfl (List.Sublist.refl _) h.numbers h.doomed h.held

theorem inv_allocateLog (h : Inv s) (freezing : Option ℕ) :
    Inv { s with nextFileNumber := s.nextFileNumber + 1, freezing := freezing } :=
  h.frame ⟨rfl, fun _ _ => rfl, fun _ hf => hf, fun _ hp => hp, fun _ hn => Or.inl hn,
    Nat.le_succ _, le_rfl⟩ rfl rfl (List.Sublist.refl _)
    (fun n x hx => (h.numbers n x hx).trans (Nat.lt_succ_self _))
    (fun n hn => ⟨(h.doomed n hn).1.trans (Nat.lt_succ_self _), (h.doomed n hn).2⟩) h.held

theorem inv_swapLog (h : Inv s) (n : ℕ) : Inv { s with
    active := Table.empty
    immutable := ⟨s.logNumber, s.active⟩ :: s.immutable
    logNumber := n
    freezing := none } := by
  refine h.frame ⟨rfl, fun _ _ => rfl, fun f hf => ?_, fun _ hp => hp, fun _ hn => Or.inl hn,
    le_rfl,
    le_rfl⟩ rfl rfl (List.Sublist.refl _) h.numbers h.doomed h.held
  rw [List.getLast?_cons, hf, Option.getD_some]

theorem inv_sweep (h : Inv s) {releasable rest : List PendingDelete}
    (hpending : s.pending = releasable ++ rest) (hfree : ∀ p ∈ releasable, ¬ s.Held p.handle.id) :
    Inv { s with
      pending := rest
      doomed := s.doomed ++ releasable.flatMap PendingDelete.files } := by
  have hsplit : chain s = releasable ++ chain { s with
      pending := rest
      doomed := s.doomed ++ releasable.flatMap PendingDelete.files } := by
    simp only [chain, hpending, List.append_assoc]
  have hsub : (chain { s with
      pending := rest
      doomed := s.doomed ++ releasable.flatMap PendingDelete.files }).Sublist (chain s) := by
    rw [hsplit]
    exact List.sublist_append_right _ _
  have hgone : ∀ n ∈ releasable.flatMap PendingDelete.files,
      ∃ p ∈ releasable, n ∈ p.files ∧ p ∈ chain s := by
    intro n hn
    obtain ⟨p, hp, hnp⟩ := List.mem_flatMap.mp hn
    exact ⟨p, hp, hnp, hsplit ▸ List.mem_append_left _ hp⟩
  refine h.frame ⟨rfl, fun _ _ => rfl, fun _ hf => hf, fun _ hp => hsub.subset hp, ?_, le_rfl,
    le_rfl⟩ rfl rfl hsub h.numbers ?_ ?_
  · intro n hn
    rcases List.mem_append.mp hn with hn | hn
    · exact Or.inl hn
    · obtain ⟨p, -, hnp, hpc⟩ := hgone n hn
      exact Or.inr (Or.inr ⟨p, hpc, (h.retired p hpc n hnp).1⟩)
  · intro n hn
    rcases List.mem_append.mp hn with hn | hn
    · exact ⟨(h.doomed n hn).1, (h.doomed n hn).2.1,
        fun p hp => (h.doomed n hn).2.2 p (hsub.subset hp)⟩
    · obtain ⟨p, hp, hnp, hpc⟩ := hgone n hn
      refine ⟨h.named_lt (Or.inr ⟨p, hpc, (h.retired p hpc n hnp).1⟩),
        (h.retired p hpc n hnp).2, ?_⟩
      intro q hq
      have hapart := h.apart
      rw [hsplit, List.pairwise_append] at hapart
      exact hapart.2.2 p hp q hq n hnp
  · intro i hd hi
    rcases h.held i hd hi with hcur | ⟨p, hp, hph⟩
    · exact Or.inl hcur
    · rw [hsplit, List.mem_append] at hp
      rcases hp with hp | hp
      · exact absurd ⟨i, hd, hi, by rw [hph]⟩ (hfree p hp)
      · exact Or.inr ⟨p, hp, hph⟩

theorem inv_unlink (h : Inv s) {n : ℕ} (hn : n ∈ s.doomed) :
    Inv { s with files := s.files.erase n, doomed := s.doomed.erase n } := by
  refine h.frame ⟨rfl, ?_, fun _ hf => hf, fun _ hp => hp, ?_, le_rfl, le_rfl⟩ rfl rfl
    (List.Sublist.refl _) ?_ ?_ h.held
  · intro m hm
    rw [Table.lookup_erase, if_neg]
    rintro rfl
    exact hm hn
  · exact fun m hm => Or.inl (List.mem_of_mem_erase hm)
  · intro m x hx
    rw [Table.lookup_erase] at hx
    split at hx
    · cases hx
    · exact h.numbers m x hx
  · exact fun m hm => h.doomed m (List.mem_of_mem_erase hm)

/-- A reader may come to hold the current version, and only that. -/
theorem inv_setReader (h : Inv s) (i : ℕ) {r : Reader}
    (hr : ∀ hd, r.holds = some hd → hd = s.handle ∨ (s.reader i).holds = some hd) :
    Inv (s.setReader i r) := by
  refine h.frame ⟨rfl, fun _ _ => rfl, fun _ hf => hf, fun _ hp => hp, fun _ hn => Or.inl hn,
    le_rfl,
    le_rfl⟩ rfl rfl (List.Sublist.refl _) h.numbers h.doomed ?_
  intro j hd hj
  by_cases hji : j = i
  · subst j
    rw [State.setReader_reader, Function.update_self] at hj
    rcases hr hd hj with hcur | hold
    · exact Or.inl hcur
    · exact h.held i hd hold
  · rw [State.setReader_reader, Function.update_of_ne hji] at hj
    exact h.held j hd hj

theorem inv_tick (h : Inv s) {later : ℤ} (hle : s.clock ≤ later) : Inv { s with clock := later } :=
  h.frame ⟨rfl, fun _ _ => rfl, fun _ hf => hf, fun _ hp => hp, fun _ hn => Or.inl hn, le_rfl,
    hle⟩ rfl rfl (List.Sublist.refl _) h.numbers h.doomed h.held

theorem inv_startFlush (h : Inv s) {frozen : Frozen} (hjob : s.job = .idle)
    (hlast : s.immutable.getLast? = some frozen) : Inv { s with
      nextFileNumber := s.nextFileNumber + 1
      files := s.files.insert s.nextFileNumber none
      job := .flushing s.nextFileNumber frozen } := by
  have hchain : chain { s with
      nextFileNumber := s.nextFileNumber + 1
      files := s.files.insert s.nextFileNumber none
      job := .flushing s.nextFileNumber frozen } = chain s :=
    chain_of_job rfl (by simp [hjob]) (by simp)
  exact h.rejob rfl rfl hchain rfl rfl (Nat.le_succ _)
    (lookup_insert_named (fun hn => absurd (h.named_lt hn) (Nat.lt_irrefl _)))
    (lookup_insert_lt h (Nat.lt_succ_self _) (Nat.le_succ _))
    ⟨hlast, fresh_next h rfl hchain rfl rfl⟩

theorem inv_finishTable (h : Inv s) {n : ℕ} {frozen : Frozen} {t : SsTable}
    (hjob : s.job = .flushing n frozen)
    (ht : writeTable o.tuning frozen.table.entries = some t) :
    Inv { s with files := s.files.insert n (some t), job := .flushed n frozen t } := by
  have hok := h.job
  rw [hjob] at hok
  obtain ⟨hlast, hfresh⟩ := hok
  have hchain : chain { s with
      files := s.files.insert n (some t), job := .flushed n frozen t } = chain s :=
    chain_of_job rfl (by simp [hjob]) (by simp)
  obtain ⟨t', ht', hiter, hcount, hsound⟩ := writeTable_ascending o.tuning frozen.table.sorted
  obtain rfl : t' = t := Option.some.inj (ht'.symm.trans ht)
  refine h.rejob rfl rfl hchain rfl rfl le_rfl (lookup_insert_named hfresh.not_named)
    (lookup_insert_lt h hfresh.bound le_rfl)
    ⟨hlast, fresh_rejob hfresh rfl hchain rfl le_rfl, ?_, hiter, hcount, hsound⟩
  rw [Table.lookup_insert, if_pos rfl]

theorem inv_discardTable (h : Inv s) {n : ℕ} {frozen : Frozen} {t : SsTable}
    (hjob : s.job = .flushed n frozen t) (hempty : t.summary.entryCount = 0) :
    Inv { s with files := s.files.erase n, job := .retiring frozen } := by
  have hok := h.job
  rw [hjob] at hok
  obtain ⟨hlast, hfresh, -, -, hcount, -⟩ := hok
  have hnil : frozen.table.entries = [] := List.eq_nil_of_length_eq_zero (hcount.symm.trans hempty)
  refine h.rejob rfl rfl (chain_of_job rfl (by simp [hjob]) (by simp)) rfl rfl le_rfl ?_ ?_
    ⟨hlast, fun k e hk => ?_⟩
  · intro m hm
    rw [Table.lookup_erase, if_neg]
    rintro rfl
    exact hfresh.not_named hm
  · intro m x hx
    rw [Table.lookup_erase] at hx
    split at hx
    · cases hx
    · exact h.numbers m x hx
  · rw [Table.lookup, hnil] at hk
    cases hk

theorem inv_publishFlush (h : Inv s) {n : ℕ} {frozen : Frozen} {t : SsTable}
    (hjob : s.job = .flushed n frozen t) (hne : t.summary.entryCount ≠ 0) : Inv { s with
      job := .publishing (s.version.addFile 0 (.fromTable n t.summary)) (.flush frozen) } := by
  have hok := h.job
  rw [hjob] at hok
  obtain ⟨hlast, hfresh, hfile, hiter, hcount, hsound⟩ := hok
  have hchain : chain { s with
      job := .publishing (s.version.addFile 0 (.fromTable n t.summary)) (.flush frozen) } =
        chain s := chain_of_job rfl (by simp [hjob]) (by simp)
  obtain ⟨hwf, hnames, hnewest⟩ := addNewest_ok h.wellFormed hfile
    (hsound (fun hnil => hne (by rw [hcount, hnil, List.length_nil]))) hfresh.newer
  refine h.rejob rfl rfl hchain rfl rfl le_rfl (fun _ _ => rfl) h.numbers
    ⟨hwf, fun m hm => ?_, fun m hm => (by cases hm), hlast, fun k => ?_⟩
  · rcases hnames m hm with hold | rfl
    · exact Or.inl hold
    · exact Or.inr (fresh_rejob hfresh rfl hchain rfl le_rfl)
  · rw [hnewest k, hiter]
    rfl

theorem inv_startCompaction (h : Inv s) {plan : Plan} {now : Bytes → ℤ} {outs : List SsTable}
    (hjob : s.job = .idle) (hpick : pickCompaction o sc s.pointers s.version = some plan)
    (houts : outputTables o s.files s.version plan now = .ok outs) :
    Inv { s with job := .merging plan now [] none outs } := by
  have hvalid := pickCompaction_valid hpick
  obtain ⟨outs', houts', hiter, hsound⟩ := outputTables_ok o h.wellFormed hvalid now
  obtain rfl : outs' = outs := Except.ok.inj (houts'.symm.trans houts)
  exact h.rejob rfl rfl (chain_of_job rfl (by simp [hjob]) (by simp)) rfl rfl le_rfl
    (fun _ _ => rfl) h.numbers
    ⟨hvalid, hiter, hsound, fun p hp => (by cases hp), fun p hp => (by cases hp),
      List.Pairwise.nil, fun n hn => (by cases hn)⟩

/-- Writing one more file does not disturb the merge's sources. -/
theorem mergeOk_insert {plan : Plan} {now : Bytes → ℤ} {done : List (ℕ × SsTable)}
    {todo : List SsTable} (hvalid : plan.Valid s.version)
    (hiter : (done.map Prod.snd ++ todo).flatMap SsTable.iter =
      survivors s.version plan now (plan.sources.map (entriesOf s.files)))
    {n : ℕ} {x : Option SsTable} (hn : ¬ Named s n) :
    (done.map Prod.snd ++ todo).flatMap SsTable.iter = survivors s.version plan now
      (plan.sources.map (entriesOf (s.files.insert n x))) := by
  rw [hiter]
  congr 1
  apply List.map_congr_left
  intro f hf
  refine (entriesOf_congr (lookup_insert_named hn f.number (Or.inl ?_))).symm
  rcases List.mem_append.mp hf with hin | hin
  · exact ⟨_, f, mem_level_of_mem_inputs hvalid hin, rfl⟩
  · exact ⟨_, f, (overlapping_sublist hvalid).subset hin, rfl⟩

theorem inv_openOutput (h : Inv s) {plan : Plan} {now : Bytes → ℤ} {done : List (ℕ × SsTable)}
    {todo : List SsTable} (hjob : s.job = .merging plan now done none todo) : Inv { s with
      nextFileNumber := s.nextFileNumber + 1
      files := s.files.insert s.nextFileNumber none
      job := .merging plan now done (some s.nextFileNumber) todo } := by
  have hok := h.job
  rw [hjob] at hok
  obtain ⟨hvalid, hiter, hsound, hstored, hfresh, hdistinct, -⟩ := hok
  have hchain : chain { s with
      nextFileNumber := s.nextFileNumber + 1
      files := s.files.insert s.nextFileNumber none
      job := .merging plan now done (some s.nextFileNumber) todo } = chain s :=
    chain_of_job rfl (by simp [hjob]) (by simp)
  have hunnamed : ¬ Named s s.nextFileNumber := fun hn => absurd (h.named_lt hn) (Nat.lt_irrefl _)
  refine h.rejob rfl rfl hchain rfl rfl (Nat.le_succ _) (lookup_insert_named hunnamed)
    (lookup_insert_lt h (Nat.lt_succ_self _) (Nat.le_succ _))
    ⟨hvalid, mergeOk_insert hvalid hiter hunnamed, hsound, fun p hp => ?_,
      fun p hp => fresh_rejob (hfresh p hp) rfl hchain rfl (Nat.le_succ _), hdistinct, ?_⟩
  · change (s.files.insert _ none).lookup p.1 = _
    rw [Table.lookup_insert, if_neg (hfresh p hp).bound.ne]
    exact hstored p hp
  · intro n hn
    cases hn
    exact ⟨fresh_next h rfl hchain rfl rfl, fun p hp => (hfresh p hp).bound.ne⟩

theorem inv_closeOutput (h : Inv s) {plan : Plan} {now : Bytes → ℤ} {done : List (ℕ × SsTable)}
    {n : ℕ} {t : SsTable} {todo : List SsTable}
    (hjob : s.job = .merging plan now done (some n) (t :: todo)) : Inv { s with
      files := s.files.insert n (some t)
      job := .merging plan now (done ++ [(n, t)]) none todo } := by
  have hok := h.job
  rw [hjob] at hok
  obtain ⟨hvalid, hiter, hsound, hstored, hfresh, hdistinct, hwriting⟩ := hok
  obtain ⟨hn, hother⟩ := hwriting n rfl
  have hchain : chain { s with
      files := s.files.insert n (some t)
      job := .merging plan now (done ++ [(n, t)]) none todo } = chain s :=
    chain_of_job rfl (by simp [hjob]) (by simp)
  have hsame : (done ++ [(n, t)]).map Prod.snd ++ todo = done.map Prod.snd ++ t :: todo := by simp
  refine h.rejob rfl rfl hchain rfl rfl le_rfl (lookup_insert_named hn.not_named)
    (lookup_insert_lt h hn.bound le_rfl)
    ⟨hvalid, ?_, ?_, ?_, ?_, ?_, fun m hm => (by cases hm)⟩
  · rw [hsame]
    exact mergeOk_insert hvalid hiter hn.not_named
  · rw [hsame]
    exact hsound
  · intro p hp
    rw [Table.lookup_insert]
    rcases List.mem_append.mp hp with hp | hp
    · rw [if_neg (hother p hp)]
      exact hstored p hp
    · rw [List.mem_singleton.mp hp, if_pos rfl]
  · intro p hp
    rcases List.mem_append.mp hp with hp | hp
    · exact fresh_rejob (hfresh p hp) rfl hchain rfl le_rfl
    · rw [List.mem_singleton.mp hp]
      exact fresh_rejob hn rfl hchain rfl le_rfl
  · refine List.pairwise_append.mpr ⟨hdistinct, List.pairwise_singleton _ _, ?_⟩
    intro p hp q hq
    rw [List.mem_singleton.mp hq]
    exact hother p hp

theorem written_of_mergeOk {plan : Plan} {now : Bytes → ℤ} {done : List (ℕ × SsTable)}
    (hok : MergeOk s plan now done none []) : Written s.files s.version plan now done := by
  obtain ⟨-, hiter, hsound, hstored, hfresh, hdistinct, -⟩ := hok
  rw [List.append_nil] at hiter hsound
  refine ⟨?_, fun p hp => hsound p.2 (List.mem_map_of_mem hp), hstored, hdistinct, ?_⟩
  · rw [← hiter, List.flatMap_map]
  · intro p hp l g hg
    exact ((hfresh p hp).newer g.number ⟨l, g, hg, rfl⟩).ne

theorem inv_publishCompaction (h : Inv s) {plan : Plan} {now : Bytes → ℤ}
    {done : List (ℕ × SsTable)} {next : Version} (hjob : s.job = .merging plan now done none [])
    (hclock : ∀ k, now k ≤ s.clock)
    (hnext : installVersion s.version plan (done.map outputMeta) = .ok next) :
    Inv { s with job := .publishing next (.compaction plan now) } := by
  have hok := h.job
  rw [hjob] at hok
  have hchain : chain { s with job := .publishing next (.compaction plan now) } = chain s :=
    chain_of_job rfl (by simp [hjob]) (by simp)
  obtain ⟨hwf, hnames, hretired, hagrees⟩ :=
    install_names h.wellFormed hok.valid (written_of_mergeOk hok) hnext
  refine h.rejob rfl rfl hchain rfl rfl le_rfl (fun _ _ => rfl) h.numbers
    ⟨hwf, fun m hm => ?_, hretired, hclock, hagrees⟩
  rcases hnames m hm with hold | ⟨p, hp, rfl⟩
  · exact Or.inl hold
  · exact Or.inr (fresh_rejob (hok.fresh p hp) rfl hchain rfl le_rfl)

/-- Installing a version puts the old one at the end of the chain. -/
theorem inv_swapVersion (h : Inv s) {next : Version} {w : Work}
    (hjob : s.job = .publishing next w) : Inv { s with
      version := next
      installs := s.installs + 1
      job := .parking ⟨s.handle, w.retired⟩ w } := by
  have hok := h.job
  rw [hjob] at hok
  obtain ⟨hwf, hnames, hretired, hwork⟩ := hok
  have hold : chain s = s.pending := by
    rw [chain, hjob]
    exact List.append_nil _
  have hchain : chain { s with
      version := next
      installs := s.installs + 1
      job := .parking ⟨s.handle, w.retired⟩ w } = chain s ++ [⟨s.handle, w.retired⟩] := by
    rw [hold]
    rfl
  have hcases : ∀ p ∈ chain s ++ [⟨s.handle, w.retired⟩],
      p ∈ chain s ∨ p = ⟨s.handle, w.retired⟩ := by
    intro p hp
    rcases List.mem_append.mp hp with hp | hp
    · exact Or.inl hp
    · exact Or.inr (List.mem_singleton.mp hp)
  refine ⟨hwf, h.numbers, ?_, ?_, ?_, ?_, ?_, ?_⟩
  · intro p hp
    rw [hchain] at hp
    rcases hcases p hp with hp | rfl
    · exact h.parked p hp
    · exact h.wellFormed
  · intro p hp n hn
    rw [hchain] at hp
    rcases hcases p hp with hp | rfl
    · refine ⟨(h.retired p hp n hn).1, fun hnew => ?_⟩
      rcases hnames n hnew with hcur | hfresh
      · exact (h.retired p hp n hn).2 hcur
      · exact hfresh.chain p hp (h.retired p hp n hn).1
    · exact hretired n hn
  · rw [hchain]
    refine List.pairwise_append.mpr ⟨h.apart, List.pairwise_singleton _ _, ?_⟩
    intro p hp q hq n hn
    rw [List.mem_singleton.mp hq]
    exact (h.retired p hp n hn).2
  · intro n hn
    obtain ⟨hlt, hcur, hpar⟩ := h.doomed n hn
    refine ⟨hlt, fun hnew => ?_, fun p hp => ?_⟩
    · rcases hnames n hnew with hin | hfresh
      · exact hcur hin
      · exact hfresh.doomed hn
    · rw [hchain] at hp
      rcases hcases p hp with hp | rfl
      · exact hpar p hp
      · exact hcur
  · intro i hd hi
    right
    rw [hchain]
    rcases h.held i hd hi with hcur | ⟨p, hp, hph⟩
    · exact ⟨_, List.mem_append_right _ (List.mem_singleton_self _), hcur.symm⟩
    · exact ⟨p, List.mem_append_left _ hp, hph⟩
  · cases w with
    | flush =>
      refine ⟨hwork.1, fun k e hk => ?_⟩
      rw [hwork.2 k, hk, Option.some_or]
    | compaction => trivial

theorem inv_park (h : Inv s) {p : PendingDelete} {w : Work} (hjob : s.job = .parking p w) :
    Inv { s with
      pending := s.pending ++ [p]
      pointers := w.pointers s.pointers
      job := w.next } := by
  have hok := h.job
  rw [hjob] at hok
  have hchain : chain { s with
      pending := s.pending ++ [p]
      pointers := w.pointers s.pointers
      job := w.next } = chain s := by
    cases w <;> simp [chain, hjob, Work.next]
  refine h.rejob rfl rfl hchain rfl rfl le_rfl (fun _ _ => rfl) h.numbers ?_
  cases w with
  | flush => exact hok
  | compaction => trivial

theorem inv_popFrozen (h : Inv s) {frozen : Frozen} (hjob : s.job = .retiring frozen) :
    Inv { s with
      immutable := s.immutable.dropLast
      job := .retired frozen.logNumber (stillNeeded s.immutable.dropLast s.logNumber) } :=
  h.rejob rfl rfl (chain_of_job rfl (by simp [hjob]) (by simp)) rfl rfl le_rfl (fun _ _ => rfl)
    h.numbers trivial

theorem inv_storeLogNumber (h : Inv s) {n m : ℕ} (hjob : s.job = .retired n m) :
    Inv { s with job := .forgetting n m } :=
  h.rejob rfl rfl (chain_of_job rfl (by simp [hjob]) (by simp)) rfl rfl le_rfl (fun _ _ => rfl)
    h.numbers trivial

theorem inv_forgetLogs (h : Inv s) {n m : ℕ} (hjob : s.job = .forgetting n m) :
    Inv { s with job := .idle } :=
  h.rejob rfl rfl (chain_of_job rfl (by simp [hjob]) (by simp)) rfl rfl le_rfl (fun _ _ => rfl)
    h.numbers trivial

theorem afterMem_holds (key : Bytes) (nowMs : ℤ) (a : Option (Option StoreRecords.Record)) :
    (afterMem key nowMs a).holds = none := by
  cases a <;> rfl

theorem afterFile_holds {h hd : Handle} {key : Bytes} {nowMs : ℤ} {todo : List FileMeta}
    {r : Except EngineError (Option (Option StoreRecords.Record))}
    (hr : (afterFile h key nowMs todo r).holds = some hd) : hd = h := by
  match r with
  | .error e => cases hr
  | .ok (some a) => cases hr
  | .ok none => exact (Option.some.inj hr).symm

theorem inv_step {a : Act} (h : Inv s) (hstep : Step o sc s a s') : Inv s' := by
  cases hstep with
  | append => exact inv_append h _
  | allocateLog => exact inv_allocateLog h _
  | swapLog n => exact inv_swapLog h n
  | startFlush frozen hjob hlock hlast => exact inv_startFlush h hjob hlast
  | finishTable n frozen t hjob ht => exact inv_finishTable h hjob ht
  | discardTable n frozen t hjob hempty => exact inv_discardTable h hjob hempty
  | publishFlush n frozen t hjob hne => exact inv_publishFlush h hjob hne
  | startCompaction plan now outs hjob hpick houts => exact inv_startCompaction h hjob hpick houts
  | openOutput plan now done todo hjob => exact inv_openOutput h hjob
  | closeOutput plan now done n t todo hjob => exact inv_closeOutput h hjob
  | publishCompaction plan now done next hjob hclock hnext =>
    exact inv_publishCompaction h hjob hclock hnext
  | swapVersion next w hjob => exact inv_swapVersion h hjob
  | park p w hjob => exact inv_park h hjob
  | popFrozen frozen hjob => exact inv_popFrozen h hjob
  | storeLogNumber n m hjob => exact inv_storeLogNumber h hjob
  | forgetLogs n m hjob => exact inv_forgetLogs h hjob
  | sweep releasable rest hpending hfree => exact inv_sweep h hpending hfree
  | unlink n hdoomed => exact inv_unlink h hdoomed
  | ask i => exact inv_setReader h i (fun hd hr => (by cases hr))
  | readMem i =>
    refine inv_setReader h i (fun hd hr => ?_)
    rw [afterMem_holds] at hr
    cases hr
  | clone i | hold i => exact inv_setReader h i (fun hd hr => Or.inl (Option.some.inj hr).symm)
  | readFile i hd key nowMs f todo hpc =>
    refine inv_setReader h i (fun hd' hr => Or.inr ?_)
    rw [hpc, afterFile_holds hr]
    rfl
  | readEnd i | answered i | drop i => exact inv_setReader h i (fun hd' hr => (by cases hr))
  | tick later hle => exact inv_tick h hle

theorem inv_run {s₀ : State} (h₀ : Opened s₀) (hrun : ReflTransGen (Moves o sc) s₀ s) : Inv s :=
  run_preserves Inv (fun _ _ h ⟨_, hstep⟩ => inv_step h hstep) hrun (inv_opened h₀)

theorem inv_reachable (h : Reachable o sc s) : Inv s := by
  obtain ⟨s₀, h₀, hrun⟩ := h
  exact inv_run h₀ hrun

/-- The state a freeze and a flush of the only memtable lead to. -/
def afterFlush (s : State) (t : SsTable) : State :=
  { s with
    active := Table.empty
    immutable := []
    version := s.version.addFile 0 (.fromTable (s.nextFileNumber + 1) t.summary)
    files := (s.files.insert (s.nextFileNumber + 1) none).insert (s.nextFileNumber + 1) (some t)
    nextFileNumber := s.nextFileNumber + 1 + 1
    logNumber := s.nextFileNumber
    freezing := none
    job := .idle
    installs := s.installs + 1
    pending := s.pending ++ [⟨s.handle, []⟩] }

/-- Nothing stops a freeze and the flush of what it froze. -/
theorem flush_completes (o : Options) (sc : Scores F) (hjob : s.job = .idle)
    (hlock : s.freezing = none) (himm : s.immutable = []) (hne : s.active.entries ≠ []) :
    ∃ t, t.iter = s.active.entries ∧ t.Sound ∧
      ReflTransGen (Moves o sc) s (afterFlush s t) := by
  obtain ⟨t, ht, hiter, hcount, hsound⟩ := writeTable_ascending o.tuning s.active.sorted
  have hentries : t.summary.entryCount ≠ 0 := by
    rw [hcount]
    exact fun h => hne (List.eq_nil_of_length_eq_zero h)
  refine ⟨t, hiter, hsound hne, ?_⟩
  obtain ⟨active, immutable, version, files, next, logNumber, freezing, job, installs, pending,
    doomed, pointers, clock, reader⟩ := s
  subst hjob hlock himm
  have hfreeze : ReflTransGen (Moves o sc) _ _ := .single ⟨_, .allocateLog _ rfl hne⟩
  have hswap := hfreeze.tail ⟨_, .swapLog _ next rfl⟩
  have hstart := hswap.tail ⟨_, .startFlush _ _ rfl rfl rfl⟩
  have hfinish := hstart.tail ⟨_, .finishTable _ _ _ t rfl ht⟩
  have hpublish := hfinish.tail ⟨_, .publishFlush _ _ _ t rfl hentries⟩
  have hversion := hpublish.tail ⟨_, .swapVersion _ _ _ rfl⟩
  have hpark := hversion.tail ⟨_, .park _ _ _ rfl⟩
  have hpop := hpark.tail ⟨_, .popFrozen _ _ rfl rfl⟩
  have hstore := hpop.tail ⟨_, .storeLogNumber _ logNumber next rfl⟩
  exact hstore.tail ⟨_, .forgetLogs _ logNumber next rfl⟩

/-- Whatever readers, flushes, compactions and sweeps do, the files of the
current version and of every version a reader holds are in the directory,
complete. -/
theorem held_files_exist (o : Options) (sc : Scores F) (s : State) (hreach : Reachable o sc s) :
    (∀ n ∈ s.version.fileNumbers, ∃ t, s.files.lookup n = some (some t)) ∧
      ∀ i h, (s.reader i).holds = some h → ∀ n ∈ h.version.fileNumbers,
        ∃ t, s.files.lookup n = some (some t) := by
  have hinv := inv_reachable hreach
  constructor
  · intro n hn
    exact hinv.named_stored (Or.inl ((mem_fileNumbers_iff _ n).mp hn))
  · intro i h hi n hn
    rw [mem_fileNumbers_iff] at hn
    rcases hinv.held i h hi with rfl | ⟨p, hp, rfl⟩
    · exact hinv.named_stored (Or.inl hn)
    · exact hinv.named_stored (Or.inr ⟨p, hp, hn⟩)

/-- Small limits, under which one file on level 0 is already too many. -/
def eagerOptions : Options := ⟨⟨64, 10⟩, 1, 100, 10, 100⟩

def wholeScores : Scores ℕ := ⟨fun a b => a / b, fun a b => decide (b < a), 1⟩

/-- The tree of an empty directory after one write. -/
def oneWrite (clock : ℤ) (muts : List Mutation) : State :=
  { init clock with active := Table.empty.insertAll (writes muts) }

theorem oneWrite_reachable (clock : ℤ) (muts : List Mutation) :
    ReflTransGen (Moves eagerOptions wholeScores) (init clock) (oneWrite clock muts) :=
  .single ⟨_, .append (init clock) muts rfl⟩

/-- A reader that took its version after a flush finds the flushed file. -/
theorem flushed_file_exists : ∃ s, Reachable eagerOptions wholeScores s ∧
    (s.reader 0).holds = some s.handle ∧ 3 ∈ s.version.fileNumbers ∧
      ∃ t, s.files.lookup 3 = some (some t) := by
  obtain ⟨t, -, -, hrun⟩ := flush_completes (s := oneWrite 0 [⟨[107], .delete⟩]) eagerOptions
    wholeScores rfl rfl rfl (by decide)
  have hhold : Moves eagerOptions wholeScores _ _ :=
    ⟨_, .hold (afterFlush (oneWrite 0 [⟨[107], .delete⟩]) t) 0 rfl⟩
  have hreach : Reachable eagerOptions wholeScores _ :=
    ⟨init 0, init_opened 0, ((oneWrite_reachable 0 _).trans hrun).tail hhold⟩
  have hnamed : 3 ∈ (afterFlush (oneWrite 0 [⟨[107], .delete⟩]) t).version.fileNumbers :=
    List.mem_cons_self
  exact ⟨_, hreach, rfl, hnamed, (held_files_exist eagerOptions wholeScores _ hreach).2 0 _ rfl 3
    hnamed⟩

end RedisFromScratch.TreeSteps
