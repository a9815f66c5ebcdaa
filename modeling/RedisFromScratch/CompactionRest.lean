import RedisFromScratch.CompactionRounds
import Mathlib.Algebra.Order.Field.Basic
import Mathlib.Data.Rat.Cast.Order

/-!
Where repeated compaction comes to rest. The scan over the levels ends with
nothing only if no level is due, and a level that is due always gives a plan. So
when a round has nothing to do, level 0 is below its trigger and every level
above the last is within its budget.
-/
namespace RedisFromScratch.CompactionRest

open ByteStrings SortedTables EngineTypes SsTables Versions LsmTree Compaction
open CompactionBurden CompactionRounds TreeRuns TreeInvariant TreeSteps

/-- Quotients as exact fractions. -/
def exactScores : Scores ℚ where
  ratio a b := a / b
  gt a b := decide (b < a)
  one := 1

variable {F : Type} {o : Options} {sc : Scores F} {v : Version}

/-- A deeper level that scores above one. -/
def Over (o : Options) (sc : Scores F) (v : Version) (l : ℕ) : Prop :=
  o.maxBytesForLevel l ≠ 0 ∧
    sc.gt (sc.ratio (v.levelBytes l) (o.maxBytesForLevel l)) sc.one = true

/-- One turn of the scan over the deeper levels. -/
def better (o : Options) (sc : Scores F) (v : Version) (best : Option (F × ℕ)) (l : ℕ) :
    Option (F × ℕ) :=
  if o.maxBytesForLevel l = 0 then best
  else
    let score := sc.ratio (v.levelBytes l) (o.maxBytesForLevel l)
    if sc.gt score sc.one && (best.all (fun b => sc.gt score b.1)) then some (score, l)
    else best

theorem better_cases (o : Options) (sc : Scores F) (v : Version) (best : Option (F × ℕ))
    (l : ℕ) : better o sc v best l = best ∧ (best = none → ¬ Over o sc v l) ∨
      Over o sc v l ∧ ∃ score, better o sc v best l = some (score, l) := by
  unfold better
  split
  · rename_i hzero
    exact Or.inl ⟨rfl, fun _ hover => hover.1 hzero⟩
  · rename_i hbudget
    dsimp only
    split
    · rename_i hwins
      rw [Bool.and_eq_true] at hwins
      exact Or.inr ⟨⟨hbudget, hwins.1⟩, _, rfl⟩
    · rename_i hloses
      refine Or.inl ⟨rfl, fun hnone hover => hloses ?_⟩
      rw [hnone, hover.2]
      rfl

/-- The scan ends with where it started or with a level over its budget, and with
nothing only if there was nothing to find. -/
theorem foldl_better (o : Options) (sc : Scores F) (v : Version) (ls : List ℕ)
    (best : Option (F × ℕ)) :
    (∀ x, ls.foldl (better o sc v) best = some x →
      best = some x ∨ x.2 ∈ ls ∧ Over o sc v x.2) ∧
    (ls.foldl (better o sc v) best = none → best = none ∧ ∀ l ∈ ls, ¬ Over o sc v l) := by
  induction ls generalizing best with
  | nil => exact ⟨fun x hx => Or.inl hx, fun hnone => ⟨hnone, by simp⟩⟩
  | cons a ls ih =>
    rw [List.foldl_cons]
    obtain ⟨hsome, hnone⟩ := ih (better o sc v best a)
    rcases better_cases o sc v best a with ⟨hkeep, hclear⟩ | ⟨hover, score, hnew⟩
    · rw [hkeep] at hsome hnone ⊢
      refine ⟨fun x hx => ?_, fun hx => ?_⟩
      · rcases hsome x hx with hbest | ⟨hmem, hover⟩
        · exact Or.inl hbest
        · exact Or.inr ⟨List.mem_cons_of_mem _ hmem, hover⟩
      · obtain ⟨hbest, hrest⟩ := hnone hx
        exact ⟨hbest, List.forall_mem_cons.mpr ⟨hclear hbest, hrest⟩⟩
    · rw [hnew] at hsome hnone ⊢
      refine ⟨fun x hx => ?_, fun hx => ?_⟩
      · rcases hsome x hx with hbest | ⟨hmem, hover'⟩
        · cases hbest
          exact Or.inr ⟨List.mem_cons_self, hover⟩
        · exact Or.inr ⟨List.mem_cons_of_mem _ hmem, hover'⟩
      · cases (hnone hx).1

theorem bestLevel_some {x : F × ℕ} (h : bestLevel o sc v = some x) :
    x.2 = 0 ∧ o.l0CompactionTrigger ≤ (v.level 0).length ∨
      x.2 ∈ List.range' 1 (v.levelCount - 1 - 1) ∧ Over o sc v x.2 := by
  rcases (foldl_better o sc v _ _).1 x h with hstart | hfound
  · split at hstart
    · rename_i hfull
      cases hstart
      exact Or.inl ⟨rfl, hfull⟩
    · cases hstart
  · exact Or.inr hfound

theorem bestLevel_none (h : bestLevel o sc v = none) :
    (v.level 0).length < o.l0CompactionTrigger ∧
      ∀ l ∈ List.range' 1 (v.levelCount - 1 - 1), ¬ Over o sc v l := by
  obtain ⟨hstart, hrest⟩ := (foldl_better o sc v _ _).2 h
  refine ⟨?_, hrest⟩
  split at hstart
  · cases hstart
  · rename_i hbelow
    exact Nat.not_le.mp hbelow

theorem exact_gt_one (a : ℕ) {b : ℕ} (hb : 0 < b) :
    exactScores.gt (exactScores.ratio a b) exactScores.one = true ↔ b < a := by
  have hpos : (0 : ℚ) < b := Nat.cast_pos.mpr hb
  change decide ((1 : ℚ) < a / b) = true ↔ b < a
  rw [decide_eq_true_iff, one_lt_div hpos, Nat.cast_lt]

theorem over_exact {l : ℕ} (hbudget : 0 < o.maxBytesForLevel l) :
    Over o exactScores v l ↔ o.maxBytesForLevel l < v.levelBytes l := by
  rw [Over, exact_gt_one _ hbudget]
  exact ⟨fun h => h.2, fun h => ⟨hbudget.ne', h⟩⟩

theorem level_ne_nil_of_over {l : ℕ} (h : Over o exactScores v l) : v.level l ≠ [] := by
  intro hnil
  have hlt := (over_exact (Nat.pos_of_ne_zero h.1)).mp h
  rw [Version.levelBytes, hnil] at hlt
  exact absurd hlt (Nat.not_lt_zero _)

theorem planFor_isSome (v : Version) (l : ℕ) {ins : List FileMeta} (h : ins ≠ []) :
    ∃ plan, planFor v l ins = some plan := by
  cases ins with
  | nil => exact absurd rfl h
  | cons => exact ⟨_, rfl⟩

theorem pickFileFromLevel_isSome (pointer : Option Bytes) {l : ℕ} (h : v.level l ≠ []) :
    ∃ f, pickFileFromLevel v pointer l = some f := by
  obtain ⟨f, fs, hcons⟩ := List.exists_cons_of_ne_nil h
  rw [pickFileFromLevel, hcons, List.head?_cons]
  cases (f :: fs).find? (fun f => decide (pointer.getD [] < f.maxKey)) with
  | none => exact ⟨f, rfl⟩
  | some g => exact ⟨g, rfl⟩

/-- A best level that has files and a level below it gives a plan. -/
theorem pickCompaction_isSome (pointers : Table ℕ Bytes) {score : F} {l : ℕ}
    (hbest : bestLevel o sc v = some (score, l)) (hbound : l + 1 < maxLevels)
    (hne : v.level l ≠ []) : ∃ plan, pickCompaction o sc pointers v = some plan := by
  simp only [pickCompaction, hbest, if_neg (Nat.not_le.mpr hbound)]
  split
  · rename_i hzero
    exact planFor_isSome v 0 (hzero ▸ hne)
  · obtain ⟨f, hf⟩ := pickFileFromLevel_isSome (pointers.lookup l) hne
    rw [hf]
    exact planFor_isSome v l (List.cons_ne_nil f [])

/-- With a positive trigger, a level that is due is compacted. -/
theorem bestLevel_eq_none {pointers : Table ℕ Bytes} (htrigger : 0 < o.l0CompactionTrigger)
    (hcount : v.levels.length = maxLevels)
    (h : pickCompaction o exactScores pointers v = none) : bestLevel o exactScores v = none := by
  cases hbest : bestLevel o exactScores v with
  | none => rfl
  | some x =>
    have hlevels : v.levelCount = maxLevels := hcount
    obtain ⟨hbound, hne⟩ : x.2 + 1 < maxLevels ∧ v.level x.2 ≠ [] := by
      rcases bestLevel_some hbest with ⟨hzero, hfull⟩ | ⟨hmem, hover⟩
      · rw [hzero]
        exact ⟨by decide, List.ne_nil_of_length_pos (htrigger.trans_le hfull)⟩
      · rw [List.mem_range'_1] at hmem
        exact ⟨by omega, level_ne_nil_of_over hover⟩
    obtain ⟨plan, hplan⟩ := pickCompaction_isSome pointers hbest hbound hne
    rw [h] at hplan
    cases hplan

/-- Where rounds end no level is over its budget. -/
theorem rest_within {pointers : Table ℕ Bytes} (htrigger : 0 < o.l0CompactionTrigger)
    (hbudget : ∀ l, 1 ≤ l → l + 1 < maxLevels → 0 < o.maxBytesForLevel l)
    (hcount : v.levels.length = maxLevels)
    (h : pickCompaction o exactScores pointers v = none) :
    (v.level 0).length < o.l0CompactionTrigger ∧
      ∀ l, 1 ≤ l → l + 1 < maxLevels → v.levelBytes l ≤ o.maxBytesForLevel l := by
  obtain ⟨hzero, hrest⟩ := bestLevel_none (bestLevel_eq_none htrigger hcount h)
  have hlevels : v.levelCount = maxLevels := hcount
  refine ⟨hzero, fun l hl hbound => ?_⟩
  have hmem : l ∈ List.range' 1 (v.levelCount - 1 - 1) := by
    rw [List.mem_range'_1]
    omega
  rw [← Nat.not_lt, ← over_exact (hbudget l hl hbound)]
  exact hrest l hmem

/-- Compaction converges. With positive triggers and budgets, a settled tree that
nobody writes to comes to rest after at most its entries times its levels. -/
theorem compaction_converges (o : Options) (htrigger : 0 < o.l0CompactionTrigger)
    (hbudget : ∀ l, 1 ≤ l → l + 1 < maxLevels → 0 < o.maxBytesForLevel l) (s : State)
    (h : Settled s) (env : ℕ → Surroundings) :
    ∃ n s', n ≤ totalEntries s.version * maxLevels ∧ Rounds o exactScores env n s s' ∧
      compactOnce o exactScores (env n) s' = .ok (false, s') ∧
      (s'.version.level 0).length < o.l0CompactionTrigger ∧
      ∀ l, 1 ≤ l → l + 1 < maxLevels → s'.version.levelBytes l ≤ o.maxBytesForLevel l := by
  obtain ⟨n, s', hn, hrounds, hsettled, hnone⟩ := @rounds_end ℚ o exactScores s h env
  refine ⟨n, s', hn.trans (burden_le h.wellFormed.count), hrounds, ?_,
    rest_within htrigger hbudget hsettled.wellFormed.count hnone⟩
  rw [compactOnce, hnone]

theorem maxBytesForLevel_pos {o : Options} (hbase : 0 < o.levelBaseBytes)
    (hmultiplier : 0 < o.levelMultiplier) (l : ℕ) : 0 < o.maxBytesForLevel l := by
  have hiter : ∀ n bytes, 0 < bytes →
      0 < Nat.iterate (fun bytes => min (bytes * o.levelMultiplier) (2 ^ 64 - 1)) n bytes := by
    intro n
    induction n with
    | zero => exact fun _ hpos => hpos
    | succ n ih =>
      intro bytes hpos
      exact ih _ (lt_min (Nat.mul_pos hpos hmultiplier) (by decide))
  unfold Options.maxBytesForLevel
  split
  · exact hbase
  · exact hiter _ _ hbase

/-- A tree with one flushed table. -/
theorem settled_flushed (tuning : Tuning) (b : Bytes × Entry) : ∃ s, Settled s ∧
    (s.version.level 0).length = 1 ∧ totalEntries s.version = 1 := by
  obtain ⟨t, -, hiter, hcount, hsound⟩ := writeTable_ascending tuning (l := [b])
    (List.pairwise_singleton _ b)
  have hstored : ((Table.empty : TableFiles).insert 2 (some t)).lookup 2 = some (some t) := by
    rw [Table.lookup_insert, if_pos rfl]
  have hnone : ∀ m, ¬ Names Version.new m := by
    rintro m ⟨l, f, hf, -⟩
    rw [Version.level_new] at hf
    cases hf
  have hempty : WellFormed ((Table.empty : TableFiles).insert 2 (some t)) Version.new :=
    wellFormed_congr (init_opened 0).wellFormed (fun m hm => absurd hm (hnone m))
  obtain ⟨hwf, -, -⟩ := addNewest_ok hempty hstored (hsound (List.cons_ne_nil b []))
    (fun m hm => absurd hm (hnone m))
  refine ⟨{ TreeRuns.init 0 with
    version := Version.new.addFile 0 (.fromTable 2 t.summary)
    files := (Table.empty : TableFiles).insert 2 (some t)
    nextFileNumber := 3 }, ⟨hwf, ?_, by simp [TreeRuns.init]⟩, rfl, ?_⟩
  · intro n x hx
    rw [Table.lookup_insert] at hx
    split at hx
    · rename_i heq
      rw [heq]
      exact Nat.lt_succ_self 2
    · cases hx
  · exact hcount

/-- One table is compacted away from level 0. -/
theorem flushed_table_goes_down : ∃ s, Settled s ∧ (s.version.level 0).length = 1 ∧
    ∃ n s', 0 < n ∧ n ≤ maxLevels ∧
      Rounds eagerOptions exactScores (fun _ => ⟨fun _ => 0, fun _ => false⟩) n s s' ∧
      s'.version.level 0 = [] := by
  obtain ⟨s, hs, hlevel, htotal⟩ := settled_flushed eagerOptions.tuning ([107], .put ⟨[118], 0⟩)
  obtain ⟨n, s', hn, hrounds, -, hzero, -⟩ := compaction_converges eagerOptions (by decide)
    (fun l _ _ => maxBytesForLevel_pos (by decide) (by decide) l) s hs
    (fun _ => ⟨fun _ => 0, fun _ => false⟩)
  have hempty : s'.version.level 0 = [] := List.length_eq_zero_iff.mp (Nat.lt_one_iff.mp hzero)
  refine ⟨s, hs, hlevel, n, s', ?_, ?_, hrounds, hempty⟩
  · cases hrounds with
    | rest => simp [hempty] at hlevel
    | again => exact Nat.succ_pos _
  · rw [htotal, Nat.one_mul] at hn
    exact hn

end RedisFromScratch.CompactionRest
