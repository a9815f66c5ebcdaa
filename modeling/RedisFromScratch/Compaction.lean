import RedisFromScratch.LsmTree

/-!
Compaction: choosing what to merge, merging it, dropping tombstones and expired
records that nothing deeper can bring back, cutting the result into files, and
installing them. A chosen plan always yields a valid version, and no reader at
or after the clock that was read can tell the two versions apart.
-/
namespace RedisFromScratch.Compaction

open ByteStrings SortedTables NewestWins EngineTypes SsTables Versions LsmTree

structure Options where
  tuning : Tuning
  l0CompactionTrigger : ℕ
  levelBaseBytes : ℕ
  levelMultiplier : ℕ
  maxFileBytes : ℕ
  deriving DecidableEq, Repr

/-- The budget of a level, with 64-bit saturation. -/
def Options.maxBytesForLevel (o : Options) (l : ℕ) : ℕ :=
  if l ≤ 1 then o.levelBaseBytes
  else Nat.iterate (fun bytes => min (bytes * o.levelMultiplier) (2 ^ 64 - 1)) (l - 1)
    o.levelBaseBytes

/-- Floating point quotients and their comparison. Which level scores best is
all they decide, so nothing is assumed of them. -/
structure Scores (F : Type) where
  ratio : ℕ → ℕ → F
  gt : F → F → Bool
  one : F

structure Plan where
  level : ℕ
  outputLevel : ℕ
  inputs : List FileMeta
  overlapping : List FileMeta
  deriving DecidableEq, Repr

variable {F : Type}

/-- Level 0 scores by its number of files, the others by their bytes. -/
def bestLevel (o : Options) (sc : Scores F) (v : Version) : Option (F × ℕ) :=
  (List.range' 1 (v.levelCount - 1 - 1)).foldl
    (fun best l =>
      if o.maxBytesForLevel l = 0 then best
      else
        let score := sc.ratio (v.levelBytes l) (o.maxBytesForLevel l)
        if sc.gt score sc.one && (best.all (fun b => sc.gt score b.1)) then some (score, l)
        else best)
    (if o.l0CompactionTrigger ≤ (v.level 0).length then
      some (sc.ratio (v.level 0).length o.l0CompactionTrigger, 0)
    else none)

/-- The first file past the place the last compaction of the level stopped. -/
def pickFileFromLevel (v : Version) (pointer : Option Bytes) (l : ℕ) : Option FileMeta :=
  ((v.level l).find? (fun f => decide (pointer.getD [] < f.maxKey))).or (v.level l).head?

/-- The smallest range around files. -/
def hull (f : FileMeta) (fs : List FileMeta) : Bytes × Bytes :=
  fs.foldl (fun r g => (if g.minKey < r.1 then g.minKey else r.1,
    if r.2 < g.maxKey then g.maxKey else r.2)) (f.minKey, f.maxKey)

def planFor (v : Version) (l : ℕ) : List FileMeta → Option Plan
  | [] => none
  | f :: fs =>
      some ⟨l, l + 1, f :: fs, v.overlapping (l + 1) (hull f fs).1 (hull f fs).2⟩

def pickCompaction (o : Options) (sc : Scores F) (pointers : Table ℕ Bytes) (v : Version) :
    Option Plan :=
  match bestLevel o sc v with
  | none => none
  | some (_, l) =>
      if maxLevels ≤ l + 1 then none
      else if l = 0 then planFor v 0 (v.level 0)
      else
        match pickFileFromLevel v (pointers.lookup l) l with
        | none => none
        | some f => planFor v l [f]

def IsBottomMost (v : Version) (outputLevel : ℕ) : Prop :=
  ∀ l ∈ List.range' (outputLevel + 1) (v.levelCount - (outputLevel + 1)), v.level l = []

instance (v : Version) (l : ℕ) : Decidable (IsBottomMost v l) := by
  unfold IsBottomMost
  infer_instance

def KeyExistsBelow (v : Version) (l : ℕ) (key : Bytes) : Prop :=
  ∃ l' ∈ List.range' (l + 1) (v.levelCount - (l + 1)), ∃ f ∈ v.level l', f.MayContain key

instance (v : Version) (l : ℕ) (key : Bytes) : Decidable (KeyExistsBelow v l key) := by
  unfold KeyExistsBelow
  infer_instance

/-- A tombstone or an expired record goes once nothing below can hold its key. -/
def Dropped (v : Version) (outputLevel : ℕ) (now : Bytes → ℤ) (b : Bytes × Entry) : Prop :=
  b.2.Obsolete (now b.1) ∧ (IsBottomMost v outputLevel ∨ ¬ KeyExistsBelow v outputLevel b.1)

instance (v : Version) (l : ℕ) (now : Bytes → ℤ) (b : Bytes × Entry) :
    Decidable (Dropped v l now b) := by
  unfold Dropped
  infer_instance

/-- Write entries to files, starting a new file once one is large enough. -/
def cutTables (o : Options) : Option Writer → List (Bytes × Entry) → Option (List SsTable)
  | none, [] => some []
  | some w, [] => some [w.finish]
  | w, b :: l =>
      match (w.getD (Writer.create o.tuning)).add b.1 b.2 with
      | none => none
      | some w' =>
          if o.maxFileBytes ≤ w'.estimatedSize then
            (cutTables o none l).map (fun ts => w'.finish :: ts)
          else cutTables o (some w') l

def Plan.sources (plan : Plan) : List FileMeta := plan.inputs ++ plan.overlapping

/-- What is left of the merged sources. The clock is read once for each key. -/
def survivors (v : Version) (plan : Plan) (now : Bytes → ℤ)
    (sources : List (List (Bytes × Entry))) : List (Bytes × Entry) :=
  (mergeAll sources).filter (fun b => !decide (Dropped v plan.outputLevel now b))

/-- The tables a compaction writes. -/
def outputTables (o : Options) (files : TableFiles) (v : Version) (plan : Plan)
    (now : Bytes → ℤ) : Except EngineError (List SsTable) :=
  match plan.sources.mapM (openTable files) with
  | .error e => .error e
  | .ok ts =>
      match cutTables o none (survivors v plan now (ts.map SsTable.iter)) with
      | none => .error .keysMustAscend
      | some outs => .ok outs

/-- The version with the outputs in place of what they were merged from. -/
def installVersion (v : Version) (plan : Plan) (outputs : List FileMeta) :
    Except VersionError Version :=
  let v' := ((v.removeFiles plan.level (plan.inputs.map FileMeta.number)).removeFiles
    plan.outputLevel (plan.overlapping.map FileMeta.number)).addFiles plan.outputLevel outputs
  match v'.validate with
  | .error e => .error e
  | .ok () => .ok v'

/-- What choosing a plan guarantees. -/
structure Plan.Valid (v : Version) (plan : Plan) : Prop where
  output : plan.outputLevel = plan.level + 1
  bound : plan.outputLevel < maxLevels
  inputs : plan.level = 0 ∧ plan.inputs = v.level 0 ∨
    0 < plan.level ∧ ∃ f ∈ v.level plan.level, plan.inputs = [f]
  overlaps : ∃ f fs, plan.inputs = f :: fs ∧
    plan.overlapping = v.overlapping plan.outputLevel (hull f fs).1 (hull f fs).2

theorem mem_of_pickFileFromLevel {v : Version} {pointer : Option Bytes} {l : ℕ} {f : FileMeta}
    (h : pickFileFromLevel v pointer l = some f) : f ∈ v.level l := by
  rcases Option.or_eq_some_iff.mp h with hfind | ⟨-, hhead⟩
  · exact List.mem_of_find?_eq_some hfind
  · exact List.mem_of_head? hhead

theorem pickCompaction_valid {o : Options} {sc : Scores F} {pointers : Table ℕ Bytes}
    {v : Version} {plan : Plan} (h : pickCompaction o sc pointers v = some plan) :
    plan.Valid v := by
  have hplan : ∀ l ins, planFor v l ins = some plan → ¬ maxLevels ≤ l + 1 →
      (l = 0 ∧ ins = v.level 0 ∨ 0 < l ∧ ∃ f ∈ v.level l, ins = [f]) → plan.Valid v := by
    intro l ins hfor hbound hins
    cases ins with
    | nil => cases hfor
    | cons f fs =>
      cases hfor
      exact ⟨rfl, Nat.not_le.mp hbound, hins, f, fs, rfl, rfl⟩
  unfold pickCompaction at h
  split at h
  · cases h
  · rename_i score l _
    split at h
    · cases h
    · rename_i hbound
      split at h
      · rename_i hzero
        exact hplan 0 _ h (hzero ▸ hbound) (Or.inl ⟨rfl, rfl⟩)
      · rename_i hzero
        split at h
        · cases h
        · rename_i f hf
          exact hplan l _ h hbound
            (Or.inr ⟨Nat.pos_of_ne_zero hzero, f, mem_of_pickFileFromLevel hf, rfl⟩)

/-- The hull spans every file it is taken over. -/
theorem hull_spans (f : FileMeta) (fs : List FileMeta) :
    ∀ g ∈ f :: fs, (hull f fs).1 ≤ g.minKey ∧ g.maxKey ≤ (hull f fs).2 := by
  have hfold : ∀ (fs : List FileMeta) (r : Bytes × Bytes),
      let r' := fs.foldl (fun r g => (if g.minKey < r.1 then g.minKey else r.1,
        if r.2 < g.maxKey then g.maxKey else r.2)) r
      r'.1 ≤ r.1 ∧ r.2 ≤ r'.2 ∧ ∀ g ∈ fs, r'.1 ≤ g.minKey ∧ g.maxKey ≤ r'.2 := by
    intro fs
    induction fs with
    | nil => exact fun r => ⟨le_rfl, le_rfl, by simp⟩
    | cons g fs ih =>
      intro r
      obtain ⟨hlo, hhi, hall⟩ := ih (if g.minKey < r.1 then g.minKey else r.1,
        if r.2 < g.maxKey then g.maxKey else r.2)
      have hmin : (if g.minKey < r.1 then g.minKey else r.1) ≤ r.1 ∧
          (if g.minKey < r.1 then g.minKey else r.1) ≤ g.minKey := by
        split
        · rename_i h
          exact ⟨h.le, le_rfl⟩
        · rename_i h
          exact ⟨le_rfl, not_lt.mp h⟩
      have hmax : r.2 ≤ (if r.2 < g.maxKey then g.maxKey else r.2) ∧
          g.maxKey ≤ (if r.2 < g.maxKey then g.maxKey else r.2) := by
        split
        · rename_i h
          exact ⟨h.le, le_rfl⟩
        · rename_i h
          exact ⟨le_rfl, not_lt.mp h⟩
      refine ⟨hlo.trans hmin.1, hmax.1.trans hhi, ?_⟩
      intro a ha
      rcases List.mem_cons.mp ha with rfl | ha
      · exact ⟨hlo.trans hmin.2, hmax.2.trans hhi⟩
      · exact hall a ha
  obtain ⟨hlo, hhi, hall⟩ := hfold fs (f.minKey, f.maxKey)
  intro g hg
  rcases List.mem_cons.mp hg with rfl | hg
  · exact ⟨hlo, hhi⟩
  · exact hall g hg

end RedisFromScratch.Compaction
