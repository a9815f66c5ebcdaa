import RedisFromScratch.SsTables
import Mathlib.Data.List.Sort

/-!
The level layout of the tree and the manifest that records it. Level 0 keeps
the files of flushed memtables with the newest first; deeper levels keep files
with disjoint key ranges in key order. Adding a file sorts its level again, and
removing files leaves the order of the rest.
-/
namespace RedisFromScratch.Versions

open ByteStrings SortedTables EngineTypes SsTables

structure FileMeta where
  number : ℕ
  size : ℕ
  entries : ℕ
  minKey : Bytes
  maxKey : Bytes
  deriving DecidableEq, Repr

def FileMeta.fromTable (number : ℕ) (m : TableMeta) : FileMeta :=
  ⟨number, m.fileSize, m.entryCount, m.minKey, m.maxKey⟩

def FileMeta.MayContain (f : FileMeta) (key : Bytes) : Prop := f.minKey ≤ key ∧ key ≤ f.maxKey

instance (f : FileMeta) (key : Bytes) : Decidable (f.MayContain key) := by
  unfold FileMeta.MayContain
  infer_instance

def FileMeta.Overlaps (f : FileMeta) (lo hi : Bytes) : Prop := f.minKey ≤ hi ∧ lo ≤ f.maxKey

instance (f : FileMeta) (lo hi : Bytes) : Decidable (f.Overlaps lo hi) := by
  unfold FileMeta.Overlaps
  infer_instance

def maxLevels : ℕ := 7

structure Version where
  levels : List (List FileMeta)
  deriving DecidableEq, Repr

namespace Version

def new : Version := ⟨List.replicate maxLevels []⟩

def level (v : Version) (l : ℕ) : List FileMeta := v.levels.getD l []

def levelCount (v : Version) : ℕ := v.levels.length

def levelBytes (v : Version) (l : ℕ) : ℕ := ((v.level l).map FileMeta.size).sum

def fileNumbers (v : Version) : List ℕ := v.levels.flatten.map FileMeta.number

end Version

/-- Newest first on level 0, where only the number says which file is newer. -/
def Newer (a b : FileMeta) : Prop := b.number ≤ a.number

def KeyOrder (a b : FileMeta) : Prop := a.minKey ≤ b.minKey

instance : DecidableRel Newer := fun a b => by
  unfold Newer
  infer_instance

instance : DecidableRel KeyOrder := fun a b => by
  unfold KeyOrder
  infer_instance

instance : Std.Total KeyOrder := ⟨fun a b => le_total a.minKey b.minKey⟩

instance : IsTrans FileMeta KeyOrder := ⟨fun _ _ _ => le_trans⟩

def sortLevel (l : ℕ) (files : List FileMeta) : List FileMeta :=
  if l = 0 then files.insertionSort Newer else files.insertionSort KeyOrder

namespace Version

def addFile (v : Version) (l : ℕ) (f : FileMeta) : Version :=
  let levels := v.levels ++ List.replicate (l + 1 - v.levels.length) []
  ⟨levels.modify l (fun files => sortLevel l (files ++ [f]))⟩

def removeFiles (v : Version) (l : ℕ) (numbers : List ℕ) : Version :=
  ⟨v.levels.modify l (fun files => files.filter (fun f => !numbers.contains f.number))⟩

/-- The only file of a deeper level that could hold a key. -/
def findInLevel (v : Version) (l : ℕ) (key : Bytes) : Option FileMeta :=
  match search FileMeta.maxKey (v.level l) key with
  | none => none
  | some f => if f.MayContain key then some f else none

def overlapping (v : Version) (l : ℕ) (lo hi : Bytes) : List FileMeta :=
  (v.level l).filter (fun f => decide (f.Overlaps lo hi))

end Version

inductive VersionError
  | minAboveMax (number : ℕ)
  | overlap (level first second : ℕ)
  deriving DecidableEq, Repr

def checkRanges : List FileMeta → Except VersionError Unit
  | [] => .ok ()
  | f :: fs => if f.maxKey < f.minKey then .error (.minAboveMax f.number) else checkRanges fs

/-- Neighbours on a deeper level must not touch. -/
def checkNeighbours (l : ℕ) : List FileMeta → Except VersionError Unit
  | f :: g :: fs =>
      if g.minKey ≤ f.maxKey then .error (.overlap l f.number g.number)
      else checkNeighbours l (g :: fs)
  | _ => .ok ()

def validateFrom : ℕ → List (List FileMeta) → Except VersionError Unit
  | _, [] => .ok ()
  | l, files :: rest => do
      checkRanges files
      if l = 0 then validateFrom (l + 1) rest
      else
        checkNeighbours l files
        validateFrom (l + 1) rest

def Version.validate (v : Version) : Except VersionError Unit := validateFrom 0 v.levels

structure Manifest where
  nextFileNumber : ℕ
  logNumber : ℕ
  lastSequence : ℕ
  version : Version
  deriving DecidableEq, Repr

/-- Zero is reserved, so that no log yet is unambiguous. -/
def Manifest.default : Manifest := ⟨1, 0, 0, Version.new⟩

@[simps] def Manifest.allocated (m : Manifest) : Manifest :=
  { m with nextFileNumber := m.nextFileNumber + 1 }

/-- Reserve and return the next file number. -/
def Manifest.allocateFileNumber (m : Manifest) : ℕ × Manifest := (m.nextFileNumber, m.allocated)

/-- Files whose key ranges do not meet. -/
def Apart (a b : FileMeta) : Prop := a.maxKey < b.minKey ∨ b.maxKey < a.minKey

theorem Apart.symm {a b : FileMeta} (h : Apart a b) : Apart b a := Or.symm h

instance : Std.Symm Apart := ⟨fun _ _ => Apart.symm⟩

/-- The order every level is kept in. -/
structure Version.Ordered (v : Version) : Prop where
  count : v.levels.length = maxLevels
  newest : (v.level 0).Pairwise (fun a b => b.number < a.number)
  disjoint : ∀ l, 0 < l → (v.level l).Pairwise (fun a b => a.maxKey < b.minKey)
  ranges : ∀ l, ∀ f ∈ v.level l, f.minKey ≤ f.maxKey
  unique : ∀ l l' f f', f ∈ v.level l → f' ∈ v.level l' → f.number = f'.number →
    l = l' ∧ f = f'

namespace Version

theorem level_of_le {v : Version} {l : ℕ} (h : v.levels.length ≤ l) : v.level l = [] := by
  rw [level, List.getD_eq_getElem?_getD, List.getElem?_eq_none h, Option.getD_none]

theorem mem_of_findInLevel {v : Version} {l : ℕ} {key : Bytes} {f : FileMeta}
    (h : v.findInLevel l key = some f) : f ∈ v.level l := by
  unfold findInLevel at h
  split at h
  · cases h
  · rename_i hs
    split at h
    · cases h
      exact mem_of_search hs
    · cases h

theorem lt_of_mem_level {v : Version} {l : ℕ} {f : FileMeta} (h : f ∈ v.level l) :
    l < v.levels.length := by
  by_contra hge
  rw [level_of_le (Nat.not_lt.mp hge)] at h
  cases h

@[simp] theorem level_new (l : ℕ) : new.level l = [] := by
  by_cases h : l < maxLevels
  · rw [level, List.getD_eq_getElem?_getD, new, List.getElem?_replicate_of_lt h,
      Option.getD_some]
  · exact level_of_le (by simpa [new] using h)

theorem new_ordered : new.Ordered where
  count := by simp [new]
  newest := by simp
  disjoint := by simp
  ranges := by simp
  unique := by simp

theorem level_modify (v : Version) (g : List FileMeta → List FileMeta) (l l' : ℕ)
    (h : l < v.levels.length) :
    (Version.mk (v.levels.modify l g)).level l' =
      if l = l' then g (v.level l') else v.level l' := by
  simp only [level, List.getD_eq_getElem?_getD, List.getElem?_modify]
  by_cases hl : l = l'
  · subst l'
    rw [List.getElem?_eq_getElem h]
    simp
  · simp [hl]

theorem level_removeFiles (v : Version) (numbers : List ℕ) {l : ℕ} (l' : ℕ)
    (h : l < v.levels.length) :
    (v.removeFiles l numbers).level l' =
      if l = l' then (v.level l').filter (fun f => !numbers.contains f.number)
      else v.level l' := level_modify v _ l l' h

theorem level_addFile (v : Version) {l : ℕ} (f : FileMeta) (l' : ℕ) (h : l < v.levels.length) :
    (v.addFile l f).level l' =
      if l = l' then sortLevel l (v.level l' ++ [f]) else v.level l' := by
  have hpad : v.levels ++ List.replicate (l + 1 - v.levels.length) [] = v.levels := by
    rw [Nat.sub_eq_zero_of_le h, List.replicate_zero, List.append_nil]
  rw [addFile, hpad]
  exact level_modify v _ l l' h

theorem addFile_count (v : Version) {l : ℕ} (f : FileMeta) (h : l < v.levels.length) :
    (v.addFile l f).levels.length = v.levels.length := by
  simp only [addFile, List.length_modify, List.length_append, List.length_replicate]
  omega

@[simp] theorem removeFiles_count (v : Version) (l : ℕ) (numbers : List ℕ) :
    (v.removeFiles l numbers).levels.length = v.levels.length := by
  simp [removeFiles]

end Version

theorem sortLevel_perm (l : ℕ) (files : List FileMeta) : (sortLevel l files).Perm files := by
  unfold sortLevel
  split
  · exact List.perm_insertionSort _ _
  · exact List.perm_insertionSort _ _

theorem mem_sortLevel (l : ℕ) (files : List FileMeta) (f : FileMeta) :
    f ∈ sortLevel l files ↔ f ∈ files := (sortLevel_perm l files).mem_iff

/-- Files in order of age stay as they are. -/
theorem sortLevel_newest {files : List FileMeta}
    (h : files.Pairwise (fun a b => b.number < a.number)) : sortLevel 0 files = files := by
  rw [sortLevel, if_pos rfl]
  apply List.Pairwise.insertionSort_eq
  exact h.imp (fun hlt => Nat.le_of_lt hlt)

/-- A file newer than the rest goes to the front. -/
theorem sortLevel_newer {files : List FileMeta} {f : FileMeta}
    (h : files.Pairwise (fun a b => b.number < a.number)) (hf : ∀ a ∈ files, a.number < f.number) :
    sortLevel 0 (files ++ [f]) = f :: files := by
  rw [sortLevel, if_pos rfl]
  induction files with
  | nil => rfl
  | cons a files ih =>
    obtain ⟨ha, hrest⟩ := List.pairwise_cons.mp h
    have hstep := ih hrest (fun b hb => hf b (List.mem_cons_of_mem _ hb))
    have hkeep : List.insertionSort Newer (a :: files) = a :: files :=
      List.Pairwise.insertionSort_eq (h.imp (fun hlt => Nat.le_of_lt hlt))
    have hsorted : List.insertionSort Newer files = files :=
      List.Pairwise.insertionSort_eq (hrest.imp (fun hlt => Nat.le_of_lt hlt))
    have hlt : ¬ Newer a f := Nat.not_le.mpr (hf a List.mem_cons_self)
    rw [List.insertionSort_cons, hsorted] at hkeep
    rw [List.cons_append, List.insertionSort_cons, hstep, List.orderedInsert_cons, if_neg hlt,
      hkeep]

/-- Sorting files that are apart puts them in key order. -/
theorem sortLevel_disjoint {l : ℕ} (hl : 0 < l) {files : List FileMeta}
    (hrange : ∀ f ∈ files, f.minKey ≤ f.maxKey) (hapart : files.Pairwise Apart) :
    (sortLevel l files).Pairwise (fun a b => a.maxKey < b.minKey) := by
  have hperm := sortLevel_perm l files
  have hpairs := hperm.symm.pairwise hapart (fun h => h.symm)
  have hsorted : (sortLevel l files).Pairwise KeyOrder := by
    rw [sortLevel, if_neg hl.ne']
    exact List.pairwise_insertionSort _ _
  refine (hsorted.and hpairs).imp_of_mem ?_
  intro a b ha hb hab
  rcases hab.2 with h | h
  · exact h
  · have hba := hrange b (hperm.mem_iff.mp hb)
    exact absurd (hba.trans_lt h) (not_lt.mpr hab.1)

theorem checkRanges_ok {files : List FileMeta} (h : ∀ f ∈ files, f.minKey ≤ f.maxKey) :
    checkRanges files = .ok () := by
  induction files with
  | nil => rfl
  | cons f files ih =>
    rw [checkRanges, if_neg (not_lt.mpr (h f List.mem_cons_self)),
      ih (fun g hg => h g (List.mem_cons_of_mem _ hg))]

theorem checkNeighbours_ok (l : ℕ) {files : List FileMeta}
    (h : files.Pairwise (fun a b => a.maxKey < b.minKey)) : checkNeighbours l files = .ok () := by
  induction files with
  | nil => rfl
  | cons f files ih =>
    cases files with
    | nil => rfl
    | cons g =>
      obtain ⟨hf, hrest⟩ := List.pairwise_cons.mp h
      rw [checkNeighbours, if_neg (not_le.mpr (hf g List.mem_cons_self)), ih hrest]

/-- A version in order passes its own check. -/
theorem Version.Ordered.validate_ok {v : Version} (h : v.Ordered) : v.validate = .ok () := by
  have hfrom : ∀ (ls : List (List FileMeta)) (l : ℕ),
      (∀ i files, ls[i]? = some files → (∀ f ∈ files, f.minKey ≤ f.maxKey) ∧
        (0 < l + i → files.Pairwise (fun a b => a.maxKey < b.minKey))) →
      validateFrom l ls = .ok () := by
    intro ls
    induction ls with
    | nil => exact fun _ _ => rfl
    | cons files ls ih =>
      intro l hall
      obtain ⟨hranges, hpairs⟩ := hall 0 files rfl
      have hrest := ih (l + 1) (fun i g hg => by
        have hi := hall (i + 1) g (by simpa using hg)
        rwa [show l + (i + 1) = l + 1 + i by omega] at hi)
      rw [validateFrom, checkRanges_ok hranges]
      by_cases hl : l = 0
      · subst l
        exact hrest
      · rw [if_neg hl, checkNeighbours_ok l (hpairs (by omega))]
        exact hrest
  apply hfrom
  intro i files hi
  have hlevel : v.level i = files := by
    rw [Version.level, List.getD_eq_getElem?_getD, hi, Option.getD_some]
  subst hlevel
  exact ⟨h.ranges i, fun hpos => h.disjoint i (by omega)⟩

namespace Version

/-- A flushed table goes to the front of level 0. -/
theorem Ordered.addNewest {v : Version} (h : v.Ordered) {f : FileMeta}
    (hrange : f.minKey ≤ f.maxKey) (hnew : ∀ l, ∀ g ∈ v.level l, g.number < f.number) :
    (v.addFile 0 f).Ordered ∧ (v.addFile 0 f).level 0 = f :: v.level 0 ∧
      ∀ l, 0 < l → (v.addFile 0 f).level l = v.level l := by
  have hpos : 0 < v.levels.length := by rw [h.count]; decide
  have hzero : (v.addFile 0 f).level 0 = f :: v.level 0 := by
    rw [level_addFile v f 0 hpos, if_pos rfl, sortLevel_newer h.newest (hnew 0)]
  have hdeep : ∀ l, 0 < l → (v.addFile 0 f).level l = v.level l := by
    intro l hl
    rw [level_addFile v f l hpos, if_neg hl.ne]
  have hmem : ∀ l g, g ∈ (v.addFile 0 f).level l → l = 0 ∧ g = f ∨ g ∈ v.level l := by
    intro l g hg
    cases l with
    | zero =>
      rw [hzero] at hg
      exact (List.mem_cons.mp hg).imp (fun heq => ⟨rfl, heq⟩) id
    | succ l => exact Or.inr (hdeep (l + 1) l.succ_pos ▸ hg)
  refine ⟨⟨(addFile_count v f hpos).trans h.count, ?_, ?_, ?_, ?_⟩, hzero, hdeep⟩
  · rw [hzero]
    exact List.pairwise_cons.mpr ⟨hnew 0, h.newest⟩
  · intro l hl
    rw [hdeep l hl]
    exact h.disjoint l hl
  · intro l g hg
    rcases hmem l g hg with ⟨-, rfl⟩ | hg
    · exact hrange
    · exact h.ranges l g hg
  · intro l l' g g' hg hg' heq
    rcases hmem l g hg with ⟨hl, hgf⟩ | hold <;> rcases hmem l' g' hg' with ⟨hl', hgf'⟩ | hold'
    · exact ⟨hl.trans hl'.symm, hgf.trans hgf'.symm⟩
    · exact absurd (hgf ▸ heq) (hnew l' g' hold').ne'
    · exact absurd (hgf' ▸ heq) (hnew l g hold).ne
    · exact h.unique l l' g g' hold hold' heq

theorem Ordered.removeFiles {v : Version} (h : v.Ordered) {l : ℕ} (hl : l < maxLevels)
    (numbers : List ℕ) : (v.removeFiles l numbers).Ordered := by
  have hsub : ∀ l', ((v.removeFiles l numbers).level l').Sublist (v.level l') := by
    intro l'
    rw [level_removeFiles v numbers l' (h.count ▸ hl)]
    split
    · exact List.filter_sublist
    · exact List.Sublist.refl _
  exact {
    count := (removeFiles_count v l numbers).trans h.count
    newest := h.newest.sublist (hsub 0)
    disjoint := fun l' hl' => (h.disjoint l' hl').sublist (hsub l')
    ranges := fun l' f hf => h.ranges l' f ((hsub l').subset hf)
    unique := fun l₁ l₂ f f' hf hf' =>
      h.unique l₁ l₂ f f' ((hsub l₁).subset hf) ((hsub l₂).subset hf') }

theorem Ordered.apart {v : Version} (h : v.Ordered) {l : ℕ} (hl : 0 < l) :
    (v.level l).Pairwise Apart := (h.disjoint l hl).imp Or.inl

/-- A file apart from its deeper level finds its place there. -/
theorem Ordered.addDeep {v : Version} (h : v.Ordered) {l : ℕ} (hpos : 0 < l) (hl : l < maxLevels)
    {f : FileMeta} (hrange : f.minKey ≤ f.maxKey) (hapart : ∀ g ∈ v.level l, Apart g f)
    (hfresh : ∀ l', ∀ g ∈ v.level l', g.number ≠ f.number) : (v.addFile l f).Ordered := by
  have hlt : l < v.levels.length := h.count ▸ hl
  have hmem : ∀ l' g, g ∈ (v.addFile l f).level l' → l' = l ∧ g = f ∨ g ∈ v.level l' := by
    intro l' g hg
    rw [level_addFile v f l' hlt] at hg
    by_cases heq : l = l'
    · rw [if_pos heq, mem_sortLevel, List.mem_append, List.mem_singleton] at hg
      rcases hg with hg | hg
      · exact Or.inr hg
      · exact Or.inl ⟨heq.symm, hg⟩
    · rw [if_neg heq] at hg
      exact Or.inr hg
  have hother : ∀ l', l' ≠ l → (v.addFile l f).level l' = v.level l' := by
    intro l' hne
    rw [level_addFile v f l' hlt, if_neg (Ne.symm hne)]
  have hranges : ∀ l', ∀ g ∈ (v.addFile l f).level l', g.minKey ≤ g.maxKey := by
    intro l' g hg
    rcases hmem l' g hg with ⟨-, rfl⟩ | hg
    · exact hrange
    · exact h.ranges l' g hg
  refine ⟨(addFile_count v f hlt).trans h.count, ?_, ?_, hranges, ?_⟩
  · rw [hother 0 hpos.ne]
    exact h.newest
  · intro l' hl'
    by_cases heq : l' = l
    · subst l'
      rw [level_addFile v f l hlt, if_pos rfl]
      apply sortLevel_disjoint hpos
      · intro g hg
        rcases List.mem_append.mp hg with hg | hg
        · exact h.ranges l g hg
        · rw [List.mem_singleton.mp hg]
          exact hrange
      · refine List.pairwise_append.mpr ⟨h.apart hpos, List.pairwise_singleton _ _, ?_⟩
        intro g hg g' hg'
        rw [List.mem_singleton.mp hg']
        exact hapart g hg
    · rw [hother l' heq]
      exact h.disjoint l' hl'
  · intro l₁ l₂ g g' hg hg' heq
    rcases hmem l₁ g hg with ⟨hl₁, hgf⟩ | hold <;> rcases hmem l₂ g' hg' with ⟨hl₂, hgf'⟩ | hold'
    · exact ⟨hl₁.trans hl₂.symm, hgf.trans hgf'.symm⟩
    · exact absurd (hgf ▸ heq.symm) (hfresh l₂ g' hold')
    · exact absurd (hgf' ▸ heq) (hfresh l₁ g hold)
    · exact h.unique l₁ l₂ g g' hold hold' heq

def addFiles (v : Version) (l : ℕ) (files : List FileMeta) : Version :=
  files.foldl (fun v f => v.addFile l f) v

/-- Files apart from a deeper level and from each other all find their place. -/
theorem Ordered.addFiles {v : Version} (h : v.Ordered) {l : ℕ} (hpos : 0 < l) (hl : l < maxLevels)
    (files : List FileMeta) (hrange : ∀ f ∈ files, f.minKey ≤ f.maxKey)
    (hapart : ∀ f ∈ files, ∀ g ∈ v.level l, Apart g f) (hfiles : files.Pairwise Apart)
    (hfresh : ∀ f ∈ files, ∀ l', ∀ g ∈ v.level l', g.number ≠ f.number)
    (hdistinct : files.Pairwise (fun a b => a.number ≠ b.number)) :
    (v.addFiles l files).Ordered ∧ ((v.addFiles l files).level l).Perm (v.level l ++ files) ∧
      ∀ l', l' ≠ l → (v.addFiles l files).level l' = v.level l' := by
  induction files generalizing v with
  | nil => exact ⟨h, by simp [Version.addFiles], fun _ _ => rfl⟩
  | cons f files ih =>
    have hlt : l < v.levels.length := h.count ▸ hl
    obtain ⟨hf, hrest⟩ := List.pairwise_cons.mp hfiles
    obtain ⟨hfd, hdrest⟩ := List.pairwise_cons.mp hdistinct
    have hadd := h.addDeep hpos hl (hrange f List.mem_cons_self) (hapart f List.mem_cons_self)
      (hfresh f List.mem_cons_self)
    have hmem : ∀ l' g, g ∈ (v.addFile l f).level l' → g = f ∨ g ∈ v.level l' := by
      intro l' g hg
      rw [level_addFile v f l' hlt] at hg
      split at hg
      · rw [mem_sortLevel, List.mem_append, List.mem_singleton] at hg
        exact hg.symm
      · exact Or.inr hg
    obtain ⟨hord, hperm, hother⟩ := ih hadd (fun g hg => hrange g (List.mem_cons_of_mem _ hg))
      (fun g hg a ha => by
        rcases hmem l a ha with rfl | ha
        · exact hf g hg
        · exact hapart g (List.mem_cons_of_mem _ hg) a ha)
      hrest
      (fun g hg l' a ha => by
        rcases hmem l' a ha with rfl | ha
        · exact hfd g hg
        · exact hfresh g (List.mem_cons_of_mem _ hg) l' a ha)
      hdrest
    refine ⟨hord, ?_, ?_⟩
    · rw [level_addFile v f l hlt, if_pos rfl] at hperm
      refine hperm.trans ?_
      have hsort := (sortLevel_perm l (v.level l ++ [f])).append_right files
      rwa [List.append_assoc, List.singleton_append] at hsort
    · intro l' hne
      refine (hother l' hne).trans ?_
      rw [level_addFile v f l' hlt, if_neg (Ne.symm hne)]

end Version

end RedisFromScratch.Versions
