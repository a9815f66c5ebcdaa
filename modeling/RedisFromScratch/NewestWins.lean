import RedisFromScratch.SortedTables

/-!
Sources of bindings in order of age, the newest first. The first source that
binds a key decides it. Merging the sources by repeatedly taking the smallest
head, and of equal heads the newest, yields one ascending list with the same
answers.
-/
namespace RedisFromScratch.NewestWins

open SortedTables

variable {K V : Type*} [LinearOrder K]

def newest (srcs : List (List (K × V))) (k : K) : Option V :=
  srcs.findSome? (fun l => find l k)

@[simp] theorem newest_nil (k : K) : newest ([] : List (List (K × V))) k = none := rfl

@[simp] theorem newest_cons (l : List (K × V)) (ls : List (List (K × V))) (k : K) :
    newest (l :: ls) k = (find l k).or (newest ls k) := by
  unfold newest
  rw [List.findSome?_cons]
  cases find l k <;> rfl

@[simp] theorem newest_append (ls ms : List (List (K × V))) (k : K) :
    newest (ls ++ ms) k = (newest ls k).or (newest ms k) := by
  induction ls with
  | nil => simp
  | cons l ls ih => simp [ih, Option.or_assoc]

/-- The newest source decides as the first binding of all of them in a row. -/
theorem newest_eq_find (ls : List (List (K × V))) (k : K) : newest ls k = find ls.flatten k := by
  induction ls with
  | nil => rfl
  | cons l ls ih => rw [newest_cons, List.flatten_cons, find_append, ih]

theorem newest_eq_none_iff (ls : List (List (K × V))) (k : K) :
    newest ls k = none ↔ ∀ l ∈ ls, find l k = none := by
  exact List.findSome?_eq_none_iff

theorem newest_eq_none_of_forall {ls : List (List (K × V))} {k : K}
    (h : ∀ l ∈ ls, find l k = none) : newest ls k = none :=
  (newest_eq_none_iff ls k).mpr h

/-- Of sources with at most one that binds the key, the order does not matter. -/
theorem newest_eq_some_iff {ls : List (List (K × V))} {k : K}
    (hone : ls.Pairwise (fun l m => find l k = none ∨ find m k = none)) (v : V) :
    newest ls k = some v ↔ ∃ l ∈ ls, find l k = some v := by
  induction ls with
  | nil => simp
  | cons l ls ih =>
    obtain ⟨hl, hrest⟩ := List.pairwise_cons.mp hone
    rw [newest_cons, Option.or_eq_some_iff, ih hrest]
    constructor
    · rintro (h | ⟨-, m, hm, h⟩)
      · exact ⟨l, List.mem_cons_self, h⟩
      · exact ⟨m, List.mem_cons_of_mem _ hm, h⟩
    · rintro ⟨m, hm, h⟩
      rcases List.mem_cons.mp hm with rfl | hm
      · exact Or.inl h
      · rcases hl m hm with hnone | hnone
        · exact Or.inr ⟨hnone, m, hm, h⟩
        · rw [hnone] at h
          cases h

/-- The position and binding of the smallest head. A later head has to be
strictly smaller to be taken. -/
def pick : List (List (K × V)) → Option (ℕ × (K × V))
  | [] => none
  | [] :: ls => (pick ls).map (fun p => (p.1 + 1, p.2))
  | (b :: _) :: ls =>
      match pick ls with
      | none => some (0, b)
      | some (i, c) => if c.1 < b.1 then some (i + 1, c) else some (0, b)

/-- Step over the winner at position `i`, and over its key in the others. -/
def advance : ℕ → K → List (List (K × V)) → List (List (K × V))
  | _, _, [] => []
  | 0, k, l :: ls => l.tail :: ls.map (List.dropWhile (fun b => decide (b.1 = k)))
  | i + 1, k, l :: ls => l.dropWhile (fun b => decide (b.1 = k)) :: advance i k ls

theorem pick_eq_none {ls : List (List (K × V))} (h : pick ls = none) : ∀ l ∈ ls, l = [] := by
  induction ls with
  | nil => simp
  | cons l ls ih =>
    cases l with
    | nil =>
      have hrest : pick ls = none := by simpa [pick] using h
      intro m hm
      rcases List.mem_cons.mp hm with rfl | hm
      · rfl
      · exact ih hrest m hm
    | cons =>
      simp only [pick] at h
      split at h
      · cases h
      · split at h <;> cases h

/-- The winner stands between sources whose heads are larger and sources whose
heads are not smaller. -/
theorem pick_eq_some {ls : List (List (K × V))} {i : ℕ} {b : K × V} (h : pick ls = some (i, b)) :
    ∃ pre l post, ls = pre ++ (b :: l) :: post ∧ pre.length = i ∧
      (∀ m ∈ pre, ∀ c ∈ m.head?, b.1 < c.1) ∧ (∀ m ∈ post, ∀ c ∈ m.head?, b.1 ≤ c.1) := by
  induction ls generalizing i b with
  | nil => cases h
  | cons l ls ih =>
    cases l with
    | nil =>
      obtain ⟨⟨j, c⟩, hpick, heq⟩ := Option.map_eq_some_iff.mp h
      cases heq
      obtain ⟨pre, l, post, rfl, rfl, hpre, hpost⟩ := ih hpick
      refine ⟨[] :: pre, l, post, rfl, rfl, ?_, hpost⟩
      intro m hm
      rcases List.mem_cons.mp hm with rfl | hm
      · simp
      · exact hpre m hm
    | cons a l =>
      simp only [pick] at h
      split at h
      · rename_i hnone
        cases h
        refine ⟨[], l, ls, rfl, rfl, by simp, ?_⟩
        intro m hm
        simp [pick_eq_none hnone m hm]
      · rename_i j c hpick
        obtain ⟨pre, l', post, rfl, rfl, hpre, hpost⟩ := ih hpick
        split at h
        · rename_i hlt
          cases h
          refine ⟨(a :: l) :: pre, l', post, rfl, rfl, ?_, hpost⟩
          intro m hm
          rcases List.mem_cons.mp hm with rfl | hm
          · simpa using hlt
          · exact hpre m hm
        · rename_i hge
          cases h
          have hac : b.1 ≤ c.1 := not_lt.mp hge
          refine ⟨[], l, _, rfl, rfl, by simp, ?_⟩
          intro m hm d hd
          rcases List.mem_append.mp hm with hm | hm
          · exact hac.trans (hpre m hm d hd).le
          · rcases List.mem_cons.mp hm with rfl | hm
            · cases Option.some.inj hd
              exact hac
            · exact hac.trans (hpost m hm d hd)

theorem advance_split (k : K) (pre post : List (List (K × V))) (l : List (K × V)) :
    advance pre.length k (pre ++ l :: post) =
      pre.map (List.dropWhile (fun b => decide (b.1 = k))) ++
        l.tail :: post.map (List.dropWhile (fun b => decide (b.1 = k))) := by
  induction pre with
  | nil => rfl
  | cons m pre ih => simp [advance, ih]

def weight (ls : List (List (K × V))) : ℕ := ls.flatten.length

omit [LinearOrder K] in
theorem weight_dropWhile_le (p : K × V → Bool) (ls : List (List (K × V))) :
    weight (ls.map (List.dropWhile p)) ≤ weight ls := by
  induction ls with
  | nil => simp [weight]
  | cons l ls ih =>
    have hl : (l.dropWhile p).length ≤ l.length := (List.dropWhile_sublist p).length_le
    simp only [weight, List.map_cons, List.flatten_cons, List.length_append] at ih ⊢
    omega

theorem weight_advance {ls : List (List (K × V))} {i : ℕ} {b : K × V}
    (h : pick ls = some (i, b)) : weight (advance i b.1 ls) < weight ls := by
  obtain ⟨pre, l, post, rfl, rfl, -, -⟩ := pick_eq_some h
  rw [advance_split]
  have hpre := weight_dropWhile_le (fun c => decide (c.1 = b.1)) pre
  have hpost := weight_dropWhile_le (fun c => decide (c.1 = b.1)) post
  simp only [weight, List.flatten_append, List.flatten_cons, List.length_append, List.tail_cons,
    List.length_cons] at hpre hpost ⊢
  omega

/-- The merge loop: the winner's binding, then the rest. -/
def mergeAll (ls : List (List (K × V))) : List (K × V) :=
  match _h : pick ls with
  | none => []
  | some (i, b) => b :: mergeAll (advance i b.1 ls)
  termination_by weight ls
  decreasing_by exact weight_advance _h

theorem find_dropWhile_ne {k j : K} (h : j ≠ k) (l : List (K × V)) :
    find (l.dropWhile (fun b => decide (b.1 = k))) j = find l j := by
  induction l with
  | nil => rfl
  | cons b l ih =>
    by_cases hb : b.1 = k
    · have hjb : ¬ j = b.1 := fun heq => h (heq.trans hb)
      rw [List.dropWhile_cons_of_pos (by simpa using hb), ih, find_cons, if_neg hjb]
    · rw [List.dropWhile_cons_of_neg (by simpa using hb)]

theorem newest_map_dropWhile_ne {k j : K} (h : j ≠ k) (ls : List (List (K × V))) :
    newest (ls.map (List.dropWhile (fun b => decide (b.1 = k)))) j = newest ls j := by
  induction ls with
  | nil => rfl
  | cons l ls ih => simp [ih, find_dropWhile_ne h]

/-- Ascending lists that start above a key do not bind it. -/
theorem find_eq_none_of_head_lt {k : K} {l : List (K × V)} (hl : Ascending l)
    (h : ∀ c ∈ l.head?, k < c.1) : find l k = none := by
  cases l with
  | nil => rfl
  | cons a => exact hl.find_of_lt_head (h a rfl)

theorem length_mergeAll_le (ls : List (List (K × V))) :
    (mergeAll ls).length ≤ ls.flatten.length := by
  induction ls using mergeAll.induct with
  | case1 ls hnone =>
    rw [mergeAll, hnone]
    exact Nat.zero_le _
  | case2 ls i b hpick ih =>
    have hless : (advance i b.1 ls).flatten.length < ls.flatten.length := weight_advance hpick
    rw [mergeAll, hpick, List.length_cons]
    exact Nat.lt_of_le_of_lt ih hless

theorem mem_mergeAll {ls : List (List (K × V))} {b : K × V} (h : b ∈ mergeAll ls) :
    ∃ l ∈ ls, b ∈ l := by
  induction ls using mergeAll.induct with
  | case1 ls hnone =>
    rw [mergeAll, hnone] at h
    cases h
  | case2 ls i c hpick ih =>
    rw [mergeAll, hpick] at h
    obtain ⟨pre, l, post, rfl, rfl, -, -⟩ := pick_eq_some hpick
    rcases List.mem_cons.mp h with rfl | h
    · exact ⟨b :: l, by simp, List.mem_cons_self⟩
    · obtain ⟨m, hm, hb⟩ := ih h
      rw [advance_split] at hm
      have hsub : ∀ ms : List (List (K × V)),
          m ∈ ms.map (List.dropWhile (fun d => decide (d.1 = c.1))) → ∃ m' ∈ ms, b ∈ m' := by
        intro ms hms
        obtain ⟨m', hm', rfl⟩ := List.mem_map.mp hms
        exact ⟨m', hm', (List.dropWhile_sublist _).subset hb⟩
      rcases List.mem_append.mp hm with hm | hm
      · obtain ⟨m', hm', hb⟩ := hsub pre hm
        exact ⟨m', List.mem_append_left _ hm', hb⟩
      · rcases List.mem_cons.mp hm with rfl | hm
        · exact ⟨c :: m, by simp, List.mem_cons_of_mem _ hb⟩
        · obtain ⟨m', hm', hb⟩ := hsub post hm
          exact ⟨m', by simp [hm'], hb⟩

theorem advance_ascending {ls : List (List (K × V))} (hls : ∀ l ∈ ls, Ascending l) (i : ℕ)
    (k : K) : ∀ l ∈ advance i k ls, Ascending l := by
  have hdrop : ∀ m : List (K × V), Ascending m →
      Ascending (m.dropWhile (fun b => decide (b.1 = k))) :=
    fun m hm => hm.sublist (List.dropWhile_sublist _)
  induction ls generalizing i with
  | nil => cases i <;> simp [advance]
  | cons m ls ih =>
    have hm := hls m List.mem_cons_self
    have hrest := fun l hl => hls l (List.mem_cons_of_mem m hl)
    intro l hl
    cases i with
    | zero =>
      rcases List.mem_cons.mp hl with rfl | hl
      · exact hm.sublist (List.tail_sublist m)
      · obtain ⟨m', hm', rfl⟩ := List.mem_map.mp hl
        exact hdrop m' (hrest m' hm')
    | succ i =>
      rcases List.mem_cons.mp hl with rfl | hl
      · exact hdrop m hm
      · exact ih hrest i l hl

/-- What is left after a winner lies above it. -/
theorem lt_of_mem_advance {ls : List (List (K × V))} (hls : ∀ l ∈ ls, Ascending l) {i : ℕ}
    {b : K × V} (hpick : pick ls = some (i, b)) {m : List (K × V)} {c : K × V}
    (hm : m ∈ advance i b.1 ls) (hc : c ∈ m) : b.1 < c.1 := by
  obtain ⟨pre, l, post, rfl, rfl, hpre, hpost⟩ := pick_eq_some hpick
  rw [advance_split] at hm
  have habove : ∀ m' : List (K × V), Ascending m' → (∀ d ∈ m'.head?, b.1 ≤ d.1) →
      c ∈ m'.dropWhile (fun d => decide (d.1 = b.1)) → b.1 < c.1 := by
    intro m' hasc hhead hc
    cases m' with
    | nil => cases hc
    | cons a =>
      have hle : b.1 ≤ a.1 := hhead a rfl
      by_cases ha : a.1 = b.1
      · rw [List.dropWhile_cons_of_pos (by simpa using ha)] at hc
        exact ha ▸ hasc.head_lt ((List.dropWhile_sublist _).subset hc)
      · rw [List.dropWhile_cons_of_neg (by simpa using ha)] at hc
        have hlt : b.1 < a.1 := lt_of_le_of_ne hle (Ne.symm ha)
        rcases List.mem_cons.mp hc with rfl | hc
        · exact hlt
        · exact hlt.trans (hasc.head_lt hc)
  rcases List.mem_append.mp hm with hm | hm
  · obtain ⟨m', hm', rfl⟩ := List.mem_map.mp hm
    exact habove m' (hls m' (by simp [hm'])) (fun d hd => (hpre m' hm' d hd).le) hc
  · rcases List.mem_cons.mp hm with rfl | hm
    · exact (hls (b :: m) (by simp)).head_lt hc
    · obtain ⟨m', hm', rfl⟩ := List.mem_map.mp hm
      exact habove m' (hls m' (by simp [hm'])) (hpost m' hm') hc

theorem mergeAll_ascending {ls : List (List (K × V))} (hls : ∀ l ∈ ls, Ascending l) :
    Ascending (mergeAll ls) := by
  induction ls using mergeAll.induct with
  | case1 ls hnone =>
    rw [mergeAll, hnone]
    exact List.Pairwise.nil
  | case2 ls i b hpick ih =>
    rw [mergeAll, hpick]
    refine List.pairwise_cons.mpr ⟨?_, ih (advance_ascending hls i b.1)⟩
    intro c hc
    obtain ⟨m, hm, hcm⟩ := mem_mergeAll hc
    exact lt_of_mem_advance hls hpick hm hcm

/-- The merge answers as the newest source does. -/
theorem find_mergeAll {ls : List (List (K × V))} (hls : ∀ l ∈ ls, Ascending l) (k : K) :
    find (mergeAll ls) k = newest ls k := by
  induction ls using mergeAll.induct with
  | case1 ls hnone =>
    rw [mergeAll, hnone, newest_eq_none_of_forall]
    · rfl
    · intro l hl
      rw [pick_eq_none hnone l hl]
      rfl
  | case2 ls i b hpick ih =>
    rw [mergeAll, hpick]
    rw [find_cons]
    obtain ⟨pre, l, post, rfl, rfl, hpre, -⟩ := pick_eq_some hpick
    by_cases hk : k = b.1
    -- the sources before the winner start above its key
    · have hnone : newest pre k = none := by
        apply newest_eq_none_of_forall
        intro m hm
        exact find_eq_none_of_head_lt (hls m (by simp [hm])) (hk ▸ hpre m hm)
      rw [if_pos hk, newest_append, hnone, newest_cons, find_cons, if_pos hk]
      rfl
    · rw [if_neg hk, ih (advance_ascending hls _ b.1), advance_split, newest_append, newest_cons,
        newest_map_dropWhile_ne hk, newest_map_dropWhile_ne hk, newest_append, newest_cons,
        find_cons, if_neg hk, List.tail_cons]

end RedisFromScratch.NewestWins
