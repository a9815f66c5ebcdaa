import RedisFromScratch.NewestWins

/-!
Merging the beginnings of sorted sources. Each source gives at most `n`
bindings and, if it had more, the last key it gave; up to the smallest of these
keys the merge answers as the whole sources do. A page is taken from the front
of the merge, until it is full or the merge can no longer be trusted.
-/
namespace RedisFromScratch.BoundedMerges

open SortedTables NewestWins

variable {K W : Type*} [LinearOrder K]

/-- The last key of a source's beginning, if the source goes on. -/
def cutKey (n : ℕ) (l : List (K × W)) : Option K :=
  if n < l.length then (l.take n).getLast?.map Prod.fst else none

/-- Keep the smaller of two keys. -/
def note (k boundary : Option K) : Option K :=
  match k, boundary with
  | none, b => b
  | some k, none => some k
  | some k, some b => if b ≤ k then some b else some k

def Within (boundary : Option K) (k : K) : Prop := ∀ b, boundary = some b → k ≤ b

instance (boundary : Option K) (k : K) : Decidable (Within boundary k) :=
  match boundary with
  | none => isTrue (fun _ h => by cases h)
  | some b => decidable_of_iff (k ≤ b) ⟨fun h _ heq => Option.some.inj heq ▸ h, fun h => h b rfl⟩

theorem within_none (k : K) : Within none k := fun _ h => by cases h

theorem within_some (b k : K) : Within (some b) k ↔ k ≤ b :=
  ⟨fun h => h b rfl, fun h _ heq => Option.some.inj heq ▸ h⟩

theorem within_note (c b : Option K) (k : K) :
    Within (note c b) k ↔ Within c k ∧ Within b k := by
  match c, b with
  | none, b => exact ⟨fun h => ⟨within_none k, h⟩, fun h => h.2⟩
  | some c, none => exact ⟨fun h => ⟨h, within_none k⟩, fun h => h.1⟩
  | some c, some b =>
    rw [within_some, within_some, note]
    split
    · rename_i hle
      rw [within_some]
      exact ⟨fun h => ⟨h.trans hle, h⟩, fun h => h.2⟩
    · rename_i hlt
      rw [within_some]
      exact ⟨fun h => ⟨h, h.trans (not_le.mp hlt).le⟩, fun h => h.1⟩

theorem note_eq_some {c b : Option K} {k : K} (h : note c b = some k) :
    c = some k ∨ b = some k := by
  match c, b with
  | none, b => exact Or.inr h
  | some c, none => exact Or.inl h
  | some c, some b =>
    rw [note] at h
    split at h
    · exact Or.inr h
    · exact Or.inl h

omit [LinearOrder K] in
theorem mem_of_cutKey {n : ℕ} {l : List (K × W)} {c : K} (h : cutKey n l = some c) :
    ∃ w, (c, w) ∈ l := by
  unfold cutKey at h
  split at h
  · obtain ⟨b, hb, rfl⟩ := Option.map_eq_some_iff.mp h
    exact ⟨b.2, List.mem_of_mem_take (List.mem_of_getLast? hb)⟩
  · cases h

/-- Up to its cut the beginning of a source answers as the source. -/
theorem find_take {n : ℕ} (hn : 0 < n) {l : List (K × W)} (hl : Ascending l) {k : K}
    (hk : Within (cutKey n l) k) : find (l.take n) k = find l k := by
  by_cases hlen : n < l.length
  · have hne : l.take n ≠ [] := by
      intro hnil
      have := congrArg List.length hnil
      simp only [List.length_take, List.length_nil] at this
      omega
    have hlast : (l.take n).getLast? = some ((l.take n).getLast hne) :=
      List.getLast?_eq_some_getLast hne
    have hle : k ≤ ((l.take n).getLast hne).1 := by
      rw [cutKey, if_pos hlen, hlast] at hk
      exact hk _ rfl
    have hrest : find (l.drop n) k = none := by
      apply find_eq_none_of_forall_ne
      intro b hb heq
      have hpair := hl
      rw [← List.take_append_drop n l, Ascending, List.pairwise_append] at hpair
      have hlt := hpair.2.2 _ (List.getLast_mem hne) b hb
      rw [heq] at hlt
      exact absurd hle (not_le.mpr hlt)
    conv_rhs => rw [← List.take_append_drop n l, find_append, hrest, Option.or_none]
  · rw [List.take_of_length_le (Nat.not_lt.mp hlen)]

theorem lastWrite_ascending {l : List (K × W)} (h : Ascending l) (k : K) :
    lastWrite k l = find l k := Table.lastWrite_entries ⟨l, h⟩ k

theorem entries_insertAll_ascending {l : List (K × W)} (h : Ascending l) :
    (Table.empty.insertAll l).entries = l := by
  refine Table.entries_eq_of_lookup (u := ⟨l, h⟩) (fun k => ?_)
  rw [Table.lookup_insertAll, lastWrite_ascending h, Table.lookup_empty, Option.or_none]
  rfl

/-- The merge so far and how far it can be trusted. -/
structure Gathered (K W : Type*) [LinearOrder K] where
  merged : Table K W
  boundary : Option K

def Gathered.add (n : ℕ) (g : Gathered K W) (l : List (K × W)) : Gathered K W :=
  ⟨g.merged.insertAll (l.take n), note (cutKey n l) g.boundary⟩

/-- Older sources first, so that newer ones overwrite. -/
def Gathered.addAll (n : ℕ) (g : Gathered K W) (srcs : List (List (K × W))) : Gathered K W :=
  srcs.foldl (Gathered.add n) g

variable {n : ℕ} {g : Gathered K W} {srcs : List (List (K × W))}

theorem within_addAll (k : K) : Within (g.addAll n srcs).boundary k ↔
    Within g.boundary k ∧ ∀ l ∈ srcs, Within (cutKey n l) k := by
  induction srcs generalizing g with
  | nil => exact ⟨fun h => ⟨h, by simp⟩, fun h => h.1⟩
  | cons l srcs ih =>
    rw [Gathered.addAll, List.foldl_cons]
    change Within ((g.add n l).addAll n srcs).boundary k ↔ _
    rw [ih, Gathered.add, within_note, List.forall_mem_cons]
    tauto

theorem boundary_addAll {b : K} (h : (g.addAll n srcs).boundary = some b) :
    g.boundary = some b ∨ ∃ l ∈ srcs, cutKey n l = some b := by
  induction srcs generalizing g with
  | nil => exact Or.inl h
  | cons l srcs ih =>
    rcases ih (g := g.add n l) h with hg | ⟨m, hm, hcut⟩
    · rcases note_eq_some hg with hcut | hold
      · exact Or.inr ⟨l, List.mem_cons_self, hcut⟩
      · exact Or.inl hold
    · exact Or.inr ⟨m, List.mem_cons_of_mem _ hm, hcut⟩

/-- A merged key was bound by some source. -/
theorem mem_addAll {k : K} {w : W} (h : (g.addAll n srcs).merged.lookup k = some w) :
    g.merged.lookup k = some w ∨ ∃ l ∈ srcs, (k, w) ∈ l := by
  induction srcs generalizing g with
  | nil => exact Or.inl h
  | cons l srcs ih =>
    rcases ih (g := g.add n l) h with hg | ⟨m, hm, hmem⟩
    · change (g.merged.insertAll (l.take n)).lookup k = some w at hg
      rw [Table.lookup_insertAll] at hg
      rcases Option.or_eq_some_iff.mp hg with hw | ⟨-, hold⟩
      · exact Or.inr ⟨l, List.mem_cons_self, List.mem_of_mem_take (mem_of_lastWrite hw)⟩
      · exact Or.inl hold
    · exact Or.inr ⟨m, List.mem_cons_of_mem _ hm, hmem⟩

/-- Up to the boundary the merge answers as the newest of the whole sources. -/
theorem lookup_addAll (hn : 0 < n) (hsrcs : ∀ l ∈ srcs, Ascending l) {k : K}
    (hk : Within (g.addAll n srcs).boundary k) :
    (g.addAll n srcs).merged.lookup k = (newest srcs.reverse k).or (g.merged.lookup k) := by
  have hcuts := ((within_addAll k).mp hk).2
  clear hk
  induction srcs generalizing g with
  | nil => rfl
  | cons l srcs ih =>
    have hl := hsrcs l List.mem_cons_self
    have hstep : (g.add n l).merged.lookup k = (find l k).or (g.merged.lookup k) := by
      change (g.merged.insertAll (l.take n)).lookup k = _
      rw [Table.lookup_insertAll, lastWrite_ascending (hl.sublist (List.take_sublist n l)),
        find_take hn hl (hcuts l List.mem_cons_self)]
    change ((g.add n l).addAll n srcs).merged.lookup k = _
    rw [ih (fun m hm => hsrcs m (List.mem_cons_of_mem _ hm))
        (fun m hm => hcuts m (List.mem_cons_of_mem _ hm)), hstep, List.reverse_cons, newest_append,
      newest_cons, newest_nil, Option.or_none, Option.or_assoc]

section Pages

variable {R : Type*}

/-- Walk the merge: stop when the page is full, or past the boundary; skip what
is not live. The second part is the key that found the page full. -/
def pageLoop (limit : ℕ) (boundary : Option K) :
    List (K × Option R) → List (K × R) → List (K × R) × Option K
  | [], out => (out, none)
  | (k, v) :: l, out =>
      if out.length = limit then (out, some k)
      else if Within boundary k then
        match v with
        | some r => pageLoop limit boundary l (out ++ [(k, r)])
        | none => pageLoop limit boundary l out
      else (out, none)

/-- The live bindings of a list. -/
def liveOf (l : List (K × Option R)) : List (K × R) :=
  l.filterMap (fun b => b.2.map (fun r => (b.1, r)))

omit [LinearOrder K] in
theorem mem_liveOf {l : List (K × Option R)} {k : K} {r : R} :
    (k, r) ∈ liveOf l ↔ (k, some r) ∈ l := by
  simp only [liveOf, List.mem_filterMap, Option.map_eq_some_iff, Prod.mk.injEq]
  constructor
  · rintro ⟨⟨k', v⟩, hmem, r', hv, rfl, rfl⟩
    exact hv ▸ hmem
  · exact fun h => ⟨(k, some r), h, r, rfl, rfl, rfl⟩

theorem liveOf_ascending {l : List (K × Option R)} (h : Ascending l) : Ascending (liveOf l) := by
  refine List.Pairwise.filterMap _ ?_ h
  intro a a' hlt b hb b' hb'
  obtain ⟨r, -, rfl⟩ := Option.map_eq_some_iff.mp hb
  obtain ⟨r', -, rfl⟩ := Option.map_eq_some_iff.mp hb'
  exact hlt

/-- A page is the live part of a front of the merge, all of it within the
boundary. It ends because it is full, at the merge's end, or at the boundary. -/
theorem pageLoop_split (limit : ℕ) (boundary : Option K) (l : List (K × Option R))
    (out : List (K × R)) : ∃ pre post, l = pre ++ post ∧ (∀ b ∈ pre, Within boundary b.1) ∧
      (pageLoop limit boundary l out).1 = out ++ liveOf pre ∧
      ((∃ k v post', post = (k, v) :: post' ∧ (pageLoop limit boundary l out).2 = some k ∧
          (pageLoop limit boundary l out).1.length = limit) ∨
        ((pageLoop limit boundary l out).2 = none ∧
          ∀ b, post.head? = some b → ¬ Within boundary b.1)) := by
  induction l generalizing out with
  | nil => exact ⟨[], [], rfl, by simp, by simp [pageLoop, liveOf], Or.inr ⟨rfl, by simp⟩⟩
  | cons b l ih =>
    obtain ⟨k, v⟩ := b
    by_cases hfull : out.length = limit
    · refine ⟨[], (k, v) :: l, rfl, by simp, ?_, Or.inl ⟨k, v, l, rfl, ?_, ?_⟩⟩
      · simp [pageLoop, hfull, liveOf]
      · simp [pageLoop, hfull]
      · simp [pageLoop, hfull]
    · by_cases hin : Within boundary k
      · cases v with
        | some r =>
          obtain ⟨pre, post, rfl, hpre, hout, hend⟩ := ih (out ++ [(k, r)])
          have hloop : pageLoop limit boundary ((k, some r) :: (pre ++ post)) out =
              pageLoop limit boundary (pre ++ post) (out ++ [(k, r)]) := by
            rw [pageLoop, if_neg hfull, if_pos hin]
          rw [hloop]
          refine ⟨(k, some r) :: pre, post, rfl, ?_, ?_, hend⟩
          · exact List.forall_mem_cons.mpr ⟨hin, hpre⟩
          · rw [hout, List.append_assoc]
            rfl
        | none =>
          obtain ⟨pre, post, rfl, hpre, hout, hend⟩ := ih out
          have hloop : pageLoop limit boundary ((k, none) :: (pre ++ post)) out =
              pageLoop limit boundary (pre ++ post) out := by
            rw [pageLoop, if_neg hfull, if_pos hin]
          rw [hloop]
          refine ⟨(k, none) :: pre, post, rfl, ?_, ?_, hend⟩
          · exact List.forall_mem_cons.mpr ⟨hin, hpre⟩
          · rw [hout]
            rfl
      · refine ⟨[], (k, v) :: l, rfl, by simp, ?_, Or.inr ⟨?_, ?_⟩⟩
        · simp [pageLoop, hfull, hin, liveOf]
        · simp [pageLoop, hfull, hin]
        · intro b hb
          cases hb
          exact hin

section Page

variable {limit : ℕ} {boundary : Option K} {l : List (K × Option R)}

theorem mem_pageLoop {k : K} {r : R} (h : (k, r) ∈ (pageLoop limit boundary l []).1) :
    (k, some r) ∈ l ∧ Within boundary k := by
  obtain ⟨pre, post, rfl, hpre, hout, -⟩ := pageLoop_split limit boundary l []
  rw [hout, List.nil_append, mem_liveOf] at h
  exact ⟨List.mem_append_left _ h, hpre _ h⟩

/-- A full page holds every live binding before the key that found it full. -/
theorem pageLoop_full (hl : Ascending l) {k : K}
    (h : (pageLoop limit boundary l []).2 = some k) :
    (pageLoop limit boundary l []).1.length = limit ∧
      (∀ b ∈ (pageLoop limit boundary l []).1, b.1 < k) ∧
      ∀ x r, (x, some r) ∈ l → x < k → (x, r) ∈ (pageLoop limit boundary l []).1 := by
  obtain ⟨pre, post, rfl, -, hout, hend⟩ := pageLoop_split limit boundary l []
  rw [List.nil_append] at hout
  rcases hend with ⟨k', v, post', rfl, hk', hlen⟩ | ⟨hnone, -⟩
  · obtain rfl : k' = k := Option.some.inj (hk'.symm.trans h)
    obtain ⟨-, hpost, hcross⟩ := List.pairwise_append.mp hl
    refine ⟨hlen, ?_, ?_⟩
    · intro b hb
      rw [hout] at hb
      exact hcross _ (mem_liveOf.mp hb) (k', v) List.mem_cons_self
    · intro x r hx hlt
      rw [hout, mem_liveOf]
      rcases List.mem_append.mp hx with hx | hx
      · exact hx
      · rcases List.mem_cons.mp hx with heq | hx
        · cases heq
          exact absurd hlt (lt_irrefl _)
        · exact absurd ((List.pairwise_cons.mp hpost).1 _ hx) hlt.not_gt
  · rw [h] at hnone
    cases hnone

/-- A page that is not full holds every live binding within the boundary. -/
theorem pageLoop_rest (hl : Ascending l) (h : (pageLoop limit boundary l []).2 = none)
    {x : K} {r : R} (hx : (x, some r) ∈ l) (hin : Within boundary x) :
    (x, r) ∈ (pageLoop limit boundary l []).1 := by
  obtain ⟨pre, post, rfl, -, hout, hend⟩ := pageLoop_split limit boundary l []
  rw [hout, List.nil_append, mem_liveOf]
  rcases hend with ⟨k, v, post', -, hk, -⟩ | ⟨-, hstop⟩
  · rw [h] at hk
    cases hk
  · rcases List.mem_append.mp hx with hx | hx
    · exact hx
    · -- the first binding behind the page is beyond the boundary, and `x` is not before it
      obtain ⟨-, hpost, -⟩ := List.pairwise_append.mp hl
      cases post with
      | nil => cases hx
      | cons b =>
        have hle : b.1 ≤ x := by
          rcases List.mem_cons.mp hx with rfl | hx
          · exact le_rfl
          · exact ((List.pairwise_cons.mp hpost).1 _ hx).le
        exact absurd (fun c hc => hle.trans (hin c hc)) (hstop b rfl)

/-- Live bindings within the boundary go into the page while there is room. -/
theorem pageLoop_live (live : List (K × R)) (hlive : ∀ b ∈ live, Within boundary b.1)
    (out : List (K × R)) (hroom : out.length + live.length ≤ limit) :
    pageLoop limit boundary (live.map (fun b => (b.1, some b.2)) ++ l) out =
      pageLoop limit boundary l (out ++ live) := by
  induction live generalizing out with
  | nil => rw [List.map_nil, List.nil_append, List.append_nil]
  | cons b live ih =>
    rw [List.length_cons] at hroom
    rw [List.map_cons, List.cons_append, pageLoop, if_neg (by omega),
      if_pos (hlive b List.mem_cons_self)]
    rw [ih (fun c hc => hlive c (List.mem_cons_of_mem _ hc)), List.append_assoc]
    · rfl
    · rw [List.length_append, List.length_singleton]
      omega

end Page

end Pages

end RedisFromScratch.BoundedMerges
