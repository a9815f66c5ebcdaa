import Mathlib.Order.Lattice
import Mathlib.Data.List.Basic
import Mathlib.Data.List.Pairwise

/-!
Finite maps stored as their bindings in strictly ascending key order.
Insertion, deletion and range restriction return tables again, so the order
never has to be proved at a use. A table is determined by its lookups. Batches
of writes are folded in from the left, and the last write of a key decides.
-/
namespace RedisFromScratch.SortedTables

variable {K V : Type*} [LinearOrder K]

/-- Bindings ascend strictly, so a key is bound at most once. -/
def Ascending (l : List (K × V)) : Prop := l.Pairwise (fun a b => a.1 < b.1)

instance (l : List (K × V)) : Decidable (Ascending l) := by
  unfold Ascending
  infer_instance

theorem Ascending.tail {a : K × V} {l : List (K × V)} (h : Ascending (a :: l)) :
    Ascending l := (List.pairwise_cons.mp h).2

theorem Ascending.head_lt {a b : K × V} {l : List (K × V)} (h : Ascending (a :: l))
    (hb : b ∈ l) : a.1 < b.1 := (List.pairwise_cons.mp h).1 b hb

theorem Ascending.filter {l : List (K × V)} (h : Ascending l) (p : K × V → Bool) :
    Ascending (l.filter p) := List.Pairwise.filter p h

theorem Ascending.sublist {l m : List (K × V)} (h : Ascending m) (hs : l.Sublist m) :
    Ascending l := List.Pairwise.sublist hs h

/-- The first binding of a key. -/
def find (l : List (K × V)) (k : K) : Option V := l.lookup k

@[simp] theorem find_nil (k : K) : find ([] : List (K × V)) k = none := rfl

theorem find_cons (b : K × V) (l : List (K × V)) (k : K) [Decidable (k = b.1)] :
    find (b :: l) k = if k = b.1 then some b.2 else find l k := by
  obtain ⟨j, v⟩ := b
  by_cases h : k = j
  · simp [find, h]
  · have hne : (k == j) = false := beq_eq_false_iff_ne.mpr h
    simp [find, List.lookup_cons, hne, h]

@[simp] theorem find_cons_self (k : K) (v : V) (l : List (K × V)) :
    find ((k, v) :: l) k = some v := by
  rw [find_cons, if_pos rfl]

theorem find_append (l m : List (K × V)) (k : K) :
    find (l ++ m) k = (find l k).or (find m k) := List.lookup_append

theorem find_eq_none_iff (l : List (K × V)) (k : K) :
    find l k = none ↔ ∀ b ∈ l, b.1 ≠ k := by
  rw [find, List.lookup_eq_none_iff]
  simp only [bne_iff_ne]
  exact forall₂_congr (fun b _ => ne_comm)

theorem find_eq_none_of_forall_ne {k : K} {l : List (K × V)}
    (h : ∀ b ∈ l, b.1 ≠ k) : find l k = none := (find_eq_none_iff l k).mpr h

theorem mem_of_find {k : K} {v : V} {l : List (K × V)} (h : find l k = some v) : (k, v) ∈ l := by
  obtain ⟨pre, post, heq, -⟩ := List.lookup_eq_some_iff.mp h
  rw [heq]
  simp

/-- Membership and search say the same thing of an ascending list. -/
theorem Ascending.mem_iff_find {l : List (K × V)} (h : Ascending l) (k : K) (v : V) :
    (k, v) ∈ l ↔ find l k = some v := by
  induction l with
  | nil => simp
  | cons a l ih =>
    obtain ⟨j, w⟩ := a
    rw [List.mem_cons, find_cons, ih h.tail]
    by_cases hkj : k = j
    · subst j
      have habsent : find l k = none := by
        apply find_eq_none_of_forall_ne
        intro b hb
        exact (h.head_lt hb).ne'
      simp [habsent, eq_comm]
    · simp [hkj]

/-- Nothing is found below the head of an ascending list. -/
theorem Ascending.find_of_lt_head {k : K} {a : K × V} {l : List (K × V)}
    (h : Ascending (a :: l)) (hk : k < a.1) : find (a :: l) k = none := by
  apply find_eq_none_of_forall_ne
  intro b hb
  rcases List.mem_cons.mp hb with rfl | hb
  · exact hk.ne'
  · exact (hk.trans (h.head_lt hb)).ne'

theorem find_filter_key (l : List (K × V)) (p : K → Bool) (k : K) :
    find (l.filter (fun b => p b.1)) k = if p k then find l k else none := by
  induction l with
  | nil => simp
  | cons a l ih =>
    obtain ⟨j, v⟩ := a
    by_cases hkj : k = j
    · subst j
      cases hp : p k <;> simp [hp, ih]
    · cases hp : p j <;> simp [hp, ih, find_cons, hkj]

/-- Of an ascending list, filtering keeps or loses the one binding of a key. -/
theorem Ascending.find_filter {l : List (K × V)} (h : Ascending l) (p : K × V → Bool) (k : K) :
    find (l.filter p) k = (find l k).bind (fun v => if p (k, v) then some v else none) := by
  cases hv : find l k with
  | none =>
    rw [find_eq_none_iff] at hv
    exact find_eq_none_of_forall_ne (fun b hb => hv b (List.mem_filter.mp hb).1)
  | some v =>
    rw [Option.bind_some]
    have hmem := (h.mem_iff_find k v).mpr hv
    by_cases hp : p (k, v) = true
    · rw [if_pos hp]
      exact ((h.filter p).mem_iff_find k v).mp (List.mem_filter.mpr ⟨hmem, hp⟩)
    · rw [if_neg hp]
      cases hw : find (l.filter p) k with
      | none => rfl
      | some w =>
        obtain ⟨hin, hpw⟩ := List.mem_filter.mp (((h.filter p).mem_iff_find k w).mpr hw)
        have hvw := ((h.mem_iff_find k w).mp hin).symm.trans hv
        cases hvw
        exact absurd hpw hp

/-- Put a binding in its place, replacing an earlier one of the same key. -/
def insertList (k : K) (v : V) : List (K × V) → List (K × V)
  | [] => [(k, v)]
  | (j, w) :: rest =>
      if k < j then (k, v) :: (j, w) :: rest
      else if k = j then (k, v) :: rest
      else (j, w) :: insertList k v rest

theorem mem_insertList {k : K} {v : V} {l : List (K × V)} {b : K × V}
    (h : b ∈ insertList k v l) : b = (k, v) ∨ b ∈ l := by
  induction l with
  | nil => simpa [insertList] using h
  | cons a l ih =>
    unfold insertList at h
    split_ifs at h with hlt heq
    · simpa using h
    · rcases List.mem_cons.mp h with hb | hb
      · exact Or.inl hb
      · exact Or.inr (List.mem_cons_of_mem _ hb)
    · rcases List.mem_cons.mp h with hb | hb
      · exact Or.inr (by simp [hb])
      · rcases ih hb with hb | hb
        · exact Or.inl hb
        · exact Or.inr (List.mem_cons_of_mem _ hb)

theorem insertList_ascending (k : K) (v : V) {l : List (K × V)} (h : Ascending l) :
    Ascending (insertList k v l) := by
  induction l with
  | nil => simp [insertList, Ascending]
  | cons a l ih =>
    obtain ⟨j, w⟩ := a
    unfold insertList
    split_ifs with hlt heq
    · refine List.pairwise_cons.mpr ⟨?_, h⟩
      intro b hb
      rcases List.mem_cons.mp hb with rfl | hb
      · exact hlt
      · exact hlt.trans (h.head_lt hb)
    · subst j
      exact List.pairwise_cons.mpr ⟨fun b hb => h.head_lt hb, h.tail⟩
    · have hgt : j < k := lt_of_le_of_ne (not_lt.mp hlt) (Ne.symm heq)
      refine List.pairwise_cons.mpr ⟨?_, ih h.tail⟩
      intro b hb
      rcases mem_insertList hb with rfl | hb
      · exact hgt
      · exact h.head_lt hb

theorem find_insertList (k : K) (v : V) (l : List (K × V)) (j : K) [Decidable (j = k)] :
    find (insertList k v l) j = if j = k then some v else find l j := by
  induction l with
  | nil => simp [insertList, find_cons]
  | cons a l ih =>
    obtain ⟨i, w⟩ := a
    unfold insertList
    by_cases hlt : k < i
    · simp [hlt, find_cons]
    by_cases heq : k = i
    · subst i
      by_cases hjk : j = k <;> simp [find_cons, hjk]
    -- the key goes further down, past a binding of another key
    · by_cases hji : j = i
      · subst i
        simp [hlt, heq, Ne.symm heq, find_cons]
      · simp [hlt, heq, hji, find_cons, ih]

/-- A map as the list of its bindings, with the order carried along. -/
structure Table (K V : Type*) [LinearOrder K] where
  entries : List (K × V)
  sorted : Ascending entries

namespace Table

def empty : Table K V := ⟨[], List.Pairwise.nil⟩

def lookup (t : Table K V) (k : K) : Option V := find t.entries k

def insert (t : Table K V) (k : K) (v : V) : Table K V :=
  ⟨insertList k v t.entries, insertList_ascending k v t.sorted⟩

def erase (t : Table K V) (k : K) : Table K V :=
  ⟨t.entries.filter (fun b => b.1 ≠ k), t.sorted.filter _⟩

/-- Every write of a list, from the left. -/
def insertAll (t : Table K V) (l : List (K × V)) : Table K V :=
  l.foldl (fun t b => t.insert b.1 b.2) t

/-- The bindings at or after a key, in order. -/
def atOrAfter (t : Table K V) (start : K) : List (K × V) :=
  t.entries.filter (fun b => start ≤ b.1)

theorem mem_entries_iff (t : Table K V) (k : K) (v : V) :
    (k, v) ∈ t.entries ↔ t.lookup k = some v := t.sorted.mem_iff_find k v

theorem nodup_entries (t : Table K V) : t.entries.Nodup :=
  t.sorted.imp (fun hlt heq => hlt.ne (congrArg Prod.fst heq))

theorem nodup_keys (t : Table K V) : (t.entries.map Prod.fst).Nodup :=
  List.pairwise_map.mpr (t.sorted.imp (fun hlt => hlt.ne))

/-- A table is determined by its lookups. -/
theorem entries_eq_of_lookup {t u : Table K V} (h : ∀ k, t.lookup k = u.lookup k) :
    t.entries = u.entries := by
  have hperm : t.entries.Perm u.entries := by
    rw [List.perm_ext_iff_of_nodup t.nodup_entries u.nodup_entries]
    intro b
    rw [t.mem_entries_iff, u.mem_entries_iff, h]
  exact hperm.eq_of_pairwise (fun a b _ _ hab hba => absurd hab hba.not_gt) t.sorted u.sorted

@[simp] theorem lookup_empty (k : K) : (empty : Table K V).lookup k = none := rfl

@[simp] theorem lookup_insert (t : Table K V) (k : K) (v : V) (j : K) [Decidable (j = k)] :
    (t.insert k v).lookup j = if j = k then some v else t.lookup j :=
  find_insertList k v t.entries j

@[simp] theorem lookup_erase (t : Table K V) (k j : K) [Decidable (j = k)] :
    (t.erase k).lookup j = if j = k then none else t.lookup j := by
  have h := find_filter_key t.entries (fun i => decide (i ≠ k)) j
  by_cases hjk : j = k
  · simpa [lookup, erase, hjk] using h
  · simpa [lookup, erase, hjk] using h

theorem ext_lookup {t u : Table K V} (h : ∀ k, t.lookup k = u.lookup k) : t = u := by
  have hentries := entries_eq_of_lookup h
  cases t
  cases u
  cases hentries
  rfl

/-- Of two writes to a key the later one stays. -/
theorem insert_insert (t : Table K V) (k : K) (v w : V) :
    (t.insert k v).insert k w = t.insert k w := by
  apply ext_lookup
  intro j
  rw [lookup_insert, lookup_insert, lookup_insert]
  by_cases hj : j = k
  · rw [if_pos hj, if_pos hj]
  · rw [if_neg hj, if_neg hj, if_neg hj]

/-- The bindings of one key and of all the others. -/
theorem perm_of_lookup {t u : Table K V} {k : K} {v : V} (hk : t.lookup k = some v)
    (hu : u.lookup k = none) (hother : ∀ j, j ≠ k → t.lookup j = u.lookup j) :
    t.entries.Perm ((k, v) :: u.entries) := by
  have hfresh : (k, v) ∉ u.entries := by simp [mem_entries_iff, hu]
  have hnodup := List.nodup_cons.mpr ⟨hfresh, u.nodup_entries⟩
  rw [List.perm_ext_iff_of_nodup t.nodup_entries hnodup]
  rintro ⟨j, w⟩
  rw [List.mem_cons, mem_entries_iff, mem_entries_iff]
  by_cases hj : j = k
  · subst hj
    rw [hk, hu]
    simp [eq_comm]
  · rw [hother j hj]
    simp [hj]

theorem entries_insert_perm (t : Table K V) (k : K) (v : V) :
    (t.insert k v).entries.Perm ((k, v) :: (t.erase k).entries) :=
  perm_of_lookup (by simp) (by simp) (fun j hj => by simp [hj])

theorem entries_perm_erase {t : Table K V} {k : K} {v : V} (h : t.lookup k = some v) :
    t.entries.Perm ((k, v) :: (t.erase k).entries) :=
  perm_of_lookup h (by simp) (fun j hj => by simp [hj])

theorem entries_erase_of_lookup_none {t : Table K V} {k : K} (h : t.lookup k = none) :
    (t.erase k).entries = t.entries := by
  apply entries_eq_of_lookup
  intro j
  by_cases hj : j = k
  · simp [hj, h]
  · simp [hj]

end Table

/-- What a list of writes leaves at a key: the last of them to it. -/
def lastWrite (k : K) (l : List (K × V)) : Option V := find l.reverse k

@[simp] theorem lastWrite_nil (k : K) : lastWrite k ([] : List (K × V)) = none := rfl

theorem lastWrite_append (k : K) (l m : List (K × V)) :
    lastWrite k (l ++ m) = (lastWrite k m).or (lastWrite k l) := by
  simp [lastWrite, find_append]

theorem lastWrite_cons (k : K) (b : K × V) (l : List (K × V)) [Decidable (k = b.1)] :
    lastWrite k (b :: l) = (lastWrite k l).or (if k = b.1 then some b.2 else none) := by
  have h := lastWrite_append k [b] l
  simp only [List.singleton_append] at h
  rw [h]
  congr 1
  simp [lastWrite, find_cons]

theorem lastWrite_eq_none_iff (k : K) (l : List (K × V)) :
    lastWrite k l = none ↔ ∀ b ∈ l, b.1 ≠ k := by
  rw [lastWrite, find_eq_none_iff]
  simp only [List.mem_reverse]

theorem mem_of_lastWrite {k : K} {v : V} {l : List (K × V)} (h : lastWrite k l = some v) :
    (k, v) ∈ l := List.mem_reverse.mp (mem_of_find h)

/-- A table read as a list of writes. -/
theorem Table.lastWrite_entries (t : Table K V) (k : K) : lastWrite k t.entries = t.lookup k := by
  have hmem : ∀ v, lastWrite k t.entries = some v → t.lookup k = some v := fun v hv =>
    (t.mem_entries_iff k v).mp (mem_of_lastWrite hv)
  cases hlast : lastWrite k t.entries with
  | some v => exact (hmem v hlast).symm
  | none =>
    cases hlook : t.lookup k with
    | none => rfl
    | some v =>
      exact absurd rfl ((lastWrite_eq_none_iff k _).mp hlast _ ((t.mem_entries_iff k v).mpr hlook))

theorem lastWrite_map {W : Type*} (g : V → W) (k : K) (l : List (K × V)) :
    lastWrite k (l.map (fun b => (b.1, g b.2))) = (lastWrite k l).map g := by
  induction l with
  | nil => rfl
  | cons b l ih =>
    rw [List.map_cons, lastWrite_cons, lastWrite_cons, ih]
    cases lastWrite k l with
    | some => rfl
    | none =>
      simp only [Option.none_or, Option.map_none]
      split <;> rfl

/-- Reading a table after a batch of writes: the last write of the key, and
the old binding where the batch does not mention it. -/
theorem Table.lookup_insertAll (t : Table K V) (l : List (K × V)) (k : K) :
    (t.insertAll l).lookup k = (lastWrite k l).or (t.lookup k) := by
  induction l generalizing t with
  | nil => rfl
  | cons b l ih =>
    have hstep : t.insertAll (b :: l) = (t.insert b.1 b.2).insertAll l := rfl
    rw [hstep, ih, lastWrite_cons, Option.or_assoc]
    congr 1
    by_cases hk : k = b.1 <;> simp [hk]

/-- Where a binary search for the first element that fails `p` ends. -/
def partitionPoint {α : Type*} (p : α → Bool) (l : List α) : ℕ := (l.takeWhile p).length

/-- The first element whose bound reaches a key. -/
def search {α : Type*} (bound : α → K) (l : List α) (k : K) : Option α :=
  l[partitionPoint (fun a => decide (bound a < k)) l]?

theorem search_cons {α : Type*} (bound : α → K) (a : α) (l : List α) (k : K) :
    search bound (a :: l) k = if bound a < k then search bound l k else some a := by
  unfold search partitionPoint
  by_cases h : bound a < k
  · rw [List.takeWhile_cons_of_pos (by simpa using h), if_pos h]
    rfl
  · rw [List.takeWhile_cons_of_neg (by simpa using h), if_neg h]
    rfl

theorem mem_of_search {α : Type*} {bound : α → K} {l : List α} {k : K} {a : α}
    (h : search bound l k = some a) : a ∈ l := List.mem_of_getElem? h

/-- Parts that follow one another, each below its own bound and above the bounds
of the parts before it. -/
def Tiled {α : Type*} (bound : α → K) (content : α → List (K × V)) (l : List α) : Prop :=
  (∀ a ∈ l, ∀ b ∈ content a, b.1 ≤ bound a) ∧
    l.Pairwise (fun a a' => ∀ b ∈ content a', bound a < b.1)

/-- The first part whose bound reaches a key is the only one that can bind it. -/
theorem Tiled.find_flatMap {α : Type*} {bound : α → K} {content : α → List (K × V)}
    {l : List α} (h : Tiled bound content l) (k : K) :
    find (l.flatMap content) k = (search bound l k).bind (fun a => find (content a) k) := by
  induction l with
  | nil => rfl
  | cons a l ih =>
    obtain ⟨hbound, hnext⟩ := h
    have hafter := (List.pairwise_cons.mp hnext).1
    have hrest := ih ⟨fun b hb => hbound b (List.mem_cons_of_mem _ hb),
      (List.pairwise_cons.mp hnext).2⟩
    rw [List.flatMap_cons, find_append, search_cons]
    by_cases hk : bound a < k
    · have hskip : find (content a) k = none :=
        find_eq_none_of_forall_ne
          (fun b hb => ((hbound a List.mem_cons_self b hb).trans_lt hk).ne)
      rw [hskip, Option.none_or, hrest, if_pos hk]
    · have hlast : find (l.flatMap content) k = none := by
        apply find_eq_none_of_forall_ne
        intro b hb
        obtain ⟨a', ha', hba'⟩ := List.mem_flatMap.mp hb
        exact ((not_lt.mp hk).trans_lt (hafter a' ha' b hba')).ne'
      rw [hlast, Option.or_none, if_neg hk, Option.bind_some]

/-- What the bindings of a sorted list stand for, when some of them stand for nothing. -/
theorem flatMap_ascending {A B : Type*} {l : List (K × V)} (hl : Ascending l)
    (key : A → K) {gs : List A}
    (hgs : gs.Pairwise (fun a b => key a < key b)) (f : K × V → List B) (v : A → List B)
    (hin : ∀ g ∈ gs, ∃ b ∈ l, b.1 = key g ∧ f b = v g)
    (hout : ∀ b ∈ l, (∀ g ∈ gs, key g ≠ b.1) → f b = []) : l.flatMap f = gs.flatMap v := by
  induction l generalizing gs with
  | nil =>
    cases gs with
    | nil => rfl
    | cons g =>
      obtain ⟨b, hb, -⟩ := hin g List.mem_cons_self
      cases hb
  | cons b l ih =>
    have hlt : ∀ c ∈ l, b.1 < c.1 := fun c hc => hl.head_lt hc
    by_cases hkey : ∃ g ∈ gs, key g = b.1
    · -- the smallest number on both sides
      obtain ⟨g, hg, hkey⟩ := hkey
      cases gs with
      | nil => cases hg
      | cons g₀ =>
        obtain ⟨hless, hrest⟩ := List.pairwise_cons.mp hgs
        obtain ⟨b₀, hb₀, hkey₀, hv⟩ := hin g₀ List.mem_cons_self
        have hfirst : b₀ = b := by
          rcases List.mem_cons.mp hb₀ with rfl | hlater
          · rfl
          · have hgt := hlt b₀ hlater
            rcases List.mem_cons.mp hg with rfl | hg
            · exact absurd (hkey₀.trans hkey) hgt.ne'
            · exact absurd ((hless g hg).trans (hkey ▸ hgt)) (by rw [hkey₀]; exact lt_irrefl _)
        subst hfirst
        rw [List.flatMap_cons, List.flatMap_cons, hv]
        congr 1
        refine ih hl.tail hrest ?_ ?_
        · intro g' hg'
          obtain ⟨c, hc, hckey, hcv⟩ := hin g' (List.mem_cons_of_mem _ hg')
          rcases List.mem_cons.mp hc with rfl | hc
          · exact absurd (hless g' hg') (by rw [← hckey, hkey₀]; exact lt_irrefl _)
          · exact ⟨c, hc, hckey, hcv⟩
        · intro c hc hno
          refine hout c (List.mem_cons_of_mem _ hc) (fun g' hg' => ?_)
          rcases List.mem_cons.mp hg' with rfl | hg'
          · exact fun heq => absurd (hlt c hc) (by rw [hkey₀, heq]; exact lt_irrefl _)
          · exact hno g' hg'
    · have hnone : f b = [] := hout b List.mem_cons_self (fun g hg heq => hkey ⟨g, hg, heq⟩)
      rw [List.flatMap_cons, hnone, List.nil_append]
      refine ih hl.tail hgs ?_ (fun c hc => hout c (List.mem_cons_of_mem _ hc))
      intro g hg
      obtain ⟨c, hc, hckey, hcv⟩ := hin g hg
      rcases List.mem_cons.mp hc with rfl | hc
      · exact absurd ⟨g, hg, hckey.symm⟩ hkey
      · exact ⟨c, hc, hckey, hcv⟩

end RedisFromScratch.SortedTables
