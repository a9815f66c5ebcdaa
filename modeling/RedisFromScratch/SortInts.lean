import Mathlib.Data.List.Induction
import Mathlib.Data.List.Sort

/-!
The sort both stores use on lock indices: each item in turn sinks to its place
among those before it, by swaps with its left neighbour. The result is ascending
for every input, and has the items of the input.
-/
namespace RedisFromScratch.SortInts

variable {α : Type*} [LinearOrder α]

/-- The inner loop: the item at `j` goes left past every larger one. -/
def sink : ℕ → List α → List α
  | 0, a => a
  | j + 1, a =>
      match a[j]?, a[j + 1]? with
      | some y, some x => if x < y then sink j ((a.set (j + 1) y).set j x) else a
      | _, _ => a

def sortInts (a : List α) : List α :=
  (List.range' 1 (a.length - 1)).foldl (fun a i => sink i a) a

/-- An item behind an ascending list sinks to its place, and what follows stays. -/
theorem sink_append (pre post : List α) (x : α) (hpre : pre.Pairwise (· ≤ ·)) :
    ∃ q, sink pre.length (pre ++ x :: post) = q ++ post ∧ q.Perm (pre ++ [x]) ∧
      q.Pairwise (· ≤ ·) := by
  induction pre using List.reverseRecOn generalizing post with
  | nil => exact ⟨[x], rfl, List.Perm.refl _, List.pairwise_singleton _ x⟩
  | append_singleton init y ih =>
    obtain ⟨hinit, -, hy⟩ := List.pairwise_append.mp hpre
    have hleft : (init ++ [y] ++ x :: post)[init.length]? = some y := by simp
    have hright : (init ++ [y] ++ x :: post)[init.length + 1]? = some x := by simp
    rw [List.length_append, List.length_singleton, sink, hleft, hright]
    dsimp only
    by_cases hlt : x < y
    · have hswap : ((init ++ [y] ++ x :: post).set (init.length + 1) y).set init.length x =
          init ++ x :: y :: post := by simp
      obtain ⟨q, hsink, hperm, hsorted⟩ := ih (y :: post) hinit
      rw [if_pos hlt, hswap]
      refine ⟨q ++ [y], by rw [hsink, List.append_assoc, List.singleton_append], ?_, ?_⟩
      · refine (hperm.append_right [y]).trans ?_
        rw [List.append_assoc, List.append_assoc]
        exact (List.Perm.swap y x []).append_left init
      · refine List.pairwise_append.mpr ⟨hsorted, List.pairwise_singleton _ y, ?_⟩
        intro a ha b hb
        rw [List.mem_singleton.mp hb]
        rcases List.mem_append.mp (hperm.mem_iff.mp ha) with ha | ha
        · exact hy a ha y (List.mem_singleton_self y)
        · rw [List.mem_singleton.mp ha]
          exact hlt.le
    · rw [if_neg hlt]
      refine ⟨init ++ [y] ++ [x], by simp, List.Perm.refl _, ?_⟩
      refine List.pairwise_append.mpr ⟨hpre, List.pairwise_singleton _ x, ?_⟩
      intro a ha b hb
      rw [List.mem_singleton.mp hb]
      rcases List.mem_append.mp ha with ha | ha
      · exact (hy a ha y (List.mem_singleton_self y)).trans (not_lt.mp hlt)
      · rw [List.mem_singleton.mp ha]
        exact not_lt.mp hlt

/-- The outer loop, from where an ascending part ends. -/
theorem foldl_sink (pre post : List α) (hpre : pre.Pairwise (· ≤ ·)) :
    ((List.range' pre.length post.length).foldl (fun a i => sink i a) (pre ++ post)).Perm
        (pre ++ post) ∧
      ((List.range' pre.length post.length).foldl (fun a i => sink i a)
        (pre ++ post)).Pairwise (· ≤ ·) := by
  induction post generalizing pre with
  | nil =>
    rw [List.append_nil]
    exact ⟨List.Perm.refl _, hpre⟩
  | cons x post ih =>
    obtain ⟨q, hsink, hperm, hsorted⟩ := sink_append pre post x hpre
    have hlength : q.length = pre.length + 1 := by
      rw [hperm.length_eq, List.length_append, List.length_singleton]
    obtain ⟨hrest, hascending⟩ := ih q hsorted
    rw [List.length_cons, List.range'_succ, List.foldl_cons, hsink, ← hlength]
    refine ⟨hrest.trans ((hperm.append_right post).trans ?_), hascending⟩
    rw [List.append_assoc, List.singleton_append]

theorem sortInts_perm_sorted (a : List α) :
    (sortInts a).Perm a ∧ (sortInts a).Pairwise (· ≤ ·) := by
  cases a with
  | nil => exact ⟨List.Perm.refl _, List.Pairwise.nil⟩
  | cons x a => exact foldl_sink [x] a (List.pairwise_singleton _ x)

theorem sortInts_perm (a : List α) : (sortInts a).Perm a := (sortInts_perm_sorted a).1

/-- Distinct items come out strictly ascending. -/
theorem sortInts_ascending {a : List α} (h : a.Nodup) : (sortInts a).Pairwise (· < ·) := by
  have hnodup : (sortInts a).Nodup := (sortInts_perm a).nodup_iff.mpr h
  have hboth := List.Pairwise.and (sortInts_perm_sorted a).2 hnodup
  exact hboth.imp (fun hab => lt_of_le_of_ne hab.1 hab.2)

/-- The sort is the one specified by its result. -/
theorem sortInts_eq_insertionSort {a b : List α} (h : a.Perm b) :
    sortInts a = b.insertionSort (· ≤ ·) := by
  have hperm : (sortInts a).Perm (b.insertionSort (· ≤ ·)) :=
    ((sortInts_perm a).trans h).trans (List.perm_insertionSort _ b).symm
  exact hperm.eq_of_pairwise (fun x y _ _ hxy hyx => le_antisymm hxy hyx)
    (sortInts_perm_sorted a).2 (List.pairwise_insertionSort _ b)

example : sortInts [3, 1, 2, 1] = [1, 1, 2, 3] := by decide

end RedisFromScratch.SortInts
