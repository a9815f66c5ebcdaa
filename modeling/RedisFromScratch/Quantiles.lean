import RedisFromScratch.Histograms
import Mathlib.Algebra.Order.Field.Rat
import Mathlib.Data.List.Sort
import Mathlib.Data.List.TakeWhile
import Mathlib.Data.Rat.Floor

/-!
The quantiles of a histogram, one at a time and many in one pass over the buckets. The
pass takes the targets in order and answers all those a bucket reaches, so inside the
range it finds what the single walk finds. At the ends it does not: the single one
returns the least and the greatest observation, the pass the bucket they are in.
-/
namespace RedisFromScratch.Histograms

namespace Histogram

variable (h : Histogram)

def rank (q : ℚ) : ℕ := ⌈q * h.total⌉₊

/-- The first bucket that brings the count up to what is wanted. -/
def quantileFrom (want : ℕ) : ℕ → List ℕ → ℕ
  | _, [] => h.max
  | seen, i :: is =>
      if h.counts i = 0 then quantileFrom want seen is
      else if seen + h.counts i ≥ want then valueOf i
      else quantileFrom want (seen + h.counts i) is

def quantile (q : ℚ) : ℕ :=
  if h.total = 0 then 0
  else if q ≤ 0 then h.min
  else if q ≥ 1 then h.max
  else h.quantileFrom (h.rank q) 0 (List.range bucketCount)

def target (q : ℚ) : ℕ := if h.rank q = 0 then 1 else h.rank q

/-- `out[q] = value`. -/
def answer (value : ℕ) (out : ℚ → Option ℕ) (q : ℚ) : ℚ → Option ℕ :=
  Function.update out q (some value)

/-- The targets a bucket reaches are answered; without any left the pass ends. -/
def quantilesFrom : ℕ → List ℕ → List ℚ → (ℚ → Option ℕ) → ℚ → Option ℕ
  | _, [], qs, out => qs.foldl (answer h.max) out
  | seen, i :: is, qs, out =>
      if h.counts i = 0 then quantilesFrom seen is qs out
      else
        let reached : ℚ → Bool := fun q => seen + h.counts i ≥ h.target q
        let out := (qs.takeWhile reached).foldl (answer (valueOf i)) out
        if qs.dropWhile reached = [] then out
        else quantilesFrom (seen + h.counts i) is (qs.dropWhile reached) out

def quantiles (qs : List ℚ) : ℚ → Option ℕ :=
  if h.total = 0 then qs.foldl (answer 0) (fun _ => none)
  else h.quantilesFrom 0 (List.range bucketCount) (qs.mergeSort (· ≤ ·)) (fun _ => none)

theorem foldl_answer (value : ℕ) (qs : List ℚ) (out : ℚ → Option ℕ) (q : ℚ) :
    qs.foldl (answer value) out q = if q ∈ qs then some value else out q := by
  induction qs generalizing out with
  | nil => simp
  | cons q' qs ih =>
    rw [List.foldl_cons, ih]
    by_cases hq : q = q'
    · simp [answer, hq]
    · simp [answer, hq]

theorem target_mono {q q' : ℚ} (hle : q ≤ q') : h.target q ≤ h.target q' := by
  have hrank : h.rank q ≤ h.rank q' :=
    Nat.ceil_mono (mul_le_mul_of_nonneg_right hle (Nat.cast_nonneg _))
  unfold target
  split_ifs <;> omega

/-- What a bucket does not reach is behind what it does. -/
theorem not_reached {seen : ℕ} {qs : List ℚ} (hsorted : qs.Pairwise (· ≤ ·)) {q : ℚ}
    (hq : q ∈ qs.dropWhile (fun q => seen ≥ h.target q)) : ¬ seen ≥ h.target q := by
  induction qs with
  | nil => cases hq
  | cons q' qs ih =>
    obtain ⟨hle, hsorted⟩ := List.pairwise_cons.mp hsorted
    rw [List.dropWhile_cons] at hq
    split at hq
    · exact ih hsorted hq
    · rename_i hfirst
      rcases List.mem_cons.mp hq with rfl | hin
      · simpa using hfirst
      · have := h.target_mono (hle q hin)
        simp at hfirst
        omega

/-- The pass over the buckets is the single walk for each of its targets. -/
theorem quantilesFrom_eq (seen : ℕ) (is : List ℕ) {qs : List ℚ}
    (hsorted : qs.Pairwise (· ≤ ·)) (out : ℚ → Option ℕ) (q : ℚ) :
    h.quantilesFrom seen is qs out q =
      if q ∈ qs then some (h.quantileFrom (h.target q) seen is) else out q := by
  induction is generalizing seen qs out with
  | nil => exact foldl_answer _ _ _ _
  | cons i is ih =>
    rw [quantilesFrom, quantileFrom]
    split
    · exact ih seen hsorted out
    dsimp only
    generalize hreached : (fun q => decide (seen + h.counts i ≥ h.target q)) = reached
    have hmem : q ∈ qs ↔ q ∈ qs.takeWhile reached ∨ q ∈ qs.dropWhile reached := by
      rw [← List.mem_append, List.takeWhile_append_dropWhile]
    by_cases hdrop : q ∈ qs.dropWhile reached
    · have hlate := h.not_reached hsorted (hreached ▸ hdrop)
      rw [if_neg (List.ne_nil_of_mem hdrop), ih _ (hsorted.sublist (List.dropWhile_sublist _)),
        if_pos hdrop, if_pos (hmem.mpr (Or.inr hdrop)), if_neg hlate]
    · have hanswered : (if qs.dropWhile reached = [] then
          (qs.takeWhile reached).foldl (answer (valueOf i)) out
          else h.quantilesFrom (seen + h.counts i) is (qs.dropWhile reached)
            ((qs.takeWhile reached).foldl (answer (valueOf i)) out)) q =
          (qs.takeWhile reached).foldl (answer (valueOf i)) out q := by
        split
        · rfl
        · rw [ih _ (hsorted.sublist (List.dropWhile_sublist _)), if_neg hdrop]
      rw [or_iff_left hdrop] at hmem
      rw [hanswered, foldl_answer]
      by_cases htake : q ∈ qs.takeWhile reached
      · have hearly := List.mem_takeWhile_imp htake
        rw [← hreached, decide_eq_true_iff] at hearly
        rw [if_pos htake, if_pos (hmem.mpr htake), if_pos hearly]
      · rw [if_neg htake, if_neg (fun hin => htake (hmem.mp hin))]

end Histogram

end RedisFromScratch.Histograms
