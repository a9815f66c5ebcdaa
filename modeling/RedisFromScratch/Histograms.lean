import Mathlib.Algebra.Order.Ring.Nat
import Mathlib.Data.Nat.Log
import Mathlib.Logic.Function.Basic

/-!
The latency histogram of internal/bench. Values below 256 have a bucket each; above
that an octave has 128 of them. A value is its top eight bits and a shift, and its
bucket is made of the two, which gives the error bound and the order at once. A
histogram holds what was recorded, so merging two is recording both sequences.
-/
namespace RedisFromScratch.Histograms

def linearLimit : ℕ := 256

def subBuckets : ℕ := 128

def bucketCount : ℕ := linearLimit + (64 - 8) * subBuckets

/-- The bit length of a number that is not zero is its logarithm and one. -/
def indexOf (v : ℕ) : ℕ :=
  if v < linearLimit then v
  else
    let msb := v.log2
    let sub := (v >>> (msb - 7)) &&& (subBuckets - 1)
    linearLimit + (msb - 8) * subBuckets + sub

def valueOf (i : ℕ) : ℕ :=
  if i < linearLimit then i
  else
    let rel := i - linearLimit
    let msb := rel / subBuckets + 8
    let sub := rel % subBuckets
    ((subBuckets + sub) <<< (msb - 7)) % 2 ^ 64

/-- How far a value is shifted to leave its top eight bits. -/
def scale (v : ℕ) : ℕ := v.log2 - 7

/-- The bits a value is left with: all eight of them if any were dropped. -/
def Leading (s m : ℕ) : Prop := m < 256 ∧ (s = 0 ∨ 128 ≤ m)

theorem leading_scale (v : ℕ) : Leading (scale v) (v / 2 ^ scale v) := by
  unfold Leading scale
  constructor
  · rw [Nat.div_lt_iff_lt_mul (Nat.two_pow_pos _), show 256 = 2 ^ 8 from rfl, ← Nat.pow_add]
    exact Nat.lt_log2_self.trans_le (Nat.pow_le_pow_right (by decide) (by omega))
  · rcases Nat.lt_or_ge v.log2 8 with hlow | hhigh
    · left
      omega
    · right
      have hv : v ≠ 0 := by
        rintro rfl
        exact absurd hhigh (by decide)
      rw [Nat.le_div_iff_mul_le (Nat.two_pow_pos _), show 128 = 2 ^ 7 from rfl, ← Nat.pow_add,
        Nat.add_sub_cancel' (by omega)]
      exact Nat.log2_self_le hv

theorem scale_of_lt {v : ℕ} (h : v < 256) : scale v = 0 := by
  rcases Nat.eq_zero_or_pos v with rfl | hpos
  · decide
  · have := (Nat.log2_lt hpos.ne').mpr (show v < 2 ^ 8 from h)
    unfold scale
    omega

/-- The shift can be told from the value. -/
theorem scale_of_leading {s m : ℕ} (h : Leading s m) : scale (m * 2 ^ s) = s := by
  rcases h with ⟨hm, rfl | hlow⟩
  · rw [Nat.pow_zero, Nat.mul_one]
    exact scale_of_lt hm
  · have hpos := Nat.two_pow_pos s
    have hlog : (m * 2 ^ s).log2 = 7 + s := by
      rw [Nat.log2_eq_iff (Nat.mul_ne_zero (by omega) hpos.ne'), Nat.add_right_comm, Nat.pow_add,
        Nat.pow_add]
      exact ⟨Nat.mul_le_mul_right _ hlow, Nat.mul_lt_mul_of_pos_right hm hpos⟩
    unfold scale
    omega

/-- A bucket is a shift and the bits that are left. -/
theorem indexOf_eq (v : ℕ) : indexOf v = 128 * scale v + v / 2 ^ scale v := by
  obtain ⟨hm, hs⟩ := leading_scale v
  unfold indexOf
  split
  · rename_i hlow
    rw [scale_of_lt hlow]
    simp
  · rename_i hhigh
    have hlog : 8 ≤ v.log2 := (Nat.le_log2 (by unfold linearLimit at hhigh; omega)).mpr
      (Nat.not_lt.mp hhigh)
    have hand : v >>> (v.log2 - 7) &&& (subBuckets - 1) = v / 2 ^ (v.log2 - 7) % 128 := by
      rw [← Nat.shiftRight_eq_div_pow]
      exact Nat.and_two_pow_sub_one_eq_mod _ 7
    dsimp only
    rw [hand]
    unfold scale at hm hs ⊢
    unfold linearLimit subBuckets
    omega

theorem valueOf_of_leading {s m : ℕ} (h : Leading s m) (hfit : m * 2 ^ s < 2 ^ 64) :
    valueOf (128 * s + m) = m * 2 ^ s := by
  obtain ⟨hm, hs⟩ := h
  unfold valueOf linearLimit subBuckets
  split
  · obtain rfl : s = 0 := by omega
    simp
  · have hshift : (128 * s + m - 256) / 128 + 8 - 7 = s := by omega
    have hsub : 128 + (128 * s + m - 256) % 128 = m := by omega
    dsimp only
    rw [hshift, hsub, Nat.shiftLeft_eq, Nat.mod_eq_of_lt hfit]

/-- The value of a bucket is the least one in it. -/
theorem valueOf_indexOf {v : ℕ} (hv : v < 2 ^ 64) :
    valueOf (indexOf v) = v / 2 ^ scale v * 2 ^ scale v := by
  have hle := Nat.div_mul_le_self v (2 ^ scale v)
  rw [indexOf_eq, valueOf_of_leading (leading_scale v) (hle.trans_lt hv)]

theorem indexOf_mono {v w : ℕ} (h : v ≤ w) : indexOf v ≤ indexOf w := by
  have hv := leading_scale v
  have hw := leading_scale w
  have hlog := Nat.log_mono_right (b := 2) h
  rw [← Nat.log2_eq_log_two, ← Nat.log2_eq_log_two] at hlog
  rw [indexOf_eq, indexOf_eq]
  rcases (Nat.sub_le_sub_right hlog 7).lt_or_eq with hlt | heq
  · unfold Leading at hv hw
    unfold scale at *
    omega
  · unfold scale
    rw [heq]
    have := Nat.div_le_div_right (c := 2 ^ (w.log2 - 7)) h
    omega

theorem indexOf_valueOf {i : ℕ} (hi : i < bucketCount) : indexOf (valueOf i) = i := by
  change i < 7424 at hi
  obtain ⟨s, m, hlead, hs, rfl⟩ : ∃ s m, Leading s m ∧ s ≤ 56 ∧ i = 128 * s + m :=
    ⟨i / 128 - 1, i - 128 * (i / 128 - 1), ⟨by omega, by omega⟩, by omega, by omega⟩
  have hfit : m * 2 ^ s < 2 ^ 8 * 2 ^ 56 := Nat.mul_lt_mul_of_lt_of_le hlead.1
    (Nat.pow_le_pow_right (by decide) hs) (Nat.two_pow_pos _)
  rw [valueOf_of_leading hlead hfit, indexOf_eq, scale_of_leading hlead,
    Nat.mul_div_cancel _ (Nat.two_pow_pos s)]

/-- The octave of a value is at least 128 steps of its buckets wide. -/
theorem valueOf_indexOf_close {v : ℕ} (hv : v < 2 ^ 64) :
    valueOf (indexOf v) ≤ v ∧ 128 * (v - valueOf (indexOf v)) ≤ v := by
  have hsplit := Nat.div_add_mod' v (2 ^ scale v)
  have hmod := Nat.mod_lt v (Nat.two_pow_pos (scale v))
  rw [valueOf_indexOf hv]
  refine ⟨by omega, ?_⟩
  rcases (leading_scale v).2 with hzero | hlow
  · simp [hzero]
  · have := Nat.mul_le_mul_right (2 ^ scale v) hlow
    omega

theorem indexOf_lt {v : ℕ} (hv : v < 2 ^ 64) : indexOf v < bucketCount := by
  have hlead := (leading_scale v).1
  have hs : scale v ≤ 56 := by
    rcases Nat.eq_zero_or_pos v with rfl | hpos
    · decide
    · have := (Nat.log2_lt hpos.ne').mpr hv
      unfold scale
      omega
  rw [indexOf_eq]
  change _ < 7424
  omega

/-- The counters are of observations, the sum wraps. -/
structure Histogram where
  counts : ℕ → ℕ
  total : ℕ
  sum : UInt64
  min : ℕ
  max : ℕ

namespace Histogram

def new : Histogram := ⟨fun _ => 0, 0, 0, 2 ^ 64 - 1, 0⟩

def record (h : Histogram) (ns : UInt64) : Histogram where
  counts := Function.update h.counts (indexOf ns.toNat) (h.counts (indexOf ns.toNat) + 1)
  total := h.total + 1
  sum := h.sum + ns
  min := if ns.toNat < h.min then ns.toNat else h.min
  max := if ns.toNat > h.max then ns.toNat else h.max

def merge (h other : Histogram) : Histogram where
  counts i := h.counts i + other.counts i
  total := h.total + other.total
  sum := h.sum + other.sum
  min := if other.total > 0 then if other.min < h.min then other.min else h.min else h.min
  max := if other.total > 0 then if other.max > h.max then other.max else h.max else h.max

/-- The histogram of a sequence of observations. -/
def recorded (vs : List UInt64) : Histogram := vs.foldl record new

/-- An observation of the one that is merged in can be made after the merge. -/
theorem merge_record (h : Histogram) {g : Histogram} (hg : g.total = 0 → g = new) (v : UInt64) :
    h.merge (g.record v) = (h.merge g).record v := by
  have hv := v.toNat_lt
  have hempty : g.total = 0 → g.min = 2 ^ 64 - 1 ∧ g.max = 0 := by
    intro hzero
    rw [hg hzero]
    exact ⟨rfl, rfl⟩
  clear hg
  unfold merge record
  congr 1
  · funext i
    by_cases hi : i = indexOf v.toNat
    · simp [hi, Nat.add_assoc]
    · simp [hi]
  · exact (UInt64.add_assoc _ _ _).symm
  · grind
  · grind

theorem merge_foldl (h : Histogram) {g : Histogram} (hg : g.total = 0 → g = new)
    (vs : List UInt64) : h.merge (vs.foldl record g) = vs.foldl record (h.merge g) := by
  induction vs generalizing g with
  | nil => rfl
  | cons v vs ih =>
    rw [List.foldl_cons, List.foldl_cons, ← merge_record h hg]
    exact ih (fun hzero => absurd hzero (Nat.succ_ne_zero _))

theorem merge_recorded (xs ys : List UInt64) :
    (recorded xs).merge (recorded ys) = recorded (xs ++ ys) := by
  have hnew : (recorded xs).merge new = recorded xs := by
    simp [merge, new]
  rw [recorded, recorded, merge_foldl _ (fun _ => rfl), recorded, List.foldl_append]
  exact congrArg (ys.foldl record) hnew

end Histogram

open Histogram

/-- Every value has a bucket whose least value is close to it, in order; every bucket is that
of its least value; and a merge is the histogram of both sequences. -/
theorem buckets_tight (v w : UInt64) (i : Fin bucketCount) (xs ys : List UInt64) :
    indexOf v.toNat < bucketCount ∧ (v ≤ w → indexOf v.toNat ≤ indexOf w.toNat) ∧
      valueOf (indexOf v.toNat) ≤ v.toNat ∧
      128 * (v.toNat - valueOf (indexOf v.toNat)) ≤ v.toNat ∧
      (v < 256 → v.toNat - valueOf (indexOf v.toNat) = 0) ∧
      indexOf (valueOf i) = i ∧ (recorded xs).merge (recorded ys) = recorded (xs ++ ys) := by
  obtain ⟨hle, hclose⟩ := valueOf_indexOf_close v.toNat_lt
  refine ⟨indexOf_lt v.toNat_lt, fun h => indexOf_mono h, hle, hclose, ?_, indexOf_valueOf i.2,
    merge_recorded xs ys⟩
  intro hlow
  rw [valueOf_indexOf v.toNat_lt, scale_of_lt (UInt64.lt_iff_toNat_lt.mp hlow)]
  simp

end RedisFromScratch.Histograms
