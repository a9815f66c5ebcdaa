import Mathlib.Data.List.Basic

/-!
Slices of arrays that grow. A slice is the first items of an array; behind them
stands what earlier uses have left there. A slice can be emptied and used again.
Room is made by moving the items to a larger array, and a slice that is made
longer shows old items until they are overwritten.
-/
namespace RedisFromScratch.GrowingSlices

variable {α : Type*}

structure Slice (α : Type*) where
  mem : List α
  len : ℕ
  fits : len ≤ mem.length

namespace Slice

def items (s : Slice α) : List α := s.mem.take s.len

def cap (s : Slice α) : ℕ := s.mem.length

theorem length_items (s : Slice α) : s.items.length = s.len := List.length_take_of_le s.fits

def reset (s : Slice α) : Slice α := ⟨s.mem, 0, Nat.zero_le _⟩

/-- A longer part of the same array. -/
def extend (s : Slice α) (n : ℕ) (h : s.len + n ≤ s.cap) : Slice α := ⟨s.mem, s.len + n, h⟩

/-- Items written into the array from a position on. -/
def overwrite (s : Slice α) (start : ℕ) (xs : List α) : Slice α where
  mem := s.mem.take start ++ xs ++ s.mem.drop (start + xs.length)
  len := s.len
  fits := by
    have := s.fits
    simp only [List.length_append, List.length_take, List.length_drop]
    omega

@[simp] theorem items_reset (s : Slice α) : s.reset.items = [] := rfl

/-- What the longer part showed is gone once it is overwritten. -/
theorem items_extend_overwrite (s : Slice α) {n : ℕ} (h : s.len + n ≤ s.cap) {xs : List α}
    (hxs : xs.length = n) : ((s.extend n h).overwrite s.len xs).items = s.items ++ xs := by
  have hlen : (s.mem.take s.len ++ xs).length = s.len + n := by
    rw [List.length_append, List.length_take_of_le s.fits, hxs]
  change (s.mem.take s.len ++ xs ++ s.mem.drop (s.len + xs.length)).take (s.len + n) = _
  rw [List.take_left' hlen]
  rfl

variable [Inhabited α]

def make (cap : ℕ) : Slice α := ⟨List.replicate cap default, 0, Nat.zero_le _⟩

/-- The same items in an array with room for `n` more. -/
def move (s : Slice α) (n : ℕ) : Slice α where
  mem := s.items ++ List.replicate n default
  len := s.len
  fits := by
    rw [List.length_append, s.length_items]
    exact Nat.le_add_right _ _

theorem items_move (s : Slice α) (n : ℕ) : (s.move n).items = s.items :=
  List.take_left' s.length_items

theorem cap_move (s : Slice α) (n : ℕ) : (s.move n).cap = s.len + n := by
  change (s.items ++ List.replicate n default).length = s.len + n
  rw [List.length_append, s.length_items, List.length_replicate]

/-- Room for `n` more items. A larger array is at least twice as large. -/
def reserve (s : Slice α) (n : ℕ) : Slice α :=
  if s.cap - s.len < n then s.move (max (s.cap * 2) (s.len + n) - s.len) else s

theorem len_reserve (s : Slice α) (n : ℕ) : (s.reserve n).len = s.len := by
  unfold reserve
  split_ifs <;> rfl

theorem items_reserve (s : Slice α) (n : ℕ) : (s.reserve n).items = s.items := by
  unfold reserve
  split_ifs
  · exact s.items_move _
  · rfl

theorem reserve_fits (s : Slice α) (n : ℕ) : (s.reserve n).len + n ≤ (s.reserve n).cap := by
  rw [len_reserve]
  unfold reserve
  split_ifs with h
  · rw [cap_move]
    omega
  · have hfits : s.len ≤ s.cap := s.fits
    omega

theorem move_fits (s : Slice α) (n : ℕ) : (s.move (n + 1)).len + 1 ≤ (s.move (n + 1)).cap := by
  rw [cap_move]
  change s.len + 1 ≤ s.len + (n + 1)
  omega

/-- One more item. When the array is full, `room` says how much larger the next one is. -/
def push (room : ℕ → ℕ) (s : Slice α) (x : α) : Slice α :=
  if h : s.len + 1 ≤ s.cap then (s.extend 1 h).overwrite s.len [x]
  else ((s.move (room s.len + 1)).extend 1 (s.move_fits _)).overwrite s.len [x]

theorem items_push (room : ℕ → ℕ) (s : Slice α) (x : α) :
    (s.push room x).items = s.items ++ [x] := by
  unfold push
  split_ifs
  · exact s.items_extend_overwrite _ rfl
  · exact ((s.move _).items_extend_overwrite _ rfl).trans (by rw [items_move])

end Slice

end RedisFromScratch.GrowingSlices
