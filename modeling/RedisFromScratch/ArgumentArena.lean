import RedisFromScratch.ByteStrings
import Mathlib.Logic.Function.Basic

/-!
The storage of a command's arguments: a chain of blocks from which slices are
handed out front to back. A block that is too full is left behind for a new one,
and a large argument gets a block to itself, so nothing that was handed out for a
command moves or is written again before the next command.
-/
namespace RedisFromScratch.ArgumentArena

open ByteStrings

def arenaBlock : ℕ := 16 <<< 10

structure Slice where
  block : ℕ
  start : ℕ
  len : ℕ
  deriving DecidableEq, Repr

/-- Every block made so far, and the one that slices are taken from. -/
structure Arena where
  heap : ℕ → Bytes
  made : ℕ
  block : ℕ
  used : ℕ
  current : block < made
  room : (heap block).length = arenaBlock
  fits : used ≤ arenaBlock

/-- Write over what is there, from an offset on, without growing. -/
def overwrite (mem : Bytes) (start : ℕ) (bs : Bytes) : Bytes :=
  mem.take start ++ bs.take (mem.length - start) ++ mem.drop (start + bs.length)

theorem overwrite_length (mem : Bytes) (start : ℕ) (bs : Bytes) :
    (overwrite mem start bs).length = mem.length := by
  simp only [overwrite, List.length_append, List.length_take, List.length_drop]
  omega

/-- What was written is read back. -/
theorem overwrite_written {mem bs : Bytes} {start : ℕ} (hfit : start + bs.length ≤ mem.length) :
    ((overwrite mem start bs).drop start).take bs.length = bs := by
  have hstart : (mem.take start).length = start := List.length_take_of_le (by omega)
  have htake : bs.take (mem.length - start) = bs := List.take_of_length_le (by omega)
  unfold overwrite
  rw [htake, List.append_assoc, List.drop_append, List.drop_of_length_le (by omega), hstart,
    Nat.sub_self, List.nil_append, List.drop_zero, List.take_left]

/-- What lies before the offset is left alone. -/
theorem overwrite_before {mem : Bytes} {start i n : ℕ} (bs : Bytes) (hle : i + n ≤ start)
    (hstart : start ≤ mem.length) :
    ((overwrite mem start bs).drop i).take n = (mem.drop i).take n := by
  have hlen : (mem.take start).length = start := List.length_take_of_le hstart
  have htake : (overwrite mem start bs).take start = mem.take start := by
    unfold overwrite
    rw [List.append_assoc, List.take_append_of_le_length (by omega),
      List.take_of_length_le (by omega)]
  have hcut (xs : Bytes) : (xs.drop i).take n = ((xs.take start).drop i).take n := by
    rw [List.drop_take, List.take_take, Nat.min_eq_left (by omega)]
  rw [hcut, htake, ← hcut]

namespace Arena

def new : Arena where
  heap := fun _ => List.replicate arenaBlock 0
  made := 1
  block := 0
  used := 0
  current := Nat.zero_lt_one
  room := List.length_replicate
  fits := Nat.zero_le _

/-- `r.block = r.block[:0]`: the next command starts at the front of the block. -/
def reset (a : Arena) : Arena := { a with used := 0, fits := Nat.zero_le _ }

def deref (a : Arena) (s : Slice) : Bytes := ((a.heap s.block).drop s.start).take s.len

/-- Make a block of so many zero bytes. -/
def make (a : Arena) (n : ℕ) : Arena where
  heap := Function.update a.heap a.made (List.replicate n 0)
  made := a.made + 1
  block := a.block
  used := a.used
  current := Nat.lt_succ_of_lt a.current
  room := by
    rw [Function.update_of_ne (Nat.ne_of_lt a.current)]
    exact a.room
  fits := a.fits

def alloc (a : Arena) (n : ℕ) : Slice × Arena :=
  if hlarge : arenaBlock < n then (⟨a.made, 0, n⟩, a.make n)
  else if hfull : arenaBlock - a.used < n then
    (⟨a.made, 0, n⟩,
      { heap := (a.make arenaBlock).heap
        made := a.made + 1
        block := a.made
        used := n
        current := Nat.lt_succ_self _
        room := by simp [make]
        fits := Nat.le_of_not_lt hlarge })
  else
    (⟨a.block, a.used, n⟩,
      { a with
        used := a.used + n
        fits := by
          have := a.fits
          omega })

/-- Fill a slice. -/
def write (a : Arena) (s : Slice) (bs : Bytes) : Arena :=
  { a with
    heap := Function.update a.heap s.block (overwrite (a.heap s.block) s.start bs)
    room := by
      by_cases hs : a.block = s.block
      · rw [← hs, Function.update_self, overwrite_length, a.room]
      · rw [Function.update_of_ne hs, a.room] }

/-- Allocate as much as an argument needs and copy it there. -/
def put (a : Arena) (bs : Bytes) : Slice × Arena :=
  ((a.alloc bs.length).1, (a.alloc bs.length).2.write (a.alloc bs.length).1 bs)

theorem make_heap (a : Arena) (n : ℕ) :
    (a.make n).heap = Function.update a.heap a.made (List.replicate n 0) := rfl

theorem write_heap (a : Arena) (s : Slice) (bs : Bytes) :
    (a.write s bs).heap =
      Function.update a.heap s.block (overwrite (a.heap s.block) s.start bs) := rfl

/-- A slice that was handed out: later ones of its block lie behind it. -/
structure Kept (a : Arena) (s : Slice) : Prop where
  made : s.block < a.made
  behind : s.block = a.block → s.start + s.len ≤ a.used

/-- What an allocation gives: a slice of the size asked for, with every earlier one
as it was and out of the way. -/
structure Allocated (a : Arena) (n : ℕ) (s : Slice) (a' : Arena) : Prop where
  len : s.len = n
  inside : s.start + n ≤ (a'.heap s.block).length
  kept : Kept a' s
  others : ∀ t, Kept a t → Kept a' t ∧ a'.deref t = a.deref t ∧
    (t.block = s.block → t.start + t.len ≤ s.start)

theorem deref_make {a : Arena} {t : Slice} (n : ℕ) (ht : Kept a t) :
    (a.make n).deref t = a.deref t := by
  unfold deref
  rw [make_heap, Function.update_of_ne (Nat.ne_of_lt ht.made)]

theorem allocated (a : Arena) (n : ℕ) : Allocated a n (a.alloc n).1 (a.alloc n).2 := by
  unfold alloc
  split
  · refine ⟨rfl, by simp [make], ⟨Nat.lt_succ_self _, ?_⟩, ?_⟩
    · intro h
      exact absurd h (Nat.ne_of_gt a.current)
    · intro t ht
      refine ⟨⟨Nat.lt_succ_of_lt ht.made, ht.behind⟩, deref_make n ht, ?_⟩
      intro h
      exact absurd h (Nat.ne_of_lt ht.made)
  split
  · rename_i hlarge hfull
    refine ⟨rfl, ?_, ⟨Nat.lt_succ_self _, fun _ => by simp⟩, ?_⟩
    · simp only [make, Function.update_self, List.length_replicate]
      omega
    · intro t ht
      have hne := Nat.ne_of_lt ht.made
      exact ⟨⟨Nat.lt_succ_of_lt ht.made, fun h => absurd h hne⟩, deref_make arenaBlock ht,
        fun h => absurd h hne⟩
  · rename_i hlarge hfull
    have hfits := a.fits
    have hroom := a.room
    refine ⟨rfl, ?_, ⟨a.current, fun _ => Nat.le_refl _⟩, ?_⟩
    · simp only
      omega
    · intro t ht
      exact ⟨⟨ht.made, fun h => Nat.le_trans (ht.behind h) (Nat.le_add_right _ _)⟩, rfl, ht.behind⟩

/-- Writing to a slice does not touch what lies before it or in another block. -/
theorem deref_write {a : Arena} {s t : Slice} (bs : Bytes)
    (hinside : s.start ≤ (a.heap s.block).length)
    (hbefore : t.block = s.block → t.start + t.len ≤ s.start) :
    (a.write s bs).deref t = a.deref t := by
  unfold deref
  rw [write_heap]
  by_cases hblock : t.block = s.block
  · rw [hblock, Function.update_self]
    exact overwrite_before bs (hbefore hblock) hinside
  · rw [Function.update_of_ne hblock]

theorem deref_write_self {a : Arena} {s : Slice} {bs : Bytes} (hlen : s.len = bs.length)
    (hinside : s.start + bs.length ≤ (a.heap s.block).length) : (a.write s bs).deref s = bs := by
  unfold deref
  rw [write_heap, Function.update_self, hlen]
  exact overwrite_written hinside

/-- An argument is read back from where it was put. -/
theorem deref_put (a : Arena) (bs : Bytes) : (a.put bs).2.deref (a.put bs).1 = bs :=
  deref_write_self (a.allocated _).len (a.allocated _).inside

theorem kept_put (a : Arena) (bs : Bytes) : Kept (a.put bs).2 (a.put bs).1 :=
  ⟨(a.allocated _).kept.made, (a.allocated _).kept.behind⟩

/-- Earlier arguments stay where they are and as they are. -/
theorem Kept.put {a : Arena} {t : Slice} (ht : Kept a t) (bs : Bytes) :
    Kept (a.put bs).2 t ∧ (a.put bs).2.deref t = a.deref t := by
  have hnew := a.allocated bs.length
  obtain ⟨hkept, hsame, hbefore⟩ := hnew.others t ht
  refine ⟨⟨hkept.made, hkept.behind⟩, ?_⟩
  have hinside := hnew.inside
  exact (deref_write bs (by omega) hbefore).trans hsame

/-- Put the arguments of a command one after the other. -/
def putAll (a : Arena) : List Bytes → List Slice × Arena
  | [] => ([], a)
  | bs :: rest => ((a.put bs).1 :: ((a.put bs).2.putAll rest).1, ((a.put bs).2.putAll rest).2)

theorem Kept.putAll {a : Arena} {t : Slice} (ht : Kept a t) (args : List Bytes) :
    (a.putAll args).2.deref t = a.deref t := by
  induction args generalizing a with
  | nil => rfl
  | cons bs rest ih =>
    obtain ⟨hkept, hsame⟩ := ht.put bs
    exact (ih hkept).trans hsame

/-- All arguments of a command can be read at once. -/
theorem deref_putAll (a : Arena) (args : List Bytes) :
    (a.putAll args).1.map (a.putAll args).2.deref = args := by
  induction args generalizing a with
  | nil => rfl
  | cons bs rest ih =>
    rw [putAll, List.map_cons]
    congr 1
    · exact ((a.kept_put bs).putAll rest).trans (a.deref_put bs)
    · exact ih (a.put bs).2

end Arena

end RedisFromScratch.ArgumentArena
