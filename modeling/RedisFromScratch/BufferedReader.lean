import Mathlib.Data.List.Basic

/-!
A fixed-size buffer behind a source that hands over items in pieces. A call on
the source brings at least one item or an error, and an error brings no items,
so it is reported by the operation that met it. Every call on the source is
counted, also one that waits.
-/
namespace RedisFromScratch.BufferedReader

variable {α ε β : Type}

/-- What the source has to say at one time. -/
inductive Event (α ε : Type)
  | data (first : α) (rest : List α)
  | fail (e : ε)

/-- The items that come before the next error. -/
def upcoming : List (Event α ε) → List α
  | [] => []
  | .data x xs :: s => x :: xs ++ upcoming s
  | .fail _ :: _ => []

/-- The part of a piece there was no room for comes with the next call. -/
def putBack : List α → List (Event α ε) → List (Event α ε)
  | [], s => s
  | x :: xs, s => .data x xs :: s

@[simp] theorem upcoming_putBack (xs : List α) (s : List (Event α ε)) :
    upcoming (putBack xs s) = xs ++ upcoming s := by
  cases xs <;> rfl

structure Reader (α ε : Type) where
  size : ℕ
  pos : 0 < size
  buf : List α
  fits : buf.length ≤ size
  source : List (Event α ε)
  /-- How often the source was called. -/
  reads : ℕ

/-- How an operation ends; `blocked` means that the source never answers. -/
inductive Got (ε β : Type)
  | ok (b : β)
  | failed (e : ε)
  | blocked

namespace Reader

def new (size : ℕ) (pos : 0 < size) (source : List (Event α ε)) : Reader α ε :=
  ⟨size, pos, [], Nat.zero_le _, source, 0⟩

/-- The items to be read before the next error. -/
def ahead (r : Reader α ε) : List α := r.buf ++ upcoming r.source

def drop (r : Reader α ε) (n : ℕ) : Reader α ε :=
  { r with
    buf := r.buf.drop n
    fits := Nat.le_trans (by simp) r.fits }

/-- A call on the source after which so much of it is left. -/
def called (r : Reader α ε) (s : List (Event α ε)) : Reader α ε :=
  { r with source := s, reads := r.reads + 1 }

/-- A call that brought a piece, as much of it as there was room for. -/
def extend (r : Reader α ε) (piece : List α) (s : List (Event α ε)) : Reader α ε where
  size := r.size
  pos := r.pos
  buf := r.buf ++ piece.take (r.size - r.buf.length)
  fits := by
    have := r.fits
    rw [List.length_append, List.length_take]
    omega
  source := putBack (piece.drop (r.size - r.buf.length)) s
  reads := r.reads + 1

theorem drop_drop (r : Reader α ε) (m n : ℕ) : (r.drop m).drop n = r.drop (m + n) := by
  simp only [drop, List.drop_drop]

theorem ahead_drop {r : Reader α ε} {n : ℕ} (hn : n ≤ r.buf.length) :
    (r.drop n).ahead = r.ahead.drop n := by
  unfold ahead drop
  rw [List.drop_append_of_le_length hn]

/-- What is taken out of the buffer comes before what stays ahead. -/
theorem ahead_take_drop (r : Reader α ε) (n : ℕ) :
    r.ahead = r.buf.take n ++ (r.drop n).ahead := by
  unfold ahead drop
  rw [← List.append_assoc, List.take_append_drop]

/-- A piece goes to the buffer or back to the source, in order. -/
theorem ahead_extend {r : Reader α ε} {x : α} {xs : List α} {s : List (Event α ε)}
    (hsource : r.source = .data x xs :: s) : (r.extend (x :: xs) s).ahead = r.ahead := by
  unfold ahead extend
  rw [upcoming_putBack, hsource, List.append_assoc, ← List.append_assoc (List.take _ _),
    List.take_append_drop]
  rfl

theorem length_lt_extend {r : Reader α ε} (x : α) (xs : List α) (s : List (Event α ε))
    (hroom : r.buf.length < r.size) : r.buf.length < (r.extend (x :: xs) s).buf.length := by
  unfold extend
  simp only [List.length_append, List.length_take, List.length_cons]
  omega

/-- See the next item. It stays in the buffer. -/
def peek (r : Reader α ε) : Got ε α × Reader α ε :=
  match r.buf with
  | x :: _ => (.ok x, r)
  | [] =>
    match r.source with
    | [] => (.blocked, r.called [])
    | .fail e :: s => (.failed e, r.called s)
    | .data x xs :: s => (.ok x, r.extend (x :: xs) s)

def readByte (r : Reader α ε) : Got ε α × Reader α ε :=
  match r.peek with
  | (.ok x, r') => (.ok x, r'.drop 1)
  | (.failed e, r') => (.failed e, r')
  | (.blocked, r') => (.blocked, r')

/-- One call of Read for at most `n` items. An empty buffer is bypassed if it has
no room for more. -/
def read (n : ℕ) (r : Reader α ε) : Got ε (List α) × Reader α ε :=
  match r.buf with
  | _ :: _ => (.ok (r.buf.take n), r.drop n)
  | [] =>
    match r.source with
    | [] => (.blocked, r.called [])
    | .fail e :: s => (.failed e, r.called s)
    | .data x xs :: s =>
      if r.size ≤ n then (.ok ((x :: xs).take n), r.called (putBack ((x :: xs).drop n) s))
      else (.ok ((r.extend (x :: xs) s).buf.take n), (r.extend (x :: xs) s).drop n)

/-- One call of Read that returns brings something, in order. -/
theorem read_ok {r r' : Reader α ε} {n : ℕ} {xs : List α} (hn : 0 < n)
    (h : r.read n = (.ok xs, r')) :
    0 < xs.length ∧ xs.length ≤ n ∧ r.ahead = xs ++ r'.ahead ∧ r'.size = r.size := by
  unfold read at h
  split at h
  · rename_i x ys hbuf
    cases h
    refine ⟨?_, List.length_take_le n _, r.ahead_take_drop n, rfl⟩
    rw [hbuf, List.length_take, List.length_cons]
    omega
  · rename_i hbuf
    split at h
    · cases h
    · cases h
    · rename_i x ys s hsource
      split at h
      · cases h
        refine ⟨?_, List.length_take_le n _, ?_, rfl⟩
        · rw [List.length_take, List.length_cons]
          omega
        · change r.buf ++ upcoming r.source = _ ++ (r.buf ++ upcoming (putBack _ s))
          rw [hbuf, hsource, upcoming_putBack, List.nil_append, List.nil_append,
            ← List.append_assoc, List.take_append_drop]
          rfl
      · cases h
        have hgrown := length_lt_extend x ys s (show r.buf.length < r.size by
          rw [hbuf]
          exact r.pos)
        refine ⟨?_, List.length_take_le n _, ?_, rfl⟩
        · rw [List.length_take]
          omega
        · rw [← ahead_extend hsource]
          exact ahead_take_drop _ n

/-- One call of Read ends without items only if none are ahead. -/
theorem ahead_of_read {r : Reader α ε} {n : ℕ} (h : ∀ xs, (r.read n).1 ≠ .ok xs) :
    r.ahead = [] := by
  unfold read at h
  split at h
  · exact absurd rfl (h _)
  · rename_i hbuf
    unfold ahead
    rw [hbuf, List.nil_append]
    split at h
    · rename_i hsource
      rw [hsource]
      rfl
    · rename_i hsource
      rw [hsource]
      rfl
    · split at h <;> exact absurd rfl (h _)

/-- The items of a later call, put behind those of an earlier one. -/
def behind (xs : List α) : Got ε (List α) × Reader α ε → Got ε (List α) × Reader α ε
  | (.ok ys, r) => (.ok (xs ++ ys), r)
  | (.failed e, r) => (.failed e, r)
  | (.blocked, r) => (.blocked, r)

/-- Read exactly `n` items, in as many calls of Read as it takes. -/
def readFull (n : ℕ) (r : Reader α ε) : Got ε (List α) × Reader α ε :=
  if _hn : n = 0 then (.ok [], r)
  else
    match _hread : r.read n with
    | (.ok xs, r') => behind xs (readFull (n - xs.length) r')
    | (.failed e, r') => (.failed e, r')
    | (.blocked, r') => (.blocked, r')
  termination_by n
  decreasing_by
    have := (read_ok (Nat.pos_of_ne_zero _hn) _hread).1
    omega

/-- The items through the first delimiter. -/
def cut [DecidableEq α] (d : α) : List α → Option (List α)
  | [] => none
  | x :: xs => if x = d then some [x] else (cut d xs).map (List.cons x)

/-- The items through the next delimiter. `none` means that the buffer is full
without one; that empties it, and so does an error. -/
def readSlice [DecidableEq α] (d : α) (r : Reader α ε) : Got ε (Option (List α)) × Reader α ε :=
  match cut d r.buf with
  | some line => (.ok (some line), r.drop line.length)
  | none =>
    if _hfull : r.size ≤ r.buf.length then (.ok none, r.drop r.buf.length)
    else
      match r.source with
      | [] => (.blocked, r.called [])
      | .fail e :: s => (.failed e, (r.drop r.buf.length).called s)
      | .data x xs :: s => readSlice d (r.extend (x :: xs) s)
  termination_by r.size - r.buf.length
  decreasing_by
    have hgrown := length_lt_extend x xs s (Nat.lt_of_not_le _hfull)
    change r.size - _ < _
    omega

end Reader

end RedisFromScratch.BufferedReader
