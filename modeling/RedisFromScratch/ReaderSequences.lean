import RedisFromScratch.BufferedReader

/-!
The operations of a buffered reader against the same operations on a sequence
that is all there. Whatever the pieces are, a reader reads one sequence: what is
buffered, and then what comes before the source's next error. An operation that
the buffer alone can answer does nothing but take the answer out.
-/
namespace RedisFromScratch.BufferedReader

variable {α ε β : Type}

def seeItem : List α → Option (α × List α)
  | [] => none
  | x :: xs => some (x, x :: xs)

def takeItem : List α → Option (α × List α)
  | [] => none
  | x :: xs => some (x, xs)

def takeFull (n : ℕ) (s : List α) : Option (List α × List α) :=
  if n ≤ s.length then some (s.take n, s.drop n) else none

/-- A line has to end among the first `size` items. -/
def takeLine [DecidableEq α] (size : ℕ) (d : α) (s : List α) :
    Option (Option (List α) × List α) :=
  match Reader.cut d (s.take size) with
  | some line => some (some line, s.drop line.length)
  | none => if size ≤ s.length then some (none, s.drop size) else none

/-- The operation returns what the sequence gives and leaves the rest of it ahead;
if the sequence is too short, it does not return. -/
def Delivers (size : ℕ) (out : Got ε β × Reader α ε) : Option (β × List α) → Prop
  | some (b, rest) => out.1 = .ok b ∧ out.2.ahead = rest ∧ out.2.size = size
  | none => ∀ b, out.1 ≠ .ok b

/-- The operation returns what the buffer gives, and does nothing but take it out. -/
def FromBuffer (r : Reader α ε) (out : Got ε β × Reader α ε) : Option (β × List α) → Prop
  | some (b, rest) => ∃ n, out = (.ok b, r.drop n) ∧ rest = r.buf.drop n
  | none => True

namespace Reader

theorem peek_delivers (r : Reader α ε) : Delivers r.size r.peek (seeItem r.ahead) := by
  unfold peek
  split
  · rename_i x xs hbuf
    have hahead : r.ahead = x :: (xs ++ upcoming r.source) := by
      unfold ahead
      rw [hbuf]
      rfl
    rw [hahead]
    exact ⟨rfl, hahead, rfl⟩
  · rename_i hbuf
    have hahead : r.ahead = upcoming r.source := by
      unfold ahead
      rw [hbuf, List.nil_append]
    split
    · rename_i hsource
      rw [hahead, hsource]
      exact fun b h => by cases h
    · rename_i hsource
      rw [hahead, hsource]
      exact fun b h => by cases h
    · rename_i x xs s hsource
      have hnext : r.ahead = x :: (xs ++ upcoming s) := by
        rw [hahead, hsource]
        rfl
      rw [hnext]
      exact ⟨rfl, (ahead_extend hsource).trans hnext, rfl⟩

/-- Only an item in the buffer can be peeked at. -/
theorem pos_length_of_peek {r r' : Reader α ε} {x : α} (h : r.peek = (.ok x, r')) :
    1 ≤ r'.buf.length := by
  unfold peek at h
  split at h
  · rename_i hbuf
    cases h
    rw [hbuf, List.length_cons]
    omega
  · rename_i hbuf
    split at h
    · cases h
    · cases h
    · cases h
      refine Nat.lt_of_le_of_lt (Nat.zero_le _) (length_lt_extend _ _ _ ?_)
      rw [hbuf]
      exact r.pos

theorem peek_fromBuffer (r : Reader α ε) : FromBuffer r r.peek (seeItem r.buf) := by
  unfold peek
  split
  · rename_i x xs hbuf
    rw [hbuf]
    exact ⟨0, rfl, hbuf.symm⟩
  · rename_i hbuf
    rw [hbuf]
    trivial

theorem readByte_delivers (r : Reader α ε) : Delivers r.size r.readByte (takeItem r.ahead) := by
  have hpeek := r.peek_delivers
  unfold readByte
  cases hahead : r.ahead with
  | nil =>
    rw [hahead] at hpeek
    split
    · rename_i x r' heq
      exact absurd (by rw [heq]) (hpeek x)
    · exact fun b h => by cases h
    · exact fun b h => by cases h
  | cons x xs =>
    rw [hahead] at hpeek
    obtain ⟨hok, hrest, hsize⟩ := hpeek
    split
    · rename_i y r' heq
      rw [heq] at hok hrest hsize
      cases hok
      refine ⟨rfl, ?_, hsize⟩
      rw [ahead_drop (pos_length_of_peek heq), hrest]
      rfl
    · rename_i heq
      rw [heq] at hok
      cases hok
    · rename_i heq
      rw [heq] at hok
      cases hok

theorem readByte_fromBuffer (r : Reader α ε) : FromBuffer r r.readByte (takeItem r.buf) := by
  have hpeek := r.peek_fromBuffer
  unfold readByte
  cases hbuf : r.buf with
  | nil => trivial
  | cons =>
    rw [hbuf] at hpeek
    obtain ⟨n, hout, hrest⟩ := hpeek
    refine ⟨n + 1, ?_, ?_⟩
    · rw [hout]
      exact congrArg _ (drop_drop r n 1)
    · rw [← List.drop_drop, ← hrest]
      rfl

theorem readFull_zero (r : Reader α ε) : r.readFull 0 = (.ok [], r) := by
  rw [readFull]
  rfl

/-- One iteration: after some items, the others. -/
theorem readFull_of_read {r r' : Reader α ε} {n : ℕ} {xs : List α} (hn : 0 < n)
    (hread : r.read n = (.ok xs, r')) : r.readFull n = behind xs (r'.readFull (n - xs.length)) := by
  rw [readFull, dif_neg (by omega)]
  split
  · rename_i heq
    cases hread.symm.trans heq
    rfl
  · rename_i heq
    cases hread.symm.trans heq
  · rename_i heq
    cases hread.symm.trans heq

/-- An iteration that brings nothing ends the loop. -/
theorem readFull_of_read_none {r : Reader α ε} {n : ℕ} (hn : 0 < n)
    (hread : ∀ xs, (r.read n).1 ≠ .ok xs) (ys : List α) : (r.readFull n).1 ≠ .ok ys := by
  rw [readFull, dif_neg (by omega)]
  split
  · rename_i xs r' heq
    exact absurd (by rw [heq]) (hread xs)
  · exact fun h => by cases h
  · exact fun h => by cases h

theorem Delivers.behind {size : ℕ} {out : Got ε (List α) × Reader α ε} (xs : List α)
    {given : Option (List α × List α)} (h : Delivers size out given) :
    Delivers size (behind xs out) (given.map (fun p => (xs ++ p.1, p.2))) := by
  rcases out with ⟨got, r⟩
  rcases given with _ | ⟨ys, rest⟩
  · cases got with
    | ok ys => exact absurd rfl (h ys)
    | failed | blocked => exact fun b hb => by cases hb
  · obtain ⟨hok, hafter, hsize⟩ := h
    cases hok
    exact ⟨rfl, hafter, hsize⟩

theorem takeFull_append {n : ℕ} {xs ys : List α} (hle : xs.length ≤ n) :
    takeFull n (xs ++ ys) = (takeFull (n - xs.length) ys).map (fun p => (xs ++ p.1, p.2)) := by
  unfold takeFull
  rw [List.length_append]
  by_cases hlen : n ≤ xs.length + ys.length
  · rw [if_pos hlen, if_pos (by omega), List.take_append, List.take_of_length_le hle,
      List.drop_append, List.drop_of_length_le hle]
    rfl
  · rw [if_neg hlen, if_neg (by omega)]
    rfl

/-- The loop delivers the next `n` items however many calls they take. -/
theorem readFull_delivers (n : ℕ) (r : Reader α ε) :
    Delivers r.size (r.readFull n) (takeFull n r.ahead) := by
  induction n using Nat.strongRecOn generalizing r with
  | ind n ih =>
    rcases Nat.eq_zero_or_pos n with rfl | hn
    · rw [readFull_zero]
      exact ⟨rfl, rfl, rfl⟩
    · by_cases hread : ∃ xs r', r.read n = (.ok xs, r')
      · obtain ⟨xs, r', hread⟩ := hread
        obtain ⟨hsome, hle, hahead, hsize⟩ := read_ok hn hread
        have hrest := ih (n - xs.length) (by omega) r'
        rw [readFull_of_read hn hread, hahead, takeFull_append hle, ← hsize]
        exact Delivers.behind xs hrest
      · have hnone : ∀ xs, (r.read n).1 ≠ .ok xs :=
          fun xs h => hread ⟨xs, (r.read n).2, Prod.ext h rfl⟩
        rw [ahead_of_read hnone, takeFull, if_neg (by rw [List.length_nil]; omega)]
        exact readFull_of_read_none hn hnone

theorem readFull_fromBuffer (n : ℕ) (r : Reader α ε) :
    FromBuffer r (r.readFull n) (takeFull n r.buf) := by
  unfold takeFull
  split
  · rename_i hle
    refine ⟨n, ?_, rfl⟩
    rcases Nat.eq_zero_or_pos n with rfl | hn
    · rw [readFull_zero]
      rfl
    · have hread : r.read n = (.ok (r.buf.take n), r.drop n) := by
        unfold read
        split
        · rfl
        · rename_i hbuf
          rw [hbuf, List.length_nil] at hle
          omega
      have htaken : n - (r.buf.take n).length = 0 := by
        rw [List.length_take]
        omega
      rw [readFull_of_read hn hread, htaken, readFull_zero]
      change (Got.ok (r.buf.take n ++ []), _) = _
      rw [List.append_nil]
  · trivial

variable [DecidableEq α]

/-- A delimiter that has come is not changed by what comes later. -/
theorem cut_append {d : α} {xs line : List α} (ys : List α) (h : cut d xs = some line) :
    cut d (xs ++ ys) = some line := by
  induction xs generalizing line with
  | nil => cases h
  | cons x xs ih =>
    rw [List.cons_append, cut]
    rw [cut] at h
    split at h
    · rename_i hx
      rwa [if_pos hx]
    · rename_i hx
      obtain ⟨line', hline', rfl⟩ := Option.map_eq_some_iff.mp h
      rw [if_neg hx, ih hline']
      rfl

theorem cut_length_le {d : α} {xs line : List α} (h : cut d xs = some line) :
    line.length ≤ xs.length := by
  induction xs generalizing line with
  | nil => cases h
  | cons x xs ih =>
    rw [cut] at h
    split at h
    · cases h
      simp
    · obtain ⟨line', hline', rfl⟩ := Option.map_eq_some_iff.mp h
      simpa using ih hline'

/-- What a full buffer or a buffered delimiter gives does not depend on what is ahead. -/
theorem takeLine_of_cut {size : ℕ} {d : α} {xs line : List α} (ys : List α)
    (hle : xs.length ≤ size) (h : cut d xs = some line) :
    takeLine size d (xs ++ ys) = some (some line, (xs ++ ys).drop line.length) := by
  unfold takeLine
  rw [List.take_append, List.take_of_length_le hle, cut_append _ h]

/-- Short of a delimiter and of a full buffer, nothing more ahead means no line. -/
theorem takeLine_of_nothing_upcoming {d : α} {r : Reader α ε} (hcut : cut d r.buf = none)
    (hfull : ¬ r.size ≤ r.buf.length) (hsource : upcoming r.source = []) :
    takeLine r.size d r.ahead = none := by
  unfold takeLine ahead
  rw [hsource, List.append_nil, List.take_of_length_le r.fits, hcut]
  exact if_neg hfull

theorem readSlice_delivers (d : α) (r : Reader α ε) :
    Delivers r.size (r.readSlice d) (takeLine r.size d r.ahead) := by
  induction r using readSlice.induct d with
  | case1 r line hcut =>
    rw [readSlice, hcut, ahead, takeLine_of_cut _ r.fits hcut]
    exact ⟨rfl, ahead_drop (cut_length_le hcut), rfl⟩
  | case2 r hcut hfull =>
    have hsize : r.buf.length = r.size := Nat.le_antisymm r.fits hfull
    have htake : r.ahead.take r.size = r.buf := by
      rw [ahead, ← hsize, List.take_left]
    have hlen : r.size ≤ r.ahead.length := by
      rw [ahead, List.length_append]
      omega
    rw [readSlice, hcut]
    unfold takeLine
    rw [htake, hcut]
    rw [dif_pos hfull, if_pos hlen]
    exact ⟨rfl, (ahead_drop (Nat.le_refl _)).trans (by rw [hsize]), rfl⟩
  | case3 r hcut hfull hsource =>
    rw [takeLine_of_nothing_upcoming hcut hfull (by rw [hsource]; rfl), readSlice, hcut]
    rw [dif_neg hfull, hsource]
    exact fun b h => by cases h
  | case4 r hcut hfull e s hsource =>
    rw [takeLine_of_nothing_upcoming hcut hfull (by rw [hsource]; rfl), readSlice, hcut]
    dsimp only
    rw [dif_neg hfull, hsource]
    exact fun b h => by cases h
  | case5 r hcut hfull x xs s hsource ih =>
    rw [readSlice, hcut]
    rw [dif_neg hfull, hsource]
    rw [ahead_extend hsource] at ih
    exact ih

theorem readSlice_fromBuffer (d : α) (r : Reader α ε) :
    FromBuffer r (r.readSlice d) (takeLine r.size d r.buf) := by
  unfold takeLine
  rw [List.take_of_length_le r.fits, readSlice]
  cases hcut : cut d r.buf with
  | some line => exact ⟨line.length, rfl, rfl⟩
  | none =>
    dsimp only
    split
    · rename_i hfull
      rw [Nat.le_antisymm hfull r.fits]
      exact ⟨r.buf.length, rfl, rfl⟩
    · trivial

theorem cut_eq_none_iff {d : α} {xs : List α} : cut d xs = none ↔ d ∉ xs := by
  induction xs with
  | nil => simp [cut]
  | cons x xs ih =>
    rw [cut]
    split
    · rename_i hx
      simp [hx]
    · rename_i hx
      rw [Option.map_eq_none_iff, ih, List.mem_cons, not_or]
      exact ⟨fun h => ⟨Ne.symm hx, h⟩, fun h => h.2⟩

theorem cut_append_cons {d : α} {pre : List α} (hpre : d ∉ pre) (rest : List α) :
    cut d (pre ++ d :: rest) = some (pre ++ [d]) := by
  induction pre with
  | nil => simp [cut]
  | cons x pre ih =>
    rw [List.mem_cons, not_or] at hpre
    rw [List.cons_append, cut, if_neg (Ne.symm hpre.1), ih hpre.2]
    rfl

theorem cut_eq_some {d : α} {xs line : List α} (h : cut d xs = some line) :
    ∃ pre rest, line = pre ++ [d] ∧ d ∉ pre ∧ xs = pre ++ d :: rest := by
  induction xs generalizing line with
  | nil => cases h
  | cons x xs ih =>
    rw [cut] at h
    split at h
    · rename_i hx
      cases h
      exact ⟨[], xs, by rw [hx]; rfl, List.not_mem_nil, by rw [hx]; rfl⟩
    · rename_i hx
      obtain ⟨line', hline', rfl⟩ := Option.map_eq_some_iff.mp h
      obtain ⟨pre, rest, rfl, hpre, rfl⟩ := ih hline'
      refine ⟨x :: pre, rest, rfl, ?_, rfl⟩
      rw [List.mem_cons, not_or]
      exact ⟨Ne.symm hx, hpre⟩

/-- A line is what ends with the first delimiter, if the buffer has room for it. -/
theorem takeLine_eq_line_iff {size : ℕ} {d : α} {s line rest : List α} :
    takeLine size d s = some (some line, rest) ↔
      ∃ pre, line = pre ++ [d] ∧ d ∉ pre ∧ s = pre ++ d :: rest ∧ pre.length + 1 ≤ size := by
  unfold takeLine
  constructor
  · intro h
    split at h
    · rename_i line' hcut
      cases h
      obtain ⟨pre, rest', rfl, hpre, htake⟩ := cut_eq_some hcut
      have hlen := congrArg List.length htake
      rw [List.length_take, List.length_append, List.length_cons] at hlen
      have hs : s = pre ++ d :: (rest' ++ s.drop size) := by
        rw [← List.cons_append, ← List.append_assoc, ← htake, List.take_append_drop]
      refine ⟨pre, rfl, hpre, ?_, by omega⟩
      rw [hs]
      simp
    · split at h <;> cases h
  · rintro ⟨pre, rfl, hpre, rfl, hlen⟩
    have htake : (pre ++ d :: rest).take size = pre ++ d :: rest.take (size - pre.length - 1) := by
      rw [List.take_append, List.take_of_length_le (by omega),
        show size - pre.length = size - pre.length - 1 + 1 by omega, List.take_succ_cons]
      simp
    rw [htake, cut_append_cons hpre]
    simp

/-- No line and no full buffer: the delimiter has not come. -/
theorem takeLine_eq_none_iff {size : ℕ} {d : α} {s : List α} :
    takeLine size d s = none ↔ d ∉ s ∧ s.length < size := by
  unfold takeLine
  split
  · rename_i line hcut
    obtain ⟨pre, rest, -, -, htake⟩ := cut_eq_some hcut
    have hmem : d ∈ s := List.mem_of_mem_take (i := size) (by rw [htake]; simp)
    simp [hmem]
  · rename_i hcut
    rw [cut_eq_none_iff] at hcut
    by_cases hlen : size ≤ s.length
    · simp [hlen]
    · rw [List.take_of_length_le (by omega)] at hcut
      simp [hcut, Nat.lt_of_not_le hlen]

end Reader

end RedisFromScratch.BufferedReader
