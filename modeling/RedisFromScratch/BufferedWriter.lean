import Mathlib.Data.List.Basic

/-!
A fixed-size buffer in front of a sink. Items stay in the buffer while they fit;
a write that does not fit pushes the buffer out, and a whole slice may bypass
an empty buffer. A sink call takes everything or fails after some items, and
the first failure is final. Every operation returns the chunks it handed over.
-/
namespace RedisFromScratch.BufferedWriter

variable {α : Type*}

structure Writer (α : Type*) where
  size : ℕ
  pos : 0 < size
  pending : List α
  fits : pending.length ≤ size
  failed : Bool

/-- What a sink call reports: everything taken, or an error after some items. -/
abbrev Outcome := Option ℕ

namespace Writer

def buffered (w : Writer α) : ℕ := w.pending.length

def available (w : Writer α) : ℕ := w.size - w.pending.length

def new (size : ℕ) (pos : 0 < size) : Writer α := ⟨size, pos, [], Nat.zero_le _, false⟩

theorem buffered_add_available (w : Writer α) : w.buffered + w.available = w.size := by
  have := w.fits
  unfold buffered available
  omega

def fail (w : Writer α) : Writer α := { w with failed := true }

/-- Copy as much of a slice as there is room for. -/
def copy (w : Writer α) (p : List α) : Writer α where
  size := w.size
  pos := w.pos
  pending := w.pending ++ p.take w.available
  fits := by
    have := w.buffered_add_available
    simp only [buffered, List.length_append, List.length_take] at *
    omega
  failed := w.failed

/-- Drop the first items of the buffer. -/
def drop (w : Writer α) (n : ℕ) : Writer α where
  size := w.size
  pos := w.pos
  pending := w.pending.drop n
  fits := Nat.le_trans (by simp) w.fits
  failed := w.failed

/-- Push the buffer out. A failed sink call keeps the items it did not take. -/
def flush (w : Writer α) (out : Outcome) : Writer α × List (List α) :=
  if w.failed ∨ w.pending = [] then (w, [])
  else match out with
    | none => (w.drop w.buffered, [w.pending])
    | some n => ((w.drop n).fail, [w.pending])

/-- A flush that leaves no error behind leaves nothing pending. -/
theorem flush_pending (w : Writer α) (out : Outcome) (h : (w.flush out).1.failed = false) :
    (w.flush out).1.pending = [] := by
  unfold flush at h ⊢
  split at h
  · rename_i hskip
    rw [if_pos hskip]
    rcases hskip with hf | hp
    · rw [h] at hf
      cases hf
    · exact hp
  · rename_i hskip
    rw [if_neg hskip]
    cases out with
    | none => simp [drop, buffered]
    | some => cases h

theorem mem_of_flush_chunk {w : Writer α} {out : Outcome} {c : List α}
    (hc : c ∈ (w.flush out).2) : c = w.pending := by
  unfold flush at hc
  split at hc
  · cases hc
  · cases out <;> exact List.mem_singleton.mp hc

theorem mem_of_flush_pending {w : Writer α} {out : Outcome} {x : α}
    (hx : x ∈ (w.flush out).1.pending) : x ∈ w.pending := by
  unfold flush at hx
  split at hx
  · exact hx
  · cases out <;> exact List.mem_of_mem_drop hx

/-- Write a slice. With `direct` an empty buffer is bypassed; without it the
slice goes through the buffer piece by piece. `sink i` is the outcome of the
`i`-th sink call of the operation. -/
def writeLoop (direct : Bool) (sink : ℕ → Outcome) (w : Writer α) (p : List α) :
    Writer α × List (List α) :=
  if w.failed then (w, [])
  else if p.length ≤ w.available then (w.copy p, [])
  else if direct ∧ w.pending = [] then (if sink 0 = none then w else w.fail, [p])
  else
    let out := (w.copy p).flush (sink 0)
    if out.1.failed then out
    else
      let rest := writeLoop direct (fun i => sink (i + 1)) out.1 (p.drop w.available)
      (rest.1, out.2 ++ rest.2)
  termination_by p.length + w.pending.length
  decreasing_by
    rename_i hfit _ hout
    have hempty := (w.copy p).flush_pending (sink 0) (by simpa using hout)
    have hsize := w.buffered_add_available
    have hpos := w.pos
    rw [hempty]
    simp only [buffered, List.length_drop, List.length_nil] at *
    omega

variable {direct : Bool} {sink : ℕ → Outcome} {w : Writer α} {p : List α}

/-- What fits stays in the buffer. -/
theorem writeLoop_of_fits (hw : w.failed = false) (hfit : p.length ≤ w.available) :
    w.writeLoop direct sink p = (w.copy p, []) := by
  rw [writeLoop, if_neg (by simp [hw]), if_pos hfit]

theorem mem_of_copy {x : α} (hx : x ∈ (w.copy p).pending) : x ∈ w.pending ∨ x ∈ p := by
  rcases List.mem_append.mp hx with hx | hx
  · exact Or.inl hx
  · exact Or.inr (List.mem_of_mem_take hx)

/-- Nothing is handed over, or kept, that was not pending or in the slice. -/
theorem writeLoop_items (x : α) :
    (x ∈ (w.writeLoop direct sink p).1.pending ∨
      ∃ c ∈ (w.writeLoop direct sink p).2, x ∈ c) → x ∈ w.pending ∨ x ∈ p := by
  induction sink, w, p using writeLoop.induct direct with
  | case1 sink w p hfailed =>
    rw [writeLoop, if_pos hfailed]
    rintro (hx | ⟨c, hc, -⟩)
    · exact Or.inl hx
    · cases hc
  | case2 sink w p hfailed hfit =>
    rw [writeLoop, if_neg hfailed, if_pos hfit]
    rintro (hx | ⟨c, hc, -⟩)
    · exact mem_of_copy hx
    · cases hc
  | case3 sink w p hfailed hfit hdirect =>
    rw [writeLoop, if_neg hfailed, if_neg hfit, if_pos hdirect]
    rintro (hx | ⟨c, hc, hx⟩)
    · left
      split at hx <;> exact hx
    · cases List.mem_singleton.mp hc
      exact Or.inr hx
  | case4 sink w p hfailed hfit hdirect out hout =>
    rw [writeLoop, if_neg hfailed, if_neg hfit, if_neg hdirect]
    simp only [out] at hout
    simp only [hout, if_true]
    rintro (hx | ⟨c, hc, hx⟩)
    · exact mem_of_copy (mem_of_flush_pending hx)
    · exact mem_of_copy (mem_of_flush_chunk hc ▸ hx)
  | case5 sink w p hfailed hfit hdirect out hout ih =>
    rw [writeLoop, if_neg hfailed, if_neg hfit, if_neg hdirect]
    simp only [out] at hout ih
    simp only [hout]
    have hrest : x ∈ ((w.copy p).flush (sink 0)).1.pending ∨ x ∈ p.drop w.available →
        x ∈ w.pending ∨ x ∈ p := by
      rintro (hx | hx)
      · exact mem_of_copy (mem_of_flush_pending hx)
      · exact Or.inr (List.mem_of_mem_drop hx)
    rintro (hx | ⟨c, hc, hx⟩)
    · exact hrest (ih (Or.inl hx))
    · rcases List.mem_append.mp hc with hc | hc
      · exact mem_of_copy (mem_of_flush_chunk hc ▸ hx)
      · exact hrest (ih (Or.inr ⟨c, hc, hx⟩))

/-- A slice that does not fit behind pending items pushes them out with it. -/
theorem writeLoop_overflows (direct : Bool) (sink : ℕ → Outcome) (hw : w.failed = false)
    (hlong : w.available < p.length) (hpending : w.pending ≠ []) :
    (w.copy p).pending ∈ (w.writeLoop direct sink p).2 := by
  have hcopy : ¬ ((w.copy p).failed ∨ (w.copy p).pending = []) := by
    simp [copy, hw, hpending]
  have hchunk : ((w.copy p).flush (sink 0)).2 = [(w.copy p).pending] := by
    unfold flush
    rw [if_neg hcopy]
    cases sink 0 <;> rfl
  rw [writeLoop, if_neg (by simp [hw]), if_neg (by omega), if_neg (fun h => hpending h.2)]
  dsimp only
  split
  · simp [hchunk]
  · simp [hchunk]

/-- A slice that fits an empty buffer and finds a full one only pushes out what
was already there. -/
theorem writeLoop_of_full (hfull : w.available = 0) (hfit : p.length ≤ w.size) {c : List α}
    (hc : c ∈ (w.writeLoop direct sink p).2) : c = w.pending := by
  have hsize := w.buffered_add_available
  have hcopy : (w.copy p).pending = w.pending := by
    simp [copy, hfull]
  rw [writeLoop] at hc
  split at hc
  · cases hc
  split at hc
  · cases hc
  split at hc
  · rename_i hdirect
    rw [buffered, hdirect.2, List.length_nil] at hsize
    omega
  dsimp only at hc
  split at hc
  · exact (mem_of_flush_chunk hc).trans hcopy
  · rename_i hok
    have hok : ((w.copy p).flush (sink 0)).1.failed = false := by simpa using hok
    have hempty := (w.copy p).flush_pending (sink 0) hok
    rcases List.mem_append.mp hc with hc | hc
    · exact (mem_of_flush_chunk hc).trans hcopy
    · have hroom : ((w.copy p).flush (sink 0)).1.available = w.size := by
        unfold available
        rw [hempty, List.length_nil, Nat.sub_zero]
        unfold flush
        split
        · rfl
        · cases sink 0 <;> rfl
      rw [writeLoop_of_fits hok (by rw [hroom, hfull]; exact hfit)] at hc
      cases hc

theorem flush_stream (w : Writer α) (hw : w.failed = false) :
    (w.flush none).1.failed = false ∧ (w.flush none).2.flatten = w.pending := by
  unfold flush
  split
  · rename_i hskip
    have hempty : w.pending = [] := hskip.resolve_left (by simp [hw])
    exact ⟨hw, hempty.symm⟩
  · exact ⟨hw, by simp⟩

/-- With a sink that takes everything, nothing is lost and nothing changes places. -/
theorem writeLoop_stream (direct : Bool) (w : Writer α) (p : List α) (hw : w.failed = false) :
    (w.writeLoop direct (fun _ => none) p).1.failed = false ∧
      (w.writeLoop direct (fun _ => none) p).2.flatten ++
        (w.writeLoop direct (fun _ => none) p).1.pending = w.pending ++ p := by
  obtain ⟨sink, hsink⟩ : ∃ sink : ℕ → Outcome, sink = fun _ => none := ⟨_, rfl⟩
  rw [← hsink]
  induction sink, w, p using writeLoop.induct direct with
  | case1 sink w p hfailed =>
    rw [hw] at hfailed
    cases hfailed
  | case2 sink w p hfailed hfit =>
    rw [writeLoop_of_fits hw hfit]
    refine ⟨hw, ?_⟩
    simp [copy, List.take_of_length_le hfit]
  | case3 sink w p hfailed hfit hdirect =>
    rw [writeLoop, if_neg hfailed, if_neg hfit, if_pos hdirect, hsink]
    refine ⟨hw, ?_⟩
    simp [hdirect.2]
  | case4 sink w p hfailed hfit hdirect out hout =>
    have hok := ((w.copy p).flush_stream hw).1
    simp only [out, hsink] at hout
    rw [hok] at hout
    cases hout
  | case5 sink w p hfailed hfit hdirect out hout ih =>
    obtain ⟨hok, hflushed⟩ := (w.copy p).flush_stream hw
    have hempty := (w.copy p).flush_pending none hok
    simp only [out, hsink] at ih
    obtain ⟨hrest, hstream⟩ := ih hok trivial
    rw [writeLoop, if_neg hfailed, if_neg hfit, if_neg hdirect, hsink]
    simp only [hok, Bool.false_eq_true, if_false]
    refine ⟨hrest, ?_⟩
    rw [List.flatten_append, List.append_assoc, hstream, hflushed, hempty, List.nil_append]
    simp [copy]

end Writer

end RedisFromScratch.BufferedWriter
