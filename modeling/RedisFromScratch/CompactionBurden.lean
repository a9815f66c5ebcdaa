import RedisFromScratch.CompactionAgreement
import Mathlib.Algebra.BigOperators.Ring.Finset
import Mathlib.Algebra.Order.BigOperators.Group.Finset
import Mathlib.Algebra.Order.BigOperators.Group.List

/-!
What compaction has still to do, as a number: every entry counts as often as
there are levels below it. A merge takes at least one entry one level down and
writes no more entries than it read, so installing its outputs makes the number
smaller.
-/
namespace RedisFromScratch.CompactionBurden

open ByteStrings SortedTables NewestWins EngineTypes SsTables Versions LsmTree Compaction
open CompactionAgreement

/-- Amounts on `n` levels, each weighted by the levels below it. -/
def weighted (n : ℕ) (e : ℕ → ℕ) : ℕ := ∑ l ∈ Finset.range n, (n - 1 - l) * e l

theorem weighted_le (n : ℕ) (e : ℕ → ℕ) :
    weighted n e ≤ (∑ l ∈ Finset.range n, e l) * n := by
  rw [Finset.sum_mul]
  apply Finset.sum_le_sum
  intro l _
  rw [Nat.mul_comm]
  exact Nat.mul_le_mul_left _ (by omega)

/-- What goes one level down, and does not grow there, weighs less. -/
theorem weighted_lt {n p a : ℕ} {e e' : ℕ → ℕ} (hp : p + 1 < n) (ha : 0 < a)
    (htaken : a + e' p ≤ e p) (hput : e' (p + 1) ≤ a + e (p + 1))
    (hother : ∀ l, l ≠ p → l ≠ p + 1 → e' l = e l) : weighted n e' < weighted n e := by
  have hmem : p ∈ Finset.range n := Finset.mem_range.mpr (by omega)
  have hmem' : p + 1 ∈ (Finset.range n).erase p :=
    Finset.mem_erase.mpr ⟨by omega, Finset.mem_range.mpr hp⟩
  have hrest : ∑ l ∈ ((Finset.range n).erase p).erase (p + 1), (n - 1 - l) * e' l =
      ∑ l ∈ ((Finset.range n).erase p).erase (p + 1), (n - 1 - l) * e l := by
    apply Finset.sum_congr rfl
    intro l hl
    obtain ⟨hne, hl⟩ := Finset.mem_erase.mp hl
    rw [hother l (Finset.ne_of_mem_erase hl) hne]
  obtain ⟨w, hw⟩ : ∃ w, n - 1 - p = w + 1 := ⟨n - 1 - p - 1, by omega⟩
  have hw' : n - 1 - (p + 1) = w := by omega
  have hfirst : (w + 1) * e' p + (w + 1) * a ≤ (w + 1) * e p := by
    rw [← Nat.mul_add]
    exact Nat.mul_le_mul_left _ (by omega)
  have hsecond : w * e' (p + 1) ≤ w * a + w * e (p + 1) := by
    rw [← Nat.mul_add]
    exact Nat.mul_le_mul_left _ hput
  have hgain : w * a < (w + 1) * a := Nat.mul_lt_mul_of_pos_right (Nat.lt_succ_self w) ha
  rw [weighted, weighted, ← Finset.add_sum_erase _ _ hmem, ← Finset.add_sum_erase _ _ hmem,
    ← Finset.add_sum_erase _ _ hmem', ← Finset.add_sum_erase _ _ hmem', hrest, hw, hw']
  omega

variable {files : TableFiles} {v : Version} {plan : Plan}

def totalEntries (v : Version) : ℕ := (v.levels.flatten.map FileMeta.entries).sum

def entriesAt (v : Version) (l : ℕ) : ℕ := ((v.level l).map FileMeta.entries).sum

/-- The levels the entries of a version have still to go down. -/
def burden (v : Version) : ℕ := weighted maxLevels (entriesAt v)

theorem totalEntries_eq (v : Version) :
    totalEntries v = ∑ l ∈ Finset.range v.levels.length, entriesAt v l := by
  obtain ⟨levels⟩ := v
  induction levels with
  | nil => rfl
  | cons files levels ih =>
    rw [List.length_cons, Finset.sum_range_succ']
    rw [totalEntries, List.flatten_cons, List.map_append, List.sum_append, Nat.add_comm]
    exact congrArg (· + _) ih

theorem burden_le (h : v.levels.length = maxLevels) :
    burden v ≤ totalEntries v * maxLevels := by
  rw [totalEntries_eq, h]
  exact weighted_le maxLevels (entriesAt v)

theorem entries_of_backed {f : FileMeta} (h : Backed files f) :
    f.entries = (entriesOf files f).length := by
  obtain ⟨t, hfile, hsound, hmeta⟩ := h
  rw [hmeta, Backed.entriesOf_eq (f := .fromTable f.number t.summary) hfile]
  exact hsound.count

theorem entries_pos_of_backed {f : FileMeta} (h : Backed files f) : 0 < f.entries := by
  rw [entries_of_backed h]
  obtain ⟨t, hfile, hsound, -⟩ := h
  obtain ⟨e, hmin⟩ := hsound.min_mem
  rw [Backed.entriesOf_eq hfile]
  exact List.length_pos_of_mem (List.mem_of_head? hmin)

theorem sum_entries {fs : List FileMeta} (h : ∀ f ∈ fs, Backed files f) :
    (fs.map FileMeta.entries).sum = ((fs.map (entriesOf files)).flatten).length := by
  rw [List.length_flatten, List.map_map]
  congr 1
  exact List.map_congr_left (fun f hf => entries_of_backed (h f hf))

/-- Files taken out of a level, with those that stay. -/
theorem taken_add_staying_le {taken level : List FileMeta} (hsub : taken.Sublist level) :
    (taken.map FileMeta.entries).sum + ((level.filter
      (fun f => !(taken.map FileMeta.number).contains f.number)).map FileMeta.entries).sum ≤
      (level.map FileMeta.entries).sum := by
  have hperm := List.filter_append_perm
    (fun f : FileMeta => (taken.map FileMeta.number).contains f.number) level
  have hkept : taken.filter (fun f => (taken.map FileMeta.number).contains f.number) = taken := by
    apply List.filter_eq_self.mpr
    intro f hf
    rw [List.contains_eq_mem, decide_eq_true_iff]
    exact List.mem_map_of_mem hf
  have htaken := hsub.filter (fun f => (taken.map FileMeta.number).contains f.number)
  rw [hkept] at htaken
  rw [← (hperm.map FileMeta.entries).sum_eq, List.map_append, List.sum_append]
  exact Nat.add_le_add_right ((htaken.map _).sum_le_sum (fun _ _ => Nat.zero_le _)) _

theorem inputs_sublist (hp : plan.Valid v) : plan.inputs.Sublist (v.level plan.level) := by
  rcases hp.inputs with ⟨hl, hin⟩ | ⟨-, f, hf, hin⟩
  · rw [hl, hin]
  · rw [hin]
    exact List.singleton_sublist.mpr hf

/-- A merge writes at most what it read. -/
theorem outputs_le {now : Bytes → ℤ} {outputs : List (ℕ × SsTable)} (h : WellFormed files v)
    (hp : plan.Valid v) (hw : Written files v plan now outputs) :
    ((outputs.map outputMeta).map FileMeta.entries).sum ≤
      (plan.inputs.map FileMeta.entries).sum + (plan.overlapping.map FileMeta.entries).sum := by
  have hbacked : ∀ f ∈ outputs.map outputMeta, Backed files f := by
    intro f hf
    obtain ⟨p, hp, rfl⟩ := List.mem_map.mp hf
    exact hw.backed hp
  have hiter : (outputs.map outputMeta).map (entriesOf files) =
      outputs.map (fun p => p.2.iter) := by
    rw [List.map_map]
    exact List.map_congr_left (fun p hp => hw.entriesOf_eq hp)
  calc ((outputs.map outputMeta).map FileMeta.entries).sum
      = (outputs.flatMap (fun p => p.2.iter)).length := by
        rw [sum_entries hbacked, hiter, List.flatMap_def]
    _ = (survivors v plan now (plan.sources.map (entriesOf files))).length := by rw [hw.iter]
    _ ≤ (mergeAll (plan.sources.map (entriesOf files))).length := List.length_filter_le _ _
    _ ≤ (plan.sources.map (entriesOf files)).flatten.length := length_mergeAll_le _
    _ = (plan.inputs.map FileMeta.entries).sum + (plan.overlapping.map FileMeta.entries).sum := by
        rw [← sum_entries (sources_backed h hp), Plan.sources, List.map_append, List.sum_append]

/-- Installing the outputs of a merge lightens the version. -/
theorem burden_install {now : Bytes → ℤ} {outputs : List (ℕ × SsTable)} {v' : Version}
    (h : WellFormed files v) (hp : plan.Valid v) (hw : Written files v plan now outputs)
    (hinstall : installVersion v plan (outputs.map outputMeta) = .ok v') :
    burden v' < burden v := by
  obtain ⟨v'', hok, -, hperm, hother⟩ := install_ok h hp hw
  obtain rfl : v' = v'' := Except.ok.inj (hinstall.symm.trans hok)
  have hout := hp.output
  have hbound := hp.bound
  obtain ⟨f, fs, hin, -⟩ := hp.overlaps
  have hpos : 0 < (plan.inputs.map FileMeta.entries).sum := by
    have hf : f ∈ plan.inputs := hin ▸ List.mem_cons_self
    have hentries := entries_pos_of_backed (h.backed _ f (mem_level_of_mem_inputs hp hf))
    rw [hin, List.map_cons, List.sum_cons]
    omega
  apply weighted_lt (p := plan.level) (by omega) hpos
  · rw [entriesAt, hother _ (by omega), level_cleared h hp, if_pos rfl]
    exact taken_add_staying_le (inputs_sublist hp)
  · have hstay := taken_add_staying_le (overlapping_sublist hp)
    have hwrote := outputs_le h hp hw
    rw [entriesAt, entriesAt, ← hout, (hperm.map _).sum_eq, List.map_append, List.sum_append,
      level_cleared h hp, if_neg (by omega), if_pos rfl]
    omega
  · intro l hl hl'
    rw [entriesAt, hother l (by omega), level_cleared h hp, if_neg hl, if_neg (by omega),
      entriesAt]

end RedisFromScratch.CompactionBurden
