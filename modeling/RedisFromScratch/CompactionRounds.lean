import RedisFromScratch.CompactionBurden
import RedisFromScratch.TreeSteps
import Mathlib.Data.List.TakeWhile

/-!
Repeated compaction. A round chooses a plan, writes its outputs under new
numbers, installs them, parks the version they supersede and sweeps. In a settled
tree it does not fail, and it lightens the version, so rounds come to an end.
A round is also a run of the tree, step by step.
-/
namespace RedisFromScratch.CompactionRounds

open ByteStrings SortedTables EngineTypes SsTables Versions LsmTree Compaction
open CompactionAgreement CompactionBurden NewestWins TreeRuns TreeInvariant TreeSteps

inductive RoundError
  | engine (e : EngineError)
  | version (e : VersionError)
  deriving DecidableEq, Repr

/-- What a round finds: the clock it reads for each key, and the superseded
versions that readers hold. -/
structure Surroundings where
  now : Bytes → ℤ
  held : ℕ → Bool

/-- Tables under the numbers they are allocated. -/
def numbered : ℕ → List SsTable → List (ℕ × SsTable)
  | _, [] => []
  | n, t :: ts => (n, t) :: numbered (n + 1) ts

def storeTables (files : TableFiles) (outputs : List (ℕ × SsTable)) : TableFiles :=
  files.insertAll (outputs.map (fun p => (p.1, some p.2)))

def unlinkAll (files : TableFiles) (numbers : List ℕ) : TableFiles :=
  numbers.foldl Table.erase files

/-- Unlink from the oldest parked version on, up to the first that is held. -/
def sweepPendingDeletes (held : ℕ → Bool) (s : State) : State :=
  { s with
    pending := s.pending.dropWhile (fun p => !held p.handle.id)
    files := unlinkAll s.files
      ((s.pending.takeWhile (fun p => !held p.handle.id)).flatMap PendingDelete.files) }

/-- The next version in place, with the one it supersedes parked. -/
def superseded (plan : Plan) (next : Version) (s : State) : State :=
  { s with
    version := next
    installs := s.installs + 1
    pending := s.pending ++ [⟨s.handle, plan.sources.map FileMeta.number⟩] }

def installCompaction (held : ℕ → Bool) (plan : Plan) (outputs : List (ℕ × SsTable)) (s : State) :
    Except VersionError State :=
  match installVersion s.version plan (outputs.map outputMeta) with
  | .error e => .error e
  | .ok next => .ok (sweepPendingDeletes held (superseded plan next s))

def runCompaction (o : Options) (env : Surroundings) (plan : Plan) (s : State) :
    Except RoundError State :=
  match outputTables o s.files s.version plan env.now with
  | .error e => .error (.engine e)
  | .ok outs =>
      let outputs := numbered s.nextFileNumber outs
      match installCompaction env.held plan outputs { s with
          nextFileNumber := s.nextFileNumber + outs.length
          files := storeTables s.files outputs } with
      | .error e => .error (.version e)
      | .ok s' => .ok { s' with
          pointers := (Work.compaction plan env.now).pointers s'.pointers }

variable {F : Type}

/-- One compaction, if a level is over its budget. -/
def compactOnce (o : Options) (sc : Scores F) (env : Surroundings) (s : State) :
    Except RoundError (Bool × State) :=
  match pickCompaction o sc s.pointers s.version with
  | none => .ok (false, s)
  | some plan =>
      match runCompaction o env plan s with
      | .error e => .error e
      | .ok s' => .ok (true, s')

/-- Rounds that each compacted something. -/
inductive Rounds (o : Options) (sc : Scores F) :
    (ℕ → Surroundings) → ℕ → State → State → Prop
  | rest (env : ℕ → Surroundings) (s : State) : Rounds o sc env 0 s s
  | again (env : ℕ → Surroundings) (n : ℕ) (s s' t : State)
      (hround : compactOnce o sc (env 0) s = .ok (true, s'))
      (hrest : Rounds o sc (fun i => env (i + 1)) n s' t) : Rounds o sc env (n + 1) s t

/-- The level invariants, with file numbers allocated above all that are in use
and no parked file named by the version. -/
structure Settled (s : State) : Prop where
  wellFormed : WellFormed s.files s.version
  numbers : ∀ n x, s.files.lookup n = some x → n < s.nextFileNumber
  retired : ∀ p ∈ s.pending, ∀ n ∈ p.files, n < s.nextFileNumber ∧ ¬ Names s.version n

/-- A state of the running tree between jobs is settled. -/
theorem settled_of_inv {s : State} (h : Inv s) : Settled s where
  wellFormed := h.wellFormed
  numbers := h.numbers
  retired p hp n hn := by
    have hchain : p ∈ chain s := List.mem_append_left _ hp
    obtain ⟨hold, hnew⟩ := h.retired p hchain n hn
    exact ⟨h.named_lt (Or.inr ⟨p, hchain, hold⟩), hnew⟩

section Files

variable {files : TableFiles}

theorem numbered_range {n : ℕ} {ts : List SsTable} {p : ℕ × SsTable} (h : p ∈ numbered n ts) :
    n ≤ p.1 ∧ p.1 < n + ts.length := by
  induction ts generalizing n with
  | nil => cases h
  | cons t ts ih =>
    rw [List.length_cons]
    rcases List.mem_cons.mp h with rfl | h
    · exact ⟨le_rfl, by omega⟩
    · have hrange := ih h
      omega

theorem numbered_distinct (n : ℕ) (ts : List SsTable) :
    (numbered n ts).Pairwise (fun a b => a.1 ≠ b.1) := by
  induction ts generalizing n with
  | nil => exact List.Pairwise.nil
  | cons t ts ih =>
    refine List.pairwise_cons.mpr ⟨fun p hp => ?_, ih (n + 1)⟩
    have hrange := numbered_range hp
    omega

theorem numbered_tables (n : ℕ) (ts : List SsTable) : (numbered n ts).map Prod.snd = ts := by
  induction ts generalizing n with
  | nil => rfl
  | cons t ts ih => rw [numbered, List.map_cons, ih]

/-- Only the numbers just allocated are written to. -/
theorem lookup_storeTables_other (n : ℕ) (ts : List SsTable) {m : ℕ}
    (h : m < n ∨ n + ts.length ≤ m) :
    (storeTables files (numbered n ts)).lookup m = files.lookup m := by
  induction ts generalizing files n with
  | nil => rfl
  | cons t ts ih =>
    rw [List.length_cons] at h
    have hrest := @ih (files.insert n (some t)) (n + 1) (by omega)
    rw [Table.lookup_insert, if_neg (by omega)] at hrest
    exact hrest

theorem lookup_storeTables {n : ℕ} {ts : List SsTable} {p : ℕ × SsTable}
    (h : p ∈ numbered n ts) :
    (storeTables files (numbered n ts)).lookup p.1 = some (some p.2) := by
  induction ts generalizing files n with
  | nil => cases h
  | cons t ts ih =>
    rcases List.mem_cons.mp h with rfl | h
    · have hfirst := @lookup_storeTables_other (files.insert n (some t)) (n + 1) ts _
        (Or.inl (Nat.lt_succ_self n))
      rw [Table.lookup_insert, if_pos rfl] at hfirst
      exact hfirst
    · exact ih h

theorem lookup_unlinkAll (numbers : List ℕ) (m : ℕ) :
    (unlinkAll files numbers).lookup m = if m ∈ numbers then none else files.lookup m := by
  induction numbers generalizing files with
  | nil => rfl
  | cons n numbers ih =>
    rw [unlinkAll, List.foldl_cons]
    refine (@ih (files.erase n)).trans ?_
    rw [Table.lookup_erase]
    by_cases hm : m = n
    · simp [hm]
    · simp [hm]

end Files

variable {o : Options} {sc : Scores F} {s : State}

/-- A sweep unlinks only what no version names any more. -/
theorem Settled.sweep (h : Settled s) (held : ℕ → Bool) :
    Settled (sweepPendingDeletes held s) where
  wellFormed := by
    refine wellFormed_congr h.wellFormed ?_
    intro n hn
    refine (lookup_unlinkAll _ n).trans (if_neg ?_)
    intro hmem
    obtain ⟨p, hp, hfile⟩ := List.mem_flatMap.mp hmem
    exact (h.retired p ((List.takeWhile_sublist _).subset hp) n hfile).2 hn
  numbers n x hx := by
    have hlook := (lookup_unlinkAll _ n).symm.trans hx
    split at hlook
    · cases hlook
    · exact h.numbers n x hlook
  retired p hp := h.retired p ((List.dropWhile_sublist _).subset hp)

/-- The state with tables under new numbers. -/
def withTables (s : State) (outs : List SsTable) : State :=
  { s with
    nextFileNumber := s.nextFileNumber + outs.length
    files := storeTables s.files (numbered s.nextFileNumber outs) }

theorem Settled.names_lt (h : Settled s) {n : ℕ} (hn : Names s.version n) :
    n < s.nextFileNumber := by
  obtain ⟨t, ht⟩ := names_stored h.wellFormed hn
  exact h.numbers n _ ht

theorem Settled.lookup_withTables (h : Settled s) (outs : List SsTable) {n : ℕ}
    (hn : Names s.version n) : (withTables s outs).files.lookup n = s.files.lookup n :=
  lookup_storeTables_other s.nextFileNumber outs (Or.inl (h.names_lt hn))

theorem Settled.withTables (h : Settled s) (outs : List SsTable) :
    Settled (withTables s outs) where
  wellFormed := wellFormed_congr h.wellFormed (fun _ hn => h.lookup_withTables outs hn)
  numbers n x hx := by
    by_contra hge
    have hsame := @lookup_storeTables_other s.files s.nextFileNumber outs _
      (Or.inr (Nat.not_lt.mp hge))
    exact hge (Nat.lt_add_right _ (h.numbers n x (hsame.symm.trans hx)))
  retired p hp n hn := ⟨Nat.lt_add_right _ (h.retired p hp n hn).1, (h.retired p hp n hn).2⟩

/-- The tables of a chosen plan, stored under their numbers. -/
theorem Settled.written {plan : Plan} {now : Bytes → ℤ} {outs : List SsTable}
    (h : Settled s) (hp : plan.Valid s.version)
    (houts : outs.flatMap SsTable.iter =
      survivors s.version plan now (plan.sources.map (entriesOf s.files)))
    (hsound : ∀ t ∈ outs, t.Sound) :
    Written (CompactionRounds.withTables s outs).files s.version plan now
      (numbered s.nextFileNumber outs) where
  iter := by
    have hsources : plan.sources.map
        (entriesOf (CompactionRounds.withTables s outs).files) =
        plan.sources.map (entriesOf s.files) := by
      apply List.map_congr_left
      intro f hf
      apply entriesOf_congr
      apply h.lookup_withTables
      rcases List.mem_append.mp hf with hf | hf
      · exact ⟨_, f, mem_level_of_mem_inputs hp hf, rfl⟩
      · exact ⟨_, f, (overlapping_sublist hp).subset hf, rfl⟩
    rw [hsources, ← houts, ← List.flatMap_map Prod.snd SsTable.iter, numbered_tables]
  sound p hmem := by
    apply hsound
    rw [← numbered_tables s.nextFileNumber outs]
    exact List.mem_map_of_mem hmem
  stored _ hmem := lookup_storeTables hmem
  distinct := numbered_distinct _ _
  fresh p hmem l g hg heq := by
    have hbelow := h.names_lt ⟨l, g, hg, rfl⟩
    have hrange := numbered_range hmem
    omega

/-- Outputs that are in the directory are installed, and leave less to do. -/
theorem installCompaction_ok {plan : Plan} {now : Bytes → ℤ} {outputs : List (ℕ × SsTable)}
    (held : ℕ → Bool) (h : Settled s) (hp : plan.Valid s.version)
    (hw : Written s.files s.version plan now outputs)
    (hnew : ∀ q ∈ outputs, ∀ p ∈ s.pending, q.1 ∉ p.files) :
    ∃ s', installCompaction held plan outputs s = .ok s' ∧ Settled s' ∧
      burden s'.version < burden s.version := by
  obtain ⟨next, hnext, -⟩ := install_ok h.wellFormed hp hw
  obtain ⟨hwf, hnames, hretired, -⟩ := install_names h.wellFormed hp hw hnext
  have hparked : Settled (superseded plan next s) := by
    refine ⟨hwf, h.numbers, ?_⟩
    intro p hmem n hn
    rcases List.mem_append.mp hmem with hmem | hmem
    · refine ⟨(h.retired p hmem n hn).1, fun hnamed => ?_⟩
      rcases hnames n hnamed with hold | ⟨q, hq, rfl⟩
      · exact (h.retired p hmem n hn).2 hold
      · exact hnew q hq p hmem hn
    · rw [List.mem_singleton] at hmem
      subst hmem
      exact ⟨h.names_lt (hretired n hn).1, (hretired n hn).2⟩
  refine ⟨_, ?_, hparked.sweep held, burden_install h.wellFormed hp hw hnext⟩
  rw [installCompaction, hnext]

theorem runCompaction_ok {plan : Plan} (o : Options) (env : Surroundings) (h : Settled s)
    (hp : plan.Valid s.version) :
    ∃ s', runCompaction o env plan s = .ok s' ∧ Settled s' ∧
      burden s'.version < burden s.version := by
  obtain ⟨outs, houts, hiter, hsound⟩ := outputTables_ok o h.wellFormed hp env.now
  have hnew : ∀ q ∈ numbered s.nextFileNumber outs, ∀ p ∈ s.pending, q.1 ∉ p.files := by
    intro q hq p hmem hin
    have hrange := numbered_range hq
    have hbelow := (h.retired p hmem q.1 hin).1
    omega
  obtain ⟨s', hinstall, hsettled, hless⟩ := installCompaction_ok env.held (h.withTables outs) hp
    (h.written hp hiter hsound) hnew
  refine ⟨{ s' with pointers := (Work.compaction plan env.now).pointers s'.pointers }, ?_,
    ⟨hsettled.wellFormed, hsettled.numbers, hsettled.retired⟩, hless⟩
  rw [withTables] at hinstall
  simp only [runCompaction, houts, hinstall]

/-- A round that finds something to do does it, and leaves less to do. -/
theorem compactOnce_true (env : Surroundings) {plan : Plan} (h : Settled s)
    (hpick : pickCompaction o sc s.pointers s.version = some plan) :
    ∃ s', compactOnce o sc env s = .ok (true, s') ∧ Settled s' ∧
      burden s'.version < burden s.version := by
  obtain ⟨s', hrun, hafter⟩ := runCompaction_ok o env h (pickCompaction_valid hpick)
  refine ⟨s', ?_, hafter⟩
  simp only [compactOnce, hpick, hrun]

/-- Rounds go on for no longer than there is something to do. -/
theorem rounds_end (h : Settled s) (env : ℕ → Surroundings) :
    ∃ n s', n ≤ burden s.version ∧ Rounds o sc env n s s' ∧ Settled s' ∧
      pickCompaction o sc s'.pointers s'.version = none := by
  induction hb : burden s.version using Nat.strong_induction_on generalizing s env with
  | _ b ih =>
    cases hpick : pickCompaction o sc s.pointers s.version with
    | none => exact ⟨0, s, Nat.zero_le b, .rest env s, h, hpick⟩
    | some =>
      obtain ⟨s₁, hround, h₁, hless⟩ := compactOnce_true (env 0) h hpick
      obtain ⟨n, s', hn, hrounds, hafter⟩ :=
        ih _ (hb ▸ hless) h₁ (fun i => env (i + 1)) rfl
      exact ⟨n + 1, s', by omega, .again env n s s₁ s' hround hrounds, hafter⟩

section Steps

open Relation

/-- The outputs are opened and closed one after the other. -/
theorem merging_runs (s : State) (plan : Plan) (now : Bytes → ℤ) (done : List (ℕ × SsTable))
    (todo : List SsTable) :
    ReflTransGen (Moves o sc) { s with job := .merging plan now done none todo }
      { withTables s todo with
        job := .merging plan now (done ++ numbered s.nextFileNumber todo) none [] } := by
  induction todo generalizing s done with
  | nil =>
    rw [numbered, List.append_nil]
    exact .refl
  | cons t ts ih =>
    have hopen : Moves o sc { s with job := .merging plan now done none (t :: ts) } _ :=
      ⟨_, .openOutput _ plan now done (t :: ts) rfl (List.cons_ne_nil t ts)⟩
    have hclose : Moves o sc _ _ := ⟨_, .closeOutput { s with
      nextFileNumber := s.nextFileNumber + 1
      files := s.files.insert s.nextFileNumber none
      job := .merging plan now done (some s.nextFileNumber) (t :: ts) } plan now done
      s.nextFileNumber t ts rfl⟩
    have hrest := ih { s with
      nextFileNumber := s.nextFileNumber + 1
      files := s.files.insert s.nextFileNumber (some t) } (done ++ [(s.nextFileNumber, t)])
    simp only [Table.insert_insert] at hclose
    rw [List.append_assoc] at hrest
    have hlast : withTables { s with
        nextFileNumber := s.nextFileNumber + 1
        files := s.files.insert s.nextFileNumber (some t) } ts = withTables s (t :: ts) := by
      simp only [withTables, List.length_cons, Nat.add_assoc, Nat.add_comm 1]
      rfl
    rw [hlast] at hrest
    exact .head hopen (.head hclose hrest)

/-- Files set aside are unlinked one after the other. -/
theorem unlinking_runs (s : State) (numbers : List ℕ) (hdoomed : s.doomed = numbers) :
    ReflTransGen (Moves o sc) s
      { s with files := unlinkAll s.files numbers, doomed := [] } := by
  induction numbers generalizing s with
  | nil => rw [unlinkAll, List.foldl_nil, ← hdoomed]
  | cons n numbers ih =>
    have hstep : Moves o sc s _ := ⟨_, .unlink s n (by rw [hdoomed]; exact List.mem_cons_self)⟩
    refine .head hstep ?_
    refine ih { s with files := s.files.erase n, doomed := s.doomed.erase n } ?_
    rw [hdoomed, List.erase_cons_head]

theorem sweeping_runs (held : ℕ → Bool) (s : State) (hdoomed : s.doomed = [])
    (hheld : ∀ id, held id = false → ¬ s.Held id) :
    ReflTransGen (Moves o sc) s (sweepPendingDeletes held s) := by
  have hfree : ∀ p ∈ s.pending.takeWhile (fun p => !held p.handle.id),
      ¬ s.Held p.handle.id := by
    intro p hmem
    have hnot := List.mem_takeWhile_imp hmem
    exact hheld _ (Bool.not_eq_true' _ ▸ hnot)
  have hstep : Moves o sc s _ := ⟨_, .sweep s _ _ List.takeWhile_append_dropWhile.symm hfree⟩
  have hunlink := @unlinking_runs F o sc { s with
    pending := s.pending.dropWhile (fun p => !held p.handle.id)
    doomed := s.doomed ++
      (s.pending.takeWhile (fun p => !held p.handle.id)).flatMap PendingDelete.files } _ rfl
  cases s
  cases hdoomed
  exact .head hstep hunlink

/-- What a round that compacted something has done. -/
theorem compactOnce_done {env : Surroundings} {s s' : State} (h : Settled s)
    (hround : compactOnce o sc env s = .ok (true, s')) :
    Settled s' ∧ ∃ plan outs next, pickCompaction o sc s.pointers s.version = some plan ∧
      outputTables o s.files s.version plan env.now = .ok outs ∧
      Written (withTables s outs).files s.version plan env.now
        (numbered s.nextFileNumber outs) ∧
      installVersion s.version plan ((numbered s.nextFileNumber outs).map outputMeta) = .ok next ∧
      s' = { sweepPendingDeletes env.held (superseded plan next (withTables s outs)) with
        pointers := (Work.compaction plan env.now).pointers s.pointers } := by
  cases hpick : pickCompaction o sc s.pointers s.version with
  | none =>
    rw [compactOnce, hpick] at hround
    cases hround
  | some plan =>
    have hp := pickCompaction_valid hpick
    obtain ⟨s₁, hround₁, hsettled, -⟩ := compactOnce_true env h hpick
    cases hround₁.symm.trans hround
    obtain ⟨outs, houts, hiter, hsound⟩ := outputTables_ok o h.wellFormed hp env.now
    have hw := h.written hp hiter hsound
    obtain ⟨next, hnext, -⟩ := install_ok (h.withTables outs).wellFormed hp hw
    refine ⟨hsettled, plan, outs, next, rfl, houts, hw, hnext, ?_⟩
    simp only [compactOnce, hpick, runCompaction, houts, installCompaction] at hround
    rw [withTables] at hnext
    simp only [hnext] at hround
    cases hround
    rfl

/-- A round that finds an idle job is a run of the tree, so everything that holds
of its runs holds of repeated rounds. -/
theorem compactOnce_runs {env : Surroundings} {s s' : State} (h : Settled s)
    (hidle : s.job = .idle) (hdoomed : s.doomed = []) (hclock : ∀ k, env.now k ≤ s.clock)
    (hheld : ∀ id, env.held id = false → ¬ s.Held id)
    (hround : compactOnce o sc env s = .ok (true, s')) : ReflTransGen (Moves o sc) s s' := by
  obtain ⟨-, plan, outs, next, hpick, houts, -, hnext, rfl⟩ := compactOnce_done h hround
  have hstart : Moves o sc s _ := ⟨_, .startCompaction s plan env.now outs hidle hpick houts⟩
  have hmerge := @merging_runs F o sc s plan env.now [] outs
  have hpublish : Moves o sc _ _ := ⟨_, .publishCompaction
    { withTables s outs with
      job := .merging plan env.now (numbered s.nextFileNumber outs) none [] }
    _ _ _ next rfl hclock hnext⟩
  have hswap : Moves o sc _ _ := ⟨_, .swapVersion
    { withTables s outs with job := .publishing next (.compaction plan env.now) } _ _ rfl⟩
  have hpark : Moves o sc _ _ := ⟨_, .park
    { withTables s outs with
      version := next
      installs := s.installs + 1
      job := .parking ⟨s.handle, plan.sources.map FileMeta.number⟩ (.compaction plan env.now) }
    _ _ rfl⟩
  have hsweep := @sweeping_runs F o sc env.held { superseded plan next (withTables s outs) with
    pointers := (Work.compaction plan env.now).pointers s.pointers
    job := .idle } hdoomed hheld
  refine .head hstart (hmerge.trans (.head hpublish (.head hswap (.head hpark ?_))))
  cases s
  cases hidle
  exact hsweep

/-- A read at or after the times a round reads off the clock sees no change. -/
theorem compactOnce_reads {env : Surroundings} {s s' : State} (h : Settled s)
    (hround : compactOnce o sc env s = .ok (true, s')) {now : ℤ} (hnow : ∀ k, env.now k ≤ now)
    (key : Bytes) : s'.tree.get key now = s.tree.get key now := by
  obtain ⟨h', plan, outs, next, hpick, -, hw, hnext, rfl⟩ := compactOnce_done h hround
  obtain ⟨hwf, -, -, hagrees⟩ :=
    install_names (h.withTables outs).wellFormed (pickCompaction_valid hpick) hw hnext
  have hold := newest_version_congr h.wellFormed (fun _ hn => h.lookup_withTables outs hn) key
  -- A swept file is gone, and none that the new version names is.
  have hnew := newest_version_congr hwf (fun n hn => by
    obtain ⟨t, ht⟩ := names_stored h'.wellFormed hn
    have hlook := (lookup_unlinkAll _ n).symm.trans ht
    split at hlook
    · cases hlook
    · exact ht.trans hlook.symm) key
  rw [Tree.get_eq_content h'.wellFormed, Tree.get_eq_content h.wellFormed, Tree.content,
    Tree.content, Tree.sources, Tree.sources, newest_append, newest_append]
  have hsame : Agrees now (newest (versionSources s.files s.version) key) _ :=
    hold ▸ hagrees now hnow key
  rw [← hnew] at hsame
  exact congrArg Except.ok (hsame.symm.under _ now le_rfl)

/-- Repeated rounds from any state of the running tree between jobs, with readers
holding what they hold, are a run of the tree: they come to an end where nothing is
left to compact, and no read from the current time on changes its answer. -/
theorem rounds_refine (o : Options) (sc : Scores F) (s : State) (hreach : Reachable o sc s)
    (hidle : s.job = .idle) (hdoomed : s.doomed = []) (env : ℕ → Surroundings)
    (hclock : ∀ i k, (env i).now k ≤ s.clock)
    (hheld : ∀ i id, (env i).held id = false → ¬ s.Held id) :
    ∃ n s', n ≤ burden s.version ∧ Rounds o sc env n s s' ∧
      pickCompaction o sc s'.pointers s'.version = none ∧ ReflTransGen (Moves o sc) s s' ∧
      ∀ key now, s.clock ≤ now → s'.tree.get key now = s.tree.get key now := by
  have h := settled_of_inv (inv_reachable hreach)
  obtain ⟨n, s', hn, hrounds, -, hrest⟩ := @rounds_end F o sc s h env
  refine ⟨n, s', hn, hrounds, hrest, ?_⟩
  clear hn hrest hreach
  induction hrounds with
  | rest => exact ⟨.refl, fun _ _ _ => rfl⟩
  | again env n s s₁ t hround hrounds ih =>
    have hruns := compactOnce_runs h hidle hdoomed (hclock 0) (hheld 0) hround
    obtain ⟨h₁, plan, outs, next, -, -, -, -, rfl⟩ := compactOnce_done h hround
    obtain ⟨hrun, hlater⟩ := ih hidle hdoomed (fun i => hclock (i + 1)) (fun i => hheld (i + 1)) h₁
    refine ⟨hruns.trans hrun, fun key now hnow => (hlater key now hnow).trans ?_⟩
    exact compactOnce_reads h hround (fun k => (hclock 0 k).trans hnow) key

/-- Rounds from a tree with one flushed table. -/
theorem flushed_rounds : ∃ s n s', (s.version.level 0).length = 1 ∧
    Rounds eagerOptions wholeScores (fun _ => ⟨fun _ => 0, fun _ => true⟩) n s s' ∧
      ∀ key now, 0 ≤ now → s'.tree.get key now = s.tree.get key now := by
  obtain ⟨t, -, -, hrun⟩ := flush_completes (s := oneWrite 0 [⟨[107], .delete⟩]) eagerOptions
    wholeScores rfl rfl rfl (by decide)
  obtain ⟨n, s', -, hrounds, -, -, hreads⟩ := rounds_refine eagerOptions wholeScores _
    ⟨TreeRuns.init 0, init_opened 0, (oneWrite_reachable 0 _).trans hrun⟩ rfl rfl
    (fun _ => ⟨fun _ => 0, fun _ => true⟩) (fun _ _ => le_rfl) (fun _ _ hheld => by cases hheld)
  exact ⟨_, n, s', rfl, hrounds, hreads⟩

end Steps

end RedisFromScratch.CompactionRounds
