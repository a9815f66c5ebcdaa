import RedisFromScratch.CrashPoints

/-!
Runs of the engine one after another on one directory. An open replays the logs
into a memtable, takes a number and creates a log under it, stores a manifest
that names this log, removes debris and the logs it has replayed, and serves. A
kill may come at any point.
-/
namespace RedisFromScratch.EngineRestarts

open ByteStrings SortedTables EngineTypes EngineLogs EngineWal SsTables Versions LsmTree Compaction
open TreeInvariant EngineRuns EngineInvariant EngineSteps CrashPoints Relation Runs

/-- An open behind its replay loop. -/
structure Opening where
  disk : Disk
  /-- The manifest in memory; it bears the number of the new log. -/
  manifest : Manifest
  mem : MemTable
  /-- The logs replayed. -/
  logs : List ℕ

inductive Phase
  | down (d : Disk)
  | creating (x : Opening)
  | created (x : Opening)
  /-- The manifest is stored, and the debris is going. -/
  | cleaning (x : Opening)
  | up (s : State)

structure Sys where
  phase : Phase
  /-- The time the last run ended. -/
  clock : ℤ
  /-- The batches of the runs that ended, and whether they were acknowledged. -/
  past : List (List Mutation × Bool)

/-- Take a number for the log of this run. -/
def Disk.begin (d : Disk) (r : Recovered) : Opening where
  disk := { d with logs := r.logs }
  manifest := { d.loaded.allocateFileNumber.2 with
    logNumber := d.loaded.allocateFileNumber.1
    lastSequence := r.lastSequence }
  mem := r.mem
  logs := d.neededLogs.map Prod.fst

def Opening.setLog (x : Opening) (f : LogFile) : Opening :=
  { x with disk := { x.disk with logs := x.disk.logs.insert x.manifest.logNumber f } }

def Opening.store (x : Opening) : Opening :=
  { x with disk := { x.disk with manifest := some x.manifest } }

def Opening.removeTable (x : Opening) (n : ℕ) : Opening :=
  { x with disk := { x.disk with tables := x.disk.tables.erase n } }

def Opening.removeLog (x : Opening) (n : ℕ) : Opening :=
  { x with disk := { x.disk with logs := x.disk.logs.erase n } }

/-- The engine an open returns. -/
def Opening.serve (x : Opening) (clock : ℤ) : State where
  tree := {
    active := x.mem
    immutable := []
    version := x.manifest.version
    files := x.disk.tables
    nextFileNumber := x.manifest.nextFileNumber
    logNumber := x.manifest.logNumber
    freezing := none
    job := .idle
    installs := 0
    pending := []
    doomed := []
    pointers := Table.empty
    clock := clock
    reader := fun _ => .idle }
  stored := x.manifest
  logs := x.disk.logs
  wals := Table.empty.insert x.manifest.logNumber
    (Wal.create x.manifest.logNumber x.manifest.lastSequence)
  writer := fun _ => .idle
  live := [⟨x.manifest.logNumber, x.manifest.lastSequence, [], x.mem⟩]
  retired := []
  acked := []

/-- The batches of a segment, and whether they were acknowledged. -/
def marked (acked : List (ℕ × ℕ)) (g : Segment) : List (List Mutation × Bool) :=
  (numberedBatches g.start g.batches).map (fun b => (b.2, decide ((g.number, b.1) ∈ acked)))

/-- The batches of a run in the order of their appends. -/
def batchesOf (s : State) : List (List Mutation × Bool) :=
  (s.retired ++ s.live).flatMap (marked s.acked)

/-- The directory an open works on. -/
def Phase.opening : Phase → Option Opening
  | .creating x => some x
  | .created x => some x
  | .cleaning x => some x
  | _ => none

theorem opening_cases {p : Phase} {x : Opening} (h : p.opening = some x) :
    p = .creating x ∨ p = .created x ∨ p = .cleaning x := by
  cases p with
  | creating => exact Or.inl (congrArg _ (Option.some.inj h))
  | created => exact Or.inr (Or.inl (congrArg _ (Option.some.inj h)))
  | cleaning => exact Or.inr (Or.inr (congrArg _ (Option.some.inj h)))
  | _ => cases h

variable {F : Type}

inductive Step (o : Options) (sc : Scores F) (policy : SyncPolicy) : Sys → Sys → Prop
  -- an open that ends inside its replay loop leaves a torn log cut
  | truncate (d : Disk) (clock : ℤ) (past : List (List Mutation × Bool)) (n : ℕ)
      (f f' : LogFile) (p : Replayed) (hmem : (n, f) ∈ d.neededLogs)
      (hreplay : replay f = .ok (p, f')) :
      Step o sc policy ⟨.down d, clock, past⟩
        ⟨.down { d with logs := d.logs.insert n f' }, clock, past⟩
  | load (d : Disk) (clock : ℤ) (past : List (List Mutation × Bool)) (r : Recovered)
      (hr : d.recover = .ok r)
      -- the sequence numbers have not run out
      (hseq : r.lastSequence + 1 < 2 ^ 64) :
      Step o sc policy ⟨.down d, clock, past⟩ ⟨.creating (Disk.begin d r), clock, past⟩
  | header (x : Opening) (clock : ℤ) (past : List (List Mutation × Bool)) (data : Bytes)
      (hdata : data <+: encodeHeader x.manifest.logNumber x.manifest.lastSequence) :
      Step o sc policy ⟨.creating x, clock, past⟩ ⟨.creating (x.setLog ⟨data, 0⟩), clock, past⟩
  | create (x : Opening) (clock : ℤ) (past : List (List Mutation × Bool)) :
      Step o sc policy ⟨.creating x, clock, past⟩
        ⟨.created (x.setLog (headerFile x.manifest.logNumber x.manifest.lastSequence)), clock, past⟩
  | store (x : Opening) (clock : ℤ) (past : List (List Mutation × Bool)) :
      Step o sc policy ⟨.created x, clock, past⟩ ⟨.cleaning x.store, clock, past⟩
  | removeTable (x : Opening) (clock : ℤ) (past : List (List Mutation × Bool)) (n : ℕ)
      (hn : ¬ Names x.manifest.version n) :
      Step o sc policy ⟨.cleaning x, clock, past⟩ ⟨.cleaning (x.removeTable n), clock, past⟩
  | removeLog (x : Opening) (clock : ℤ) (past : List (List Mutation × Bool)) (n : ℕ)
      (hn : x.manifest.logNumber < n ∨ (n ∈ x.logs ∧ n < x.manifest.logNumber)) :
      Step o sc policy ⟨.cleaning x, clock, past⟩ ⟨.cleaning (x.removeLog n), clock, past⟩
  | serve (x : Opening) (clock later : ℤ) (past : List (List Mutation × Bool))
      (hlater : clock ≤ later)
      (htables : ∀ n t, x.disk.tables.lookup n = some t → Names x.manifest.version n)
      (hdebris : ∀ n f, x.disk.logs.lookup n = some f → n ≤ x.manifest.logNumber)
      (hold : ∀ n ∈ x.logs, n < x.manifest.logNumber → x.disk.logs.lookup n = none) :
      Step o sc policy ⟨.cleaning x, clock, past⟩ ⟨.up (x.serve later), clock, past⟩
  | run (s s' : State) (clock : ℤ) (past : List (List Mutation × Bool))
      (hstep : EngineRuns.Step o sc policy s s') :
      Step o sc policy ⟨.up s, clock, past⟩ ⟨.up s', clock, past⟩
  -- a close syncs the log and is then such an end as well
  | kill (s : State) (d : Disk) (clock : ℤ) (past : List (List Mutation × Bool))
      (hkill : Killed s d) :
      Step o sc policy ⟨.up s, clock, past⟩ ⟨.down d, s.tree.clock, past ++ batchesOf s⟩
  | killOpen (p : Phase) (x : Opening) (clock : ℤ) (past : List (List Mutation × Bool))
      (hp : p.opening = some x) :
      Step o sc policy ⟨p, clock, past⟩ ⟨.down x.disk, clock, past⟩

/-- A step under the options and the policy the directory is opened with this time. -/
def AnyStep (sc : Scores F) (allowed : SyncPolicy → Prop) (x x' : Sys) : Prop :=
  ∃ o policy, allowed policy ∧ Step o sc policy x x'

/-- Nothing there yet. -/
def empty (clock : ℤ) : Sys := ⟨.down ⟨none, Table.empty, Table.empty⟩, clock, []⟩

/-- The tables of a directory and the numbers its manifest has given out. -/
structure DiskOk (d : Disk) : Prop where
  wellFormed : WellFormed d.tables d.loaded.version
  named : ∀ n, Names d.loaded.version n → n < d.loaded.nextFileNumber
  logNumber : d.loaded.logNumber < d.loaded.nextFileNumber

/-- The manifest an open has in memory. -/
structure ManifestOk (x : Opening) : Prop where
  version : x.manifest.version = x.disk.loaded.version
  next : x.manifest.nextFileNumber = x.manifest.logNumber + 1
  bound : x.disk.loaded.nextFileNumber ≤ x.manifest.nextFileNumber
  sequence : x.manifest.lastSequence + 1 < 2 ^ 64

/-- What the manifest in the directory of a run knows of its files. -/
structure StoredOk (s : State) : Prop where
  named : ∀ n, Names s.stored.version n → n < s.stored.nextFileNumber
  logNumber : s.stored.logNumber < s.stored.nextFileNumber
  next : s.stored.nextFileNumber ≤ s.tree.nextFileNumber

def PhaseOk : Phase → Prop
  | .down d => DiskOk d
  | .creating x => DiskOk x.disk ∧ ManifestOk x ∧
      x.disk.loaded.nextFileNumber = x.manifest.logNumber
  | .created x => DiskOk x.disk ∧ ManifestOk x ∧
      x.disk.loaded.nextFileNumber = x.manifest.logNumber ∧
      x.disk.logs.lookup x.manifest.logNumber =
        some (headerFile x.manifest.logNumber x.manifest.lastSequence)
  | .cleaning x => DiskOk x.disk ∧ ManifestOk x ∧ x.disk.manifest = some x.manifest ∧
      x.disk.logs.lookup x.manifest.logNumber =
        some (headerFile x.manifest.logNumber x.manifest.lastSequence)
  | .up s => LogInv s ∧ StoredOk s

variable {o : Options} {sc : Scores F} {policy : SyncPolicy} {x x' : Sys}

theorem anyStep_run (allowed : SyncPolicy → Prop) (hpolicy : allowed policy)
    {cond : Sys → Sys → Prop} (h : ReflTransGen (Guarded (Step o sc policy) cond) x x') :
    ReflTransGen (Guarded (AnyStep sc allowed) cond) x x' :=
  ReflTransGen.mono (fun _ _ hstep => ⟨⟨o, policy, hpolicy, hstep.1⟩, hstep.2⟩) _ _ h

theorem storedOk_step {s s' : State} (h : LogInv s) (hs : StoredOk s)
    (hstep : EngineRuns.Step o sc policy s s') : StoredOk s' := by
  have hinv := inv_step h hstep
  have hkeep : s'.stored = s.stored → s.tree.nextFileNumber ≤ s'.tree.nextFileNumber →
      StoredOk s' := by
    intro hstored hnext
    refine ⟨?_, ?_, ?_⟩
    · rw [hstored]
      exact hs.named
    · rw [hstored]
      exact hs.logNumber
    · rw [hstored]
      exact hs.next.trans hnext
  -- a manifest stored now knows every number given out so far
  have hstore : s'.stored.nextFileNumber = s.tree.nextFileNumber →
      s'.tree.nextFileNumber = s.tree.nextFileNumber → StoredOk s' := by
    intro hstored hnext
    refine ⟨fun n hn => ?_, ?_, (hstored.trans hnext.symm).le⟩
    · rw [hinv.version] at hn
      obtain ⟨t, ht⟩ := names_stored (stored_wellFormed hinv.tree) hn
      rw [hstored, ← hnext]
      exact hinv.tree.numbers n _ ht
    · obtain ⟨l, g, hl, -⟩ := hinv.newest
      have hg : g ∈ s'.live := by simp [hl]
      rw [hstored, ← hnext]
      exact (hinv.low hg).trans_lt (hinv.numbers g hg)
  cases hstep with
  | commit i n seq handle =>
    obtain ⟨wals, logs, hrun⟩ := runCommit_frame s policy handle seq
    refine hkeep ?_ (le_of_eq ?_)
    · rw [hrun]
    · rw [hrun]
  | logOp n op => exact hkeep (runOp_stored s n op) (by rw [runOp_tree])
  | freeze t htree =>
    refine hkeep (runOp_stored s _ _) ?_
    cases htree
    exact Nat.le_succ _
  | append i muts t w w' hidle hne htree | swapLog n w t hfreezing htree
  | keepLogNumber n m t hjob htree | forgetLogs n m t hjob htree =>
    refine hkeep rfl ?_
    cases htree
    exact le_rfl
  | publish t htree => cases htree <;> exact hstore rfl rfl
  | storeLogNumber n m t hjob htree =>
    refine hstore rfl ?_
    cases htree
    rfl
  | quiet a t ha htree => exact hkeep rfl (keeps_of_quiet ha htree).next
  | _ => exact hkeep rfl le_rfl

theorem diskOk_logs {d : Disk} (h : DiskOk d) (logs : Table ℕ LogFile) :
    DiskOk { d with logs := logs } := ⟨h.wellFormed, h.named, h.logNumber⟩

/-- A kill leaves a directory that can be opened again, as far as its tables go. -/
theorem diskOk_killed {s : State} {d : Disk} (h : LogInv s) (hs : StoredOk s)
    (hkill : Killed s d) : DiskOk d := by
  have hloaded := Leaves.loaded hkill
  refine ⟨?_, ?_, ?_⟩
  · rw [hloaded, h.version, hkill.tables]
    exact stored_wellFormed h.tree
  · rw [hloaded]
    exact hs.named
  · rw [hloaded]
    exact hs.logNumber

theorem started_serve {x : Opening} (h : DiskOk x.disk) (hm : ManifestOk x)
    (hstored : x.disk.manifest = some x.manifest)
    (hlog : x.disk.logs.lookup x.manifest.logNumber =
      some (headerFile x.manifest.logNumber x.manifest.lastSequence))
    (htables : ∀ n t, x.disk.tables.lookup n = some t → Names x.manifest.version n)
    (hdebris : ∀ n f, x.disk.logs.lookup n = some f → n ≤ x.manifest.logNumber) (clock : ℤ) :
    Started (x.serve clock) := by
  have hloaded := Disk.loaded_of_some hstored
  have hnamed := h.named
  have hwf := h.wellFormed
  rw [hloaded] at hnamed hwf
  refine ⟨⟨hwf, fun n t ht => hnamed n (htables n t ht), rfl, rfl, rfl, rfl, rfl, fun _ => rfl⟩,
    rfl, rfl, ?_, ⟨x.manifest.lastSequence, hm.sequence, rfl, hlog, ?_⟩, hdebris, ?_, fun _ => rfl,
    rfl, rfl⟩
  · change x.manifest.logNumber < x.manifest.nextFileNumber
    rw [hm.next]
    exact Nat.lt_succ_self _
  · change (Table.empty.insert _ _).lookup x.manifest.logNumber = _
    rw [Table.lookup_insert, if_pos rfl]
    rfl
  · intro n w hw
    change (Table.empty.insert _ _).lookup n = some w at hw
    rw [Table.lookup_insert] at hw
    split at hw
    · rename_i heq
      exact heq
    · cases hw

theorem phase_step (h : PhaseOk x.phase) (hstep : Step o sc policy x x') : PhaseOk x'.phase := by
  cases hstep with
  | truncate => exact diskOk_logs h _
  | load d clock past r hr hseq => exact ⟨diskOk_logs h _, ⟨rfl, rfl, Nat.le_succ _, hseq⟩, rfl⟩
  | header =>
    obtain ⟨hd, hm, hnext⟩ := h
    exact ⟨diskOk_logs hd _, ⟨hm.version, hm.next, hm.bound, hm.sequence⟩, hnext⟩
  | create x =>
    obtain ⟨hd, hm, hnext⟩ := h
    refine ⟨diskOk_logs hd _, ⟨hm.version, hm.next, hm.bound, hm.sequence⟩, hnext, ?_⟩
    change (x.disk.logs.insert _ _).lookup x.manifest.logNumber = _
    rw [Table.lookup_insert, if_pos rfl]
    rfl
  | store x =>
    obtain ⟨hd, hm, hnext, hlog⟩ := h
    have hversion := hm.version
    refine ⟨⟨?_, ?_, ?_⟩, ⟨rfl, hm.next, le_rfl, hm.sequence⟩, rfl, hlog⟩
    · change WellFormed x.disk.tables x.manifest.version
      rw [hversion]
      exact hd.wellFormed
    · intro n hn
      exact (hd.named n (hversion ▸ hn)).trans_le hm.bound
    · exact hm.next ▸ Nat.lt_succ_self _
  | removeTable x clock past n hn =>
    obtain ⟨hd, hm, hstored, hlog⟩ := h
    refine ⟨⟨?_, hd.named, hd.logNumber⟩, ⟨hm.version, hm.next, hm.bound, hm.sequence⟩, hstored,
      hlog⟩
    refine wellFormed_congr hd.wellFormed (fun k hk => ?_)
    change (x.disk.tables.erase n).lookup k = _
    rw [Table.lookup_erase, if_neg]
    rintro rfl
    exact hn (hm.version ▸ hk)
  | removeLog x clock past n =>
    obtain ⟨hd, hm, hstored, hlog⟩ := h
    refine ⟨diskOk_logs hd _, ⟨hm.version, hm.next, hm.bound, hm.sequence⟩, hstored, ?_⟩
    change (x.disk.logs.erase n).lookup x.manifest.logNumber = _
    rw [Table.lookup_erase, if_neg (by omega)]
    exact hlog
  | serve x clock later past hlater htables hdebris =>
    obtain ⟨hd, hm, hstored, hlog⟩ := h
    have hloaded := Disk.loaded_of_some hstored
    have hnamed := hd.named
    have hnumber := hd.logNumber
    rw [hloaded] at hnamed hnumber
    exact ⟨started_inv (started_serve hd hm hstored hlog htables hdebris later), hnamed, hnumber,
      le_rfl⟩
  | run s s' clock past hstep => exact ⟨inv_step h.1 hstep, storedOk_step h.1 h.2 hstep⟩
  | kill s d clock past hkill => exact diskOk_killed h.1 h.2 hkill
  | killOpen p x clock past hp =>
    rcases opening_cases hp with rfl | rfl | rfl
    · exact h.1
    · exact h.1
    · exact h.1

theorem phase_empty (clock : ℤ) : PhaseOk (empty clock).phase := by
  refine ⟨⟨Version.new_ordered, fun l f hf => ?_⟩, ?_, Nat.zero_lt_one⟩
  · change f ∈ Version.new.level l at hf
    rw [Version.level_new] at hf
    cases hf
  · rintro n ⟨l, f, hf, -⟩
    change f ∈ Version.new.level l at hf
    rw [Version.level_new] at hf
    cases hf

end RedisFromScratch.EngineRestarts
