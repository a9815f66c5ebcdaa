import RedisFromScratch.TreeSteps

/-!
The running tree is a map. A batch changes the content at its own keys, to the
last mutation of each; freezes and flushes move entries without changing it;
the install of a compaction changes nothing for readers at or after the times
the compaction read off the clock.
-/
namespace RedisFromScratch.TreeContents

open ByteStrings SortedTables NewestWins EngineTypes SsTables Versions LsmTree Compaction
open CompactionAgreement TreeRuns TreeInvariant TreeSteps Relation Runs

variable {F : Type} {o : Options} {sc : Scores F} {s s' : State}

/-- The entry of the newest memtable with the key. -/
def memEntry (s : State) (k : Bytes) : Option Entry := newest (memSources s.active s.immutable) k

def versionEntry (s : State) (k : Bytes) : Option Entry :=
  newest (versionSources s.files s.version) k

theorem content_eq (s : State) (k : Bytes) :
    s.tree.content k = (memEntry s k).or (versionEntry s k) := newest_append _ _ k

theorem memEntry_eq (s : State) (k : Bytes) : memEntry s k =
    (s.active.lookup k).or (newest (s.immutable.map (fun f => f.table.entries)) k) :=
  newest_cons _ _ k

theorem memEntry_append (s : State) (muts : List Mutation) (k : Bytes) :
    memEntry { s with active := s.active.insertAll (writes muts) } k =
      (lastWrite k (writes muts)).or (memEntry s k) := by
  rw [memEntry_eq, memEntry_eq, Table.lookup_insertAll, Option.or_assoc]

theorem memEntry_swapLog (s : State) (n : ℕ) (k : Bytes) :
    memEntry { s with
      active := Table.empty
      immutable := ⟨s.logNumber, s.active⟩ :: s.immutable
      logNumber := n
      freezing := none } k = memEntry s k := by
  rw [memEntry_eq, memEntry_eq, List.map_cons, newest_cons]
  rfl

theorem getLast_split {l : List Frozen} {f : Frozen} (h : l.getLast? = some f) :
    l.dropLast ++ [f] = l := by
  obtain ⟨ys, rfl⟩ := List.getLast?_eq_some_iff.mp h
  rw [List.dropLast_concat]

/-- The oldest frozen memtable answers last. -/
theorem memEntry_split {frozen : Frozen} (h : s.immutable.getLast? = some frozen) (k : Bytes) :
    memEntry s k = (newest (memSources s.active s.immutable.dropLast) k).or
      (frozen.table.lookup k) := by
  have hsources : memSources s.active s.immutable =
      memSources s.active s.immutable.dropLast ++ [frozen.table.entries] := by
    conv_lhs => rw [← getLast_split h]
    simp [memSources]
  rw [memEntry, hsources, newest_append, newest_cons, newest_nil, Option.or_none]
  rfl

/-- No step touches the files a version names, current or parked. -/
theorem lookup_step {a : Act} (h : Inv s) (hstep : Step o sc s a s') {n : ℕ} (hn : Named s n) :
    s'.files.lookup n = s.files.lookup n := by
  have hok := h.job
  have hunnamed : ¬ Named s s.nextFileNumber := fun hn => absurd (h.named_lt hn) (Nat.lt_irrefl _)
  cases hstep with
  | startFlush | openOutput => exact lookup_insert_named hunnamed n hn
  | finishTable m frozen t hjob =>
    rw [hjob] at hok
    exact lookup_insert_named hok.2.not_named n hn
  | discardTable m frozen t hjob =>
    rw [hjob] at hok
    rw [Table.lookup_erase, if_neg]
    rintro rfl
    exact hok.2.1.not_named hn
  | closeOutput plan now done m t todo hjob =>
    rw [hjob] at hok
    exact lookup_insert_named (hok.writing m rfl).1.not_named n hn
  | unlink m hdoomed =>
    rw [Table.lookup_erase, if_neg]
    rintro rfl
    exact h.named_not_doomed hn hdoomed
  | _ => rfl

/-- The version's part of the content moves only when a version is installed. -/
theorem versionEntry_step {a : Act} (h : Inv s) (hstep : Step o sc s a s')
    (hversion : s'.version = s.version) (k : Bytes) : versionEntry s' k = versionEntry s k := by
  rw [versionEntry, hversion]
  exact newest_version_congr h.wellFormed (fun n hn => lookup_step h hstep (Or.inl hn)) k

/-- What a step other than an install does to the content. -/
theorem content_of_version {a : Act} (h : Inv s) (hstep : Step o sc s a s')
    (hversion : s'.version = s.version) (k : Bytes) (hmem : memEntry s' k = memEntry s k) :
    s'.tree.content k = s.tree.content k := by
  rw [content_eq, content_eq, hmem, versionEntry_step h hstep hversion]

theorem content_append {muts : List Mutation} (h : Inv s)
    (hstep : Step o sc s (.append muts) s') (k : Bytes) :
    s'.tree.content k = (lastWrite k (writes muts)).or (s.tree.content k) := by
  have hversion : s'.version = s.version := by
    cases hstep
    rfl
  rw [content_eq, versionEntry_step h hstep hversion, content_eq, ← Option.or_assoc]
  congr 1
  cases hstep
  exact memEntry_append s muts k

/-- The table of a flushed memtable says what the memtable says. -/
theorem content_install_flush (h : Inv s) {next : Version} {frozen : Frozen}
    (hjob : s.job = .publishing next (.flush frozen)) (k : Bytes) :
    (memEntry s k).or (newest (versionSources s.files next) k) = s.tree.content k := by
  have hok := h.job
  rw [hjob] at hok
  obtain ⟨hlast, hnewest⟩ := hok.work
  rw [content_eq, hnewest k, memEntry_split hlast, versionEntry]
  cases newest (memSources s.active s.immutable.dropLast) k <;>
    cases frozen.table.lookup k <;> rfl

theorem content_pop (h : Inv s) {frozen : Frozen} (hjob : s.job = .retiring frozen) (k : Bytes) :
    (newest (memSources s.active s.immutable.dropLast) k).or (versionEntry s k) =
      s.tree.content k := by
  have hok := h.job
  rw [hjob] at hok
  obtain ⟨hlast, hin⟩ := hok
  rw [content_eq, memEntry_split hlast]
  cases newest (memSources s.active s.immutable.dropLast) k with
  | some => rfl
  | none =>
    cases hk : frozen.table.lookup k with
    | none => rfl
    | some e =>
      rw [versionEntry, hin k e hk]
      rfl

/-- Every step but a write leaves the content alone, for readers late enough. -/
theorem content_agrees {a : Act} (h : Inv s) (hstep : Step o sc s a s')
    (ha : ∀ muts, a ≠ .append muts) (now : ℤ)
    (hclock : ∀ next plan reads, a = .swapVersion →
      s.job = .publishing next (.compaction plan reads) → ∀ k, reads k ≤ now) (k : Bytes) :
    seen now (s'.tree.content k) = seen now (s.tree.content k) := by
  have hkeep := fun hversion hmem =>
    congrArg (seen now) (content_of_version h hstep hversion k hmem)
  cases hstep with
  | append muts => exact absurd rfl (ha muts)
  | swapLog n => exact hkeep rfl (memEntry_swapLog s n k)
  | swapVersion next w hjob =>
    have hok := h.job
    rw [hjob] at hok
    have hnew : State.tree { s with
        version := next
        installs := s.installs + 1
        job := .parking ⟨s.handle, w.retired⟩ w } = { s.tree with version := next } := rfl
    have hcontent : Tree.content { s.tree with version := next } k =
        (memEntry s k).or (newest (versionSources s.files next) k) := newest_append _ _ k
    rw [hnew, hcontent]
    cases w with
    | flush => rw [content_install_flush h hjob k]
    | compaction plan reads =>
      rw [content_eq]
      exact ((hok.work.2 now (hclock next plan reads rfl hjob) k).symm.under _) now le_rfl
  | popFrozen frozen hjob =>
    have hnew : State.tree { s with
        immutable := s.immutable.dropLast
        job := .retired frozen.logNumber (stillNeeded s.immutable.dropLast s.logNumber) } =
          { s.tree with immutable := s.immutable.dropLast } := rfl
    have hcontent : Tree.content { s.tree with immutable := s.immutable.dropLast } k =
        (newest (memSources s.active s.immutable.dropLast) k).or (versionEntry s k) :=
      newest_append _ _ k
    rw [hnew, hcontent, content_pop h hjob k]
  | _ => exact hkeep rfl rfl

/-- The tree refines a map. In every reachable state a point read is the logical
content at its time; a write changes the content at the keys of its batch, to
the last mutation of each; any step of a freeze, a flush or a compaction leaves
every read as it was, from the times the compaction read off the clock on; and
no chosen compaction fails. -/
theorem tree_refines_map (o : Options) (sc : Scores F) (s : State) (hreach : Reachable o sc s) :
    (∀ key now, s.tree.get key now = .ok (seen now (s.tree.content key))) ∧
    (∀ muts s', Step o sc s (.append muts) s' → ∀ key,
      s'.tree.content key = (lastWrite key (writes muts)).or (s.tree.content key)) ∧
    (∀ a s', Step o sc s a s' → (∀ muts, a ≠ .append muts) → ∀ key now,
      (∀ next plan reads, a = .swapVersion →
        s.job = .publishing next (.compaction plan reads) → ∀ k, reads k ≤ now) →
      s'.tree.get key now = s.tree.get key now) ∧
    (∀ plan now, pickCompaction o sc s.pointers s.version = some plan →
      ∃ outs, outputTables o s.files s.version plan now = .ok outs) ∧
    ∀ plan now done, s.job = .merging plan now done none [] →
      ∃ next, installVersion s.version plan (done.map outputMeta) = .ok next := by
  have hinv := inv_reachable hreach
  refine ⟨fun key now => Tree.get_eq_content hinv.wellFormed key now,
    fun muts s' hstep key => content_append hinv hstep key, ?_, ?_, ?_⟩
  · intro a s' hstep ha key now hclock
    have hget := Tree.get_eq_content (t := s.tree) hinv.wellFormed key now
    have hget' := Tree.get_eq_content (t := s'.tree) (inv_step hinv hstep).wellFormed key now
    rw [hget, hget', content_agrees hinv hstep ha now hclock]
  · intro plan now hpick
    obtain ⟨outs, houts, -⟩ :=
      outputTables_ok o hinv.wellFormed (pickCompaction_valid hpick) now
    exact ⟨outs, houts⟩
  · intro plan now done hjob
    have hok := hinv.job
    rw [hjob] at hok
    obtain ⟨next, hnext, -⟩ := install_ok hinv.wellFormed hok.valid (written_of_mergeOk hok)
    exact ⟨next, hnext⟩

/-- A write in a fresh directory, read back. -/
theorem write_reads_back : ∃ s, Reachable eagerOptions wholeScores s ∧
    s.tree.get [107] 0 = .ok (some ⟨[118], 0⟩) := by
  have hreach : Reachable eagerOptions wholeScores (oneWrite 0 [⟨[107], .put ⟨[118], 0⟩⟩]) :=
    ⟨init 0, init_opened 0, oneWrite_reachable 0 _⟩
  refine ⟨_, hreach, ?_⟩
  rw [(tree_refines_map eagerOptions wholeScores _ hreach).1]
  rfl

/-- What a step writes. -/
def written : Act → List Mutation
  | .append muts => muts
  | _ => []

/-- The states of a run with all that has been written in it, in order. -/
inductive Wrote (o : Options) (sc : Scores F) (s₀ : State) : List Mutation → State → Prop
  | start : Wrote o sc s₀ [] s₀
  | step {muts : List Mutation} {s s' : State} {a : Act} (h : Wrote o sc s₀ muts s)
      (hstep : Step o sc s a s') : Wrote o sc s₀ (muts ++ written a) s'

/-- A step does to the content what it writes, for readers from its time on. -/
theorem content_step {a : Act} (h : Inv s) (hstep : Step o sc s a s') (k : Bytes) :
    s.clock ≤ s'.clock ∧ Agrees s'.clock (s'.tree.content k)
      ((lastWrite k (writes (written a))).or (s.tree.content k)) := by
  have hle : s.clock ≤ s'.clock := by
    cases hstep with
    | tick later hle => exact hle
    | _ => exact le_rfl
  refine ⟨hle, ?_⟩
  by_cases ha : ∃ muts, a = .append muts
  · obtain ⟨muts, rfl⟩ := ha
    exact .of_eq (content_append h hstep k)
  · have hnone : written a = [] := by
      cases a with
      | append muts => exact absurd ⟨muts, rfl⟩ ha
      | _ => rfl
    rw [hnone]
    refine fun now hnow => content_agrees h hstep (fun muts hmuts => ha ⟨muts, hmuts⟩) now ?_ k
    intro next plan reads _ hjob k
    have hok := h.job
    rw [hjob] at hok
    exact (hok.work.1 k).trans (hle.trans hnow)

/-- In every state of every run a read answers with the last write to its key, or with
what was there at the start, as it is at the time of the read. -/
theorem reads_last_write (o : Options) (sc : Scores F) (s₀ s : State) (muts : List Mutation)
    (h₀ : Opened s₀) (hrun : Wrote o sc s₀ muts s) (key : Bytes) (now : ℤ)
    (hnow : s.clock ≤ now) : s.tree.get key now =
      .ok (seen now ((lastWrite key (writes muts)).or (s₀.tree.content key))) := by
  have hall : Inv s ∧ ∀ k, Agrees s.clock (s.tree.content k)
      ((lastWrite k (writes muts)).or (s₀.tree.content k)) := by
    clear hnow
    induction hrun with
    | start => exact ⟨inv_opened h₀, fun k => .refl _ _⟩
    | step _ hstep ih =>
      obtain ⟨hinv, hcontent⟩ := ih
      refine ⟨inv_step hinv hstep, fun k => ?_⟩
      obtain ⟨hle, hagrees⟩ := content_step hinv hstep k
      rw [writes_append, lastWrite_append, Option.or_assoc]
      exact hagrees.trans (((hcontent k).mono hle).under _)
  rw [Tree.get_eq_content hall.1.wellFormed, hall.2 key now hnow]

/-- The second of two writes is read. -/
theorem second_write_read : ∃ s, Wrote eagerOptions wholeScores (init 0)
    [⟨[107], .put ⟨[118], 0⟩⟩, ⟨[107], .delete⟩] s ∧ s.tree.get [107] 5 = .ok none := by
  have hfirst : Wrote eagerOptions wholeScores (init 0) _ _ :=
    .step .start (.append _ [⟨[107], .put ⟨[118], 0⟩⟩] rfl)
  have hrun := hfirst.step (.append _ [⟨[107], .delete⟩] rfl)
  exact ⟨_, hrun, reads_last_write _ _ _ _ _ (init_opened 0) hrun [107] 5 (by decide)⟩

end RedisFromScratch.TreeContents
