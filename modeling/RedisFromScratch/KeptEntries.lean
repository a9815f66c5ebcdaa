import RedisFromScratch.TreeContents

/-!
What the background work may do to the entry of a key, at whatever time it is
read. Freezes and flushes move it. A compaction keeps it, or drops it together
with everything below it, so that a key whose entry is gone never gets an older
one back.
-/
namespace RedisFromScratch.KeptEntries

open ByteStrings SortedTables NewestWins EngineTypes SsTables Versions LsmTree Compaction
open CompactionAgreement TreeRuns TreeInvariant TreeSteps TreeContents Relation Runs

variable {F : Type} {o : Options} {sc : Scores F} {s s' : State} {a : Act}

/-- The version a compaction is about to install has the entry of the current
one for a key, or none. -/
def Dropping (s : State) : Prop :=
  ∀ next plan now, s.job = .publishing next (.compaction plan now) → ∀ k,
    newest (versionSources s.files next) k = versionEntry s k ∨
      newest (versionSources s.files next) k = none

theorem dropping_opened (h : Opened s) : Dropping s := by
  intro next plan now hjob
  rw [h.job] at hjob
  cases hjob

theorem dropping_publishCompaction (h : Inv s) {plan : Plan} {now : Bytes → ℤ}
    {done : List (ℕ × SsTable)} {next : Version} (hjob : s.job = .merging plan now done none [])
    (hnext : installVersion s.version plan (done.map outputMeta) = .ok next) :
    Dropping { s with job := .publishing next (.compaction plan now) } := by
  intro next' plan' now' hjob' k
  cases hjob'
  have hok := h.job
  rw [hjob] at hok
  have hw := written_of_mergeOk hok
  obtain ⟨v, hv, hwf, hperm, hother⟩ := install_ok h.wellFormed hok.valid hw
  obtain rfl : v = next := by
    rw [hnext] at hv
    exact (Except.ok.inj hv).symm
  exact install_keeps_or_drops h.wellFormed hok.valid hw hwf hperm hother k

theorem dropping_unlink (h : Inv s) (hd : Dropping s) {n : ℕ} (hdoomed : n ∈ s.doomed)
    (hstep : Step o sc s .unlink
      { s with files := s.files.erase n, doomed := s.doomed.erase n }) :
    Dropping { s with files := s.files.erase n, doomed := s.doomed.erase n } := by
  intro next plan now hjob k
  have hok := h.job
  rw [show s.job = _ from hjob] at hok
  have hsame : ∀ m, Names next m → (s.files.erase n).lookup m = s.files.lookup m := by
    intro m hm
    rcases hok.names m hm with hold | hnew
    · exact lookup_step h hstep (Or.inl hold)
    · rw [Table.lookup_erase, if_neg]
      rintro rfl
      exact hnew.doomed hdoomed
  rw [versionEntry_step h hstep rfl]
  rw [newest_version_congr hok.wellFormed hsame]
  exact hd next plan now hjob k

theorem dropping_step (h : Inv s) (hd : Dropping s) (hstep : Step o sc s a s') : Dropping s' := by
  have hstep' := hstep
  cases hstep with
  | publishCompaction plan now done next hjob hclock hnext =>
    exact dropping_publishCompaction h hjob hnext
  | unlink n hdoomed => exact dropping_unlink h hd hdoomed hstep'
  | park p w hjob =>
    intro next plan now hnew
    cases w <;> cases hnew
  | startFlush | finishTable | discardTable | publishFlush | startCompaction | openOutput
  | closeOutput | swapVersion | popFrozen | storeLogNumber | forgetLogs =>
    intro next plan now hnew
    cases hnew
  | _ => exact hd

theorem dropping_reachable (h : Reachable o sc s) : Dropping s := by
  obtain ⟨s₀, h₀, hrun⟩ := h
  have hboth := run_preserves (fun s => Inv s ∧ Dropping s)
    (fun s s' hs hstep => hstep.elim (fun _ hstep =>
      ⟨inv_step hs.1 hstep, dropping_step hs.1 hs.2 hstep⟩))
    hrun ⟨inv_opened h₀, dropping_opened h₀⟩
  exact hboth.2

/-- Every step but a write keeps the entry of a key or leaves the key without one. -/
theorem content_kept (h : Inv s) (hd : Dropping s) (hstep : Step o sc s a s')
    (ha : ∀ muts, a ≠ .append muts) (k : Bytes) :
    s'.tree.content k = s.tree.content k ∨ s'.tree.content k = none := by
  have hkeep := fun hversion hmem => Or.inl (b := s'.tree.content k = none)
    (content_of_version h hstep hversion k hmem)
  cases hstep with
  | append muts => exact absurd rfl (ha muts)
  | swapLog n => exact hkeep rfl (memEntry_swapLog s n k)
  | swapVersion next w hjob =>
    have hnew : Tree.content { s.tree with version := next } k =
        (memEntry s k).or (newest (versionSources s.files next) k) := newest_append _ _ k
    change Tree.content { s.tree with version := next } k = _ ∨
      Tree.content { s.tree with version := next } k = none
    rw [hnew]
    cases w with
    | flush => exact Or.inl (content_install_flush h hjob k)
    | compaction plan now =>
      rw [content_eq]
      cases memEntry s k with
      | some => exact Or.inl rfl
      | none => exact hd next plan now hjob k
  | popFrozen frozen hjob =>
    have hnew : Tree.content { s.tree with immutable := s.immutable.dropLast } k =
        (newest (memSources s.active s.immutable.dropLast) k).or (versionEntry s k) :=
      newest_append _ _ k
    exact Or.inl (hnew.trans (content_pop h hjob k))
  | _ => exact hkeep rfl rfl

end RedisFromScratch.KeptEntries
