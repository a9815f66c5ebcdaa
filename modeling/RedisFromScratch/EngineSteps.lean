import Mathlib.Data.List.Chain
import RedisFromScratch.EngineInvariant

/-!
Every step of the engine keeps the layout of its directory. A freeze completes
the current log before another one becomes current; the log a flush retires is
the oldest one; and the files a retirement removes are below the number it
stored.
-/
namespace RedisFromScratch.EngineSteps

open ByteStrings SortedTables NewestWins EngineTypes EngineLogs EngineWal SsTables Versions LsmTree
open Compaction TreeContents EngineRuns EngineInvariant Relation Runs

variable {F : Type} {o : Options} {sc : Scores F} {policy : SyncPolicy} {s s' : State}

section Trees

variable {t t' : TreeRuns.State}

/-- What the tree keeps while the logs stay as they are. -/
structure Keeps (t t' : TreeRuns.State) : Prop where
  logNumber : t'.logNumber = t.logNumber
  active : t'.active = t.active
  freezing : t'.freezing = t.freezing
  next : t.nextFileNumber ≤ t'.nextFileNumber
  stored : storedVersion t' = storedVersion t

theorem keeps_of_quiet {a : TreeRuns.Act} (ha : Quiet a) (hstep : TreeRuns.Step o sc t a t') :
    Keeps t t' := by
  cases hstep with
  | append | allocateLog | swapLog | publishFlush | publishCompaction | storeLogNumber
  | forgetLogs => exact absurd ha id
  | startFlush frozen hjob | openOutput plan now done todo hjob =>
    exact ⟨rfl, rfl, rfl, Nat.le_succ _, by simp only [storedVersion, hjob]⟩
  | park p w hjob =>
    refine ⟨rfl, rfl, rfl, le_rfl, ?_⟩
    cases w <;> simp only [storedVersion, hjob, TreeRuns.Work.next]
  | finishTable n frozen tab hjob | discardTable n frozen tab hjob
  | startCompaction plan now outs hjob | closeOutput plan now done n tab todo hjob
  | swapVersion next w hjob | popFrozen frozen hjob =>
    exact ⟨rfl, rfl, rfl, le_rfl, by simp only [storedVersion, hjob]⟩
  | _ => exact ⟨rfl, rfl, rfl, le_rfl, rfl⟩

/-- A quiet step other than the pop of a flushed memtable neither retires a log
nor moves a memtable. -/
theorem job_of_quiet {a : TreeRuns.Act} (ha : Quiet a) (hpop : a ≠ .popFrozen)
    (hstep : TreeRuns.Step o sc t a t') : t'.immutable = t.immutable ∧
      ((t'.job = t.job ∧ t'.version = t.version) ∨ ((∀ n m, t.job ≠ .retired n m) ∧
        (∀ n m, t'.job ≠ .retired n m) ∧ ∀ n m, t'.job ≠ .forgetting n m)) := by
  cases hstep with
  | append | allocateLog | swapLog | publishFlush | publishCompaction | storeLogNumber
  | forgetLogs => exact absurd ha id
  | popFrozen => exact absurd rfl hpop
  | park p w hjob =>
    refine ⟨rfl, Or.inr ⟨?_, ?_, ?_⟩⟩
    · rw [hjob]
      exact fun _ _ => nofun
    · cases w <;> exact fun _ _ => nofun
    · cases w <;> exact fun _ _ => nofun
  | startFlush frozen hjob | openOutput plan now done todo hjob | finishTable n frozen tab hjob
  | discardTable n frozen tab hjob | startCompaction plan now outs hjob
  | closeOutput plan now done n tab todo hjob | swapVersion next w hjob =>
    exact ⟨rfl, Or.inr ⟨by rw [hjob]; exact fun _ _ => nofun, fun _ _ => nofun, fun _ _ => nofun⟩⟩
  | _ => exact ⟨rfl, Or.inl ⟨rfl, rfl⟩⟩

theorem poppedOk_of_not_retired {popped rest : List Segment} (h : ∀ n m, t.job ≠ .retired n m) :
    PoppedOk t popped rest ↔ popped = [] := by
  unfold PoppedOk
  split
  · rename_i n m hjob
    exact absurd hjob (h n m)
  · exact Iff.rfl

/-- Nothing moves in the layout while the popped memtable's entries stay on top. -/
theorem poppedOk_keep {popped rest : List Segment} (h : PoppedOk t popped rest)
    (hjob : t'.job = t.job) (hentry : ∀ k, versionEntry t' k = versionEntry t k) :
    PoppedOk t' popped rest := by
  unfold PoppedOk at h ⊢
  rw [hjob]
  split
  · rename_i n m heq
    rw [heq] at h
    obtain ⟨g, hg, hhead, hin⟩ := h
    exact ⟨g, hg, hhead, fun k e hk => (hentry k).trans (hin k e hk)⟩
  · rename_i hne
    split at h
    · rename_i n m heq
      exact absurd heq (hne n m)
    · exact h

end Trees

/-- The tree moves, the directory does not. -/
theorem LogInv.retree (h : LogInv s) {t : TreeRuns.State} (ht : TreeInvariant.Inv t)
    (hk : Keeps s.tree t)
    (hlayout : ∃ popped rest, s.live = popped ++ rest ∧ rest.map Segment.frozen =
      t.immutable.reverse ++ [⟨s.tree.logNumber, s.tree.active⟩] ∧ PoppedOk t popped rest)
    (hforget : ∀ n m, t.job = .forgetting n m → m = s.stored.logNumber) :
    LogInv { s with tree := t } := by
  refine ⟨ht, ?_, ?_, h.ordered, h.chained, h.oldest, ?_, ?_, ?_, ?_, ?_, hforget⟩
  · dsimp only
    rw [hk.logNumber, hk.active]
    exact hlayout
  · dsimp only
    rw [hk.logNumber, hk.freezing]
    exact h.backed
  · exact fun g hg => (h.numbers g hg).trans_le hk.next
  · intro n hn
    rw [hk.freezing] at hn
    obtain ⟨hlt, hnew, hcreated⟩ := h.freezing n hn
    exact ⟨hlt.trans_le hk.next, hnew, hcreated⟩
  · dsimp only
    rw [hk.freezing]
    exact h.files
  · exact fun n w hw => (h.opened n w hw).trans_le hk.next
  · exact h.version.trans hk.stored.symm

/-- The oldest memtable leaves once its table is in the version. -/
theorem layout_pop (h : LogInv s) {frozen : Frozen} (hjob : s.tree.job = .retiring frozen) :
    ∃ popped rest, s.live = popped ++ rest ∧ rest.map Segment.frozen =
      s.tree.immutable.dropLast.reverse ++ [⟨s.tree.logNumber, s.tree.active⟩] ∧
      PoppedOk { s.tree with
        immutable := s.tree.immutable.dropLast
        job := .retired frozen.logNumber
          (TreeRuns.stillNeeded s.tree.immutable.dropLast s.tree.logNumber) } popped rest := by
  obtain ⟨popped, rest, hlive, hmem, hpopped⟩ := h.layout
  rw [poppedOk_of_not_retired (by rw [hjob]; exact fun _ _ => nofun)] at hpopped
  have hok := h.tree.job
  rw [hjob] at hok
  obtain ⟨hlast, hin⟩ := hok
  have hsplit := getLast_split hlast
  generalize s.tree.immutable.dropLast = older at hsplit ⊢
  rw [← hsplit, List.reverse_append, List.reverse_singleton, List.singleton_append,
    List.cons_append] at hmem
  obtain ⟨g, rest', rfl, hg, hrest⟩ := List.map_eq_cons_iff.mp hmem
  refine ⟨[g], rest', by rw [hlive, hpopped]; rfl, hrest, g, rfl, ?_, ?_⟩
  · have hhead := congrArg (fun l => (l.head?).map Frozen.logNumber) hrest
    simp only [List.head?_map, Option.map_map] at hhead
    rw [show (Frozen.logNumber ∘ Segment.frozen) = Segment.number from rfl] at hhead
    rw [hhead, List.head?_append, List.head?_reverse, TreeRuns.stillNeeded]
    cases older.getLast? <;> rfl
  · intro k e hk
    exact hin k e (by rw [← hg]; exact hk)

theorem inv_quiet (h : LogInv s) {a : TreeRuns.Act} {t : TreeRuns.State} (ha : Quiet a)
    (htree : TreeRuns.Step o sc s.tree a t) : LogInv { s with tree := t } := by
  have ht := TreeSteps.inv_step h.tree htree
  have hk := keeps_of_quiet ha htree
  by_cases hpop : a = .popFrozen
  · subst hpop
    cases htree with
    | popFrozen frozen hjob =>
      exact LogInv.retree h ht hk (layout_pop h hjob) (fun n m hf => by cases hf)
  obtain ⟨himm, hjob⟩ := job_of_quiet ha hpop htree
  obtain ⟨popped, rest, hlive, hmem, hpopped⟩ := h.layout
  rcases hjob with ⟨hjob, hversion⟩ | ⟨hbefore, hafter, hforget⟩
  · refine LogInv.retree h ht hk ⟨popped, rest, hlive, by rw [himm]; exact hmem, ?_⟩ ?_
    · exact poppedOk_keep hpopped hjob (fun k => versionEntry_step h.tree htree hversion k)
    · rw [hjob]
      exact h.forgetting
  · refine LogInv.retree h ht hk ⟨popped, rest, hlive, by rw [himm]; exact hmem, ?_⟩ ?_
    · exact (poppedOk_of_not_retired hafter).mpr ((poppedOk_of_not_retired hbefore).mp hpopped)
    · exact fun n m hf => absurd hf (hforget n m)

section Record

theorem record_concat (muts : List Mutation) (l : List Segment) (g : Segment) :
    record muts (l ++ [g]) = l ++ [{ g with batches := g.batches ++ [muts] }] := by
  induction l with
  | nil => rfl
  | cons g₀ l ih =>
    cases l with
    | nil => rfl
    | cons => exact congrArg (List.cons g₀) ih

theorem table_record (g : Segment) (muts : List Mutation) :
    Segment.table { g with batches := g.batches ++ [muts] } =
      (Segment.table g).insertAll (writes muts) := by
  simp only [Segment.table, List.flatten_append, List.flatten_singleton, writes, List.map_append,
    Table.insertAll, List.foldl_append]

/-- A batch changes nothing of the segments but the batches of the last one. -/
theorem map_record {α : Type*} (v : Segment → α)
    (hv : ∀ g batches, v { g with batches := batches } = v g) (muts : List Mutation)
    (gs : List Segment) : (record muts gs).map v = gs.map v := by
  rcases List.eq_nil_or_concat gs with rfl | ⟨l, g, rfl⟩
  · rfl
  · rw [List.concat_eq_append, record_concat, List.map_append, List.map_append, List.map_singleton,
      List.map_singleton, hv]

theorem mem_record {muts : List Mutation} {gs : List Segment} {g : Segment}
    (h : g ∈ record muts gs) : ∃ g' ∈ gs, g'.number = g.number ∧ g'.start = g.start ∧
      g'.base = g.base := by
  rcases List.eq_nil_or_concat gs with rfl | ⟨l, g₀, rfl⟩
  · cases h
  · rw [List.concat_eq_append, record_concat] at h
    rcases List.mem_append.mp h with hold | hlast
    · exact ⟨g, by simp [hold], rfl, rfl, rfl⟩
    · rw [List.mem_singleton] at hlast
      subst hlast
      exact ⟨g₀, by simp, rfl, rfl, rfl⟩

theorem record_mem (muts : List Mutation) {gs : List Segment} {g : Segment} (h : g ∈ gs) :
    ∃ g' ∈ record muts gs, g'.number = g.number ∧ g'.start = g.start ∧
      g.batches.length ≤ g'.batches.length := by
  rcases List.eq_nil_or_concat gs with rfl | ⟨l, g₀, rfl⟩
  · cases h
  · rw [List.concat_eq_append] at h ⊢
    rw [record_concat]
    rcases List.mem_append.mp h with hold | hlast
    · exact ⟨g, List.mem_append_left _ hold, rfl, rfl, le_rfl⟩
    · rw [List.mem_singleton] at hlast
      subst hlast
      refine ⟨_, List.mem_append_right _ (List.mem_singleton_self _), rfl, rfl, ?_⟩
      rw [List.length_append]
      exact Nat.le_add_right _ _

theorem chained_record {gs : List Segment}
    (h : gs.IsChain (fun a b => b.start = a.start + a.batches.length)) (muts : List Mutation) :
    (record muts gs).IsChain (fun a b => b.start = a.start + a.batches.length) := by
  rcases List.eq_nil_or_concat gs with rfl | ⟨l, g, rfl⟩
  · exact h
  · rw [List.concat_eq_append] at h ⊢
    rw [record_concat]
    rw [List.isChain_append] at h ⊢
    refine ⟨h.1, .singleton _, fun a ha b hb => ?_⟩
    cases hb
    exact h.2.2 a ha g rfl

theorem backs_append {w w' : Wal} {f : LogFile} {g : Segment} {muts : List Mutation}
    (hb : Backs w f g) (happend : w.append muts = some w') (hfits : BatchFits muts)
    (hseq : w.nextSeq + 1 < 2 ^ 64) : Backs w' f { g with batches := g.batches ++ [muts] } := by
  have hnumber : w'.number = w.number := by
    unfold Wal.append at happend
    split at happend
    · cases happend
    · cases happend
      rfl
  have hnext := hb.holds.next
  refine ⟨hnumber.trans hb.number, hb.holds.append happend, ?_, ?_⟩
  · intro b hbm
    rcases List.mem_append.mp hbm with hold | hone
    · exact hb.fits b hold
    · exact List.mem_singleton.mp hone ▸ hfits
  · dsimp only at hnext ⊢
    rw [List.length_append, List.length_singleton]
    omega

end Record

/-- The newest segment, and where the layout has it. -/
theorem LogInv.split (h : LogInv s) : ∃ popped rest g, s.live = popped ++ rest ++ [g] ∧
    rest.map Segment.frozen = s.tree.immutable.reverse ∧
    g.number = s.tree.logNumber ∧ Segment.table g = s.tree.active ∧
    PoppedOk s.tree popped (rest ++ [g]) := by
  obtain ⟨popped, rest, hlive, hmem, hpopped⟩ := h.layout
  obtain ⟨l, r, rfl, himm, hlast⟩ := List.map_eq_append_iff.mp hmem
  obtain ⟨g, rfl, hg⟩ := List.map_eq_singleton_iff.mp hlast
  refine ⟨popped, l, g, by rw [hlive, List.append_assoc], himm, ?_, ?_, hpopped⟩
  · exact congrArg Frozen.logNumber hg
  · exact congrArg Frozen.table hg

/-- The numbers at the head of a list of segments do not depend on its last batches. -/
theorem head_number_concat {l : List Segment} {g g' : Segment} (h : g'.number = g.number) :
    (l ++ [g']).head?.map Segment.number = (l ++ [g]).head?.map Segment.number := by
  cases l with
  | nil => exact congrArg some h
  | cons => rfl

theorem poppedOk_head {t : TreeRuns.State} {popped rest rest' : List Segment}
    (h : PoppedOk t popped rest)
    (hhead : rest'.head?.map Segment.number = rest.head?.map Segment.number) :
    PoppedOk t popped rest' := by
  unfold PoppedOk at h ⊢
  split
  · rename_i n m hjob
    rw [hjob] at h
    obtain ⟨g, hg, hm, hin⟩ := h
    exact ⟨g, hg, hhead.trans hm, hin⟩
  · rename_i hne
    split at h
    · rename_i n m hjob
      exact absurd hjob (hne n m)
    · exact h

theorem inv_append (h : LogInv s) {muts : List Mutation} {t : TreeRuns.State} {w w' : Wal}
    (htree : TreeRuns.Step o sc s.tree (.append muts) t)
    (hwal : s.wals.lookup s.tree.logNumber = some w) (happend : w.append muts = some w')
    (hfits : BatchFits muts) (hseq : w.nextSeq + 1 < 2 ^ 64) (writer : ℕ → EngineRuns.Writer) :
    LogInv { s with
      tree := t
      wals := s.wals.insert s.tree.logNumber w'
      writer := writer
      live := record muts s.live } := by
  have ht := TreeSteps.inv_step h.tree htree
  obtain ⟨popped, rest, g, hlive, hmem, hnumber, htable, hpopped⟩ := LogInv.split h
  have hg : g ∈ s.live := by simp [hlive]
  have hrecord := record_concat muts (popped ++ rest) g
  rw [← hlive] at hrecord
  have hnumbers : (record muts s.live).map Segment.number = s.live.map Segment.number :=
    map_record _ (fun _ _ => rfl) muts s.live
  cases htree with
  | append _ hlock =>
    refine ⟨ht, ?_, ?_, ?_, chained_record h.chained muts, ?_, ?_, ?_, ?_, ?_, h.version,
      h.forgetting⟩
    · refine ⟨popped, rest ++ [{ g with batches := g.batches ++ [muts] }], ?_, ?_, ?_⟩
      · exact hrecord.trans (List.append_assoc _ _ _)
      · rw [List.map_append, hmem, List.map_singleton, Segment.frozen, table_record, htable]
        exact congrArg (fun n => s.tree.immutable.reverse ++ [Frozen.mk n _]) hnumber
      · exact poppedOk_head (poppedOk_keep hpopped rfl (fun _ => rfl)) (head_number_concat rfl)
    · intro g' hg'
      rw [hrecord] at hg'
      rcases List.mem_append.mp hg' with hold | hnewest
      · have hordered := h.ordered
        rw [hlive] at hordered
        have hlt := (List.pairwise_append.mp hordered).2.2 g' hold g (List.mem_singleton_self g)
        obtain ⟨w₁, f₁, hw₁, hf₁, hb, hc⟩ := h.backed g' (hlive ▸ List.mem_append_left _ hold)
        refine ⟨w₁, f₁, ?_, hf₁, hb, hc⟩
        rw [Table.lookup_insert, if_neg (by omega)]
        exact hw₁
      · rw [List.mem_singleton] at hnewest
        subst hnewest
        obtain ⟨w₁, f₁, hw₁, hf₁, hb, -⟩ := h.backed g hg
        rw [hnumber, hwal] at hw₁
        cases hw₁
        refine ⟨w', f₁, ?_, hf₁, backs_append hb happend hfits hseq, ?_⟩
        · dsimp only
          rw [Table.lookup_insert, if_pos hnumber]
        · rintro (hne | hfreezing)
          · exact absurd hnumber hne
          · exact absurd hlock hfreezing
    · refine List.pairwise_map.mp ?_
      rw [hnumbers]
      exact List.pairwise_map.mpr h.ordered
    · dsimp only
      rw [← List.head?_map, hnumbers, List.head?_map]
      exact h.oldest
    · intro g' hg'
      obtain ⟨g₁, hg₁, hn, -⟩ := mem_record hg'
      rw [← hn]
      exact h.numbers g₁ hg₁
    · intro n hn
      exact absurd hn (by rw [hlock]; exact nofun)
    · intro n f hf hle
      rcases h.files n f hf hle with ⟨g₁, hg₁, hn⟩ | hn
      · obtain ⟨g', hg', hn', -⟩ := record_mem muts hg₁
        exact Or.inl ⟨g', hg', hn'.trans hn⟩
      · exact Or.inr hn
    · intro n w₁ hw₁
      rw [Table.lookup_insert] at hw₁
      split at hw₁
      · rename_i heq
        rw [heq]
        exact h.opened _ w hwal
      · exact h.opened n w₁ hw₁

/-- Where the writers are does not matter to the directory. -/
theorem LogInv.writers (h : LogInv s) (writer : ℕ → EngineRuns.Writer) (acked : List (ℕ × ℕ)) :
    LogInv { s with writer := writer, acked := acked } :=
  ⟨h.tree, h.layout, h.backed, h.ordered, h.chained, h.oldest, h.numbers, h.freezing, h.files,
    h.opened, h.version, h.forgetting⟩

theorem LogInv.runCommit (h : LogInv s) (policy : SyncPolicy) (handle seq : ℕ) :
    LogInv (s.runCommit policy handle seq) := by
  unfold State.runCommit
  split
  · exact h
  · exact h.runOp handle _

theorem inv_freeze (h : LogInv s) {t : TreeRuns.State}
    (htree : TreeRuns.Step o sc s.tree .allocateLog t) :
    LogInv { s.runOp s.tree.logNumber .flush with tree := t } := by
  have ht := TreeSteps.inv_step h.tree htree
  have hop := h.runOp s.tree.logNumber .flush
  have htr := runOp_tree s s.tree.logNumber .flush
  have hlive := runOp_live s s.tree.logNumber .flush
  have hlayout := hop.layout
  have hversion := hop.version
  have hforget := hop.forgetting
  have hnumbers := hop.numbers
  have hopened := hop.opened
  have hfiles := hop.files
  rw [htr] at hlayout hversion hforget hnumbers hopened hfiles
  cases htree with
  | allocateLog hlock =>
    refine ⟨ht, ?_, ?_, hop.ordered, hop.chained, hop.oldest, ?_, ?_, ?_, ?_, hversion, hforget⟩
    · obtain ⟨popped, rest, hsplit, hmem, hpopped⟩ := hlayout
      exact ⟨popped, rest, hsplit, hmem, poppedOk_keep hpopped rfl (fun _ => rfl)⟩
    · intro g hg
      dsimp only at hg
      obtain ⟨w, f, hw, hf, hb, hc⟩ := h.backed g (hlive ▸ hg)
      rcases runOp_lookup s s.tree.logNumber .flush g.number with
        ⟨hm, w', f', hw', hf', hwal, hfile⟩ | ⟨hwal, hfile, hno⟩
      · rw [← hm, hw] at hw'
        rw [← hm, hf] at hf'
        cases hw'
        cases hf'
        exact ⟨_, _, hwal, hfile, (hb.run .flush).1, fun _ => hb.complete_flush⟩
      · refine ⟨w, f, hwal.trans hw, hfile.trans hf, hb, fun _ => hc (Or.inl fun hm => ?_)⟩
        rcases hno hm with hnone | hnone
        · rw [← hm, hw] at hnone
          cases hnone
        · rw [← hm, hf] at hnone
          cases hnone
    · exact fun g hg => (hnumbers g hg).trans (Nat.lt_succ_self _)
    · intro n hn
      cases hn
      refine ⟨Nat.lt_succ_self _, hnumbers, ?_, fun f hf => ?_⟩
      · cases hw : (s.runOp s.tree.logNumber .flush).wals.lookup s.tree.nextFileNumber with
        | none => rfl
        | some w => exact absurd (hopened _ w hw) (Nat.lt_irrefl _)
      · obtain ⟨l, g, hl, -⟩ := hop.newest
        have hg : g ∈ (s.runOp s.tree.logNumber .flush).live := by simp [hl]
        rcases hfiles _ f hf ((hop.low hg).trans (hnumbers g hg).le) with ⟨g', hg', hn⟩ | hn
        · exact absurd (hnumbers g' hg') (by omega)
        · rw [hlock] at hn
          cases hn
    · intro n f hf hle
      rcases hfiles n f hf hle with hin | hn
      · exact Or.inl hin
      · rw [hlock] at hn
        cases hn
    · exact fun n w hw => (hopened n w hw).trans (Nat.lt_succ_self _)

theorem inv_create (h : LogInv s) {n : ℕ} {w : Wal} {d : Bytes}
    (hfreezing : s.tree.freezing = some n) (hwal : s.wals.lookup s.tree.logNumber = some w)
    (hd : d <+: encodeHeader n w.lastAppended) :
    LogInv { s with logs := s.logs.insert n ⟨d, 0⟩ } := by
  refine ⟨h.tree, h.layout, ?_, h.ordered, h.chained, h.oldest, h.numbers, ?_, ?_,
    h.opened, h.version, h.forgetting⟩
  · intro g hg
    obtain ⟨w, f', hw, hf', hb, hc⟩ := h.backed g hg
    refine ⟨w, f', hw, ?_, hb, hc⟩
    have hlt := (h.freezing n hfreezing).2.1 g hg
    rw [Table.lookup_insert, if_neg (by omega)]
    exact hf'
  · intro m hm
    rw [hfreezing] at hm
    cases hm
    obtain ⟨hlt, hnew, hnone, -⟩ := h.freezing n hfreezing
    refine ⟨hlt, hnew, hnone, fun f hf => ?_⟩
    rw [Table.lookup_insert, if_pos rfl] at hf
    cases hf
    obtain ⟨l, g, hl, hnumber, -⟩ := h.newest
    obtain ⟨w', f', hw', -, hb, -⟩ := h.backed g (by simp [hl])
    rw [hnumber, hwal] at hw'
    cases hw'
    have hlast := hb.holds.last
    have hbound := hb.bound
    exact ⟨w.lastAppended, by dsimp only at hlast; omega, hd⟩
  · intro m f' hf' hle
    rw [Table.lookup_insert] at hf'
    split at hf'
    · rename_i heq
      exact Or.inr (heq ▸ hfreezing)
    · exact h.files m f' hf' hle

theorem inv_swapLog (h : LogInv s) {n : ℕ} {w : Wal} {t : TreeRuns.State}
    (hfreezing : s.tree.freezing = some n) (htree : TreeRuns.Step o sc s.tree .swapLog t)
    (hwal : s.wals.lookup s.tree.logNumber = some w) :
    LogInv { s with
      tree := t
      logs := s.logs.insert n (headerFile n w.lastAppended)
      wals := s.wals.insert n (Wal.create n w.lastAppended)
      live := s.live ++ [⟨n, w.lastAppended, [], Table.empty⟩] } := by
  have ht := TreeSteps.inv_step h.tree htree
  obtain ⟨popped, rest, g, hlive, hmem, hnumber, htable, hpopped⟩ := LogInv.split h
  have hg : g ∈ s.live := by simp [hlive]
  obtain ⟨w₀, f₀, hw₀, -, hb₀, -⟩ := h.backed g hg
  rw [hnumber, hwal] at hw₀
  cases hw₀
  have hlast := hb₀.holds.last
  have hbound := hb₀.bound
  obtain ⟨hlt, hnew, -⟩ := h.freezing n hfreezing
  cases htree with
  | swapLog n' hlock =>
    rw [hfreezing] at hlock
    cases hlock
    refine ⟨ht, ?_, ?_, ?_, ?_, ?_, ?_, ?_, ?_, ?_, h.version, h.forgetting⟩
    · refine ⟨popped, rest ++ [g] ++ [⟨n, w.lastAppended, [], Table.empty⟩], ?_, ?_, ?_⟩
      · simp [hlive]
      · rw [List.map_append, List.map_append, hmem, List.reverse_cons]
        simp only [List.map_singleton, Segment.frozen, hnumber, htable]
        rfl
      · refine poppedOk_head (poppedOk_keep hpopped rfl (fun _ => rfl)) ?_
        cases rest <;> rfl
    · intro g' hg'
      rcases List.mem_append.mp hg' with hold | hnewest
      · have hne : g'.number ≠ n := (hnew g' hold).ne
        obtain ⟨w', f', hw', hf', hb, hc⟩ := h.backed g' hold
        refine ⟨w', f', ?_, ?_, hb, fun _ => hc (Or.inr (by rw [hfreezing]; exact nofun))⟩
        · dsimp only
          rw [Table.lookup_insert, if_neg hne]
          exact hw'
        · dsimp only
          rw [Table.lookup_insert, if_neg hne]
          exact hf'
      · rw [List.mem_singleton] at hnewest
        subst hnewest
        refine ⟨Wal.create n w.lastAppended, headerFile n w.lastAppended, ?_, ?_,
          backs_create n _ ?_, fun _ => rfl⟩
        · dsimp only
          rw [Table.lookup_insert, if_pos rfl]
        · dsimp only
          rw [Table.lookup_insert, if_pos rfl]
        · dsimp only at hlast ⊢
          rw [hlast]
          exact hbound
    · refine List.pairwise_append.mpr ⟨h.ordered, List.pairwise_singleton _ _, ?_⟩
      intro a ha b hb
      rw [List.mem_singleton] at hb
      subst hb
      exact hnew a ha
    · dsimp only
      refine List.isChain_append.mpr ⟨h.chained, .singleton _, fun a ha b hb => ?_⟩
      cases hb
      rw [hlive, List.getLast?_concat] at ha
      cases ha
      exact hlast
    · have holdest := h.oldest
      rw [hlive] at holdest ⊢
      refine Eq.trans ?_ holdest
      cases popped with
      | nil => cases rest <;> rfl
      | cons => rfl
    · intro g' hg'
      rcases List.mem_append.mp hg' with hold | hnewest
      · exact h.numbers g' hold
      · rw [List.mem_singleton] at hnewest
        subst hnewest
        exact hlt
    · exact fun m hm => (by cases hm)
    · intro m f' hf' hle
      left
      rw [Table.lookup_insert] at hf'
      split at hf'
      · rename_i heq
        exact ⟨_, List.mem_append_right _ (List.mem_singleton_self _), heq.symm⟩
      · rename_i hne
        rcases h.files m f' hf' hle with ⟨g', hg', hm⟩ | hm
        · exact ⟨g', List.mem_append_left _ hg', hm⟩
        · rw [hfreezing] at hm
          exact absurd (Option.some.inj hm).symm hne
    · intro m w' hw'
      rw [Table.lookup_insert] at hw'
      split at hw'
      · rename_i heq
        rw [heq]
        exact hlt
      · exact h.opened m w' hw'

theorem inv_publish (h : LogInv s) {t : TreeRuns.State}
    (htree : TreeRuns.Step o sc s.tree .publish t) :
    LogInv { s with
      tree := t
      stored := published s.stored s.tree.nextFileNumber t.job } := by
  have ht := TreeSteps.inv_step h.tree htree
  obtain ⟨popped, rest, hlive, hmem, hpopped⟩ := h.layout
  cases htree with
  | publishFlush n frozen tab hjob | publishCompaction plan now done next hjob =>
    rw [poppedOk_of_not_retired (by rw [hjob]; exact fun _ _ => nofun)] at hpopped
    exact ⟨ht, ⟨popped, rest, hlive, hmem, hpopped⟩, h.backed, h.ordered, h.chained, h.oldest,
      h.numbers, h.freezing, h.files, h.opened, rfl, fun n m hf => (by cases hf)⟩

/-- The log being retired is the oldest one, and the next is the one still needed. -/
theorem LogInv.retired (h : LogInv s) {n m : ℕ} (hjob : s.tree.job = .retired n m) :
    ∃ g rest, s.live = g :: rest ∧ g.number = s.stored.logNumber ∧ g.number < m ∧
      rest.head?.map Segment.number = some m ∧
      rest.map Segment.frozen =
        s.tree.immutable.reverse ++ [⟨s.tree.logNumber, s.tree.active⟩] ∧
      ∀ k e, (Segment.table g).lookup k = some e → versionEntry s.tree k = some e := by
  obtain ⟨popped, rest, hlive, hmem, hpopped⟩ := h.layout
  unfold PoppedOk at hpopped
  rw [hjob] at hpopped
  obtain ⟨g, rfl, hhead, hin⟩ := hpopped
  have holdest := h.oldest
  have hordered := h.ordered
  rw [hlive] at holdest hordered
  refine ⟨g, rest, hlive, Option.some.inj holdest, ?_, hhead, hmem, hin⟩
  obtain ⟨g', hg', rfl⟩ := Option.map_eq_some_iff.mp hhead
  exact (List.pairwise_cons.mp hordered).1 g' (List.mem_of_mem_head? hg')

theorem inv_storeLogNumber (h : LogInv s) {n m : ℕ} {t : TreeRuns.State}
    (hjob : s.tree.job = .retired n m) (htree : TreeRuns.Step o sc s.tree .storeLogNumber t) :
    LogInv { s with
      tree := t
      stored := ⟨s.tree.nextFileNumber, m, s.stored.lastSequence, s.stored.version⟩
      live := s.live.tail
      retired := s.retired ++ s.live.take 1 } := by
  have ht := TreeSteps.inv_step h.tree htree
  obtain ⟨g, rest, hlive, hnumber, hlt, hhead, hmem, -⟩ := LogInv.retired h hjob
  have hsub : ∀ g' ∈ rest, g' ∈ s.live := fun g' hg' => hlive ▸ List.mem_cons_of_mem g hg'
  have hversion := h.version
  have hordered := h.ordered
  have hchained := h.chained
  rw [hlive] at hordered hchained
  rw [storedVersion, hjob] at hversion
  cases htree with
  | storeLogNumber n' m' hjob' =>
    rw [hjob] at hjob'
    cases hjob'
    rw [hlive, List.tail_cons]
    refine ⟨ht, ⟨[], rest, rfl, hmem, rfl⟩, fun g' hg' => h.backed g' (hsub g' hg'),
      (List.pairwise_cons.mp hordered).2, hchained.tail, hhead,
      fun g' hg' => h.numbers g' (hsub g' hg'), ?_, ?_, h.opened, hversion, ?_⟩
    · intro k hk
      obtain ⟨h1, h2, h3⟩ := h.freezing k hk
      exact ⟨h1, fun g' hg' => h2 g' (hsub g' hg'), h3⟩
    · intro k f hf hle
      dsimp only at hle
      rcases h.files k f hf (by omega) with ⟨g', hg', hk⟩ | hk
      · rw [hlive] at hg'
        rcases List.mem_cons.mp hg' with rfl | hin
        · omega
        · exact Or.inl ⟨g', hin, hk⟩
      · exact Or.inr hk
    · rintro _ _ ⟨⟩
      rfl

theorem inv_removeLog (h : LogInv s) {n m k : ℕ} (hjob : s.tree.job = .forgetting n m)
    (hlt : k < m) : LogInv { s with logs := s.logs.erase k } := by
  have hm := h.forgetting n m hjob
  have hkept : ∀ j f, (s.logs.erase k).lookup j = some f → s.logs.lookup j = some f := by
    intro j f hf
    rw [Table.lookup_erase] at hf
    split at hf
    · cases hf
    · exact hf
  refine ⟨h.tree, h.layout, ?_, h.ordered, h.chained, h.oldest, h.numbers, ?_,
    fun j f hf hle => h.files j f (hkept j f hf) hle, h.opened, h.version, h.forgetting⟩
  · intro g hg
    obtain ⟨w, f, hw, hf, hb, hc⟩ := h.backed g hg
    have hlow := h.low hg
    refine ⟨w, f, hw, ?_, hb, hc⟩
    rw [Table.lookup_erase, if_neg (by omega)]
    exact hf
  · intro j hj
    obtain ⟨hlt, hnew, hnone, hcreated⟩ := h.freezing j hj
    exact ⟨hlt, hnew, hnone, fun f hf => hcreated f (hkept j f hf)⟩

theorem inv_forgetLogs (h : LogInv s) {n m : ℕ} {t : TreeRuns.State}
    (hjob : s.tree.job = .forgetting n m) (htree : TreeRuns.Step o sc s.tree .forgetLogs t) :
    LogInv { s with tree := t } := by
  have ht := TreeSteps.inv_step h.tree htree
  obtain ⟨popped, rest, hlive, hmem, hpopped⟩ := h.layout
  rw [poppedOk_of_not_retired (by rw [hjob]; exact fun _ _ => nofun)] at hpopped
  cases htree with
  | forgetLogs =>
    refine LogInv.retree h ht ⟨rfl, rfl, rfl, le_rfl, ?_⟩ ⟨popped, rest, hlive, hmem, hpopped⟩
      (fun n m hf => by cases hf)
    simp only [storedVersion, hjob]

theorem inv_step (h : LogInv s) (hstep : Step o sc policy s s') : LogInv s' := by
  cases hstep with
  | append i muts t w w' hidle hne htree hwal happend hfits hseq =>
    exact inv_append h htree hwal happend hfits hseq _
  | reread => exact LogInv.writers h _ s.acked
  | commit i n seq handle => exact LogInv.writers (LogInv.runCommit h policy handle seq) _ _
  | commitFast => exact LogInv.writers h _ _
  | logOp n op => exact h.runOp n op
  | freeze t htree => exact inv_freeze h htree
  | create n w d hfreezing hwal hd => exact inv_create h hfreezing hwal hd
  | swapLog n w t hfreezing htree hwal => exact inv_swapLog h hfreezing htree hwal
  | publish t htree => exact inv_publish h htree
  | storeLogNumber n m t hjob htree => exact inv_storeLogNumber h hjob htree
  | keepLogNumber n m t hjob =>
    -- a log is retired only when a newer one is needed
    obtain ⟨g, rest, -, hnumber, hlt, -⟩ := LogInv.retired h hjob
    omega
  | removeLog n m k hjob hlt => exact inv_removeLog h hjob hlt
  | forgetLogs n m t hjob htree => exact inv_forgetLogs h hjob htree
  | quiet a t ha htree => exact inv_quiet h ha htree

/-- Nothing but what their logs say is in the memtables. -/
def Unbased (s : State) : Prop := ∀ g ∈ s.live, g.base = Table.empty

theorem unbased_step (h : Unbased s) (hstep : Step o sc policy s s') : Unbased s' := by
  cases hstep with
  | append =>
    intro g hg
    obtain ⟨g', hg', -, -, hbase⟩ := mem_record hg
    rw [← hbase]
    exact h g' hg'
  | commit i n seq handle =>
    obtain ⟨wals, logs, hrun⟩ := runCommit_frame s policy handle seq
    rw [hrun]
    exact h
  | logOp n op => exact fun g hg => h g (runOp_live s n op ▸ hg)
  | freeze => exact fun g hg => h g (runOp_live s s.tree.logNumber .flush ▸ hg)
  | swapLog =>
    intro g hg
    rcases List.mem_append.mp hg with hold | hnew
    · exact h g hold
    · rw [List.mem_singleton.mp hnew]
  | storeLogNumber => exact fun g hg => h g (List.mem_of_mem_tail hg)
  | _ => exact h

theorem inv_run {s₀ : State} (h₀ : Started s₀) (hrun : ReflTransGen (Step o sc policy) s₀ s) :
    LogInv s := run_preserves LogInv (fun _ _ h hstep => inv_step h hstep) hrun (started_inv h₀)

end RedisFromScratch.EngineSteps
