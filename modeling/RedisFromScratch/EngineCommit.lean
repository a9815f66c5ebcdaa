import RedisFromScratch.EngineWal

/-!
Any number of clients append to, flush and sync one log of the engine. The
sections under its locks are atomic, and every write and fsync may fail. A call
that returns Ok speaks for records, and keeps its word as long as no drain
starts after a write has failed: the failed drain has taken the buffer with it,
and the next one finds nothing left to write.
-/
namespace RedisFromScratch.EngineCommit

open ByteStrings EngineTypes EngineCoding EngineLogs EngineWal Relation Runs

inductive Pc
  | idle
  /-- In a call; the last number handed out when it began. -/
  | calling (op : Op) (n : ℕ)
  /-- Returned Ok, which speaks for the records up to `n`. -/
  | returned (op : Op) (n : ℕ)

structure State where
  log : Log
  /-- The batches appended since the log was created. -/
  batches : List (List Mutation)
  pc : ℕ → Pc

def State.created (number start : ℕ) : State := ⟨Log.create number start, [], fun _ => .idle⟩

@[simps] def State.setPc (s : State) (c : ℕ) (p : Pc) : State :=
  { s with pc := Function.update s.pc c p }

@[simps] def State.setLog (s : State) (l : Log) : State := { s with log := l }

@[simps] def State.appended (s : State) (w : Wal) (muts : List Mutation) : State :=
  { s with log := { s.log with wal := w }, batches := s.batches ++ [muts] }

/-- A sync speaks for the number it was asked for, the others for what was
appended before the call. -/
def promised (op : Op) (n : ℕ) (w : Wal) : ℕ :=
  match op with
  | .syncTo seq => min seq w.lastAppended
  | _ => n

/-- The counter an Ok rests on. -/
def mark (op : Op) (w : Wal) : ℕ :=
  match op with
  | .flush => w.written
  | _ => w.synced

def maxBuffered : ℕ := 2 ^ 20

/-- An append that fills the buffer goes on to flush it. -/
def afterAppend (w : Wal) : Pc :=
  if maxBuffered ≤ w.bytes.length then .calling .flush w.lastAppended else .idle

/-- A commit makes the call its policy asks for, if any. -/
def afterCommit (seq : ℕ) (policy : SyncPolicy) (w : Wal) : Pc :=
  match commitOp seq policy with
  | some op => .calling op w.lastAppended
  | none => .idle

inductive Act
  | append (c : ℕ) (muts : List Mutation)
  | call (c : ℕ) (op : Op)
  | commit (c : ℕ) (seq : ℕ) (policy : SyncPolicy)
  | fast (c : ℕ)
  | section (c : ℕ) (φ : Io)
  | finish (c : ℕ)

inductive Step : State → Act → State → Prop
  -- expiries are 64-bit integers, and sequence numbers do not wrap around
  | append (s : State) (c : ℕ) (muts : List Mutation) (w : Wal) (hpc : s.pc c = .idle)
      (hrange : ∀ m ∈ muts, InRange m.entry) (hseq : s.log.wal.nextSeq + 1 < 2 ^ 64)
      (hw : s.log.wal.append muts = some w) :
      Step s (.append c muts) ((s.appended w muts).setPc c (afterAppend w))
  | call (s : State) (c : ℕ) (op : Op) (hpc : s.pc c = .idle) :
      Step s (.call c op) (s.setPc c (.calling op s.log.wal.lastAppended))
  | commit (s : State) (c : ℕ) (seq : ℕ) (policy : SyncPolicy) (hpc : s.pc c = .idle) :
      Step s (.commit c seq policy) (s.setPc c (afterCommit seq policy s.log.wal))
  | fast (s : State) (c : ℕ) (op : Op) (n : ℕ) (hpc : s.pc c = .calling op n)
      (hfast : op.Fast n s.log.wal) :
      Step s (.fast c) (s.setPc c (.returned op (promised op n s.log.wal)))
  | returned (s : State) (c : ℕ) (op : Op) (n : ℕ) (φ : Io) (hpc : s.pc c = .calling op n)
      (hok : (op.run φ s.log).2 = true) :
      Step s (.section c φ) ((s.setLog (op.run φ s.log).1).setPc c
        (.returned op (promised op n (op.run φ s.log).1.wal)))
  | failed (s : State) (c : ℕ) (op : Op) (n : ℕ) (φ : Io) (hpc : s.pc c = .calling op n)
      (herr : (op.run φ s.log).2 = false) :
      Step s (.section c φ) ((s.setLog (op.run φ s.log).1).setPc c .idle)
  | finish (s : State) (c : ℕ) (op : Op) (n : ℕ) (hpc : s.pc c = .returned op n) :
      Step s (.finish c) (s.setPc c .idle)

/-- Every call that returned Ok has its records where it says: in the file after
a flush; after a sync in the stable part, so that replay finds them wherever the
file is cut behind it. -/
def PromisesKept (start : ℕ) (s : State) : Prop :=
  ∀ c op n, s.pc c = .returned op n → ∀ seq, start < seq → seq ≤ n →
    Recovered s.log.wal.number start s.batches seq s.log.file.data ∧
      (op ≠ .flush → ∀ d, s.log.file.data.take s.log.file.synced <+: d → d <+: s.log.file.data →
        Recovered s.log.wal.number start s.batches seq d)

/-- No section goes on to drain the log once a write of records has failed. -/
def NoDrainAfterLoss (s : State) : Act → Prop
  | .section c _ => ∀ op n, s.pc c = .calling op n → op.Drains s.log.wal → s.log.lost = false
  | _ => True

/-- What a client at this point may rely on. -/
def PcFits (w : Wal) : Pc → Prop
  | .idle => True
  | .calling _ n => n ≤ w.lastAppended
  | .returned op n => n ≤ mark op w

structure Inv (start : ℕ) (s : State) : Prop where
  holds : s.log.Holds start s.batches
  fits : ∀ b ∈ s.batches, BatchFits b
  bound : start + 1 + s.batches.length < 2 ^ 64
  pcs : ∀ c, PcFits s.log.wal (s.pc c)

variable {start : ℕ} {s s' : State}

theorem PcFits.mono {w w' : Wal} {p : Pc} (h : PcFits w p)
    (hlast : w.lastAppended ≤ w'.lastAppended) (hwritten : w.written ≤ w'.written)
    (hsynced : w.synced ≤ w'.synced) : PcFits w' p := by
  cases p with
  | idle => trivial
  | calling => exact Nat.le_trans h hlast
  | returned op =>
    cases op with
    | flush => exact Nat.le_trans h hwritten
    | syncTo | syncAll => exact Nat.le_trans h hsynced

theorem inv_created (number : ℕ) (hbound : start + 1 < 2 ^ 64) :
    Inv start (State.created number start) :=
  ⟨holds_create number start, by simp [State.created], by simpa [State.created] using hbound,
    fun _ => trivial⟩

/-- One client moves to a point that fits. -/
theorem Inv.move (h : Inv start s) {c : ℕ} {p : Pc} (hp : PcFits s.log.wal p) :
    Inv start (s.setPc c p) := by
  refine ⟨h.holds, h.fits, h.bound, fun d => ?_⟩
  rw [State.setPc_log, State.setPc_pc]
  by_cases hd : d = c
  · rw [hd, Function.update_self]
    exact hp
  · rw [Function.update_of_ne hd]
    exact h.pcs d

theorem Inv.append (h : Inv start s) {muts : List Mutation} {w : Wal}
    (hrange : ∀ m ∈ muts, InRange m.entry) (hseq : s.log.wal.nextSeq + 1 < 2 ^ 64)
    (hw : s.log.wal.append muts = some w) : Inv start (s.appended w muts) := by
  have hnext := h.holds.next
  have hlast := h.holds.last
  have hafter := h.holds.append hw
  have hafterLast := hafter.last
  simp only [List.length_append, List.length_singleton] at hafterLast
  have hsame : w.written = s.log.wal.written ∧ w.synced = s.log.wal.synced ∧
      (encodeBatch muts).length ≤ maxRecord := by
    unfold Wal.append at hw
    split at hw
    · cases hw
    · rename_i hsize
      cases Option.some.inj hw
      exact ⟨rfl, rfl, Nat.not_lt.mp hsize⟩
  refine ⟨hafter, ?_, ?_, fun c => ?_⟩
  · intro b hb
    rcases List.mem_append.mp hb with hb | hb
    · exact h.fits b hb
    · rw [List.mem_singleton.mp hb]
      exact ⟨hrange, hsame.2.2⟩
  · simp only [State.appended_batches, List.length_append, List.length_singleton]
    omega
  · have hgrows : s.log.wal.lastAppended ≤ w.lastAppended := by omega
    exact (h.pcs c).mono hgrows hsame.1.ge hsame.2.1.ge

theorem Inv.section (h : Inv start s) {op : Op} (hlost : op.Drains s.log.wal → s.log.lost = false)
    (φ : Io) : Inv start (s.setLog (op.run φ s.log).1) ∧
      ((op.run φ s.log).2 = true → ∀ n ≤ s.log.wal.lastAppended,
        PcFits (op.run φ s.log).1.wal (.returned op (promised op n (op.run φ s.log).1.wal))) := by
  obtain ⟨hholds, hok, hsync, hwrite⟩ := h.holds.run op hlost φ
  have hlast := h.holds.last
  have hlast' := hholds.last
  have hgrows : s.log.wal.lastAppended ≤ (op.run φ s.log).1.wal.lastAppended := by omega
  refine ⟨⟨hholds, h.fits, h.bound, fun c => (h.pcs c).mono hgrows hwrite hsync⟩,
    fun ht n hn => ?_⟩
  · have hreach := hok ht
    cases op with
    | flush =>
      simp only [PcFits, promised, mark]
      omega
    | syncTo | syncAll =>
      simp only [PcFits, promised, mark]
      dsimp only at hreach
      omega

theorem Inv.step (h : Inv start s) {a : Act} (hstep : Step s a s') (hok : NoDrainAfterLoss s a) :
    Inv start s' := by
  cases hstep with
  | append c muts w hpc hrange hseq hw =>
    refine (h.append hrange hseq hw).move ?_
    unfold afterAppend
    split
    · exact Nat.le_refl _
    · trivial
  | call => exact h.move (Nat.le_refl _)
  | commit =>
    refine h.move ?_
    unfold afterCommit
    split
    · exact Nat.le_refl _
    · trivial
  | fast c op n hpc hfast =>
    refine h.move ?_
    cases op with
    | flush => exact hfast
    | syncTo => exact (Nat.min_le_left _ _).trans hfast
    | syncAll => exact hfast.elim
  | returned c op n φ hpc hret =>
    obtain ⟨hinv, hfits⟩ := h.section (hok op n hpc) φ
    have hn := h.pcs c
    rw [hpc] at hn
    exact hinv.move (hfits hret n hn)
  | failed c op n φ hpc => exact (h.section (hok op n hpc) φ).1.move trivial
  | finish => exact h.move trivial

/-- In every run without a drain after a loss, every Ok is kept. -/
theorem ok_means_recovered (number : ℕ) (hbound : start + 1 < 2 ^ 64)
    (hrun : ReflTransGen (Taking Step NoDrainAfterLoss) (State.created number start) s) :
    PromisesKept start s := by
  have hinv : Inv start s :=
    run_preserves (Inv start) (fun _ _ h ⟨_, hstep, hok⟩ => h.step hstep hok) hrun
      (inv_created number hbound)
  intro c op n hpc seq hlow hseq
  have hmark := hinv.pcs c
  rw [hpc] at hmark
  have hreach : seq ≤ mark op s.log.wal := Nat.le_trans hseq hmark
  have hmid := hinv.holds.mid
  have hwritten : seq ≤ s.log.wal.written := by
    cases op with
    | flush => exact hreach
    | syncTo | syncAll => exact Nat.le_trans hreach hmid
  refine ⟨hinv.holds.recovered hinv.fits hinv.bound.le hlow hwritten, fun hop d hcut hd => ?_⟩
  have hsynced : seq ≤ s.log.wal.synced := by
    cases op with
    | flush => exact absurd rfl hop
    | syncTo | syncAll => exact hreach
  exact hinv.holds.recovered_cut hinv.fits hinv.bound.le hlow hsynced hcut hd

section Example

def putK : List Mutation := [⟨[107], .put ⟨[118], 0⟩⟩]

theorem putK_size : (encodeBatch putK).length = 7 := by decide +kernel

theorem putK_range : ∀ m ∈ putK, InRange m.entry := by
  intro m hm
  rw [List.mem_singleton.mp hm]
  exact ⟨by decide, by decide⟩

/-- The log after the first append. -/
def oneAppended : Wal :=
  ⟨1, framing.encode (recOf 1 putK), 2, 1, 0, 0⟩

def twoAppended : Wal :=
  ⟨1, framing.encode (recOf 1 putK) ++ framing.encode (recOf 2 putK), 3, 2, 0, 0⟩

theorem append_one : (Wal.create 1 0).append putK = some oneAppended := by
  rw [Wal.append, if_neg (by rw [putK_size]; decide)]
  rfl

theorem append_two : oneAppended.append putK = some twoAppended := by
  rw [Wal.append, if_neg (by rw [putK_size]; decide)]
  rfl

theorem afterAppend_small {w : Wal} (h : w.bytes.length < 100) : afterAppend w = .idle := by
  rw [afterAppend, if_neg]
  simp only [maxBuffered]
  omega

variable (ok : State → Act → Prop)

/-- A fresh log with one batch appended. -/
def oneBatch : State := (State.created 1 0).appended oneAppended putK

def twoBatches : State := oneBatch.appended twoAppended putK

theorem setPc_idle {t : State} {c : ℕ} (h : t.pc c = .idle) : t.setPc c .idle = t := by
  rw [State.setPc, ← h, Function.update_eq_self]

theorem oneBatch_run (hok : ∀ s c, ok s (.append c putK)) :
    ReflTransGen (Taking Step ok) (State.created 1 0) oneBatch := by
  have hstep := Step.append (State.created 1 0) 0 putK oneAppended rfl putK_range (by decide)
    append_one
  rw [afterAppend_small (by decide +kernel), setPc_idle (by rfl)] at hstep
  exact .single ⟨_, hstep, hok _ _⟩

theorem twoBatches_run (hok : ∀ s c, ok s (.append c putK)) :
    ReflTransGen (Taking Step ok) (State.created 1 0) twoBatches := by
  have hstep := Step.append oneBatch 1 putK twoAppended rfl putK_range (by decide) append_two
  rw [afterAppend_small (by decide +kernel), setPc_idle (by rfl)] at hstep
  exact (oneBatch_run ok hok).tail ⟨_, hstep, hok _ _⟩

end Example

/-- A synced record is recovered. -/
theorem synced_record_recovered : ∃ s,
    ReflTransGen (Taking Step NoDrainAfterLoss) (State.created 1 0) s ∧
      s.pc 0 = .returned (.syncTo 1) 1 ∧ PromisesKept 0 s := by
  have hne := EngineLogs.encode_ne_nil (recOf 1 putK)
  let s₁ := oneBatch.setPc 0 (.calling (.syncTo 1) 1)
  have hcall : Step oneBatch (.call 0 (.syncTo 1)) s₁ := .call oneBatch 0 (.syncTo 1) rfl
  have hsection := Step.returned s₁ 0 (.syncTo 1) 1 .fine (by simp [s₁])
    (by simp [Op.run, Op.Drains, s₁, oneBatch, oneAppended, Log.syncLocked, Log.drain, hne,
      Io.fine])
  have hrun := ((oneBatch_run NoDrainAfterLoss (fun _ _ => trivial)).tail
    ⟨_, hcall, trivial⟩).tail ⟨_, hsection, fun _ _ _ _ => rfl⟩
  refine ⟨_, hrun, ?_, ok_means_recovered 1 (by decide) hrun⟩
  simp [Op.run, Op.Drains, s₁, oneBatch, oneAppended, Log.syncLocked, Log.drain, hne, Io.fine,
    promised]

/-- Two clients append; the first one's sync takes both records and fails to
write them; the second one's sync finds an empty buffer and reports success. -/
theorem sync_ok_for_lost_record : ∃ s,
    ReflTransGen (Taking Step (fun _ _ => True)) (State.created 1 0) s ∧ ¬ PromisesKept 0 s := by
  have hne := EngineLogs.encode_ne_nil (recOf 1 putK)
  let lost : Log := ⟨{ twoAppended with bytes := [] }, headerFile 1 0, true⟩
  have hfails : (Op.syncTo 1).run ⟨some 0, false⟩ twoBatches.log = (lost, false) := by
    simp [Op.run, Op.Drains, twoBatches, oneBatch, twoAppended, Log.syncLocked, Log.drain, hne,
      lost, State.created, Log.create]
  have hempty : (Op.syncTo 2).run .fine lost = (lost, true) := by
    simp [Op.run, Op.Drains, twoAppended, Log.syncLocked, Log.drain, lost]
  let s₁ := twoBatches.setPc 0 (.calling (.syncTo 1) 2)
  have hcall : Step twoBatches (.call 0 (.syncTo 1)) s₁ := .call twoBatches 0 (.syncTo 1) rfl
  have hfail := Step.failed s₁ 0 (.syncTo 1) 2 ⟨some 0, false⟩ (by simp [s₁])
    (by rw [show s₁.log = twoBatches.log from rfl, hfails])
  rw [show s₁.log = twoBatches.log from rfl, hfails] at hfail
  let s₂ := (s₁.setLog lost).setPc 0 .idle
  let s₃ := s₂.setPc 1 (.calling (.syncTo 2) 2)
  have hcall' : Step s₂ (.call 1 (.syncTo 2)) s₃ := .call s₂ 1 (.syncTo 2) rfl
  have hok := Step.returned s₃ 1 (.syncTo 2) 2 .fine (by simp [s₃])
    (by rw [show s₃.log = lost from rfl, hempty])
  rw [show s₃.log = lost from rfl, hempty] at hok
  refine ⟨_, ((((twoBatches_run _ (fun _ _ => trivial)).tail ⟨_, hcall, trivial⟩).tail
    ⟨_, hfail, trivial⟩).tail ⟨_, hcall', trivial⟩).tail ⟨_, hok, trivial⟩, ?_⟩
  intro hkept
  have hpromised := hkept 1 (.syncTo 2) 2 (by simp [promised, lost, twoAppended]) 1 (by decide)
    (by decide)
  have hin := hpromised.1.inside
  have hlen := hin.length_le
  have htake : (twoBatches.batches.take (1 - 0)) = [putK] := rfl
  have hbatches : s₃.batches = twoBatches.batches := rfl
  simp only [State.setPc_batches, State.setLog_batches, hbatches, htake] at hlen
  have hpos := List.length_pos_iff.mpr hne
  have hfull : (logBytes 1 0 [putK]).length = (encodeHeader 1 0).length +
      (framing.encode (recOf 1 putK)).length := by
    simp [logBytes]
  have hdata : lost.file.data = encodeHeader 1 0 := rfl
  simp only [State.setPc_log, State.setLog_log, hdata] at hlen
  change (logBytes 1 0 [putK]).length ≤ (encodeHeader 1 0).length at hlen
  omega

end RedisFromScratch.EngineCommit
