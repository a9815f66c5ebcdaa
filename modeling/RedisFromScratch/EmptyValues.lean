import RedisFromScratch.SolidStores

/-!
A live key with an empty value against a key that is not live. A value is replied as
a bulk string when the slice that reaches the reply is not nil. A value that is not
empty is never nil; an empty one is kept apart from nil by the memory engine, but not
by a copy that is appended to nil, and not by the messages of the LSM engine.
-/
namespace RedisFromScratch.EmptyValues

open ByteStrings ReplyWriter RespReader StatePrograms CommandContext StringCommands
open ServerCommands CommandTable EngineValues StoredValues SolidStores SmallServer Relation

variable {E : Env}

/-- What is replied about a value that is live, or about none. -/
def answer (ver : Version) : Option Bytes → List WriterOp
  | some v => writeBulk ver (some v)
  | none => writeNull ver

theorem answer_some_ne_none (ver : Version) (v : Bytes) :
    answer ver (some v) ≠ answer ver none := by
  intro h
  have hfirst := congrArg List.head? h
  cases ver <;> exact absurd hfirst (by simp [answer, writeBulk, writeHeader, writeNull])

/-- What an engine that does not fail shows a command of the live value of a key. -/
structure Looks (E : Env) (live : E.Store → Bytes → Option Bytes) : Prop where
  get : ∀ key s res, (E.get key s).1 = .ok res → live s key = res.map Rec.bytes
  update : ∀ {σ : Type} key (fn : UpdateFn σ) vars s, (E.update key fn vars s).1.2 = .ok () →
    ∃ cur : Option Rec, live s key = cur.map Rec.bytes ∧
      (E.update key fn vars s).1.1 = (fn vars (cur.getD .zero) cur.isSome).1

section Slices

theorem value_of_bytes_ne_nil {r : Rec} (h : r.bytes ≠ []) : r.value = some r.bytes := by
  cases hvalue : r.value with
  | none => exact absurd (by simp [Rec.bytes, hvalue]) h
  | some => simp [Rec.bytes, hvalue]

theorem value_of_isSlice {r : Rec} (h : IsSlice r) : r.value = some r.bytes := by
  cases hvalue : r.value with
  | none => exact absurd hvalue h
  | some => simp [Rec.bytes, hvalue]

theorem appendToNil_of_bytes_ne_nil {r : Rec} (h : r.bytes ≠ []) :
    appendToNil r.value = some r.bytes := by
  rw [value_of_bytes_ne_nil h]
  cases hbytes : r.bytes with
  | nil => exact absurd hbytes h
  | cons => rfl

end Slices

/-- The command returns, with the right answer about a key. -/
def Answers (live : E.Store → Bytes → Option Bytes) (w : World E) (key : Bytes)
    (m : M E (Option Err)) : Prop :=
  ∃ w', m w = some (none, w') ∧ w'.out = w.out ++ answer w.ver (live w.store key)

theorem onStore_bind_eq {α β : Type} {f : E.Store → α × E.Store} {k : α → M E β} {w : World E}
    {a : α} (h : (f w.store).1 = a) :
    (onStore f >>= k) w = k a { w with store := (f w.store).2 } := by
  rw [← h]
  rfl

theorem nowMs_bind_eq {β : Type} {k : ℤ → M E β} {w : World E} : (nowMs >>= k) w =
    k (E.nowMs w.ambient).1 { w with ambient := (E.nowMs w.ambient).2 } := rfl

section Commands

variable {live : E.Store → Bytes → Option Bytes} (hE : Looks E live) {c : Call} {w : World E}
include hE

/-- A record that was read is replied as it is. -/
theorem cmdGet_answers {res : Option Rec} (hget : (E.get (c.argString 1) w.store).1 = .ok res)
    (hres : ∀ r, res = some r → r.value = some r.bytes) :
    Answers live w (c.argString 1) (cmdGet c) := by
  unfold Answers cmdGet
  rw [hE.get _ _ _ hget, onStore_bind_eq hget]
  cases res with
  | none => exact ⟨_, rfl, rfl⟩
  | some r =>
    refine ⟨_, rfl, ?_⟩
    simp only [hres r rfl, Option.map_some, answer]

/-- The commands that copy the value inside their callback. -/
theorem foundReply_answers {key : Bytes} {fn : UpdateFn Found}
    (hfn : ∀ cur found, (fn ⟨none, false⟩ cur found).1 =
      if found then ⟨appendToNil cur.value, true⟩ else ⟨none, false⟩)
    (hupdate : (E.update key fn ⟨none, false⟩ w.store).1.2 = .ok ())
    (hne : live w.store key ≠ some []) :
    Answers live w key (onStore (E.update key fn ⟨none, false⟩) >>= foundReply) := by
  obtain ⟨cur, hlive, hvars⟩ := hE.update key fn ⟨none, false⟩ w.store hupdate
  have hfound : (E.update key fn ⟨none, false⟩ w.store).1.1 = ⟨cur.map Rec.bytes, cur.isSome⟩ := by
    rw [hvars, hfn]
    cases cur with
    | none => rfl
    | some r =>
      have hbytes : r.bytes ≠ [] := fun h => hne (by rw [hlive, Option.map_some, h])
      simp [appendToNil_of_bytes_ne_nil hbytes]
  unfold Answers
  rw [onStore_bind_eq (a := (_, .ok ())) (Prod.ext hfound hupdate), hlive]
  cases cur with
  | none | some => exact ⟨_, rfl, rfl⟩

theorem cmdGetSet_answers
    (hupdate : (E.update (c.argString 1) (getSetUpdate (c.arg 2)) ⟨none, false⟩ w.store).1.2 =
      .ok ())
    (hne : live w.store (c.argString 1) ≠ some []) :
    Answers live w (c.argString 1) (cmdGetSet c) :=
  foundReply_answers hE (fun _ _ => rfl) hupdate hne

theorem cmdGetDel_answers
    (hupdate : (E.update (c.argString 1) getDelUpdate ⟨none, false⟩ w.store).1.2 = .ok ())
    (hne : live w.store (c.argString 1) ≠ some []) :
    Answers live w (c.argString 1) (cmdGetDel c) := by
  refine foundReply_answers hE (fun _ found => ?_) hupdate hne
  cases found <;> rfl

theorem cmdGetEx_answers {f : GetExFlags}
    (hparse : parseGetExOptions E (E.nowMs w.ambient).1 (c.args.drop 2) ⟨false, false, 0⟩ = .ok f)
    (hupdate : (E.update (c.argString 1) (getExUpdate f) ⟨none, false⟩ w.store).1.2 = .ok ())
    (hne : live w.store (c.argString 1) ≠ some []) :
    Answers live w (c.argString 1) (cmdGetEx c) := by
  have hcopy : ∀ cur found, (getExUpdate f ⟨none, false⟩ cur found).1 =
      if found then ⟨appendToNil cur.value, true⟩ else ⟨none, false⟩ := by
    intro cur found
    cases found <;> rfl
  have hanswer := foundReply_answers hE (w := { w with ambient := (E.nowMs w.ambient).2 })
    hcopy hupdate hne
  have hrun : cmdGetEx c w =
      (onStore (E.update (c.argString 1) (getExUpdate f) ⟨none, false⟩) >>= foundReply)
        { w with ambient := (E.nowMs w.ambient).2 } := by
    rw [cmdGetEx, nowMs_bind_eq, hparse]
  unfold Answers
  rw [hrun]
  exact hanswer

/-- SET with the option GET. -/
theorem cmdSet_answers {f : SetFlags}
    (hparse : parseSetOptions E (E.nowMs w.ambient).1 (c.args.drop 3) .zero = some f)
    (hflag : f.get = true)
    (hexpiry : ¬ (f.hasExp ∧ (c.intArg (indexOfExpiryValue E c)).getD 0 ≤ 0 ∧
      isRelativeExpiry E c))
    (hupdate : (E.update (c.argString 1) (setUpdate f (c.arg 2)) ⟨none, false, false⟩
      w.store).1.2 = .ok ())
    (hne : live w.store (c.argString 1) ≠ some []) :
    Answers live w (c.argString 1) (cmdSet c) := by
  obtain ⟨cur, hlive, hvars⟩ := hE.update _ _ _ _ hupdate
  have hprev : (setUpdate f (c.arg 2) ⟨none, false, false⟩ (cur.getD .zero) cur.isSome).1.prevSet =
      cur.isSome ∧ (setUpdate f (c.arg 2) ⟨none, false, false⟩ (cur.getD .zero) cur.isSome).1.prev =
      cur.map Rec.bytes := by
    unfold setUpdate
    dsimp only
    cases cur with
    | none => split <;> simp
    | some r =>
      have hbytes : r.bytes ≠ [] := fun h => hne (by rw [hlive, Option.map_some, h])
      split <;> simp [hflag, appendToNil_of_bytes_ne_nil hbytes]
  unfold Answers
  rw [cmdSet, nowMs_bind_eq, hparse]
  simp only [if_neg hexpiry]
  rw [onStore_bind_eq (w := { w with ambient := (E.nowMs w.ambient).2 }) (a := (_, .ok ()))
    (Prod.ext hvars hupdate), hlive]
  simp only [hflag, if_true, hprev.1, hprev.2]
  cases cur with
  | none | some => exact ⟨_, rfl, rfl⟩

/-- What holds at every lookup of an MGET, each in the store the one before has left. -/
def Along (E : Env) (P : E.Store → Bytes → Prop) : List Bytes → E.Store → Prop
  | [], _ => True
  | key :: rest, s => P s key ∧ Along E P rest (E.get key s).2

/-- The elements of the array of an MGET. -/
def elements (E : Env) (live : E.Store → Bytes → Option Bytes) (ver : Version) :
    List Bytes → E.Store → List WriterOp
  | [], _ => []
  | key :: rest, s => answer ver (live s key) ++ elements E live ver rest (E.get key s).2

theorem mgetElements_answers {keys : List Bytes}
    (hkeys : Along E (fun s key => ∃ res, (E.get key s).1 = .ok res ∧
      ∀ r, res = some r → r.value = some r.bytes) keys w.store) :
    ∃ w', mgetElements keys w = some (none, w') ∧
      w'.out = w.out ++ elements E live w.ver keys w.store := by
  induction keys generalizing w with
  | nil => exact ⟨w, rfl, (List.append_nil _).symm⟩
  | cons key rest ih =>
    obtain ⟨⟨res, hget, hres⟩, hrest⟩ := hkeys
    have hanswer : writeBulk w.ver (res.bind Rec.value) = answer w.ver (live w.store key) := by
      rw [hE.get _ _ _ hget]
      cases res with
      | none => rfl
      | some r => simp only [Option.bind_some, hres r rfl, Option.map_some, answer]
    obtain ⟨w', hrun, hout⟩ := ih (w := { w with
      store := (E.get key w.store).2
      out := w.out ++ answer w.ver (live w.store key) }) hrest
    refine ⟨w', ?_, by rw [hout, List.append_assoc]; rfl⟩
    rw [mgetElements, onStore_bind_eq hget, ← hrun, ← hanswer]
    cases res with
    | none | some => rfl

end Commands

/-- The commands in question, in a state of the server. A value is known to be told from
nil where `reads` holds of what a plain lookup finds, and where it is not empty. -/
structure Told (E : Env) (live : E.Store → Bytes → Option Bytes)
    (reads : E.Store → Bytes → Prop) (w : World E) : Prop where
  get : ∀ c : Call, reads w.store (c.argString 1) →
    (∃ res, (E.get (c.argString 1) w.store).1 = .ok res) →
    Answers live w (c.argString 1) (cmdGet c)
  mget : ∀ c : Call,
    Along E (fun s key => reads s key ∧ ∃ res, (E.get key s).1 = .ok res) (c.args.drop 1) w.store →
    ∃ w', cmdMGet c w = some (none, w') ∧
      w'.out = w.out ++ writeArrayHeader (c.args.drop 1).length ++
        elements E live w.ver (c.args.drop 1) w.store
  getSet : ∀ c : Call, live w.store (c.argString 1) ≠ some [] →
    (E.update (c.argString 1) (getSetUpdate (c.arg 2)) ⟨none, false⟩ w.store).1.2 = .ok () →
    Answers live w (c.argString 1) (cmdGetSet c)
  getDel : ∀ c : Call, live w.store (c.argString 1) ≠ some [] →
    (E.update (c.argString 1) getDelUpdate ⟨none, false⟩ w.store).1.2 = .ok () →
    Answers live w (c.argString 1) (cmdGetDel c)
  getEx : ∀ (c : Call) (f : GetExFlags), live w.store (c.argString 1) ≠ some [] →
    parseGetExOptions E (E.nowMs w.ambient).1 (c.args.drop 2) ⟨false, false, 0⟩ = .ok f →
    (E.update (c.argString 1) (getExUpdate f) ⟨none, false⟩ w.store).1.2 = .ok () →
    Answers live w (c.argString 1) (cmdGetEx c)
  setGet : ∀ (c : Call) (f : SetFlags), live w.store (c.argString 1) ≠ some [] →
    parseSetOptions E (E.nowMs w.ambient).1 (c.args.drop 3) .zero = some f → f.get = true →
    ¬ (f.hasExp ∧ (c.intArg (indexOfExpiryValue E c)).getD 0 ≤ 0 ∧ isRelativeExpiry E c) →
    (E.update (c.argString 1) (setUpdate f (c.arg 2)) ⟨none, false, false⟩ w.store).1.2 =
      .ok () →
    Answers live w (c.argString 1) (cmdSet c)
  null : ∀ v, answer w.ver (some v) ≠ answer w.ver none

theorem Along.mono {P Q : E.Store → Bytes → Prop} {keys : List Bytes} {s : E.Store}
    (inv : E.Store → Prop) (hinv : ∀ s key, inv s → inv (E.get key s).2)
    (h : ∀ s key, inv s → P s key → Q s key) (hs : inv s) (halong : Along E P keys s) :
    Along E Q keys s := by
  induction keys generalizing s with
  | nil => trivial
  | cons key rest ih => exact ⟨h s key hs halong.1, ih (hinv s key hs) halong.2⟩

/-- Lookups that tell an empty value from nil are all that is left to check. -/
theorem told_of_reads {live : E.Store → Bytes → Option Bytes} {reads : E.Store → Bytes → Prop}
    (hE : Looks E live) (inv : E.Store → Prop) (hinv : ∀ s key, inv s → inv (E.get key s).2)
    (hreads : ∀ s key r, inv s → reads s key → (E.get key s).1 = .ok (some r) →
      r.value = some r.bytes)
    {w : World E} (hw : inv w.store) : Told E live reads w where
  get := by
    rintro c hr ⟨res, hget⟩
    exact cmdGet_answers hE hget fun r hres => hreads _ _ r hw hr (hres ▸ hget)
  mget := by
    intro c halong
    have hkeys : Along E (fun s key => ∃ res, (E.get key s).1 = .ok res ∧
        ∀ r, res = some r → r.value = some r.bytes) (c.args.drop 1) w.store := by
      refine Along.mono inv hinv ?_ hw halong
      rintro s key hs ⟨hr, res, hget⟩
      exact ⟨res, hget, fun r hres => hreads s key r hs hr (hres ▸ hget)⟩
    exact mgetElements_answers hE
      (w := { w with out := w.out ++ writeArrayHeader (c.args.drop 1).length }) hkeys
  getSet c hne hupdate := cmdGetSet_answers hE hupdate hne
  getDel c hne hupdate := cmdGetDel_answers hE hupdate hne
  getEx c f hne hparse hupdate := cmdGetEx_answers hE hparse hupdate hne
  setGet c f hne hparse hflag hexpiry hupdate :=
    cmdSet_answers hE hparse hflag hexpiry hupdate hne
  null := answer_some_ne_none w.ver

section Engines

/-- The live value of a key of the memory engine. -/
def memoryValue {jrn : Journal} (s : Memory jrn) (key : Bytes) : Option Bytes :=
  (s.holds key).map Rec.bytes

/-- The live value of a key of the LSM engine. -/
def lsmValue (s : Lsm) (key : Bytes) : Option Bytes := (s.holds key).map (fun r => r.value)

theorem memory_get_value {jrn : Journal} {s : Memory jrn} {key : Bytes} {res : Option Rec}
    (hget : (s.get key).1 = .ok res) : memoryValue s key = res.map Rec.bytes := by
  unfold memoryValue Memory.holds liveRec
  unfold Memory.get at hget
  split at hget
  · cases hget
  · cases hrec : s.m key with
    | none =>
      rw [hrec] at hget
      cases hget
      rfl
    | some rec =>
      rw [hrec] at hget
      by_cases hexpired : expired rec s.clock.now
      · simp only [hexpired, if_true] at hget ⊢
        cases hget
        rfl
      · simp only [hexpired, Bool.false_eq_true, if_false] at hget ⊢
        cases hget
        rfl

theorem memory_looks (jrn : Journal) (walks : Walks (Memory jrn)) (host : Host)
    (info : List Bytes → (memoryEngine jrn walks).Store → host.Config → host.Ambient → Bytes) :
    Looks ⟨memoryEngine jrn walks, host, info⟩ memoryValue where
  get _ _ _ hget := memory_get_value hget
  update := by
    intro σ key fn vars s hupdate
    refine ⟨s.holds key, rfl, ?_⟩
    change (Memory.update key fn vars s).1.2 = .ok () at hupdate
    change (Memory.update key fn vars s).1.1 = _
    unfold Memory.update at hupdate ⊢
    split at hupdate
    · cases hupdate
    · rename_i hdead
      rw [if_neg hdead]

theorem bytes_toRecord (r : StoreRecords.Record) : (toRecord r).bytes = r.value := by
  unfold toRecord decodeBytes Rec.bytes
  split
  · rename_i h
    exact h.symm
  · rfl

theorem lsm_read_value {key : Bytes} {s : Lsm} {res : Option Rec}
    (hread : (s.read key).1 = .ok res) : lsmValue s key = res.map Rec.bytes := by
  unfold Lsm.read Lsm.request at hread
  cases hf : s.tick.faults s.tick.requests with
  | some =>
    rw [hf] at hread
    cases hread
  | none =>
    rw [hf] at hread
    cases hread
    rw [Option.map_map]
    refine congrArg (fun f => Option.map f _) (funext fun r => ?_)
    exact (bytes_toRecord r).symm

theorem lsm_looks (walks : Walks Lsm) (host : Host)
    (info : List Bytes → (lsmEngine walks).Store → host.Config → host.Ambient → Bytes) :
    Looks ⟨lsmEngine walks, host, info⟩ lsmValue where
  get := by
    intro key s res hget
    change (Lsm.get key s).1 = .ok res at hget
    unfold Lsm.get at hget
    split at hget
    · cases hget
    · exact lsm_read_value hget
  update := by
    intro σ key fn vars s hupdate
    change (Lsm.update key fn vars s).1.2 = .ok () at hupdate
    change ∃ cur, _ ∧ (Lsm.update key fn vars s).1.1 = _
    unfold Lsm.update at hupdate ⊢
    split at hupdate
    · cases hupdate
    · rename_i hclosed
      rw [if_neg hclosed]
      cases hread : s.read key with
      | mk out =>
        rw [hread] at hupdate
        cases out with
        | error => cases hupdate
        | ok cur => exact ⟨cur, lsm_read_value (by rw [hread]), rfl⟩

end Engines

/-- A store with one key, `k`. -/
def oneKey (v : Bytes) (key : Bytes) : Option Rec :=
  if key = ofString "k" then some ⟨some v, 0⟩ else none

def call (args : List String) : Call := ⟨args.map ofString, [], []⟩

theorem oneKey_solid (v : Bytes) : Solid (memoryWith (oneKey v)) := by
  intro key r hr
  simp only [memoryWith, oneKey] at hr
  split at hr
  · cases hr
    exact Option.some_ne_none v
  · cases hr

end RedisFromScratch.EmptyValues
