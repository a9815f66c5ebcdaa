import RedisFromScratch.StoredValues

/-!
The values of the memory engine over a sequence of commands. Every command of the
table keeps to slices, and the engine stores copies of what it is given; so no stored
value is ever nil, from any store in which none is.
-/
namespace RedisFromScratch.SolidStores

open ByteStrings ReplyWriter RespReader StatePrograms CommandContext
open StringCommands GenericCommands ConnectionCommands ServerCommands CommandTable
open Unauthenticated EngineValues StoredValues Relation Runs

variable {E : Env} {α : Type}

section Server

variable {solid : E.Store → Prop}

theorem formatClientLine_kept (conn : ConnState) :
    Kept solid (formatClientLine (E := E) conn) :=
  .bind (onAmbient_kept _) fun _ => .bind (reading_kept _) fun _ => Keeps.pure _

theorem clientLines_kept (conns : List ConnState) : Kept solid (clientLines (E := E) conns) := by
  induction conns with
  | nil => exact Keeps.pure _
  | cons conn rest ih =>
    exact .bind (formatClientLine_kept conn) fun _ => .bind ih fun _ => Keeps.pure _

theorem killMatching_kept (f : KillFilter) (self : ℕ) (conns : List ConnState) (killed : ℤ) :
    Kept solid (killMatching (E := E) f self conns killed) := by
  induction conns generalizing killed with
  | nil => exact reply_kept _
  | cons conn rest ih =>
    exact .bind (reading_kept _) fun _ => Kept.ite (ih _) (.bind (onAmbient_kept _) fun _ => ih _)

theorem clientKill_kept (c : Call) : Kept solid (clientKill (E := E) c) := by
  unfold clientKill
  split
  · refine .bind (reading_kept _) fun all => ?_
    split
    · exact .bind (onAmbient_kept _) fun _ => reply_kept _
    · exact reply_kept _
  · split
    · exact reply_kept _
    · exact reply_kept _
    · exact .bind (reading_kept _) fun _ => .bind (reading_kept _) fun _ =>
        killMatching_kept _ _ _ _

theorem cmdClient_kept (c : Call) : Kept solid (cmdClient (E := E) c) :=
  Kept.ite (.bind (reading_kept _) fun _ => reply_kept _) <|
  Kept.ite (.bind (reading_kept _) fun _ => Kept.ite (reply_kept _) (reply_kept _)) <|
  Kept.ite (Kept.ite (reply_kept _) (Kept.ite (reply_kept _)
    (.bind (onConn_kept _) fun _ => reply_kept _))) <|
  Kept.ite (.bind (reading_kept _) fun _ => .bind (formatClientLine_kept _) fun _ =>
    reply_kept _) <|
  Kept.ite (.bind (reading_kept _) fun _ => .bind (clientLines_kept _) fun _ =>
    reply_kept _) <|
  Kept.ite (clientKill_kept c) <|
  Kept.ite (reply_kept _) <|
  Kept.ite (Kept.ite (reply_kept _) (reply_kept _)) (reply_kept _)

theorem cmdSelect_kept (c : Call) : Kept solid (cmdSelect (E := E) c) := by
  unfold cmdSelect
  split
  · exact reply_kept _
  · exact Kept.ite (reply_kept _) (reply_kept _)

theorem configSetAll_kept (all : List (Bytes × Bytes)) :
    Kept solid (configSetAll (E := E) all) := by
  induction all with
  | nil => exact reply_kept _
  | cons setting rest ih =>
    refine .bind (onConfig_kept _) fun text => ?_
    split
    · exact reply_kept _
    · exact ih

theorem configSet_kept (c : Call) : Kept solid (configSet (E := E) c) := by
  refine .bind (reading_kept _) fun config => ?_
  split
  · exact reply_kept _
  · exact configSetAll_kept _

theorem cmdConfig_kept (c : Call) : Kept solid (cmdConfig (E := E) c) :=
  Kept.ite (Kept.ite (reply_kept _) (.bind (reading_kept _) fun _ => reply_kept _)) <|
  Kept.ite (Kept.ite (reply_kept _) (configSet_kept c)) <|
  Kept.ite (reply_kept _) <| Kept.ite (reply_kept _) (reply_kept _)

theorem cmdSave_kept (c : Call) : Kept solid (cmdSave (E := E) c) := by
  have hsave : Kept solid (save (E := E)) := .bind (reading_kept _) fun _ =>
    Kept.ite (.bind (onRunning_kept _) fun _ => reading_kept _) (Keeps.pure _)
  refine .bind hsave fun text => ?_
  split
  · exact reply_kept _
  · exact reply_kept _

theorem backgroundSave_kept {f : Option Bytes → M E α} (hf : ∀ text, Kept solid (f text)) :
    Kept solid (backgroundSave >>= f) := by
  have hsave : Kept solid (backgroundSave (E := E)) := .bind (reading_kept _) fun _ =>
    Kept.ite (Keeps.pure _) (Kept.ite (Keeps.pure _)
      (.bind (onRunning_kept _) fun _ => Keeps.pure _))
  exact .bind hsave hf

theorem cmdBGSave_kept (c : Call) : Kept solid (cmdBGSave (E := E) c) := by
  refine backgroundSave_kept fun text => ?_
  split
  · exact reply_kept _
  · exact reply_kept _

theorem cmdBGRewriteAOF_kept (c : Call) : Kept solid (cmdBGRewriteAOF (E := E) c) := by
  refine backgroundSave_kept fun text => ?_
  split
  · exact reply_kept _
  · exact reply_kept _

theorem cmdShutdown_kept (c : Call) : Kept solid (cmdShutdown (E := E) c) := by
  unfold cmdShutdown
  split
  · exact reply_kept _
  · exact .bind (onRunning_kept _) fun _ => .bind (onConn_kept _) fun _ => Keeps.pure _

theorem debugSleep_kept (c : Call) : Kept solid (debugSleep (E := E) c) := by
  refine Kept.ite (reply_kept _) ?_
  split
  · exact reply_kept _
  · exact Kept.ite (reply_kept _) (reply_kept _)

variable (hE : Sound E solid)
include hE

theorem debugObject_kept (c : Call) : Kept solid (debugObject (E := E) c) := by
  refine Kept.ite (reply_kept _) (get_reply_kept hE fun res => ?_)
  split
  · exact storeErr_kept _
  · exact reply_kept _
  · exact reply_kept _

theorem cmdDebug_kept (c : Call) : Kept solid (cmdDebug (E := E) c) :=
  Kept.ite (debugSleep_kept c) <| Kept.ite (reply_kept _) <|
  Kept.ite (debugObject_kept hE c) <| Kept.ite (reply_kept _) (reply_kept _)

theorem cmdObject_kept (c : Call) : Kept solid (cmdObject (E := E) c) := by
  refine Kept.ite (Kept.ite (reply_kept _) (reply_kept _)) (get_reply_kept hE fun res => ?_)
  split
  · exact storeErr_kept _
  · exact reply_kept _
  · exact Kept.ite (reply_kept _) <| Kept.ite (reply_kept _) <| Kept.ite (reply_kept _) <|
      Kept.ite (reply_kept _) (reply_kept _)

theorem memoryUsage_kept (c : Call) : Kept solid (memoryUsage (E := E) c) := by
  refine Kept.ite (reply_kept _) (get_reply_kept hE fun res => ?_)
  split
  · exact storeErr_kept _
  · exact reply_kept _
  · exact reply_kept _

theorem memoryStats_kept : Kept solid (memoryStats (E := E)) := by
  refine .bind (onStore_kept hE.storeStats) fun res => ?_
  split
  · exact storeErr_kept _
  · exact reply_kept _

theorem cmdMemory_kept (c : Call) : Kept solid (cmdMemory (E := E) c) :=
  Kept.ite (memoryUsage_kept hE c) <| Kept.ite (reply_kept _) <|
  Kept.ite (memoryStats_kept hE) (reply_kept _)

end Server

section Table

variable {solid : E.Store → Prop}

/-- The same for a program that may reach the names of the table. -/
def KeptOn (solid : E.Store → Prop) (m : Prog (Server E) α) : Prop :=
  Ensures (fun s _ s' => solid s.world.store → solid s'.world.store) m

theorem lift_kept {m : M E α} (h : Kept solid m) : KeptOn solid (lift m) := by
  intro s a s' hrun
  obtain ⟨⟨b, w⟩, hw, heq⟩ := Option.map_eq_some_iff.mp hrun
  cases heq
  exact h s.world b w hw

/-- A command whose handler keeps to slices when its arity is met. -/
def Keeping (solid : E.Store → Prop) (cmd : Command E) : Prop :=
  ∀ c : Call, arityOK cmd.arity c.argc → KeptOn solid (cmd.handler c)

variable {name : String} {arity : ℤ} {flags : List Flag} {keys : ℤ × ℤ × ℤ}
  {summary since : String} {handler : Handler E}

theorem keeping_of_kept (h : ∀ c, Kept solid (handler c)) :
    Keeping solid (command name arity flags keys summary since handler) :=
  fun c _ => lift_kept (h c)

/-- The arity makes sure that the value is there. -/
theorem keeping_of_arg {i : ℕ} (hi : (i : ℤ) < arity.natAbs)
    (h : ∀ c, c.arg i ≠ none → Kept solid (handler c)) :
    Keeping solid (command name arity flags keys summary since handler) := by
  intro c harity
  refine lift_kept (h c ?_)
  have hargc : i < c.argc := by
    have harity : arityOK arity c.argc = true := harity
    unfold arityOK at harity
    split at harity
    · have := of_decide_eq_true harity
      omega
    · have := of_decide_eq_true harity
      omega
  simp only [Call.arg, ne_eq, List.getElem?_eq_none_iff, not_le]
  exact hargc

theorem keeping_of_harmless (h : ∀ c, Harmless (handler c)) :
    Keeping solid (command name arity flags keys summary since handler) :=
  keeping_of_kept fun c => kept_of_harmless (h c)

variable (hE : Sound E solid)
include hE

omit hE in
theorem registerConnection_keeping :
    ∀ cmd ∈ registerConnection (E := E), Keeping solid cmd := by
  simp only [registerConnection, List.forall_mem_cons]
  exact ⟨keeping_of_kept fun _ => Kept.ite (reply_kept _)
      (Kept.ite (reply_kept _) (reply_kept _)),
    keeping_of_kept fun _ => reply_kept _,
    keeping_of_harmless cmdHello_harmless, keeping_of_harmless cmdAuth_harmless,
    keeping_of_kept cmdSelect_kept, keeping_of_kept fun _ => reply_kept _,
    keeping_of_harmless cmdQuit_harmless, keeping_of_harmless cmdReset_harmless,
    keeping_of_kept cmdClient_kept, List.forall_mem_nil _⟩

theorem registerString_keeping : ∀ cmd ∈ registerString (E := E), Keeping solid cmd := by
  simp only [registerString, List.forall_mem_cons]
  exact ⟨keeping_of_kept (cmdGet_kept hE),
    keeping_of_arg (i := 2) (by decide) fun _ => cmdSet_kept hE,
    keeping_of_arg (i := 2) (by decide) fun _ => cmdSetNX_kept hE,
    keeping_of_arg (i := 3) (by decide) fun _ => setWithTTL_kept hE 1000,
    keeping_of_arg (i := 3) (by decide) fun _ => setWithTTL_kept hE 1,
    keeping_of_arg (i := 2) (by decide) fun _ => cmdGetSet_kept hE,
    keeping_of_kept (cmdGetDel_kept hE), keeping_of_kept (cmdGetEx_kept hE),
    keeping_of_kept (cmdMGet_kept hE), keeping_of_kept (cmdMSet_kept hE),
    keeping_of_kept (cmdMSetNX_kept hE), keeping_of_kept (cmdAppend_kept hE),
    keeping_of_kept (cmdStrlen_kept hE), keeping_of_kept (incrBy_kept hE 1),
    keeping_of_kept (incrBy_kept hE (-1)), keeping_of_kept (cmdIncrBy_kept hE),
    keeping_of_kept (cmdDecrBy_kept hE), keeping_of_kept (cmdIncrByFloat_kept hE),
    keeping_of_kept (cmdGetRange_kept hE), keeping_of_kept (cmdGetRange_kept hE),
    keeping_of_kept (cmdSetRange_kept hE), List.forall_mem_nil _⟩

theorem registerGeneric_keeping : ∀ cmd ∈ registerGeneric (E := E), Keeping solid cmd := by
  simp only [registerGeneric, List.forall_mem_cons]
  exact ⟨keeping_of_kept fun _ => delLoop_kept hE _ _,
    keeping_of_kept fun _ => delLoop_kept hE _ _,
    keeping_of_kept fun _ => existsLoop_kept hE _ _,
    keeping_of_kept fun _ => existsLoop_kept hE _ _, keeping_of_kept (cmdType_kept hE),
    keeping_of_kept (expireCmd_kept hE _), keeping_of_kept (expireCmd_kept hE _),
    keeping_of_kept (expireCmd_kept hE _), keeping_of_kept (expireCmd_kept hE _),
    keeping_of_kept (ttlCmd_kept hE _), keeping_of_kept (ttlCmd_kept hE _),
    keeping_of_kept (expireTimeCmd_kept hE _), keeping_of_kept (expireTimeCmd_kept hE _),
    keeping_of_kept (cmdPersist_kept hE), keeping_of_kept fun _ => keysLoop_kept hE _ _ _ _,
    keeping_of_kept (cmdScan_kept hE), keeping_of_kept (cmdRandomKey_kept hE),
    keeping_of_kept (cmdDBSize_kept hE), keeping_of_kept (cmdRename_kept hE),
    keeping_of_kept (cmdRenameNX_kept hE), keeping_of_kept (cmdCopy_kept hE),
    keeping_of_kept (cmdFlush_kept hE), keeping_of_kept (cmdFlush_kept hE),
    List.forall_mem_nil _⟩

theorem registerServer_keeping : ∀ cmd ∈ registerServer (E := E), Keeping solid cmd := by
  have hcommand : ∀ c, KeptOn solid (cmdCommand (E := E) c) := fun c =>
    Ensures.mono (cmdCommand_harmless c) (fun s _ s' hsame hs => by rw [hsame.1]; exact hs)
  simp only [registerServer, List.forall_mem_cons]
  exact ⟨keeping_of_kept fun _ => .bind (reading_kept _) fun _ => reply_kept _,
    fun c _ => hcommand c, keeping_of_kept cmdConfig_kept, keeping_of_kept cmdSave_kept,
    keeping_of_kept cmdBGSave_kept, keeping_of_kept cmdBGRewriteAOF_kept,
    keeping_of_kept fun _ => .bind (reading_kept _) fun _ => .bind (reading_kept _) fun _ =>
      reply_kept _,
    keeping_of_kept cmdShutdown_kept,
    keeping_of_kept fun _ => .bind (onAmbient_kept _) fun _ => reply_kept _,
    keeping_of_kept (cmdDebug_kept hE), keeping_of_kept (cmdObject_kept hE),
    keeping_of_kept (cmdMemory_kept hE), keeping_of_kept fun _ => reply_kept _,
    keeping_of_kept fun _ => Kept.ite (reply_kept _) (reply_kept _), List.forall_mem_nil _⟩

theorem newTable_keeping : ∀ cmd ∈ newTable (E := E), Keeping solid cmd := by
  intro cmd hcmd
  rcases List.mem_append.mp hcmd with hcmd | hcmd
  · rcases List.mem_append.mp hcmd with hcmd | hcmd
    · rcases List.mem_append.mp hcmd with hcmd | hcmd
      · exact registerConnection_keeping cmd hcmd
      · exact registerString_keeping hE cmd hcmd
    · exact registerGeneric_keeping hE cmd hcmd
  · exact registerServer_keeping hE cmd hcmd

omit hE in
theorem runCommand_kept {cmd : Command E} (h : Keeping solid cmd) (c : Call) :
    KeptOn solid (runCommand cmd c) := by
  unfold runCommand
  split
  · exact lift_kept (reply_kept _)
  · rename_i harity
    have harity : arityOK cmd.arity c.argc = true := by simpa using harity
    have hran : KeptOn solid
        (cmd.handler c >>= fun res => lift (touch cmd.name) >>= fun _ => pure res) :=
      Ensures.bind (h c harity)
        (fun res => (lift_kept (kept_of_harmless (touch_harmless cmd.name))).returning res)
        (fun _ _ _ _ _ h h' hs => h' (h hs))
    exact Ensures.reading_bind fun conn => Ensures.ite (lift_kept (reply_kept _)) hran

/-- One command, whatever it is, keeps to slices. -/
theorem dispatch_kept (args : List Bytes) :
    KeptOn solid (dispatch (newTable (E := E)) args) := by
  cases args with
  | nil => exact Ensures.pure (fun _ hs => hs)
  | cons arg =>
    cases hlookup : lookupFast (newTable (E := E)) arg with
    | none =>
      rw [dispatch_of_none hlookup]
      exact lift_kept (reply_kept _)
    | some cmd =>
      rw [dispatch_of_some hlookup]
      exact runCommand_kept (newTable_keeping hE cmd (mem_of_lookupFast hlookup).1) _

end Table

/-- Some connection sends a command and the handler returns. -/
def Step (E : Env) (s s' : Server E) : Prop :=
  ∃ conn ver out args e,
    dispatch newTable args { s with world := { s.world with conn, ver, out } } = some (e, s')

/-- The store stays solid along every sequence of commands. -/
theorem run_kept {solid : E.Store → Prop} (hE : Sound E solid) {s s' : Server E}
    (hrun : ReflTransGen (Step E) s s') (hs : solid s.world.store) : solid s'.world.store := by
  refine run_preserves (fun s : Server E => solid s.world.store) ?_ hrun hs
  rintro s s' hs ⟨conn, ver, out, args, e, hdispatch⟩
  exact dispatch_kept hE args _ e s' hdispatch hs

section MemoryEngine

variable {jrn : Journal} {σ : Type}

/-- Every record of a memory store is a slice. -/
def Solid (s : Memory jrn) : Prop := ∀ key r, s.m key = some r → IsSlice r

namespace Solid

variable {s : Memory jrn} {key : Bytes}

theorem tick (hs : Solid s) : Solid s.tick := hs

theorem evictLocked (hs : Solid s) (key : Bytes) : Solid (s.evictLocked key) := by
  intro key' r hr
  by_cases h : key' = key
  · rw [h] at hr
    simp [Memory.evictLocked] at hr
  · exact hs key' r (by simpa [Memory.evictLocked, h] using hr)

theorem putLocked (hs : Solid s) (key : Bytes) {rec : Rec} (hrec : IsSlice rec) :
    Solid (s.putLocked key (clone rec)) := by
  rw [clone_eq]
  intro key' r hr
  by_cases h : key' = key
  · rw [h] at hr
    simp only [Memory.putLocked, Function.update_self, Option.some.injEq] at hr
    exact hr ▸ hrec
  · exact hs key' r (by simpa [Memory.putLocked, h] using hr)

theorem await (hs : Solid s) (lsn : ℕ) : Solid (s.await lsn).2 := by
  unfold Memory.await
  split
  · exact hs
  · exact hs

theorem commit (hs : Solid s) (entry : StoreRecords.LogRecord) {change : Memory jrn → Memory jrn}
    (hchange : ∀ s, Solid s → Solid (change s)) : Solid (s.commit entry change).2 := by
  unfold Memory.commit
  split
  · exact hs
  · rename_i j _
    exact await (hchange { s with journal := j } hs) _

theorem get (hs : Solid s) (key : Bytes) : Solid (s.get key).2 ∧
    ∀ r, (s.get key).1 = .ok (some r) → IsSlice r := by
  unfold Memory.get
  split
  · exact ⟨hs, fun r hr => nomatch hr⟩
  · split
    · exact ⟨hs, fun r hr => nomatch hr⟩
    · rename_i rec hrec
      split
      · refine ⟨?_, fun r hr => nomatch hr⟩
        split
        · exact evictLocked hs key
        · exact hs
      · refine ⟨hs, fun r hr => ?_⟩
        cases hr
        exact hs key rec hrec

theorem holds (hs : Solid s) {r : Rec} (hr : s.holds key = some r) : IsSlice r := by
  unfold Memory.holds liveRec at hr
  split at hr
  · cases hr
  · rename_i rec hrec
    split at hr
    · cases hr
    · cases hr
      exact hs key _ hrec

theorem enterUpdate (hs : Solid s) (key : Bytes) : Solid (s.enterUpdate key) := by
  unfold Memory.enterUpdate
  split
  · exact hs
  · split
    · exact evictLocked hs key
    · exact hs

theorem afterUpdate (hs : Solid s) (key : Bytes) (found : Bool) {res : Except Err Change}
    (hres : ∀ r, res = .ok (.put r) → IsSlice r) : Solid (s.afterUpdate key found res).2 := by
  unfold Memory.afterUpdate
  split
  · exact hs
  · exact hs
  · rename_i next
    exact commit hs _ fun s hs => putLocked hs key (hres next rfl)
  · split
    · exact commit hs _ fun s hs => evictLocked hs key
    · exact hs

theorem update (hs : Solid s) (key : Bytes) {fn : UpdateFn σ} (vars : σ)
    (hfn : StoresSlices fn) : Solid (s.update key fn vars).2 := by
  unfold Memory.update
  split
  · exact hs
  · refine afterUpdate (enterUpdate hs key) key _ (hfn vars _ _ fun hfound => ?_)
    obtain ⟨r, hr⟩ := Option.isSome_iff_exists.mp hfound
    rw [hr]
    exact holds hs hr

theorem writes (hs : Solid s) {muts : List (Bytes × Rec)} (hmuts : ∀ mu ∈ muts, IsSlice mu.2) :
    Solid (muts.foldl (fun s mu => s.putLocked mu.1 (clone mu.2)) s) := by
  induction muts generalizing s with
  | nil => exact hs
  | cons mu rest ih =>
    have hput := putLocked hs mu.1 (hmuts mu List.mem_cons_self)
    exact ih hput fun mu' hmem => hmuts mu' (List.mem_cons_of_mem mu hmem)

end Solid

/-- The memory engine keeps to slices, with whatever log behind it. -/
theorem memory_sound (jrn : Journal) (walks : Walks (Memory jrn)) (host : Host)
    (info : List Bytes → (memoryEngine jrn walks).Store → host.Config → host.Ambient → Bytes) :
    Sound ⟨memoryEngine jrn walks, host, info⟩ Solid where
  get key s hs := Solid.get hs key
  put key r s hr hs := by
    change Solid (Memory.put key r s).2
    unfold Memory.put
    split
    · exact hs
    · exact Solid.commit hs _ fun s hs => Solid.putLocked hs key hr
  delete key s hs := by
    change Solid (Memory.delete key s).2
    have hcommit : Solid (s.tick.commit (.delete key) (fun s => s.evictLocked key)).2 :=
      Solid.commit (Solid.tick hs) _ fun s hs => Solid.evictLocked hs key
    unfold Memory.delete
    split
    · exact hs
    · split
      · exact hs
      · split
        · rename_i hout
          rw [hout] at hcommit
          exact hcommit
        · rename_i hout
          rw [hout] at hcommit
          exact hcommit
  update key fn vars s hfn hs := Solid.update hs key vars hfn
  multiWrite muts s hmuts hs := by
    change Solid (Memory.multiWrite muts s).2
    unfold Memory.multiWrite
    split
    · exact hs
    · split
      · exact hs
      · exact Solid.commit hs _ fun s hs => Solid.writes hs hmuts
  scan _ _ _ _ _ hs := hs
  len _ hs := hs
  flushAll s hs := by
    change Solid (Memory.flushAll s).2
    unfold Memory.flushAll
    split
    · exact hs
    · refine Solid.commit hs _ fun s _ key r hr => ?_
      cases hr
  storeStats _ hs := hs

end MemoryEngine

end RedisFromScratch.SolidStores
