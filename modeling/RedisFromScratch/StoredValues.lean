import RedisFromScratch.Unauthenticated

/-!
No command stores a nil slice. A value that is written comes from an argument, from a
buffer that was made for it, or from a record that was read before; none of these is
nil as long as no stored value is. Here are the callbacks of the commands and the
commands on strings and keys, over any engine that keeps to slices.
-/
namespace RedisFromScratch.StoredValues

open ByteStrings ReplyWriter RespReader StatePrograms CommandContext
open StringCommands GenericCommands ConnectionCommands ServerCommands CommandTable
open Unauthenticated

variable {E : Env} {α : Type}

/-- The value is a slice, maybe an empty one. -/
def IsSlice (r : Rec) : Prop := r.value ≠ none

/-- A callback that is shown slices asks for slices to be stored. -/
def StoresSlices {σ : Type} (fn : UpdateFn σ) : Prop :=
  ∀ vars cur found, (found = true → IsSlice cur) →
    ∀ r, (fn vars cur found).2 = .ok (.put r) → IsSlice r

/-- An engine that keeps to slices. -/
structure Sound (E : Env) (solid : E.Store → Prop) : Prop where
  get : ∀ key s, solid s → solid (E.get key s).2 ∧
    ∀ r, (E.get key s).1 = .ok (some r) → IsSlice r
  put : ∀ key r s, IsSlice r → solid s → solid (E.put key r s).2
  delete : ∀ key s, solid s → solid (E.delete key s).2
  update : ∀ {σ : Type} key (fn : UpdateFn σ) vars s, StoresSlices fn → solid s →
    solid (E.update key fn vars s).2
  multiWrite : ∀ muts s, (∀ mu ∈ muts, IsSlice mu.2) → solid s → solid (E.multiWrite muts s).2
  scan : ∀ {σ : Type} cursor count (fn : ScanFn σ) vars s, solid s →
    solid (E.scan cursor count fn vars s).2
  len : ∀ s, solid s → solid (E.len s).2
  flushAll : ∀ s, solid s → solid (E.flushAll s).2
  storeStats : ∀ s, solid s → solid (E.storeStats s).2

section Callbacks

variable {val : Option Bytes}

theorem setUpdate_stores (f : SetFlags) (hval : val ≠ none) : StoresSlices (setUpdate f val) := by
  intro vars cur found _ r hr
  unfold setUpdate at hr
  dsimp only at hr
  split at hr
  · cases hr
  · cases hr
    exact hval

theorem setNXUpdate_stores (hval : val ≠ none) : StoresSlices (setNXUpdate val) := by
  intro vars cur found _ r hr
  unfold setNXUpdate at hr
  split at hr
  · cases hr
  · cases hr
    exact hval

theorem getSetUpdate_stores (hval : val ≠ none) : StoresSlices (getSetUpdate val) := by
  intro vars cur found _ r hr
  cases hr
  exact hval

theorem getDelUpdate_stores : StoresSlices getDelUpdate := by
  intro vars cur found _ r hr
  unfold getDelUpdate at hr
  split at hr <;> cases hr

theorem getExUpdate_stores (f : GetExFlags) : StoresSlices (getExUpdate f) := by
  intro vars cur found hcur r hr
  unfold getExUpdate at hr
  split at hr
  · rename_i hfound
    split_ifs at hr
    · cases hr
      exact hcur hfound
    · cases hr
      exact hcur hfound
    · cases hr
  · cases hr

theorem appendUpdate_stores (suffix : Bytes) (maxLen : ℤ) :
    StoresSlices (appendUpdate suffix maxLen) := by
  intro vars cur found _ r hr
  unfold appendUpdate at hr
  split at hr
  · cases hr
  · cases hr
    exact Option.some_ne_none _

theorem incrUpdate_stores (delta : ℤ) : StoresSlices (incrUpdate delta) := by
  intro vars cur found _ r hr
  unfold incrUpdate at hr
  split at hr
  · cases hr
  · split at hr
    · cases hr
    · cases hr
      exact Option.some_ne_none _

theorem incrFloatUpdate_stores (delta : E.Float) : StoresSlices (incrFloatUpdate E delta) := by
  intro vars cur found _ r hr
  unfold incrFloatUpdate at hr
  split at hr
  · cases hr
  · dsimp only at hr
    split at hr
    · cases hr
    · cases hr
      exact Option.some_ne_none _

theorem setRangeUpdate_stores (offset : ℤ) (patch : Bytes) :
    StoresSlices (setRangeUpdate offset patch) := by
  intro vars cur found _ r hr
  unfold setRangeUpdate at hr
  dsimp only at hr
  split at hr
  · cases hr
  · split at hr
    · cases hr
    · cases hr
      exact Option.some_ne_none _

theorem expireUpdate_stores (f : ExpireFlags) (expireAt now : ℤ) :
    StoresSlices (expireUpdate f expireAt now) := by
  intro vars cur found hcur r hr
  unfold expireUpdate at hr
  split at hr
  · cases hr
  · rename_i hfound
    split at hr
    · cases hr
    · cases hr
      cases found with
      | true => exact hcur rfl
      | false => simp at hfound

theorem persistUpdate_stores : StoresSlices persistUpdate := by
  intro vars cur found hcur r hr
  unfold persistUpdate at hr
  split at hr
  · cases hr
  · rename_i hfound
    cases hr
    cases found with
    | true => exact hcur rfl
    | false => simp at hfound

theorem copyUpdate_stores {rec : Rec} (hrec : IsSlice rec) (replace : Bool) :
    StoresSlices (copyUpdate rec replace) := by
  intro vars cur found _ r hr
  unfold copyUpdate at hr
  split at hr
  · cases hr
  · cases hr
    exact hrec

theorem pairs_slices (args : List Bytes) : ∀ mu ∈ pairs args, IsSlice mu.2 := by
  fun_induction pairs args with
  | case1 key value rest ih => exact List.forall_mem_cons.mpr ⟨Option.some_ne_none _, ih⟩
  | case2 => simp

end Callbacks

section Programs

variable {solid : E.Store → Prop}

/-- What a program leaves is solid if what it found was. -/
def Kept (solid : E.Store → Prop) (m : M E α) : Prop :=
  Keeps (fun w w' => solid w.store → solid w'.store) m

instance : Std.Refl (fun w w' : World E => solid w.store → solid w'.store) := ⟨fun _ h => h⟩

instance : IsTrans (World E) (fun w w' => solid w.store → solid w'.store) :=
  ⟨fun _ _ _ h h' hs => h' (h hs)⟩

theorem kept_of_harmless {m : M E α} (h : Harmless m) : Kept solid m :=
  Ensures.mono h (fun w _ w' hsame hs => by rw [hsame.1]; exact hs)

theorem reply_kept (f : Version → List WriterOp) : Kept solid (reply (E := E) f) :=
  kept_of_harmless (reply_harmless f)

theorem reading_kept (f : World E → α) : Kept solid (reading f) := Keeps.reading f

theorem onAmbient_kept (f : E.Ambient → α × E.Ambient) : Kept solid (onAmbient f) :=
  kept_of_harmless (onAmbient_harmless f)

theorem write_kept (f : Version → List WriterOp) : Kept solid (write (E := E) f) :=
  kept_of_harmless (write_harmless f)

theorem onConn_kept (f : ConnState → ConnState) : Kept solid (onConn (E := E) f) :=
  kept_of_harmless (onConn_harmless f)

theorem onRunning_kept (f : Running → α × Running) : Kept solid (onRunning (E := E) f) :=
  Ensures.acting (fun _ hs => hs)

theorem onConfig_kept (f : E.Config → α × E.Config) : Kept solid (onConfig f) :=
  Ensures.acting (fun _ hs => hs)

theorem storeErr_kept (e : Err) : Kept solid (storeErr (E := E) e) := by
  cases e <;> exact reply_kept _

theorem onStore_kept {f : E.Store → α × E.Store} (h : ∀ s, solid s → solid (f s).2) :
    Kept solid (onStore f) := Ensures.acting (fun w hs => h w.store hs)

theorem Kept.bind {β : Type} {m : M E α} {f : α → M E β} (hm : Kept solid m)
    (hf : ∀ a, Kept solid (f a)) : Kept solid (m >>= f) := Keeps.bind hm hf

theorem Kept.ite {p : Prop} [Decidable p] {m m' : M E α} (h : Kept solid m)
    (h' : Kept solid m') : Kept solid (if p then m else m') := Ensures.ite h h'

/-- What is read from the store is a slice, and what follows may use that. -/
theorem get_kept {β : Type} (hE : Sound E solid) {key : Bytes}
    {f : Except Err (Option Rec) → M E β}
    (hf : ∀ res, (∀ r, res = .ok (some r) → IsSlice r) → Kept solid (f res)) :
    Kept solid (onStore (E.get key) >>= f) := by
  intro w b w' hrun hs
  obtain ⟨hsolid, hslice⟩ := hE.get key w.store hs
  exact hf _ hslice _ b w' hrun hsolid

end Programs

section Strings

variable {solid : E.Store → Prop} (hE : Sound E solid)
include hE

theorem get_reply_kept {β : Type} {key : Bytes} {f : Except Err (Option Rec) → M E β}
    (hf : ∀ res, Kept solid (f res)) : Kept solid (onStore (E.get key) >>= f) :=
  get_kept hE (fun res _ => hf res)

theorem update_kept {β σ : Type} {key : Bytes} {fn : UpdateFn σ} {vars : σ}
    {f : σ × Except Err Unit → M E β} (hfn : StoresSlices fn) (hf : ∀ out, Kept solid (f out)) :
    Kept solid (onStore (E.update key fn vars) >>= f) :=
  .bind (onStore_kept fun s hs => hE.update key fn vars s hfn hs) hf

omit hE in
theorem intReply_kept (out : ℤ × Except Err Unit) : Kept solid (intReply (E := E) out) := by
  unfold intReply
  split
  · exact storeErr_kept _
  · exact reply_kept _

omit hE in
theorem boolReply_kept (out : Bool × Except Err Unit) : Kept solid (boolReply (E := E) out) := by
  unfold boolReply
  split
  · exact storeErr_kept _
  · exact reply_kept _

omit hE in
theorem foundReply_kept (out : Found × Except Err Unit) :
    Kept solid (foundReply (E := E) out) := by
  unfold foundReply
  split
  · exact storeErr_kept _
  · exact Kept.ite (reply_kept _) (reply_kept _)

theorem cmdGet_kept (c : Call) : Kept solid (cmdGet (E := E) c) := by
  refine get_reply_kept hE fun res => ?_
  split
  · exact storeErr_kept _
  · exact reply_kept _
  · exact reply_kept _

theorem cmdSet_kept {c : Call} (hval : c.arg 2 ≠ none) : Kept solid (cmdSet (E := E) c) := by
  refine .bind (onAmbient_kept _) fun now => ?_
  split
  · exact reply_kept _
  · refine Kept.ite (reply_kept _) (update_kept hE (setUpdate_stores _ hval) fun out => ?_)
    split
    · exact storeErr_kept _
    · exact Kept.ite (Kept.ite (reply_kept _) (reply_kept _))
        (Kept.ite (reply_kept _) (reply_kept _))

theorem cmdSetNX_kept {c : Call} (hval : c.arg 2 ≠ none) : Kept solid (cmdSetNX (E := E) c) := by
  refine update_kept hE (setNXUpdate_stores hval) fun out => ?_
  split
  · exact storeErr_kept _
  · exact reply_kept _

theorem setWithTTL_kept (unitMs : ℤ) {c : Call} (hval : c.arg 3 ≠ none) :
    Kept solid (setWithTTL (E := E) unitMs c) := by
  unfold setWithTTL
  split
  · exact reply_kept _
  · refine Kept.ite (reply_kept _) (Kept.ite (reply_kept _) ?_)
    refine .bind (onAmbient_kept _) fun now =>
      .bind (onStore_kept fun s hs => hE.put _ ⟨c.arg 3, _⟩ s hval hs) fun res => ?_
    split
    · exact storeErr_kept _
    · exact reply_kept _

theorem cmdGetSet_kept {c : Call} (hval : c.arg 2 ≠ none) :
    Kept solid (cmdGetSet (E := E) c) :=
  update_kept hE (getSetUpdate_stores hval) foundReply_kept

theorem cmdGetDel_kept (c : Call) : Kept solid (cmdGetDel (E := E) c) :=
  update_kept hE getDelUpdate_stores foundReply_kept

theorem cmdGetEx_kept (c : Call) : Kept solid (cmdGetEx (E := E) c) := by
  refine .bind (onAmbient_kept _) fun now => ?_
  split
  · exact reply_kept _
  · exact reply_kept _
  · exact reply_kept _
  · exact update_kept hE (getExUpdate_stores _) foundReply_kept

omit hE in
theorem writeNulls_kept (n : ℕ) : Kept solid (writeNulls (E := E) n) := by
  induction n with
  | zero => exact Keeps.pure ()
  | succ n ih => exact .bind (write_kept _) fun _ => ih

theorem mgetElements_kept (keys : List Bytes) : Kept solid (mgetElements (E := E) keys) := by
  induction keys with
  | nil => exact Keeps.pure none
  | cons key rest ih =>
    refine get_reply_kept hE fun res => ?_
    split
    · exact .bind (writeNulls_kept _) fun _ => Keeps.pure _
    · exact .bind (write_kept _) fun _ => ih
    · exact .bind (write_kept _) fun _ => ih

theorem cmdMGet_kept (c : Call) : Kept solid (cmdMGet (E := E) c) :=
  .bind (write_kept _) fun _ => mgetElements_kept hE _

theorem multiWrite_kept {β : Type} {args : List Bytes} {f : Except Err Unit → M E β}
    (hf : ∀ res, Kept solid (f res)) :
    Kept solid (onStore (E.multiWrite (pairs args)) >>= f) :=
  .bind (onStore_kept fun s hs => hE.multiWrite _ s (pairs_slices args) hs) hf

theorem cmdMSet_kept (c : Call) : Kept solid (cmdMSet (E := E) c) := by
  refine Kept.ite (reply_kept _) (multiWrite_kept hE fun res => ?_)
  split
  · exact storeErr_kept _
  · exact reply_kept _

theorem anyExists_kept (keys : List (Bytes × Rec)) : Kept solid (anyExists (E := E) keys) := by
  induction keys with
  | nil => exact Keeps.pure _
  | cons key rest ih =>
    refine get_reply_kept hE fun res => ?_
    split
    · exact Keeps.pure _
    · exact Keeps.pure _
    · exact ih

theorem cmdMSetNX_kept (c : Call) : Kept solid (cmdMSetNX (E := E) c) := by
  refine Kept.ite (reply_kept _) (.bind (anyExists_kept hE _) fun res => ?_)
  split
  · exact storeErr_kept _
  · exact reply_kept _
  · refine multiWrite_kept hE fun res => ?_
    split
    · exact storeErr_kept _
    · exact reply_kept _

theorem cmdAppend_kept (c : Call) : Kept solid (cmdAppend (E := E) c) :=
  .bind (reading_kept _) fun _ => update_kept hE (appendUpdate_stores _ _) intReply_kept

theorem cmdStrlen_kept (c : Call) : Kept solid (cmdStrlen (E := E) c) := by
  refine get_reply_kept hE fun res => ?_
  split
  · exact storeErr_kept _
  · exact reply_kept _
  · exact reply_kept _

theorem incrBy_kept (delta : ℤ) (c : Call) : Kept solid (incrBy (E := E) delta c) :=
  update_kept hE (incrUpdate_stores delta) intReply_kept

theorem cmdIncrBy_kept (c : Call) : Kept solid (cmdIncrBy (E := E) c) := by
  unfold cmdIncrBy
  split
  · exact reply_kept _
  · exact incrBy_kept hE _ c

theorem cmdDecrBy_kept (c : Call) : Kept solid (cmdDecrBy (E := E) c) := by
  unfold cmdDecrBy
  split
  · exact reply_kept _
  · exact Kept.ite (reply_kept _) (incrBy_kept hE _ c)

theorem cmdIncrByFloat_kept (c : Call) : Kept solid (cmdIncrByFloat (E := E) c) := by
  unfold cmdIncrByFloat
  split
  · exact reply_kept _
  · refine update_kept hE (incrFloatUpdate_stores _) fun out => ?_
    split
    · exact storeErr_kept _
    · exact reply_kept _

theorem cmdGetRange_kept (c : Call) : Kept solid (cmdGetRange (E := E) c) := by
  unfold cmdGetRange
  split
  · refine get_reply_kept hE fun res => ?_
    split
    · exact storeErr_kept _
    · exact reply_kept _
    · split
      · exact reply_kept _
      · exact reply_kept _
  · exact reply_kept _

theorem cmdSetRange_kept (c : Call) : Kept solid (cmdSetRange (E := E) c) := by
  unfold cmdSetRange
  split
  · exact reply_kept _
  · refine Kept.ite (reply_kept _) (.bind (reading_kept _) fun maxLen => ?_)
    refine Kept.ite (reply_kept _) (update_kept hE (setRangeUpdate_stores _ _) fun out => ?_)
    exact Kept.ite Ensures.panicking (intReply_kept _)

end Strings

section Generic

variable {solid : E.Store → Prop} (hE : Sound E solid)
include hE

theorem delLoop_kept (keys : List Bytes) (n : ℤ) : Kept solid (delLoop (E := E) keys n) := by
  induction keys generalizing n with
  | nil => exact reply_kept _
  | cons key rest ih =>
    refine .bind (onStore_kept fun s hs => hE.delete key s hs) fun res => ?_
    split
    · exact storeErr_kept _
    · exact ih _

theorem existsLoop_kept (keys : List Bytes) (n : ℤ) :
    Kept solid (existsLoop (E := E) keys n) := by
  induction keys generalizing n with
  | nil => exact reply_kept _
  | cons key rest ih =>
    refine get_reply_kept hE fun res => ?_
    split
    · exact storeErr_kept _
    · exact ih _

theorem cmdType_kept (c : Call) : Kept solid (cmdType (E := E) c) := by
  refine get_reply_kept hE fun res => ?_
  split
  · exact storeErr_kept _
  · exact reply_kept _
  · exact reply_kept _

theorem expireCmd_kept (unit : ExpiryUnit) (c : Call) :
    Kept solid (expireCmd (E := E) unit c) := by
  unfold expireCmd
  split
  · exact reply_kept _
  · refine .bind (onAmbient_kept _) fun now => ?_
    split
    · exact reply_kept _
    · split
      · exact reply_kept _
      · exact Kept.ite (reply_kept _) (.bind (onAmbient_kept _) fun _ =>
          update_kept hE (expireUpdate_stores _ _ _) boolReply_kept)

theorem ttlCmd_kept (divisor : ℤ) (c : Call) : Kept solid (ttlCmd (E := E) divisor c) := by
  refine get_reply_kept hE fun res => ?_
  split
  · exact storeErr_kept _
  · exact reply_kept _
  · exact Kept.ite (reply_kept _) (.bind (onAmbient_kept _) fun _ =>
      Kept.ite (reply_kept _) (reply_kept _))

theorem expireTimeCmd_kept (divisor : ℤ) (c : Call) :
    Kept solid (expireTimeCmd (E := E) divisor c) := by
  refine get_reply_kept hE fun res => ?_
  split
  · exact storeErr_kept _
  · exact reply_kept _
  · exact Kept.ite (reply_kept _) (reply_kept _)

theorem cmdPersist_kept (c : Call) : Kept solid (cmdPersist (E := E) c) :=
  update_kept hE persistUpdate_stores boolReply_kept

omit hE in
theorem bulks_kept (keys : List (Option Bytes)) : Kept solid (bulks (E := E) keys) :=
  kept_of_harmless (bulks_harmless keys)

theorem keysLoop_kept (pattern : Bytes) (pages cursor : ℕ) (vars : KeysVars) :
    Kept solid (keysLoop (E := E) pattern pages cursor vars) := by
  induction pages generalizing cursor vars with
  | zero => exact Ensures.panicking
  | succ pages ih =>
    refine .bind (onStore_kept fun s hs => hE.scan _ _ _ _ s hs) fun out => ?_
    split
    · exact storeErr_kept _
    · exact Kept.ite (reply_kept _) (Kept.ite (bulks_kept _) (ih _ _))

omit hE in
theorem page_kept (next : ℕ) (keys : List (Option Bytes)) :
    Kept solid (page (E := E) next keys) :=
  .bind (write_kept _) fun _ => .bind (write_kept _) fun _ => bulks_kept keys

theorem cmdScan_kept (c : Call) : Kept solid (cmdScan (E := E) c) := by
  unfold cmdScan
  split
  · exact reply_kept _
  · split
    · exact reply_kept _
    · refine Kept.ite (page_kept _ _)
        (.bind (onStore_kept fun s hs => hE.scan _ _ _ _ s hs) fun out => ?_)
      split
      · exact storeErr_kept _
      · exact page_kept _ _

theorem randomKeyLoop_kept (cursors : List ℕ) : Kept solid (randomKeyLoop (E := E) cursors) := by
  induction cursors with
  | nil => exact reply_kept _
  | cons cursor rest ih =>
    refine .bind (onStore_kept fun s hs => hE.scan _ _ _ _ s hs) fun out => ?_
    split
    · exact storeErr_kept _
    · exact reply_kept _
    · exact ih

theorem cmdRandomKey_kept (c : Call) : Kept solid (cmdRandomKey (E := E) c) :=
  .bind (onAmbient_kept _) fun _ => randomKeyLoop_kept hE _

theorem cmdDBSize_kept (c : Call) : Kept solid (cmdDBSize (E := E) c) := by
  refine .bind (onStore_kept hE.len) fun res => ?_
  split
  · exact storeErr_kept _
  · exact reply_kept _

theorem removeSource_kept (src : Bytes) : Kept solid (removeSource (E := E) src) := by
  refine .bind (onStore_kept fun s hs => hE.delete src s hs) fun res => ?_
  split
  · exact Keeps.pure _
  · exact Keeps.pure _

/-- The record that is moved was read from the store, so it is a slice. -/
theorem renameKey_kept (nx : Bool) (c : Call) : Kept solid (renameKey (E := E) nx c) := by
  refine get_kept hE fun res hres => ?_
  split
  · exact Keeps.pure _
  · exact Keeps.pure _
  · rename_i rec
    have hrec : IsSlice rec := hres rec rfl
    refine Kept.ite (Keeps.pure _) (Kept.ite ?_ ?_)
    · refine update_kept hE (copyUpdate_stores hrec _) fun out => ?_
      split
      · exact Keeps.pure _
      · exact Keeps.pure _
      · exact removeSource_kept hE _
    · refine .bind (onStore_kept fun s hs => hE.put _ _ s hrec hs) fun res => ?_
      split
      · exact Keeps.pure _
      · exact removeSource_kept hE _

omit hE in
theorem renamed_kept {done : Bool → M E (Option Err)} (h : ∀ b, Kept solid (done b))
    (r : Renamed) : Kept solid (renamed done r) := by
  unfold renamed
  split
  · exact storeErr_kept _
  · exact Kept.ite (h _) (reply_kept _)

theorem cmdRename_kept (c : Call) : Kept solid (cmdRename (E := E) c) :=
  .bind (renameKey_kept hE _ c) (renamed_kept fun _ => reply_kept _)

theorem cmdRenameNX_kept (c : Call) : Kept solid (cmdRenameNX (E := E) c) :=
  .bind (renameKey_kept hE _ c) (renamed_kept fun _ => reply_kept _)

theorem cmdCopy_kept (c : Call) : Kept solid (cmdCopy (E := E) c) := by
  unfold cmdCopy
  split
  · exact reply_kept _
  · exact reply_kept _
  · refine Kept.ite (reply_kept _) (get_kept hE fun res hres => ?_)
    split
    · exact storeErr_kept _
    · exact reply_kept _
    · exact update_kept hE (copyUpdate_stores (hres _ rfl) _) boolReply_kept

theorem cmdFlush_kept (c : Call) : Kept solid (cmdFlush (E := E) c) := by
  refine Kept.ite (.bind (onStore_kept hE.flushAll) fun res => ?_) (reply_kept _)
  split
  · exact storeErr_kept _
  · exact reply_kept _

end Generic

end RedisFromScratch.StoredValues
