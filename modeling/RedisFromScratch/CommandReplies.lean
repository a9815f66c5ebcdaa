import RedisFromScratch.CommandTable
import RedisFromScratch.ReplyCounts

/-!
Every handler of the string, generic and connection commands writes exactly one
value, whatever its arguments are and whatever the store answers. The array replies
are counted element by element; an MGET that fails half way fills its array up.
-/
namespace RedisFromScratch.CommandReplies

open ByteStrings ReplyWriter RespReader StatePrograms CommandContext RespValues ReplyCounts
open StringCommands GenericCommands ConnectionCommands

variable {E : Env}

section Strings

theorem cmdGet_replies (c : Call) : Replies (cmdGet (E := E) c) := by
  refine .after (onStore_silent _) fun r => ?_
  split <;> simp

theorem cmdSet_replies (c : Call) : Replies (cmdSet (E := E) c) := by
  refine .after nowMs_silent fun now => ?_
  split
  · simp
  · split
    · simp
    · refine .after (onStore_silent _) fun r => ?_
      split
      · simp
      · split_ifs <;> simp

theorem cmdSetNX_replies (c : Call) : Replies (cmdSetNX (E := E) c) := by
  refine .after (onStore_silent _) fun r => ?_
  split <;> simp

theorem setWithTTL_replies (unitMs : ℤ) (c : Call) :
    Replies (setWithTTL (E := E) unitMs c) := by
  unfold setWithTTL
  split
  · simp
  · split_ifs
    · simp
    · simp
    · refine .after nowMs_silent fun now => .after (onStore_silent _) fun r => ?_
      split <;> simp

theorem foundReply_replies (out : Found × Except Err Unit) :
    Replies (foundReply (E := E) out) := by
  unfold foundReply
  split
  · simp
  · split <;> simp

theorem cmdGetSet_replies (c : Call) : Replies (cmdGetSet (E := E) c) :=
  .after (onStore_silent _) foundReply_replies

theorem cmdGetDel_replies (c : Call) : Replies (cmdGetDel (E := E) c) :=
  .after (onStore_silent _) foundReply_replies

theorem cmdGetEx_replies (c : Call) : Replies (cmdGetEx (E := E) c) := by
  refine .after nowMs_silent fun now => ?_
  split
  · simp
  · simp
  · simp
  · exact .after (onStore_silent _) foundReply_replies

theorem writeNulls_writes (n : ℕ) : Writes n (writeNulls (E := E) n) := by
  induction n with
  | zero => exact .pure ()
  | succ n ih => exact .next value_null ih

/-- One element for each key, also for those behind an error. -/
theorem mgetElements_writes (keys : List Bytes) :
    Writes keys.length (mgetElements (E := E) keys) := by
  induction keys with
  | nil => exact .pure none
  | cons key rest ih =>
    refine .after (onStore_silent _) fun r => ?_
    split
    · exact .returning (writeNulls_writes _) _
    · exact .next value_null ih
    · exact .next (fun ver => value_bulk ver _) ih

theorem cmdMGet_replies (c : Call) : Replies (cmdMGet (E := E) c) :=
  .of_writes (.array (mgetElements_writes _))

theorem cmdMSet_replies (c : Call) : Replies (cmdMSet (E := E) c) := by
  unfold cmdMSet
  split
  · simp
  · refine .after (onStore_silent _) fun r => ?_
    split <;> simp

theorem anyExists_silent (keys : List (Bytes × Rec)) : Silent (anyExists (E := E) keys) := by
  induction keys with
  | nil => exact pure_silent _
  | cons key rest ih =>
    refine .bind (onStore_silent _) fun r => ?_
    split
    · exact pure_silent _
    · exact pure_silent _
    · exact ih

theorem cmdMSetNX_replies (c : Call) : Replies (cmdMSetNX (E := E) c) := by
  unfold cmdMSetNX
  split
  · simp
  · refine .after (anyExists_silent _) fun r => ?_
    split
    · simp
    · simp
    · refine .after (onStore_silent _) fun r => ?_
      split <;> simp

theorem intReply_replies (out : ℤ × Except Err Unit) : Replies (intReply (E := E) out) := by
  unfold intReply
  split <;> simp

theorem cmdAppend_replies (c : Call) : Replies (cmdAppend (E := E) c) :=
  .after (reading_silent _) fun _ => .after (onStore_silent _) intReply_replies

theorem cmdStrlen_replies (c : Call) : Replies (cmdStrlen (E := E) c) := by
  refine .after (onStore_silent _) fun r => ?_
  split <;> simp

theorem incrBy_replies (delta : ℤ) (c : Call) : Replies (incrBy (E := E) delta c) :=
  .after (onStore_silent _) intReply_replies

theorem cmdIncrBy_replies (c : Call) : Replies (cmdIncrBy (E := E) c) := by
  unfold cmdIncrBy
  split
  · simp
  · exact incrBy_replies _ c

theorem cmdDecrBy_replies (c : Call) : Replies (cmdDecrBy (E := E) c) := by
  unfold cmdDecrBy
  split
  · simp
  · split
    · simp
    · exact incrBy_replies _ c

theorem cmdIncrByFloat_replies (c : Call) : Replies (cmdIncrByFloat (E := E) c) := by
  unfold cmdIncrByFloat
  split
  · simp
  · refine .after (onStore_silent _) fun r => ?_
    split <;> simp

theorem cmdGetRange_replies (c : Call) : Replies (cmdGetRange (E := E) c) := by
  unfold cmdGetRange
  split
  · refine .after (onStore_silent _) fun r => ?_
    split
    · simp
    · simp
    · split <;> simp
  · simp

theorem cmdSetRange_replies (c : Call) : Replies (cmdSetRange (E := E) c) := by
  unfold cmdSetRange
  split
  · simp
  · split
    · simp
    · refine .after (reading_silent _) fun maxLen => ?_
      split
      · simp
      · refine .after (onStore_silent _) fun out => ?_
        split
        · exact .panicking
        · exact intReply_replies _

end Strings

section Generic

theorem delLoop_replies (keys : List Bytes) (n : ℤ) : Replies (delLoop (E := E) keys n) := by
  induction keys generalizing n with
  | nil => exact int_replies n
  | cons key rest ih =>
    refine .after (onStore_silent _) fun r => ?_
    split
    · simp
    · exact ih _

theorem existsLoop_replies (keys : List Bytes) (n : ℤ) :
    Replies (existsLoop (E := E) keys n) := by
  induction keys generalizing n with
  | nil => exact int_replies n
  | cons key rest ih =>
    refine .after (onStore_silent _) fun r => ?_
    split
    · simp
    · exact ih _

theorem cmdType_replies (c : Call) : Replies (cmdType (E := E) c) := by
  refine .after (onStore_silent _) fun r => ?_
  split
  · simp
  · exact simpleString_replies (by decide)
  · exact simpleString_replies (by decide)

theorem boolReply_replies (out : Bool × Except Err Unit) :
    Replies (boolReply (E := E) out) := by
  unfold boolReply
  split <;> simp

theorem expireCmd_replies (unit : ExpiryUnit) (c : Call) :
    Replies (expireCmd (E := E) unit c) := by
  unfold expireCmd
  split
  · simp
  · refine .after nowMs_silent fun now => ?_
    split
    · simp
    · split
      · simp
      · split
        · simp
        · exact .after nowMs_silent fun _ => .after (onStore_silent _) boolReply_replies

theorem ttlCmd_replies (divisor : ℤ) (c : Call) : Replies (ttlCmd (E := E) divisor c) := by
  refine .after (onStore_silent _) fun r => ?_
  split
  · simp
  · simp
  · split
    · simp
    · refine .after nowMs_silent fun now => ?_
      split <;> simp

theorem expireTimeCmd_replies (divisor : ℤ) (c : Call) :
    Replies (expireTimeCmd (E := E) divisor c) := by
  refine .after (onStore_silent _) fun r => ?_
  split
  · simp
  · simp
  · split <;> simp

theorem cmdPersist_replies (c : Call) : Replies (cmdPersist (E := E) c) :=
  .after (onStore_silent _) boolReply_replies

theorem writeBulks_writes (keys : List (Option Bytes)) :
    Writes keys.length (writeBulks (E := E) keys) := by
  induction keys with
  | nil => exact .pure ()
  | cons key rest ih => exact .next (fun ver => value_bulk ver key) ih

theorem bulks_writes (keys : List (Option Bytes)) : Writes 1 (bulks (E := E) keys) :=
  .array (.returning (writeBulks_writes keys) none)

theorem keysLoop_replies (pattern : Bytes) (pages cursor : ℕ) (vars : KeysVars) :
    Replies (keysLoop (E := E) pattern pages cursor vars) := by
  induction pages generalizing cursor vars with
  | zero => exact .panicking
  | succ pages ih =>
    refine .after (onStore_silent _) fun r => ?_
    split
    · simp
    · split_ifs
      · simp
      · exact .of_writes (bulks_writes _)
      · exact ih _ _

theorem page_replies (next : ℕ) (keys : List (Option Bytes)) :
    Replies (page (E := E) next keys) :=
  .of_writes (@Writes.array E _ 2 _ (.next (fun ver => value_bulkString ver _) (bulks_writes keys)))

theorem cmdScan_replies (c : Call) : Replies (cmdScan (E := E) c) := by
  unfold cmdScan
  split
  · simp
  · split
    · simp
    · split
      · exact page_replies _ _
      · refine .after (onStore_silent _) fun r => ?_
        split
        · simp
        · exact page_replies _ _

theorem randomKeyLoop_replies (cursors : List ℕ) :
    Replies (randomKeyLoop (E := E) cursors) := by
  induction cursors with
  | nil => exact null_replies
  | cons cursor rest ih =>
    refine .after (onStore_silent _) fun r => ?_
    split
    · simp
    · simp
    · exact ih

theorem cmdRandomKey_replies (c : Call) : Replies (cmdRandomKey (E := E) c) :=
  .after (onAmbient_silent _) fun _ => randomKeyLoop_replies _

theorem cmdDBSize_replies (c : Call) : Replies (cmdDBSize (E := E) c) := by
  refine .after (onStore_silent _) fun r => ?_
  split <;> simp

theorem removeSource_silent (src : Bytes) : Silent (removeSource (E := E) src) := by
  refine .bind (onStore_silent _) fun r => ?_
  split <;> exact pure_silent _

theorem renameKey_silent (nx : Bool) (c : Call) : Silent (renameKey (E := E) nx c) := by
  refine .bind (onStore_silent _) fun r => ?_
  split
  · exact pure_silent _
  · exact pure_silent _
  · split_ifs
    · exact pure_silent _
    · refine .bind (onStore_silent _) fun r => ?_
      split
      · exact pure_silent _
      · exact pure_silent _
      · exact removeSource_silent _
    · refine .bind (onStore_silent _) fun r => ?_
      split
      · exact pure_silent _
      · exact removeSource_silent _

theorem renamed_replies {done : Bool → M E (Option Err)} (h : ∀ b, Replies (done b))
    (r : Renamed) : Replies (renamed done r) := by
  unfold renamed
  split
  · simp
  · split
    · exact h _
    · simp

theorem cmdRename_replies (c : Call) : Replies (cmdRename (E := E) c) :=
  .after (renameKey_silent _ c) (renamed_replies (fun _ => ok_replies))

theorem cmdRenameNX_replies (c : Call) : Replies (cmdRenameNX (E := E) c) :=
  .after (renameKey_silent _ c) (renamed_replies bool_replies)

theorem cmdCopy_replies (c : Call) : Replies (cmdCopy (E := E) c) := by
  unfold cmdCopy
  split
  · simp
  · simp
  · split
    · simp
    · refine .after (onStore_silent _) fun r => ?_
      split
      · simp
      · simp
      · exact .after (onStore_silent _) boolReply_replies

theorem cmdFlush_replies (c : Call) : Replies (cmdFlush (E := E) c) := by
  unfold cmdFlush
  split
  · refine .after (onStore_silent _) fun r => ?_
    split <;> simp
  · simp

end Generic

section Connection

theorem cmdPing_replies (c : Call) : Replies (cmdPing (E := E) c) := by
  unfold cmdPing
  split_ifs
  · exact simpleString_replies (by decide)
  · simp
  · simp

theorem helloOptions_replies {done : M E (Option Err)} (hdone : Replies done)
    (opts : List Bytes) : Replies (helloOptions done opts) := by
  fun_induction helloOptions done opts with
  | case1 => exact hdone
  | case2 opt h user password rest ih =>
    refine .after (reading_silent _) fun good => ?_
    split
    · exact .after (onConn_silent _) fun _ => ih
    · exact errCode_replies _ _
  | case3 | case5 | case6 => simp
  | case4 opt h h' name rest ih => exact .after (onConn_silent _) fun _ => ih

theorem writeHello_writes (requested : Version) (id : ℕ) :
    Writes 1 (writeHello (E := E) requested id) := by
  have hstring : ∀ (s : Bytes) ver, Value ver (opBytes (writeBulkString s)) :=
    fun s ver => value_bulkString ver s
  have hint : ∀ (n : ℤ) ver, Value ver (opBytes (writeInt n)) := fun n ver => value_int ver n
  have hmodules : Writes 1 (write (E := E) (fun _ => writeArrayHeader 0) >>=
      fun _ => (pure none : M E (Option Err))) := .array (.pure none)
  refine @Writes.map E _ 7 _ ?_
  exact .next (hstring _) (.next (hstring _) (.next (hstring _) (.next (hstring _)
    (.next (hstring _) (.next (hint _) (.next (hstring _) (.next (hint _) (.next (hstring _)
    (.next (hstring _) (.next (hstring _) (.next (hstring _) (.next (hstring _)
    hmodules))))))))))))

theorem finishHello_replies (requested : Version) :
    Replies (finishHello (E := E) requested) := by
  refine .after (reading_silent _) fun conn => ?_
  split
  · exact .after (onConn_silent _) fun _ =>
      .after_setVersion (.of_writes (writeHello_writes _ _))
  · simp

theorem cmdHello_replies (c : Call) : Replies (cmdHello (E := E) c) := by
  refine .after (reading_silent _) fun conn => ?_
  split
  · exact finishHello_replies _
  · split
    · simp
    · split
      · simp
      · exact helloOptions_replies (finishHello_replies _) _

theorem authenticate_replies (password : Bytes) : Replies (authenticate (E := E) password) := by
  refine .after (reading_silent _) fun config => ?_
  split
  · simp
  · refine .after (reading_silent _) fun good => ?_
    split
    · exact .after (onConn_silent _) fun _ => ok_replies
    · exact errCode_replies _ _

theorem cmdAuth_replies (c : Call) : Replies (cmdAuth (E := E) c) := by
  unfold cmdAuth
  split_ifs
  · exact authenticate_replies _
  · exact errCode_replies _ _
  · exact authenticate_replies _
  · simp

theorem cmdSelect_replies (c : Call) : Replies (cmdSelect (E := E) c) := by
  unfold cmdSelect
  split
  · simp
  · split <;> simp

theorem cmdQuit_replies (c : Call) : Replies (cmdQuit (E := E) c) :=
  .after (onConn_silent _) fun _ => ok_replies

theorem cmdReset_replies (c : Call) : Replies (cmdReset (E := E) c) :=
  .after (reading_silent _) fun _ => .after (onConn_silent _) fun _ =>
    .after_setVersion (.after (onConn_silent _) fun _ => .after (onConn_silent _) fun _ =>
      simpleString_replies (by decide))

theorem formatClientLine_silent (conn : ConnState) :
    Silent (formatClientLine (E := E) conn) :=
  .bind (onAmbient_silent _) fun _ => .bind (reading_silent _) fun _ => pure_silent _

theorem clientLines_silent (conns : List ConnState) : Silent (clientLines (E := E) conns) := by
  induction conns with
  | nil => exact pure_silent _
  | cons conn rest ih =>
    exact .bind (formatClientLine_silent conn) fun _ => .bind ih fun _ => pure_silent _

theorem killMatching_replies (f : KillFilter) (self : ℕ) (conns : List ConnState) (killed : ℤ) :
    Replies (killMatching (E := E) f self conns killed) := by
  induction conns generalizing killed with
  | nil => exact int_replies killed
  | cons conn rest ih =>
    refine .after (reading_silent _) fun age => ?_
    split
    · exact ih _
    · exact .after (onAmbient_silent _) fun _ => ih _

theorem clientKill_replies (c : Call) : Replies (clientKill (E := E) c) := by
  unfold clientKill
  split
  · refine .after (reading_silent _) fun all => ?_
    split
    · exact .after (onAmbient_silent _) fun _ => ok_replies
    · simp
  · split
    · simp
    · simp
    · exact .after (reading_silent _) fun _ => .after (reading_silent _) fun _ =>
        killMatching_replies _ _ _ _

theorem cmdClient_replies (c : Call) : Replies (cmdClient (E := E) c) := by
  have hid : Replies (reading World.conn >>= fun conn => int (E := E) conn.id) :=
    .after (reading_silent _) fun _ => int_replies _
  have hgetname : Replies (reading World.conn >>= fun conn =>
      if conn.name ≠ [] then bulkString (E := E) conn.name else null) :=
    .after (reading_silent _) fun _ => .ite (bulkString_replies _) null_replies
  have hsetname : Replies (setName (E := E) (c.argString 2) >>= fun _ => ok) :=
    .after (onConn_silent _) fun _ => ok_replies
  have hinfo : Replies (reading World.conn >>= fun conn =>
      formatClientLine (E := E) conn >>= bulkString) :=
    .after (reading_silent _) fun _ => .after (formatClientLine_silent _) bulkString_replies
  have hlist : Replies (clients >>= fun all => clientLines (E := E) all >>= bulkString) :=
    .after (reading_silent _) fun _ => .after (clientLines_silent _) bulkString_replies
  exact .ite hid (.ite hgetname (.ite (.ite (errWrongArgs_replies c) (.ite (err_replies _)
    hsetname)) (.ite hinfo (.ite hlist (.ite (clientKill_replies c) (.ite ok_replies
    (.ite (.ite (errWrongArgs_replies c) ok_replies) (err_replies _))))))))

end Connection

end RedisFromScratch.CommandReplies
