import RedisFromScratch.CommandReplies
import RedisFromScratch.SmallServer

/-!
The replies to a pipeline. Whatever the string, generic and connection commands of a
pipeline are and whatever the store answers, each command that is dispatched appends
one value to the stream, and the stream can be read in one way only: one value for
each command, in order.
-/
namespace RedisFromScratch.ReplyStreams

open ByteStrings ReplyWriter StatePrograms CommandContext RespValues ReplyCounts
open StringCommands GenericCommands ConnectionCommands ServerCommands CommandTable
open CommandReplies SmallServer

variable {E : Env} {α : Type}

/-- One value, of the dialect the writer is left with. -/
def Answers (m : Prog (Server E) α) : Prop := Ensures (fun s _ s' =>
  ∃ v, Value s'.world.ver v ∧ outBytes s'.world = outBytes s.world ++ v) m

theorem lift_answers {m : M E α} (h : Replies m) : Answers (lift m) := by
  intro s a s' hrun
  obtain ⟨⟨b, w⟩, hw, heq⟩ := Option.map_eq_some_iff.mp hrun
  cases heq
  exact h s.world b w hw

theorem lift_silent {m : M E α} (h : Silent m) :
    Ensures (fun s _ s' => SameReply s.world s'.world) (lift m) := by
  intro s a s' hrun
  obtain ⟨⟨b, w⟩, hw, heq⟩ := Option.map_eq_some_iff.mp hrun
  cases heq
  exact h s.world b w hw

theorem touch_silent (name : Bytes) : Silent (touch (E := E) name) :=
  .bind (onAmbient_silent _) fun _ => onConn_silent _

def Answering (cmd : Command E) : Prop := ∀ c, Answers (cmd.handler c)

theorem command_answering {name : String} {arity : ℤ} {flags : List Flag} {keys : ℤ × ℤ × ℤ}
    {summary since : String} {handler : Handler E} (h : ∀ c, Replies (handler c)) :
    Answering (command name arity flags keys summary since handler) :=
  fun c => lift_answers (h c)

theorem registerConnection_answering :
    ∀ cmd ∈ registerConnection (E := E), Answering cmd := by
  simp only [registerConnection, List.forall_mem_cons]
  exact ⟨command_answering cmdPing_replies, command_answering (fun _ => bulk_replies _),
    command_answering cmdHello_replies, command_answering cmdAuth_replies,
    command_answering cmdSelect_replies, command_answering (fun _ => err_replies _),
    command_answering cmdQuit_replies, command_answering cmdReset_replies,
    command_answering cmdClient_replies, List.forall_mem_nil _⟩

theorem registerString_answering : ∀ cmd ∈ registerString (E := E), Answering cmd := by
  simp only [registerString, List.forall_mem_cons]
  exact ⟨command_answering cmdGet_replies, command_answering cmdSet_replies,
    command_answering cmdSetNX_replies, command_answering (setWithTTL_replies _),
    command_answering (setWithTTL_replies _), command_answering cmdGetSet_replies,
    command_answering cmdGetDel_replies, command_answering cmdGetEx_replies,
    command_answering cmdMGet_replies, command_answering cmdMSet_replies,
    command_answering cmdMSetNX_replies, command_answering cmdAppend_replies,
    command_answering cmdStrlen_replies, command_answering (incrBy_replies _),
    command_answering (incrBy_replies _), command_answering cmdIncrBy_replies,
    command_answering cmdDecrBy_replies, command_answering cmdIncrByFloat_replies,
    command_answering cmdGetRange_replies, command_answering cmdGetRange_replies,
    command_answering cmdSetRange_replies, List.forall_mem_nil _⟩

theorem registerGeneric_answering : ∀ cmd ∈ registerGeneric (E := E), Answering cmd := by
  simp only [registerGeneric, List.forall_mem_cons]
  exact ⟨command_answering (fun _ => delLoop_replies _ _),
    command_answering (fun _ => delLoop_replies _ _),
    command_answering (fun _ => existsLoop_replies _ _),
    command_answering (fun _ => existsLoop_replies _ _), command_answering cmdType_replies,
    command_answering (expireCmd_replies _), command_answering (expireCmd_replies _),
    command_answering (expireCmd_replies _), command_answering (expireCmd_replies _),
    command_answering (ttlCmd_replies _), command_answering (ttlCmd_replies _),
    command_answering (expireTimeCmd_replies _), command_answering (expireTimeCmd_replies _),
    command_answering cmdPersist_replies,
    command_answering (fun _ => keysLoop_replies _ _ _ _), command_answering cmdScan_replies,
    command_answering cmdRandomKey_replies, command_answering cmdDBSize_replies,
    command_answering cmdRename_replies, command_answering cmdRenameNX_replies,
    command_answering cmdCopy_replies, command_answering cmdFlush_replies,
    command_answering cmdFlush_replies, List.forall_mem_nil _⟩

/-- The commands of the three files. -/
def replying : List (Command E) := registerConnection ++ registerString ++ registerGeneric

theorem replying_answering : ∀ cmd ∈ replying (E := E), Answering cmd := by
  intro cmd hcmd
  rcases List.mem_append.mp hcmd with hcmd | hcmd
  · rcases List.mem_append.mp hcmd with hcmd | hcmd
    · exact registerConnection_answering cmd hcmd
    · exact registerString_answering cmd hcmd
  · exact registerGeneric_answering cmd hcmd

/-- A command that is turned down is replied to as well. -/
theorem runCommand_answers {cmd : Command E} (h : Answering cmd) (c : Call) :
    Answers (runCommand cmd c) := by
  have hran : Answers
      (cmd.handler c >>= fun res => lift (touch cmd.name) >>= fun _ => pure res) := by
    refine Ensures.bind (h c) (fun res => (lift_silent (touch_silent cmd.name)).returning res) ?_
    rintro s res s' b s'' ⟨v, hv, hout⟩ ⟨hsame, hver⟩
    refine ⟨v, hver ▸ hv, ?_⟩
    rw [outBytes, hsame]
    exact hout
  unfold runCommand
  split
  · exact lift_answers (errWrongArgs_replies c)
  · refine Ensures.reading_bind fun conn => ?_
    split
    · exact lift_answers (errCode_replies _ _)
    · exact hran

/-- A command of the three files, or one that no table entry matches. -/
def InScope (E : Env) (args : List Bytes) : Prop :=
  ∃ arg rest, args = arg :: rest ∧
    ∀ cmd, lookupFast (newTable (E := E)) arg = some cmd → cmd ∈ replying (E := E)

theorem dispatch_answers {args : List Bytes} (h : InScope E args) :
    Answers (dispatch (newTable (E := E)) args) := by
  obtain ⟨arg, rest, rfl, hcmd⟩ := h
  cases hlookup : lookupFast (newTable (E := E)) arg with
  | none =>
    rw [dispatch_of_none hlookup]
    exact lift_answers (err_replies _)
  | some cmd =>
    rw [dispatch_of_some hlookup]
    exact runCommand_answers (replying_answering cmd (hcmd cmd hlookup)) _

/-- Commands dispatched one after another. -/
def pipeline (table : List (Command E)) : List (List Bytes) → Prog (Server E) Unit
  | [] => pure ()
  | args :: rest => do
      let _ ← dispatch table args
      pipeline table rest

/-- The replies to the commands of a pipeline: each is a value of the dialect the writer
has when its command is done, and is all that the command has appended. -/
inductive Answered : List (List Bytes) → Server E → List Bytes → Server E → Prop
  | nil (s : Server E) : Answered [] s [] s
  | cons {args : List Bytes} {cmds : List (List Bytes)} {s s₁ s₂ : Server E} {e : Option Err}
      {v : Bytes} {vs : List Bytes} (hrun : dispatch newTable args s = some (e, s₁))
      (hvalue : Value s₁.world.ver v) (hout : outBytes s₁.world = outBytes s.world ++ v)
      (hrest : Answered cmds s₁ vs s₂) : Answered (args :: cmds) s (v :: vs) s₂

namespace Answered

variable {cmds : List (List Bytes)} {s s' : Server E} {vs : List Bytes}

theorem length_eq (h : Answered cmds s vs s') : vs.length = cmds.length := by
  induction h with
  | nil => rfl
  | cons _ _ _ _ ih => rw [List.length_cons, List.length_cons, ih]

theorem replies (h : Answered cmds s vs s') : ∀ v ∈ vs, Reply v := by
  induction h with
  | nil => simp
  | cons _ hvalue _ _ ih => exact List.forall_mem_cons.mpr ⟨⟨_, hvalue⟩, ih⟩

theorem stream (h : Answered cmds s vs s') :
    outBytes s'.world = outBytes s.world ++ vs.flatten := by
  induction h with
  | nil => exact (List.append_nil _).symm
  | cons _ _ hout _ ih => rw [ih, hout, List.flatten_cons, List.append_assoc]

end Answered

theorem pipeline_answered {cmds : List (List Bytes)} (hscope : ∀ args ∈ cmds, InScope E args)
    {s s' : Server E} (hrun : pipeline newTable cmds s = some ((), s')) :
    ∃ vs, Answered cmds s vs s' := by
  induction cmds generalizing s with
  | nil =>
    cases hrun
    exact ⟨[], .nil s'⟩
  | cons args cmds ih =>
    obtain ⟨⟨e, s₁⟩, hfirst, hrest⟩ := Option.bind_eq_some_iff.mp hrun
    obtain ⟨v, hvalue, hout⟩ :=
      dispatch_answers (hscope args List.mem_cons_self) s e s₁ hfirst
    obtain ⟨vs, hvs⟩ := ih (fun a ha => hscope a (List.mem_cons_of_mem args ha)) hrest
    exact ⟨v :: vs, .cons hfirst hvalue hout hvs⟩

/-- One reply for each command of a pipeline, in order, and no other way to read the stream. -/
theorem one_reply_per_command (E : Env) (cmds : List (List Bytes))
    (hscope : ∀ args ∈ cmds, InScope E args) (s s' : Server E)
    (hrun : pipeline newTable cmds s = some ((), s')) :
    ∃ vs, vs.length = cmds.length ∧ Answered cmds s vs s' ∧
      outBytes s'.world = outBytes s.world ++ vs.flatten ∧
      ∀ us, (∀ u ∈ us, Reply u) → outBytes s'.world = outBytes s.world ++ us.flatten →
        us = vs := by
  obtain ⟨vs, hvs⟩ := pipeline_answered hscope hrun
  refine ⟨vs, hvs.length_eq, hvs, hvs.stream, ?_⟩
  intro us hus hout
  rw [hvs.stream] at hout
  exact (replies_unique hvs.replies hus (List.append_cancel_left hout)).symm

theorem inScope_ping : InScope memoryEnv [ofString "PING"] := by
  refine ⟨_, _, rfl, fun cmd hcmd => ?_⟩
  have hping : lookupFast (newTable (E := memoryEnv)) (ofString "PING") =
      registerConnection[0]? := rfl
  rw [hping] at hcmd
  cases hcmd
  exact List.mem_cons_self

theorem inScope_get (key : Bytes) : InScope memoryEnv [ofString "GET", key] := by
  refine ⟨_, _, rfl, fun cmd hcmd => ?_⟩
  have hget : lookupFast (newTable (E := memoryEnv)) (ofString "GET") = registerString[0]? := rfl
  rw [hget] at hcmd
  cases hcmd
  exact List.mem_append_left _ (List.mem_append_right _ List.mem_cons_self)

/-- Two commands, the second of them about a key that is not there. -/
theorem ping_and_get_replied :
    ∃ s' vs, Answered [[ofString "PING"], [ofString "GET", [1]]]
      (smallServer (fun _ => none) [] true) vs s' ∧ vs.length = 2 := by
  obtain ⟨s', hrun⟩ : ∃ s', pipeline newTable [[ofString "PING"], [ofString "GET", [1]]]
      (smallServer (fun _ => none) [] true) = some ((), s') := ⟨_, rfl⟩
  obtain ⟨vs, hlength, hvs, -⟩ := one_reply_per_command memoryEnv _
    (List.forall_mem_cons.mpr ⟨inScope_ping, List.forall_mem_cons.mpr ⟨inScope_get _, by simp⟩⟩)
    _ _ hrun
  exact ⟨s', vs, hvs, hlength⟩

end RedisFromScratch.ReplyStreams
