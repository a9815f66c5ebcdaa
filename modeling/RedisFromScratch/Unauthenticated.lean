import RedisFromScratch.CommandReplies
import RedisFromScratch.SmallServer

/-!
What a connection can do before it has authenticated. The dispatcher lets six
commands through; the handshake, AUTH, QUIT, RESET and COMMAND change nothing but the
connection and the replies. The sixth is SHUTDOWN, and it is carried out.
-/
namespace RedisFromScratch.Unauthenticated

open ByteStrings ReplyWriter StatePrograms CommandContext
open GenericCommands ConnectionCommands ServerCommands CommandTable SmallServer

variable {E : Env} {α : Type}

/-- The store, the configuration and the running state are what they were. -/
def Unchanged (w w' : World E) : Prop :=
  w'.store = w.store ∧ w'.config = w.config ∧ w'.running = w.running

instance : Std.Refl (Unchanged (E := E)) := ⟨fun _ => ⟨rfl, rfl, rfl⟩⟩

instance : IsTrans (World E) Unchanged :=
  ⟨fun _ _ _ h h' => ⟨h'.1.trans h.1, h'.2.1.trans h.2.1, h'.2.2.trans h.2.2⟩⟩

def Harmless (m : M E α) : Prop := Keeps Unchanged m

section Parts

theorem write_harmless (f : Version → List WriterOp) : Harmless (write (E := E) f) :=
  Ensures.changing (fun _ => ⟨rfl, rfl, rfl⟩)

theorem setVersion_harmless (ver : Version) : Harmless (setVersion (E := E) ver) :=
  Ensures.changing (fun _ => ⟨rfl, rfl, rfl⟩)

theorem onConn_harmless (f : ConnState → ConnState) : Harmless (onConn (E := E) f) :=
  Ensures.changing (fun _ => ⟨rfl, rfl, rfl⟩)

theorem onAmbient_harmless (f : E.Ambient → α × E.Ambient) : Harmless (onAmbient f) :=
  Ensures.acting (fun _ => ⟨rfl, rfl, rfl⟩)

theorem reply_harmless (f : Version → List WriterOp) : Harmless (reply (E := E) f) :=
  Keeps.bind (write_harmless f) (fun _ => Keeps.pure none)

end Parts

section Handshake

theorem helloOptions_harmless {done : M E (Option Err)} (hdone : Harmless done)
    (opts : List Bytes) : Harmless (helloOptions done opts) := by
  fun_induction helloOptions done opts with
  | case1 => exact hdone
  | case2 opt h user password rest ih =>
    refine Keeps.bind (Keeps.reading _) fun good => ?_
    split
    · exact Keeps.bind (onConn_harmless _) fun _ => ih
    · exact reply_harmless _
  | case3 | case5 | case6 => exact reply_harmless _
  | case4 opt h h' name rest ih => exact Keeps.bind (onConn_harmless _) fun _ => ih

theorem writeHello_harmless (requested : Version) (id : ℕ) :
    Harmless (writeHello (E := E) requested id) := by
  repeat refine Keeps.bind (write_harmless _) fun _ => ?_
  exact Keeps.pure none

theorem finishHello_harmless (requested : Version) :
    Harmless (finishHello (E := E) requested) := by
  refine Keeps.bind (Keeps.reading _) fun conn => ?_
  split
  · exact Keeps.bind (onConn_harmless _) fun _ => Keeps.bind (setVersion_harmless _) fun _ =>
      writeHello_harmless _ _
  · exact reply_harmless _

theorem cmdHello_harmless (c : Call) : Harmless (cmdHello (E := E) c) := by
  refine Keeps.bind (Keeps.reading _) fun conn => ?_
  split
  · exact finishHello_harmless _
  · split
    · exact reply_harmless _
    · split
      · exact reply_harmless _
      · exact helloOptions_harmless (finishHello_harmless _) _

theorem authenticate_harmless (password : Bytes) :
    Harmless (authenticate (E := E) password) := by
  refine Keeps.bind (Keeps.reading _) fun config => ?_
  split
  · exact reply_harmless _
  · refine Keeps.bind (Keeps.reading _) fun good => ?_
    split
    · exact Keeps.bind (onConn_harmless _) fun _ => reply_harmless _
    · exact reply_harmless _

theorem cmdAuth_harmless (c : Call) : Harmless (cmdAuth (E := E) c) := by
  unfold cmdAuth
  split_ifs
  · exact authenticate_harmless _
  · exact reply_harmless _
  · exact authenticate_harmless _
  · exact reply_harmless _

theorem cmdQuit_harmless (c : Call) : Harmless (cmdQuit (E := E) c) :=
  Keeps.bind (onConn_harmless _) fun _ => reply_harmless _

theorem cmdReset_harmless (c : Call) : Harmless (cmdReset (E := E) c) :=
  Keeps.bind (Keeps.reading _) fun _ => Keeps.bind (onConn_harmless _) fun _ =>
    Keeps.bind (setVersion_harmless _) fun _ => Keeps.bind (onConn_harmless _) fun _ =>
      Keeps.bind (onConn_harmless _) fun _ => reply_harmless _

end Handshake

section Describing

theorem withCommand_harmless (c : Call) (name : Bytes) {k : CommandInfo → M E α}
    (h : ∀ cmd, Harmless (k cmd)) : Harmless (withCommand c name k) := by
  unfold withCommand
  split
  · exact h _
  · exact Ensures.panicking

theorem writeInfos_harmless (c : Call) (names : List Bytes) :
    Harmless (writeInfos (E := E) c names) := by
  induction names with
  | nil => exact Keeps.pure none
  | cons name rest ih =>
    exact Keeps.bind (withCommand_harmless c name fun _ => write_harmless _) fun _ => ih

theorem describeEach_harmless (c : Call) (names : List Bytes) :
    Harmless (describeEach (E := E) c names) := by
  induction names with
  | nil => exact Keeps.pure none
  | cons name rest ih => exact Keeps.bind (write_harmless _) fun _ => ih

theorem writeDocs_harmless (c : Call) (names : List Bytes) :
    Harmless (writeDocs (E := E) c names) := by
  induction names with
  | nil => exact Keeps.pure none
  | cons name rest ih =>
    exact Keeps.bind (withCommand_harmless c name fun _ => write_harmless _) fun _ => ih

theorem bulks_harmless (keys : List (Option Bytes)) : Harmless (bulks (E := E) keys) := by
  have hkeys : Harmless (writeBulks (E := E) keys) := by
    induction keys with
    | nil => exact Keeps.pure ()
    | cons key rest ih => exact Keeps.bind (write_harmless _) fun _ => ih
  exact Keeps.bind (write_harmless _) fun _ => Keeps.bind hkeys fun _ => Keeps.pure none

theorem commandGetKeys_harmless (c : Call) : Harmless (commandGetKeys (E := E) c) := by
  unfold commandGetKeys
  split
  · exact reply_harmless _
  · split
    · exact reply_harmless _
    · exact Ensures.ite (reply_harmless _) (Ensures.ite (reply_harmless _)
        (Ensures.ite (reply_harmless _) (bulks_harmless _)))

end Describing

/-- The same for a program that may reach the names of the table. -/
def HarmlessOn (m : Prog (Server E) α) : Prop :=
  Ensures (fun s _ s' => Unchanged s.world s'.world) m

theorem lift_harmless {m : M E α} (h : Harmless m) : HarmlessOn (lift m) := by
  intro s a s' hrun
  obtain ⟨⟨b, w⟩, hw, heq⟩ := Option.map_eq_some_iff.mp hrun
  cases heq
  exact h s.world b w hw

theorem commandDocs_harmless (c : Call) : HarmlessOn (commandDocs (E := E) c) := by
  have hdocs : ∀ names, HarmlessOn (lift (writeAllDocs (E := E) c names)) := fun names =>
    lift_harmless (Keeps.bind (write_harmless _) fun _ => writeDocs_harmless c names)
  unfold commandDocs
  split
  · refine Ensures.bind (P := fun s _ s' => s'.world = s.world)
      (Ensures.changing (fun _ => rfl)) (fun _ => hdocs _) ?_
    rintro s _ s' b s'' hworld h
    rw [← hworld]
    exact h
  · exact Ensures.reading_bind hdocs

theorem cmdCommand_harmless (c : Call) : HarmlessOn (cmdCommand (E := E) c) := by
  have hall : ∀ names, HarmlessOn (lift (describeAll (E := E) c names)) := fun names =>
    lift_harmless (Keeps.bind (write_harmless _) fun _ => writeInfos_harmless c names)
  refine Ensures.reading_bind fun names => ?_
  split_ifs
  · exact hall names
  · exact lift_harmless (reply_harmless _)
  · exact commandDocs_harmless c
  · exact hall names
  · exact lift_harmless (Keeps.bind (write_harmless _) fun _ => describeEach_harmless c _)
  · exact lift_harmless (Keeps.bind (write_harmless _) fun _ => Keeps.pure none)
  · exact lift_harmless (commandGetKeys_harmless c)
  · exact lift_harmless (reply_harmless _)

/-- What the dispatcher's check leaves of a command: it needs authentication, or it is
harmless, or it is SHUTDOWN. -/
def Guarded (cmd : Command E) : Prop :=
  .noAuth ∉ cmd.flags ∨ (∀ c, HarmlessOn (cmd.handler c)) ∨
    (cmd.name = ofString "shutdown" ∧ cmd.handler = fun c => lift (cmdShutdown c))

section Table

variable {name : String} {arity : ℤ} {flags : List Flag} {keys : ℤ × ℤ × ℤ}
  {summary since : String} {handler : Handler E}

theorem guarded_of_flags (h : .noAuth ∉ flags) :
    Guarded (command name arity flags keys summary since handler) := Or.inl h

theorem guarded_of_harmless (h : ∀ c, Harmless (handler c)) :
    Guarded (command name arity flags keys summary since handler) :=
  Or.inr (Or.inl (fun c => lift_harmless (h c)))

theorem registerConnection_guarded : ∀ cmd ∈ registerConnection (E := E), Guarded cmd := by
  simp only [registerConnection, List.forall_mem_cons]
  exact ⟨guarded_of_flags (by decide), guarded_of_flags (by decide),
    guarded_of_harmless cmdHello_harmless, guarded_of_harmless cmdAuth_harmless,
    guarded_of_flags (by decide), guarded_of_flags (by decide),
    guarded_of_harmless cmdQuit_harmless, guarded_of_harmless cmdReset_harmless,
    guarded_of_flags (by decide), List.forall_mem_nil _⟩

theorem registerString_flags :
    ∀ cmd ∈ registerString (E := E), .noAuth ∉ cmd.toCommandInfo.flags := by
  simp [registerString, command, onTable]

theorem registerGeneric_flags :
    ∀ cmd ∈ registerGeneric (E := E), .noAuth ∉ cmd.toCommandInfo.flags := by
  simp [registerGeneric, command, onTable]

theorem registerServer_guarded : ∀ cmd ∈ registerServer (E := E), Guarded cmd := by
  simp only [registerServer, List.forall_mem_cons]
  exact ⟨guarded_of_flags (by decide), Or.inr (Or.inl cmdCommand_harmless),
    guarded_of_flags (by decide), guarded_of_flags (by decide), guarded_of_flags (by decide),
    guarded_of_flags (by decide), guarded_of_flags (by decide), Or.inr (Or.inr ⟨rfl, rfl⟩),
    guarded_of_flags (by decide), guarded_of_flags (by decide), guarded_of_flags (by decide),
    guarded_of_flags (by decide), guarded_of_flags (by decide), guarded_of_flags (by decide),
    List.forall_mem_nil _⟩

theorem newTable_guarded : ∀ cmd ∈ newTable (E := E), Guarded cmd := by
  intro cmd hcmd
  rcases List.mem_append.mp hcmd with hcmd | hcmd
  · rcases List.mem_append.mp hcmd with hcmd | hcmd
    · rcases List.mem_append.mp hcmd with hcmd | hcmd
      · exact registerConnection_guarded cmd hcmd
      · exact Or.inl (registerString_flags cmd hcmd)
    · exact Or.inl (registerGeneric_flags cmd hcmd)
  · exact registerServer_guarded cmd hcmd

end Table

/-- SHUTDOWN with options it accepts. -/
def RequestsShutdown (E : Env) (args : List Bytes) : Prop :=
  ∃ arg rest, args = arg :: rest ∧ arg.map foldByte = ofString "shutdown" ∧
    parseShutdownOptions E rest true ≠ none

theorem cmdShutdown_harmless {c : Call}
    (h : parseShutdownOptions E (c.args.drop 1) true = none) :
    Harmless (cmdShutdown (E := E) c) := by
  unfold cmdShutdown
  rw [h]
  exact reply_harmless _

theorem touch_harmless (name : Bytes) : Harmless (touch (E := E) name) :=
  Keeps.bind (onAmbient_harmless _) fun _ => onConn_harmless _

/-- A command that runs on a connection that has not authenticated. -/
theorem runCommand_unchanged {cmd : Command E} {c : Call} {s s' : Server E} {e : Option Err}
    (hhandler : .noAuth ∈ cmd.flags → HarmlessOn (cmd.handler c))
    (hconn : s.world.conn.authenticated = false) (hrun : runCommand cmd c s = some (e, s')) :
    Unchanged s.world s'.world := by
  have hran : .noAuth ∈ cmd.flags → HarmlessOn
      (cmd.handler c >>= fun res => lift (touch cmd.name) >>= fun _ => pure res) := fun hflag =>
    Ensures.bind (hhandler hflag)
      (fun res => (lift_harmless (touch_harmless cmd.name)).returning res)
      (fun _ _ _ _ _ h h' => IsTrans.trans _ _ _ h h')
  unfold runCommand at hrun
  split at hrun
  · exact lift_harmless (reply_harmless _) s e s' hrun
  · obtain ⟨⟨conn, s₀⟩, hread, hrun⟩ := Option.bind_eq_some_iff.mp hrun
    cases hread
    by_cases hflag : .noAuth ∈ cmd.flags
    · simp only [hflag, not_true_eq_false, decide_false, Bool.and_false, Bool.false_eq_true,
        if_false] at hrun
      exact hran hflag _ e s' hrun
    · simp only [hflag, hconn, not_false_eq_true, decide_true, Bool.not_false, Bool.and_true,
        if_true] at hrun
      exact lift_harmless (reply_harmless _) _ e s' hrun

end RedisFromScratch.Unauthenticated
