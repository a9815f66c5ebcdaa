import RedisFromScratch.SmallServer

/-!
The names of the command table over a sequence of commands, from whatever connections
they come. COMMAND DOCS with names to look up collects what it finds in the array
behind the table's own list. The list survives exactly when what is collected is a
beginning of it already.
-/
namespace RedisFromScratch.TableNames

open ByteStrings ReplyWriter StatePrograms CommandContext
open ServerCommands CommandTable SmallServer Relation Runs

variable {E : Env} {α : Type}

/-- Writing over the beginning of a list changes nothing when it is written already. -/
theorem appendInPlace_eq_self_iff (backing items : List Bytes) :
    appendInPlace backing items = backing ↔ items.take backing.length <+: backing := by
  unfold appendInPlace
  constructor
  · intro h
    exact ⟨_, h⟩
  · intro h
    have htake := List.prefix_iff_eq_take.mp h
    have hlength : (items.take backing.length).length = min backing.length items.length :=
      List.length_take
    by_cases hle : items.length ≤ backing.length
    · rw [hlength, Nat.min_eq_right hle] at htake
      rw [htake, List.take_append_drop]
    · rw [hlength, Nat.min_eq_left (by omega), List.take_length] at htake
      rw [htake, List.drop_eq_nil_of_le (by omega), List.append_nil]

/-- The names stay what they are. -/
def KeepsNames (m : Prog (Server E) α) : Prop := Keeps (fun s s' => s'.names = s.names) m

theorem lift_keepsNames (m : M E α) : KeepsNames (lift m) := by
  intro s a s' hrun
  obtain ⟨⟨b, w⟩, -, heq⟩ := Option.map_eq_some_iff.mp hrun
  cases heq
  rfl

/-- Every handler but one is a program that does not see the names. -/
theorem newTable_handlers : ∀ cmd ∈ newTable (E := E),
    (cmd.name = ofString "command" ∧ cmd.handler = cmdCommand) ∨
      ∀ c, KeepsNames (cmd.handler c) := by
  have hplain : ∀ {name : String} {arity : ℤ} {flags : List Flag} {keys : ℤ × ℤ × ℤ}
      {summary since : String} {handler : Handler E} {c : Call},
      KeepsNames ((command name arity flags keys summary since handler).handler c) :=
    lift_keepsNames _
  simp only [newTable, registerConnection, registerString, registerGeneric, registerServer,
    List.cons_append, List.nil_append, List.forall_mem_cons]
  repeat' apply And.intro
  all_goals first
    | exact Or.inr fun _ => hplain
    | exact Or.inl ⟨rfl, rfl⟩
    | exact List.forall_mem_nil _

/-- The commands that write into the array: what they collect. -/
def collected (E : Env) (args : List Bytes) : List Bytes :=
  docsNames E ⟨args, ofString "command", (newTable (E := E)).map (fun cmd => cmd.toCommandInfo)⟩

/-- COMMAND DOCS, with or without names behind it. -/
def AsksForDocs (E : Env) (args : List Bytes) : Prop :=
  ∃ arg sub rest, args = arg :: sub :: rest ∧ arg.map foldByte = ofString "command" ∧
    E.lower sub = ofString "docs"

theorem commandDocs_names {c : Call} {s s' : Server E} {e : Option Err}
    (hrun : commandDocs c s = some (e, s')) :
    s'.names = appendInPlace s.names (docsNames E c) := by
  unfold commandDocs at hrun
  split at hrun
  · exact lift_keepsNames _ _ e s' hrun
  · rename_i hargc
    have hnone : docsNames E c = [] := by
      unfold docsNames
      rw [List.drop_eq_nil_of_le (Nat.le_of_not_lt hargc)]
      rfl
    rw [hnone, (appendInPlace_eq_self_iff _ _).mpr (by rw [List.take_nil]; exact List.nil_prefix)]
    exact lift_keepsNames _ s e s' hrun

theorem cmdCommand_names {c : Call} {s s' : Server E} {e : Option Err}
    (hrun : cmdCommand c s = some (e, s')) :
    s'.names = s.names ∨
      (c.argc ≠ 1 ∧ E.lower (c.argString 1) = ofString "docs" ∧
        s'.names = appendInPlace s.names (docsNames E c)) := by
  unfold cmdCommand at hrun
  obtain ⟨⟨names, s₀⟩, hread, hrun⟩ := Option.bind_eq_some_iff.mp hrun
  cases hread
  split_ifs at hrun with hargc _ hdocs
  · exact Or.inl (lift_keepsNames _ s e s' hrun)
  · exact Or.inl (lift_keepsNames _ s e s' hrun)
  · exact Or.inr ⟨hargc, hdocs, commandDocs_names hrun⟩
  all_goals exact Or.inl (lift_keepsNames _ s e s' hrun)

/-- What a handler does to the names is all that the dispatcher does to them. -/
theorem runCommand_names {cmd : Command E} {c : Call} {s s' : Server E} {e : Option Err}
    (hrun : runCommand cmd c s = some (e, s')) :
    s'.names = s.names ∨ ∃ e' s₁, cmd.handler c s = some (e', s₁) ∧ s'.names = s₁.names := by
  unfold runCommand at hrun
  split at hrun
  · exact Or.inl (lift_keepsNames _ s e s' hrun)
  · obtain ⟨⟨conn, s₀⟩, hread, hrun⟩ := Option.bind_eq_some_iff.mp hrun
    cases hread
    dsimp only at hrun
    split at hrun
    · exact Or.inl (lift_keepsNames _ s e s' hrun)
    · obtain ⟨⟨res, s₁⟩, hhandler, hrest⟩ := Option.bind_eq_some_iff.mp hrun
      obtain ⟨⟨u, s₂⟩, htouched, hdone⟩ := Option.bind_eq_some_iff.mp hrest
      cases hdone
      exact Or.inr ⟨res, s₁, hhandler, lift_keepsNames _ s₁ u s₂ htouched⟩

/-- A command leaves the names alone, or it is COMMAND DOCS and writes over them. -/
theorem dispatch_names {args : List Bytes} {s s' : Server E} {e : Option Err}
    (hrun : dispatch newTable args s = some (e, s')) :
    s'.names = s.names ∨
      (AsksForDocs E args ∧ s'.names = appendInPlace s.names (collected E args)) := by
  cases args with
  | nil =>
    cases hrun
    exact Or.inl rfl
  | cons arg args =>
    cases hlookup : lookupFast (newTable (E := E)) arg with
    | none =>
      rw [dispatch_of_none hlookup] at hrun
      exact Or.inl (lift_keepsNames _ s e s' hrun)
    | some cmd =>
      rw [dispatch_of_some hlookup] at hrun
      obtain ⟨hmem, hname⟩ := mem_of_lookupFast hlookup
      rcases runCommand_names hrun with hsame | ⟨e', s₁, hhandler, hsame⟩
      · exact Or.inl hsame
      · rcases newTable_handlers cmd hmem with ⟨hcommand, hcmd⟩ | hkeeps
        · rw [hcmd, hcommand] at hhandler
          rcases cmdCommand_names hhandler with hnames | ⟨hargc, hdocs, hnames⟩
          · exact Or.inl (hsame.trans hnames)
          · cases args with
            | nil => exact absurd rfl hargc
            | cons sub rest =>
              exact Or.inr ⟨⟨arg, sub, rest, rfl, by rw [← hname, hcommand], hdocs⟩,
                hsame.trans hnames⟩
        · exact Or.inl (hsame.trans (hkeeps _ s e' s₁ hhandler))

section Names

/-- The names do not depend on what the commands run on. -/
theorem names_eq (E : Env) : (newTable (E := E)).map (fun cmd => cmd.name) =
    (newTable (E := memoryEnv)).map (fun cmd => cmd.name) := rfl

/-- No name is registered twice. -/
theorem names_nodup (E : Env) : ((newTable (E := E)).map (fun cmd => cmd.name)).Nodup := by
  rw [names_eq]
  decide +kernel

theorem mem_newNames (E : Env) (name : Bytes) :
    name ∈ newNames E ↔ ∃ cmd ∈ newTable (E := E), cmd.name = name := by
  rw [newNames, (List.perm_insertionSort _ _).mem_iff, List.mem_map]

theorem newNames_sorted (E : Env) : (newNames E).Pairwise (· < ·) := by
  have hle : (newNames E).Pairwise (· ≤ ·) := List.pairwise_insertionSort _ _
  have hne : (newNames E).Nodup := (List.perm_insertionSort _ _).nodup_iff.mpr (names_nodup E)
  exact (hle.and hne).imp (fun h => lt_of_le_of_ne h.1 h.2)

end Names

/-- A command from any connection, dispatched in whatever state the server is in. -/
def Step (E : Env) (names args names' : List Bytes) : Prop :=
  ∃ (world : World E) (e : Option Err) (s' : Server E),
    dispatch newTable args ⟨world, names⟩ = some (e, s') ∧ s'.names = names'

/-- What a command collects is a beginning of the names already. -/
def WritesNothingNew (E : Env) (names args : List Bytes) : Prop :=
  AsksForDocs E args → (collected E args).take names.length <+: names

theorem step_keeps {names args names' : List Bytes} (hstep : Step E names args names')
    (hok : WritesNothingNew E names args) : names' = names := by
  obtain ⟨world, e, s', hrun, rfl⟩ := hstep
  rcases dispatch_names hrun with hsame | ⟨hdocs, hnames⟩
  · exact hsame
  · rw [hnames]
    exact (appendInPlace_eq_self_iff _ _).mpr (hok hdocs)

/-- After every sequence of commands that write nothing new the names are those of all
registered commands, sorted, each once. -/
theorem names_stay_complete (E : Env) (names : List Bytes)
    (hrun : ReflTransGen (Taking (Step E) (WritesNothingNew E)) (newNames E) names) :
    names.Pairwise (· < ·) ∧
      ∀ name, name ∈ names ↔ ∃ cmd ∈ newTable (E := E), cmd.name = name := by
  have hsame : names = newNames E := by
    refine run_preserves (fun names => names = newNames E) ?_ hrun rfl
    rintro s s' hs ⟨args, hstep, hok⟩
    exact (step_keeps hstep hok).trans hs
  rw [hsame]
  exact ⟨newNames_sorted E, mem_newNames E⟩

/-- A COMMAND DOCS about the first name alone leaves the names complete. -/
theorem docs_append_keeps_names : ∃ names, Step memoryEnv (newNames memoryEnv)
    [ofString "COMMAND", ofString "DOCS", ofString "append"] names ∧
    names.Pairwise (· < ·) ∧
      ∀ name, name ∈ names ↔ ∃ cmd ∈ newTable (E := memoryEnv), cmd.name = name := by
  obtain ⟨e, s', hrun⟩ : ∃ e s', dispatch newTable
      [ofString "COMMAND", ofString "DOCS", ofString "append"]
      (smallServer (fun _ => none) [] true) = some (e, s') := ⟨_, _, rfl⟩
  have hstep : Step memoryEnv (newNames memoryEnv)
      [ofString "COMMAND", ofString "DOCS", ofString "append"] s'.names :=
    ⟨(smallServer (fun _ => none) [] true).world, e, s', hrun, rfl⟩
  refine ⟨_, hstep, names_stay_complete memoryEnv _ (.single ⟨_, hstep, fun _ => ?_⟩)⟩
  decide +kernel

/-- A COMMAND DOCS about GET overwrites the first name, and a registered command is gone. -/
theorem docs_get_overwrites_append : ∃ names, Step memoryEnv (newNames memoryEnv)
    [ofString "COMMAND", ofString "DOCS", ofString "GET"] names ∧
    (∃ cmd ∈ newTable (E := memoryEnv), cmd.name = ofString "append") ∧
    ofString "append" ∉ names := by
  refine ⟨_, ⟨(smallServer (fun _ => none) [] true).world, _, _, rfl, rfl⟩, ?_, ?_⟩
  · exact (mem_newNames memoryEnv _).mp (by decide +kernel)
  · decide +kernel

end RedisFromScratch.TableNames
