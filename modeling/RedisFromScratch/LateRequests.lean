import RedisFromScratch.ClientPrograms

/-!
Requests that outlive their calls. A call that meets its deadline gives back its
stripes and returns an error while its request is still with the engine. If the
engine gets to such a request before any call that was issued later has had the
stripes for the same keys, no acknowledged write is undone by an earlier call that
has failed. Otherwise it can be: nothing else orders the two requests.
-/
namespace RedisFromScratch.LateRequests

open ByteStrings StoreRecords EngineRequests LsmClient ClientPrograms FlushPages Relation Runs

def callOf : Pc → Option Call
  | .idle => none
  | .locking call _ _ => some call
  | .running call _ _ _ => some call
  | .sent call _ _ _ _ _ => some call
  | .replied call _ _ _ _ _ => some call
  | .returned call _ _ => some call

/-- The keys of a call that has had its stripes. -/
def begun : Pc → List Bytes
  | .idle => []
  | .locking _ _ _ => []
  | .running call _ _ _ => call.keys
  | .sent call _ _ _ _ _ => call.keys
  | .replied call _ _ _ _ _ => call.keys
  | .returned call _ out => if out = .closed then [] else call.keys

/-- The engine gets to a request that was given up only while no call that was
issued later has had the stripes for one of its keys. -/
def InTime (w : World) (a : Act) : Prop :=
  ∀ i rpc, a = .late i rpc → ∀ call, callOf (w.calls i) = some call → ∀ j, i < j →
    ∀ k ∈ call.keys, k ∉ begun (w.calls j)

theorem inTime_of_not_late {w : World} {a : Act} (h : ∀ i rpc, a ≠ .late i rpc) : InTime w a :=
  fun i rpc ha => absurd ha (h i rpc)

/-- The requests a call has made and may still make are on its keys. -/
def OnKeys : Pc → Prop
  | .running call _ _ prog => call = .flushAll ∨ ProgOn call.keys prog
  | .sent call _ _ _ rpc k =>
      call = .flushAll ∨ RpcOn call.keys rpc ∧ ∀ reply, ProgOn call.keys (k reply)
  | .replied call _ _ _ _ k => call = .flushAll ∨ ∀ reply, ProgOn call.keys (k reply)
  | _ => True

structure Confined (w : World) : Prop where
  calls : ∀ i, OnKeys (w.calls i)
  late : ∀ i rpc, w.late i = some rpc → ∃ call, callOf (w.calls i) = some call ∧
    (call = .flushAll ∨ RpcOn call.keys rpc)

section Steps

variable {stripeOf : Bytes → Stripe} {w w' : World} {a : Act} {i : ℕ} {pc : Pc}

/-- A call moves on, and what it has left behind stays. -/
theorem Confined.move (h : Confined w) (hcalls : w'.calls = Function.update w.calls i pc)
    (hcall : callOf pc = callOf (w.calls i) ∨ w.calls i = .idle) (hpc : OnKeys pc)
    (hlate : ∀ j rpc, w'.late j = some rpc → w.late j = some rpc ∨
      j = i ∧ ∃ call, callOf pc = some call ∧ (call = .flushAll ∨ RpcOn call.keys rpc)) :
    Confined w' := by
  refine ⟨?_, fun j rpc hj => ?_⟩
  · rw [hcalls]
    exact (Function.forall_update_iff _ _).mpr ⟨hpc, fun j _ => h.calls j⟩
  · rw [hcalls]
    rcases hlate j rpc hj with hold | ⟨rfl, hnew⟩
    · obtain ⟨call, hcall', hon⟩ := h.late j rpc hold
      by_cases hji : j = i
      · subst hji
        rw [Function.update_self]
        rcases hcall with hsame | hidle
        · exact ⟨call, hsame.trans hcall', hon⟩
        · rw [hidle] at hcall'
          cases hcall'
      · rw [Function.update_of_ne hji]
        exact ⟨call, hcall', hon⟩
    · rw [Function.update_self]
      exact hnew

theorem confined_start (m : Map) : Confined (start m) :=
  ⟨fun _ => trivial, nofun⟩

/-- A request that goes on is a wipe. -/
theorem not_on_of_goesOn {m m' : Map} {rpc rpc' : Rpc} {keys : List Bytes}
    (h : Exec m rpc m' (.inl rpc')) : ¬ RpcOn keys rpc := by
  cases h with
  | scanPage | writePage => exact fun hon => hon

theorem confined_step (h : Confined w) (hholds : Holds stripeOf w)
    (hstep : Step stripeOf w a w') : Confined w' := by
  have hold : ∀ j rpc (c : Prop), w.late j = some rpc → w.late j = some rpc ∨ c :=
    fun _ _ _ hl => Or.inl hl
  cases hstep with
  | issue | refuse =>
    exact h.move rfl (Or.inr (hholds.fresh w.next le_rfl)) trivial (fun j rpc => hold j rpc _)
  | lock i call held todo s hpc | finish i call nows out hpc =>
    exact h.move rfl (Or.inl (by rw [hpc]; rfl)) trivial (fun j rpc => hold j rpc _)
  | enter i call held hpc =>
    refine h.move rfl (Or.inl (by rw [hpc]; rfl)) ?_ (fun j rpc => hold j rpc _)
    by_cases hcall : call = .flushAll
    · exact Or.inl hcall
    · exact Or.inr (body_on hcall)
  | send i call held nows op rpc k nowMs hnow hpc =>
    have hi := h.calls i
    rw [hpc] at hi
    refine h.move rfl (Or.inl (by rw [hpc]; rfl)) ?_ (fun j rpc => hold j rpc _)
    exact hi.imp_right (fun hon => ⟨hon.1 nowMs hnow, hon.2⟩)
  | goesOn i call held nows op rpc rpc' k m hpc hexec =>
    have hi := h.calls i
    rw [hpc] at hi
    refine h.move rfl (Or.inl (by rw [hpc]; rfl)) ?_ (fun j rpc => hold j rpc _)
    exact Or.inl (hi.resolve_right (fun hon => not_on_of_goesOn hexec hon.1))
  | answers i call held nows op rpc reply k m hpc =>
    have hi := h.calls i
    rw [hpc] at hi
    refine h.move rfl (Or.inl (by rw [hpc]; rfl)) ?_ (fun j rpc => hold j rpc _)
    exact hi.imp_right (fun hon => hon.2)
  | receive i call held nows op reply k hpc =>
    have hi := h.calls i
    rw [hpc] at hi
    refine h.move rfl (Or.inl (by rw [hpc]; rfl)) ?_ (fun j rpc => hold j rpc _)
    exact hi.imp_right (fun hon => hon reply)
  | expireSent i call held nows op rpc k hpc =>
    have hi := h.calls i
    rw [hpc] at hi
    refine h.move rfl (Or.inl (by rw [hpc]; rfl)) (Or.inr trivial) (fun j rpc' hj => ?_)
    change Function.update w.late i (some rpc) j = some rpc' at hj
    by_cases hji : j = i
    · subst hji
      rw [Function.update_self] at hj
      cases hj
      exact Or.inr ⟨rfl, call, rfl, hi.imp_right (fun hon => hon.1)⟩
    · rw [Function.update_of_ne hji] at hj
      exact Or.inl hj
  | expireReplied i call held nows op reply k hpc | unlock i call held nows out s hpc =>
    exact h.move rfl (Or.inl (by rw [hpc]; rfl)) (Or.inr trivial) (fun j rpc => hold j rpc _)
  | lateGoesOn i rpc rpc' m hlate hexec =>
    refine ⟨h.calls, fun j rpc'' hj => ?_⟩
    change Function.update w.late i (some rpc') j = some rpc'' at hj
    by_cases hji : j = i
    · subst hji
      obtain ⟨call, hcall, hon⟩ := h.late j rpc hlate
      exact ⟨call, hcall, Or.inl (hon.resolve_right (not_on_of_goesOn hexec))⟩
    · rw [Function.update_of_ne hji] at hj
      exact h.late j rpc'' hj
  | lateAnswers i =>
    refine ⟨h.calls, fun j rpc' hj => ?_⟩
    change Function.update w.late i none j = some rpc' at hj
    by_cases hji : j = i
    · subst hji
      rw [Function.update_self] at hj
      cases hj
    · rw [Function.update_of_ne hji] at hj
      exact h.late j rpc' hj
  | close => exact ⟨h.calls, h.late⟩

theorem confined_reachable {m₀ : Map} {ok : World → Act → Prop}
    (hrun : ReflTransGen (Taking (Step stripeOf) ok) (start m₀) w) : Confined w := by
  have hboth := run_preserves (fun w => Holds stripeOf w ∧ Confined w)
    (fun u v ⟨hu, hc⟩ ⟨_, hs, _⟩ => ⟨holds_step hu hs, confined_step hc hu hs⟩) hrun
    ⟨holds_start m₀, confined_start m₀⟩
  exact hboth.2

/-- A late request changes the keys of its call only. -/
theorem late_off {m m' : Map} {rpc : Rpc} {keys : List Bytes} {out : Rpc ⊕ Reply}
    (hexec : Exec m rpc m' out) (hon : RpcOn keys rpc) {k : Bytes} (hk : k ∉ keys) :
    m' k = m k := by
  cases hexec with
  | whole => exact whole_off hon m hk
  | scanPage => rfl
  | writePage | writeLast => exact hon.elim

end Steps

/-- In every run in which the engine gets to the requests that were given up in
time, once a write to a key has returned nil, no step of a call that was issued
earlier and has returned, with an error or without, changes the key. -/
theorem returned_call_changes_nothing_later (stripeOf : Bytes → Stripe) (m₀ : Map)
    (w w' : World) (hrun : ReflTransGen (Taking (Step stripeOf) InTime) (start m₀) w) (a : Act)
    (hstep : Step stripeOf w a w') (htime : InTime w a) (i : ℕ) (ha : a.call = some i)
    (call : Call) (nows : List ℤ) (out : Outcome) (hi : w.calls i = .returned call nows out)
    (hcall : call ≠ .flushAll) (j : ℕ) (hij : i < j) (call' : Call) (nows' : List ℤ)
    (out' : Outcome) (hj : w.calls j = .returned call' nows' out') (hnil : out'.Nil) (k : Bytes)
    (hk : k ∈ call'.keys) : w'.engine k = w.engine k := by
  have h := confined_reachable hrun
  have hopen : out' ≠ .closed := by
    rintro rfl
    exact hnil
  have hbegun : k ∈ begun (w.calls j) := by
    rw [hj, begun, if_neg hopen]
    exact hk
  have hoff : ∀ rpc, a = .late i rpc → w.late i = some rpc →
      RpcOn call.keys rpc ∧ k ∉ call.keys := by
    intro rpc hact hlate
    obtain ⟨c, hc, hon⟩ := h.late i rpc hlate
    rw [hi] at hc
    cases hc
    refine ⟨hon.resolve_left hcall, fun hmem => ?_⟩
    exact htime i rpc hact call (by rw [hi]; rfl) j hij k hmem hbegun
  -- a call that has returned has no request with the engine but one that was given up
  have hnot : ∀ {x pc}, some x = some i → w.calls x = pc → pc = .returned call nows out := by
    intro x pc hx hpc
    rw [← hpc, Option.some.inj hx, hi]
  cases hstep with
  | goesOn x c held nows₁ op rpc rpc' k₁ m hpc | answers x c held nows₁ op rpc reply k₁ m hpc =>
    cases hnot ha hpc
  | lateGoesOn x rpc rpc' m hlate hexec | lateAnswers x rpc reply m hlate hexec =>
    cases ha
    obtain ⟨hon, hkey⟩ := hoff rpc rfl hlate
    exact late_off hexec hon hkey
  | _ => rfl

/-- A put that is given up, and then a put of some key that is acknowledged. -/
theorem given_up_then_acknowledged {ok : World → Act → Prop}
    (hok : ∀ w a, (∀ i rpc, a ≠ .late i rpc) → ok w a) (key : Bytes) : ∃ w,
    ReflTransGen (Taking (Step oneStripe) ok) (start Map.empty) w ∧
    w.calls 0 = .returned (.put [97] ⟨[1], 0⟩) [0] (.failed "put") ∧
    w.calls 1 = .returned (.put key ⟨[2], 0⟩) [0] .ok ∧
    w.late 0 = some (.put [97] ⟨[1], 0⟩) ∧
    w.engine = Function.update Map.empty key (some ⟨[2], 0⟩) ∧
    ∀ j, w.calls (j + 2) = .idle := by
  refine exists_run_head ⟨_, .issue _ (.put [97] ⟨[1], 0⟩) rfl, hok _ _ nofun⟩ ?_
  refine exists_run_head ⟨_, .lock _ 0 _ _ _ _ rfl rfl, hok _ _ nofun⟩ ?_
  refine exists_run_head ⟨_, .enter _ 0 _ _ rfl, hok _ _ nofun⟩ ?_
  refine exists_run_head ⟨_, .send _ 0 _ _ _ _ _ _ 0 (by decide) rfl, hok _ _ nofun⟩ ?_
  refine exists_run_head ⟨_, .expireSent _ 0 _ _ _ _ _ _ rfl, hok _ _ nofun⟩ ?_
  refine exists_run_head ⟨_, .unlock _ 0 _ _ _ _ _ rfl, hok _ _ nofun⟩ ?_
  refine exists_run_head ⟨_, .finish _ 0 _ _ _ rfl, hok _ _ nofun⟩ ?_
  refine exists_run_head ⟨_, .issue _ (.put key ⟨[2], 0⟩) rfl, hok _ _ nofun⟩ ?_
  refine exists_run_head ⟨_, .lock _ 1 _ _ _ _ rfl rfl, hok _ _ nofun⟩ ?_
  refine exists_run_head ⟨_, .enter _ 1 _ _ rfl, hok _ _ nofun⟩ ?_
  refine exists_run_head ⟨_, .send _ 1 _ _ _ _ _ _ 0 (by decide) rfl, hok _ _ nofun⟩ ?_
  refine exists_run_head
    ⟨_, .answers _ 1 _ _ _ _ _ _ _ _ rfl (.whole _ _ (by simp)), hok _ _ nofun⟩ ?_
  refine exists_run_head ⟨_, .receive _ 1 _ _ _ _ _ _ rfl, hok _ _ nofun⟩ ?_
  refine exists_run_head ⟨_, .unlock _ 1 _ _ _ _ _ rfl, hok _ _ nofun⟩ ?_
  refine exists_run_head ⟨_, .finish _ 1 _ _ _ rfl, hok _ _ nofun⟩ ?_
  exact ⟨_, .refl, rfl, rfl, rfl, rfl, fun _ => rfl⟩

/-- The engine gets to the put that was given up after a put of another key, issued
later, has been acknowledged. -/
theorem late_put_leaves_other_key : ∃ w w', Step oneStripe w (.late 0 (.put [97] ⟨[1], 0⟩)) w' ∧
    w.calls 0 = .returned (.put [97] ⟨[1], 0⟩) [0] (.failed "put") ∧
    w.calls 1 = .returned (.put [98] ⟨[2], 0⟩) [0] .ok ∧
    w.engine [97] = none ∧ w'.engine [97] = some ⟨[1], 0⟩ ∧ w'.engine [98] = w.engine [98] := by
  obtain ⟨w, hrun, h0, h1, hlate, hengine, hidle⟩ :=
    given_up_then_acknowledged (fun _ _ => inTime_of_not_late) [98]
  have hstep : Step oneStripe w (.late 0 (.put [97] ⟨[1], 0⟩)) _ :=
    .lateAnswers w 0 _ _ _ hlate (.whole _ _ (by simp))
  have htime : InTime w (.late 0 (.put [97] ⟨[1], 0⟩)) := by
    intro i rpc ha call hcall j hij k hk
    cases ha
    rw [h0] at hcall
    cases hcall
    match j with
    | 1 =>
      rw [h1]
      cases List.mem_singleton.mp hk
      decide
    | j + 2 =>
      rw [hidle j]
      exact List.not_mem_nil
  refine ⟨w, _, hstep, h0, h1, by rw [hengine]; rfl, rfl, ?_⟩
  exact returned_call_changes_nothing_later oneStripe Map.empty w _ hrun _ hstep htime 0 rfl
    _ _ _ h0 nofun 1 (by decide) _ _ _ h1 trivial [98] (by decide)

/-- The engine gets to the put that was given up after another put of the key has
been acknowledged. -/
theorem late_put_undoes_acknowledged_put : ∃ w w',
    ReflTransGen (Taking (Step oneStripe) (fun _ _ => True)) (start Map.empty) w ∧
    Step oneStripe w (.late 0 (.put [97] ⟨[1], 0⟩)) w' ∧
    w.calls 0 = .returned (.put [97] ⟨[1], 0⟩) [0] (.failed "put") ∧
    w.calls 1 = .returned (.put [97] ⟨[2], 0⟩) [0] .ok ∧
    w.engine [97] = some ⟨[2], 0⟩ ∧ w'.engine [97] = some ⟨[1], 0⟩ := by
  obtain ⟨w, hrun, h0, h1, hlate, hengine, -⟩ :=
    given_up_then_acknowledged (fun _ _ _ => trivial) [97]
  have hstep : Step oneStripe w (.late 0 (.put [97] ⟨[1], 0⟩)) _ :=
    .lateAnswers w 0 _ _ _ hlate (.whole _ _ (by simp))
  exact ⟨w, _, hrun, hstep, h0, h1, by rw [hengine]; rfl, rfl⟩

end RedisFromScratch.LateRequests
