import RedisFromScratch.EngineRequests
import Mathlib.Data.List.Dedup
import Mathlib.Data.List.Sort

/-!
The store that keeps its records in the engine. A call takes the stripes of its
keys in ascending order, makes its requests one after the other, and gives the
stripes back in the opposite order; a wipe takes none. A request that meets its
deadline fails the call and stays with the engine, which may carry it out later.
-/
namespace RedisFromScratch.LsmClient

open ByteStrings StoreRecords EngineRequests FlushPages Relation Runs

def stripeCount : ℕ := 1024

abbrev Stripe := Fin stripeCount

inductive Call
  | put (key : Bytes) (rec : Record)
  | delete (key : Bytes)
  | update (key : Bytes) (fn : UpdateFunc)
  | multiWrite (muts : List Mutation)
  | flushAll

def Call.keys : Call → List Bytes
  | .put key _ => [key]
  | .delete key => [key]
  | .update key _ => [key]
  | .multiWrite muts => muts.map Mutation.key
  | .flushAll => []

/-- The stripes of a call, each once, in the order they are taken. -/
def Call.stripes (stripeOf : Bytes → Stripe) (call : Call) : List Stripe :=
  (call.keys.map stripeOf).dedup.insertionSort (· ≤ ·)

/-- The assignment in which all keys collide. -/
def oneStripe : Bytes → Stripe := fun _ => ⟨0, by decide⟩

/-- What a call returns. An update function also learns what it was called with. -/
inductive Outcome
  | ok
  | existed (b : Bool)
  | updated (cur : Record) (found : Bool) (err : Option String)
  | failed (op : String)
  | closed
  deriving DecidableEq

/-- The error is nil. -/
def Outcome.Nil : Outcome → Prop
  | .ok => True
  | .existed _ => True
  | .updated _ _ err => err = none
  | _ => False

/-- The rest of a call: requests, each stamped with the clock, and a result. -/
inductive Prog
  | ret (out : Outcome)
  | ask (op : String) (rpc : ℤ → Rpc) (k : Reply → Prog)

def putLocked (key : Bytes) (rec : Record) (out : Outcome) : Prog :=
  .ask "put" (fun _ => .put key rec) (fun _ => .ret out)

/-- What an update does with the record it has read. -/
def afterRead (key : Bytes) (fn : UpdateFunc) (cur : Option Record) : Prog :=
  match fn (cur.getD Record.zero) cur.isSome with
  | .error err => .ret (.updated (cur.getD Record.zero) cur.isSome (some err))
  | .ok (next, .put) =>
      putLocked key next (.updated (cur.getD Record.zero) cur.isSome none)
  | .ok (_, .delete) =>
      if cur.isSome then
        .ask "update delete" (fun nowMs => .delete key nowMs)
          (fun _ => .ret (.updated (cur.getD Record.zero) cur.isSome none))
      else .ret (.updated (cur.getD Record.zero) cur.isSome none)
  | .ok (_, .none) => .ret (.updated (cur.getD Record.zero) cur.isSome none)

/-- What a call does while it has its stripes. -/
def body : Call → Prog
  | .put key rec => putLocked key rec .ok
  | .delete key => .ask "delete" (fun nowMs => .delete key nowMs) (fun reply =>
      match reply with
      | .existed b => .ret (.existed b)
      | _ => .ret (.existed false))
  | .update key fn => .ask "update read" (fun nowMs => .get key nowMs) (fun reply =>
      match reply with
      | .found cur => afterRead key fn cur
      | _ => afterRead key fn none)
  | .multiWrite [] => .ret .ok
  | .multiWrite muts => .ask "batch write" (fun _ => .batchWrite muts) (fun _ => .ret .ok)
  | .flushAll => .ask "flushall" (fun _ => .flushAll (.scanning [])) (fun _ => .ret .ok)

/-- Where a call is. The clock readings it has made so far are kept along. -/
inductive Pc
  | idle
  | locking (call : Call) (held todo : List Stripe)
  | running (call : Call) (held : List Stripe) (nows : List ℤ) (prog : Prog)
  | sent (call : Call) (held : List Stripe) (nows : List ℤ) (op : String) (rpc : Rpc)
      (k : Reply → Prog)
  | replied (call : Call) (held : List Stripe) (nows : List ℤ) (op : String) (reply : Reply)
      (k : Reply → Prog)
  | returned (call : Call) (nows : List ℤ) (out : Outcome)

structure World where
  engine : Map
  owner : Stripe → Option ℕ
  /-- Calls are numbered in the order they are issued. -/
  calls : ℕ → Pc
  next : ℕ
  /-- Requests whose callers have given up. -/
  late : ℕ → Option Rpc
  closed : Bool

@[simps] def World.set (w : World) (i : ℕ) (pc : Pc) : World :=
  { w with calls := Function.update w.calls i pc }

def start (m : Map) : World where
  engine := m
  owner := fun _ => none
  calls := fun _ => .idle
  next := 0
  late := fun _ => none
  closed := false

/-- Who moves: the client or the engine on a call, the clock when a deadline
passes, the engine on a request that was given up, or whoever closes the store. -/
inductive Act
  | client (i : ℕ)
  | engine (i : ℕ) (rpc : Rpc)
  | expire (i : ℕ)
  | late (i : ℕ) (rpc : Rpc)
  | close

/-- The call a step belongs to. -/
def Act.call : Act → Option ℕ
  | .client i => some i
  | .engine i _ => some i
  | .expire i => some i
  | .late i _ => some i
  | .close => none

inductive Step (stripeOf : Bytes → Stripe) : World → Act → World → Prop
  | issue (w : World) (call : Call) (hopen : w.closed = false) :
      Step stripeOf w (.client w.next)
        { w.set w.next (.locking call [] (call.stripes stripeOf)) with next := w.next + 1 }
  | refuse (w : World) (call : Call) (hclosed : w.closed = true) :
      Step stripeOf w (.client w.next)
        { w.set w.next (.returned call [] .closed) with next := w.next + 1 }
  | lock (w : World) (i : ℕ) (call : Call) (held todo : List Stripe) (s : Stripe)
      (hpc : w.calls i = .locking call held (s :: todo)) (hfree : w.owner s = none) :
      Step stripeOf w (.client i) { w.set i (.locking call (s :: held) todo) with
        owner := Function.update w.owner s (some i) }
  | enter (w : World) (i : ℕ) (call : Call) (held : List Stripe)
      (hpc : w.calls i = .locking call held []) :
      Step stripeOf w (.client i) (w.set i (.running call held [] (body call)))
  | send (w : World) (i : ℕ) (call : Call) (held : List Stripe) (nows : List ℤ) (op : String)
      (rpc : ℤ → Rpc) (k : Reply → Prog) (nowMs : ℤ) (hnow : i64Min ≤ nowMs)
      (hpc : w.calls i = .running call held nows (.ask op rpc k)) :
      Step stripeOf w (.client i) (w.set i (.sent call held (nows ++ [nowMs]) op (rpc nowMs) k))
  | goesOn (w : World) (i : ℕ) (call : Call) (held : List Stripe) (nows : List ℤ) (op : String)
      (rpc rpc' : Rpc) (k : Reply → Prog) (m : Map)
      (hpc : w.calls i = .sent call held nows op rpc k) (hexec : Exec w.engine rpc m (.inl rpc')) :
      Step stripeOf w (.engine i rpc)
        { w.set i (.sent call held nows op rpc' k) with engine := m }
  | answers (w : World) (i : ℕ) (call : Call) (held : List Stripe) (nows : List ℤ) (op : String)
      (rpc : Rpc) (reply : Reply) (k : Reply → Prog) (m : Map)
      (hpc : w.calls i = .sent call held nows op rpc k)
      (hexec : Exec w.engine rpc m (.inr reply)) :
      Step stripeOf w (.engine i rpc)
        { w.set i (.replied call held nows op reply k) with engine := m }
  | receive (w : World) (i : ℕ) (call : Call) (held : List Stripe) (nows : List ℤ) (op : String)
      (reply : Reply) (k : Reply → Prog) (hpc : w.calls i = .replied call held nows op reply k) :
      Step stripeOf w (.client i) (w.set i (.running call held nows (k reply)))
  -- the deadline passes before the engine has carried the request out, or before the reply is there
  | expireSent (w : World) (i : ℕ) (call : Call) (held : List Stripe) (nows : List ℤ) (op : String)
      (rpc : Rpc) (k : Reply → Prog) (hpc : w.calls i = .sent call held nows op rpc k) :
      Step stripeOf w (.expire i) { w.set i (.running call held nows (.ret (.failed op))) with
        late := Function.update w.late i (some rpc) }
  | expireReplied (w : World) (i : ℕ) (call : Call) (held : List Stripe) (nows : List ℤ)
      (op : String) (reply : Reply) (k : Reply → Prog)
      (hpc : w.calls i = .replied call held nows op reply k) :
      Step stripeOf w (.expire i) (w.set i (.running call held nows (.ret (.failed op))))
  | lateGoesOn (w : World) (i : ℕ) (rpc rpc' : Rpc) (m : Map) (hlate : w.late i = some rpc)
      (hexec : Exec w.engine rpc m (.inl rpc')) :
      Step stripeOf w (.late i rpc)
        { w with engine := m, late := Function.update w.late i (some rpc') }
  | lateAnswers (w : World) (i : ℕ) (rpc : Rpc) (reply : Reply) (m : Map)
      (hlate : w.late i = some rpc) (hexec : Exec w.engine rpc m (.inr reply)) :
      Step stripeOf w (.late i rpc) { w with engine := m, late := Function.update w.late i none }
  | unlock (w : World) (i : ℕ) (call : Call) (held : List Stripe) (nows : List ℤ) (out : Outcome)
      (s : Stripe) (hpc : w.calls i = .running call (s :: held) nows (.ret out)) :
      Step stripeOf w (.client i) { w.set i (.running call held nows (.ret out)) with
        owner := Function.update w.owner s none }
  | finish (w : World) (i : ℕ) (call : Call) (nows : List ℤ) (out : Outcome)
      (hpc : w.calls i = .running call [] nows (.ret out)) :
      Step stripeOf w (.client i) (w.set i (.returned call nows out))
  | close (w : World) : Step stripeOf w .close { w with closed := true }

section Stripes

variable {stripeOf : Bytes → Stripe}

def Pc.held : Pc → List Stripe
  | .locking _ held _ => held
  | .running _ held _ _ => held
  | .sent _ held _ _ _ _ => held
  | .replied _ held _ _ _ _ => held
  | _ => []

/-- The call that is between its first lock and its last request. -/
def Pc.working : Pc → Option Call
  | .running call _ _ (.ask _ _ _) => some call
  | .sent call _ _ _ _ _ => some call
  | .replied call _ _ _ _ _ => some call
  | _ => none

theorem mem_stripes {call : Call} {k : Bytes} (h : k ∈ call.keys) :
    stripeOf k ∈ call.stripes stripeOf := by
  rw [Call.stripes, List.mem_insertionSort, List.mem_dedup]
  exact List.mem_map_of_mem h

theorem stripes_nodup (call : Call) : (call.stripes stripeOf).Nodup :=
  (List.perm_insertionSort _ _).nodup_iff.mpr (List.nodup_dedup _)

/-- A call owns what it holds, and holds the stripes of its keys while it works. -/
structure HoldsAt (stripeOf : Bytes → Stripe) (owner : Stripe → Option ℕ) (i : ℕ) (pc : Pc) :
    Prop where
  owns : ∀ s ∈ pc.held, owner s = some i
  nodup : pc.held.Nodup
  locking : ∀ call held todo, pc = .locking call held todo →
    (held ++ todo).Nodup ∧ ∀ s ∈ call.stripes stripeOf, s ∈ held ∨ s ∈ todo
  covers : ∀ call, pc.working = some call → ∀ k ∈ call.keys, stripeOf k ∈ pc.held

structure Holds (stripeOf : Bytes → Stripe) (w : World) : Prop where
  each : ∀ i, HoldsAt stripeOf w.owner i (w.calls i)
  fresh : ∀ i, w.next ≤ i → w.calls i = .idle

variable {w w' : World} {i : ℕ} {pc : Pc} {owner : Stripe → Option ℕ}

theorem holdsAt_of_free (hheld : pc.held = []) (hworking : pc.working = none)
    (hlocking : ∀ call held todo, pc ≠ .locking call held todo) :
    HoldsAt stripeOf owner i pc where
  owns s hs := by simp [hheld] at hs
  nodup := by simp [hheld]
  locking call held todo heq := absurd heq (hlocking call held todo)
  covers call hcall := by simp [hworking] at hcall

theorem Holds.lt_next (h : Holds stripeOf w) (hi : w.calls i ≠ .idle) : i < w.next := by
  by_contra hge
  exact hi (h.fresh i (Nat.le_of_not_lt hge))

/-- One call moves, and the stripes it does not touch keep their owners. -/
theorem Holds.move (h : Holds stripeOf w) (hi : w.calls i ≠ .idle)
    (hcalls : w'.calls = Function.update w.calls i pc) (hnext : w'.next = w.next)
    (hpc : HoldsAt stripeOf w'.owner i pc)
    (howner : ∀ j, j ≠ i → ∀ s, w.owner s = some j → w'.owner s = some j) :
    Holds stripeOf w' where
  each := by
    rw [hcalls]
    refine (Function.forall_update_iff _ _).mpr ⟨hpc, fun j hj => ?_⟩
    have hold := h.each j
    exact ⟨fun s hs => howner j hj s (hold.owns s hs), hold.nodup, hold.locking, hold.covers⟩
  fresh j hj := by
    have hlt := h.lt_next hi
    rw [hcalls, Function.update_of_ne (by omega)]
    exact h.fresh j (by omega)

/-- A step within a call keeps the stripes. -/
theorem Holds.stay {pc' : Pc} (h : Holds stripeOf w) (hpc : w.calls i = pc) (hidle : pc ≠ .idle)
    (hcalls : w'.calls = Function.update w.calls i pc') (hnext : w'.next = w.next)
    (howner : w'.owner = w.owner) (hheld : pc'.held = pc.held)
    (hworking : ∀ call, pc'.working = some call → pc.working = some call)
    (hlocking : ∀ call held todo, pc' ≠ .locking call held todo) : Holds stripeOf w' := by
  have hi := h.each i
  rw [hpc] at hi
  refine h.move (hpc ▸ hidle) hcalls hnext ⟨?_, ?_, ?_, ?_⟩ (fun _ _ _ hs => howner ▸ hs)
  · rw [howner, hheld]
    exact hi.owns
  · rw [hheld]
    exact hi.nodup
  · exact fun call held todo heq => absurd heq (hlocking call held todo)
  · intro call hcall
    rw [hheld]
    exact hi.covers call (hworking call hcall)

theorem Holds.issue (h : Holds stripeOf w) (hpc : HoldsAt stripeOf w.owner w.next pc) :
    Holds stripeOf { w.set w.next pc with next := w.next + 1 } where
  each := (Function.forall_update_iff _ _).mpr ⟨hpc, fun j _ => h.each j⟩
  fresh j hj := by
    change w.next + 1 ≤ j at hj
    change Function.update w.calls w.next pc j = .idle
    rw [Function.update_of_ne (by omega)]
    exact h.fresh j (by omega)

theorem holds_start (m : Map) : Holds stripeOf (start m) where
  each _ := holdsAt_of_free rfl rfl (fun _ _ _ heq => by cases heq)
  fresh _ _ := rfl

theorem holds_step {a : Act} (h : Holds stripeOf w) (hstep : Step stripeOf w a w') :
    Holds stripeOf w' := by
  cases hstep with
  | issue call =>
    refine h.issue ⟨by simp [Pc.held], by simp [Pc.held], ?_, by simp [Pc.working]⟩
    intro call' held todo heq
    cases heq
    exact ⟨stripes_nodup call, fun s hs => Or.inr hs⟩
  | refuse => exact h.issue (holdsAt_of_free rfl rfl (fun _ _ _ heq => by cases heq))
  | lock i call held todo s hpc hfree =>
    have hi := h.each i
    rw [hpc] at hi
    obtain ⟨hnodup, hall⟩ := hi.locking call held (s :: todo) rfl
    refine h.move (by simp [hpc]) rfl rfl ⟨?_, ?_, ?_, by simp [Pc.working]⟩ ?_
    · intro s' hs'
      by_cases heq : s' = s
      · rw [heq]
        exact Function.update_self _ _ _
      · refine (Function.update_of_ne heq _ _).trans (hi.owns s' ?_)
        exact (List.mem_cons.mp hs').resolve_left heq
    · exact List.nodup_cons.mpr ⟨fun hs => (List.nodup_append.mp hnodup).2.2 s hs s
        List.mem_cons_self rfl, hi.nodup⟩
    · intro call' held' todo' heq
      cases heq
      refine ⟨(List.perm_middle.nodup_iff).mp hnodup, fun s' hs' => ?_⟩
      rcases hall s' hs' with hin | hin
      · exact Or.inl (List.mem_cons_of_mem _ hin)
      · rcases List.mem_cons.mp hin with rfl | hin
        · exact Or.inl List.mem_cons_self
        · exact Or.inr hin
    · intro j hj s' hs'
      have hne : s' ≠ s := by
        rintro rfl
        rw [hfree] at hs'
        cases hs'
      exact (Function.update_of_ne hne _ _).trans hs'
  | enter i call held hpc =>
    have hi := h.each i
    rw [hpc] at hi
    obtain ⟨-, hall⟩ := hi.locking call held [] rfl
    refine h.move (by simp [hpc]) rfl rfl ⟨hi.owns, hi.nodup, by simp, ?_⟩ (fun _ _ _ hs => hs)
    intro call' hcall' k hk
    have hcall : call' = call := by
      cases hbody : body call with
      | ret => simp [hbody, Pc.working] at hcall'
      | ask => simpa [hbody, Pc.working] using hcall'.symm
    exact (hall _ (mem_stripes (hcall ▸ hk))).resolve_right List.not_mem_nil
  | send i call held nows op rpc k nowMs hnow hpc | goesOn i call held nows op rpc rpc' k m hpc
  | answers i call held nows op rpc reply k m hpc =>
    exact h.stay hpc (by simp) rfl rfl rfl rfl (fun _ hc => hc) (by simp)
  | receive i call held nows op reply k hpc =>
    refine h.stay hpc (by simp) rfl rfl rfl rfl (fun call' hc => ?_) (by simp)
    cases hk : k reply with
    | ret => simp [hk, Pc.working] at hc
    | ask => simpa [hk, Pc.working] using hc
  | expireSent i call held nows op rpc k hpc | expireReplied i call held nows op reply k hpc =>
    exact h.stay hpc (by simp) rfl rfl rfl rfl (fun _ hc => by cases hc) (by simp)
  | unlock i call held nows out s hpc =>
    have hi := h.each i
    rw [hpc] at hi
    obtain ⟨hs, hnodup⟩ := List.nodup_cons.mp hi.nodup
    refine h.move (by simp [hpc]) rfl rfl ⟨?_, hnodup, by simp, by simp [Pc.working]⟩ ?_
    · intro s' hs'
      refine (Function.update_of_ne ?_ _ _).trans (hi.owns s' (List.mem_cons_of_mem _ hs'))
      rintro rfl
      exact hs hs'
    · intro j hj s' hs'
      have hne : s' ≠ s := by
        rintro rfl
        rw [hi.owns s' List.mem_cons_self] at hs'
        exact hj (Option.some.inj hs').symm
      exact (Function.update_of_ne hne _ _).trans hs'
  | finish i call nows out hpc =>
    exact h.move (by simp [hpc]) rfl rfl (holdsAt_of_free rfl rfl (by simp)) (fun _ _ _ hs => hs)
  | lateGoesOn | lateAnswers | close => exact ⟨h.each, h.fresh⟩

/-- Two calls at work have no key in common. -/
theorem Holds.apart (h : Holds stripeOf w) {j : ℕ} {call call' : Call}
    (hi : (w.calls i).working = some call) (hj : (w.calls j).working = some call') {k : Bytes}
    (hk : k ∈ call.keys) (hk' : k ∈ call'.keys) : i = j := by
  have howner := (h.each i).owns _ ((h.each i).covers call hi k hk)
  rw [(h.each j).owns _ ((h.each j).covers call' hj k hk')] at howner
  exact (Option.some.inj howner).symm

end Stripes

end RedisFromScratch.LsmClient
