import RedisFromScratch.LsmClient

/-!
A call carried out on a map without interruption, and how little of the map it
depends on. The requests of a call other than a wipe stay on its keys, and all
but the last of them only read. So as long as its keys are left alone, a call
that is part of the way through could just as well start over.
-/
namespace RedisFromScratch.ClientPrograms

open ByteStrings StoreRecords EngineRequests LsmClient FlushPages

/-- No reader can tell the two apart. -/
def Alike (o o' : Option Record) : Prop := ∀ nowMs, i64Min ≤ nowMs → live nowMs o = live nowMs o'

/-- Carry out the next requests of a call, one for each clock reading. -/
def resume : Prog → List ℤ → Map → Option (Map × Prog)
  | p, [], m => some (m, p)
  | .ret _, _ :: _, _ => none
  | .ask _ rpc k, nowMs :: nows, m =>
      resume (k ((rpc nowMs).whole m).2) nows ((rpc nowMs).whole m).1

@[simp] theorem resume_nil (p : Prog) (m : Map) : resume p [] m = some (m, p) := by
  cases p <;> rfl

/-- A call with the clock readings it made and what it returned. -/
@[ext] structure Entry where
  call : Call
  nows : List ℤ
  out : Outcome

/-- The whole call on a map, provided that it returns what it did. -/
def Entry.perform (e : Entry) (m : Map) : Option Map :=
  match resume (body e.call) e.nows m with
  | some (m', .ret out) => if out = e.out then some m' else none
  | _ => none

theorem perform_eq_some {e : Entry} {m m' : Map} :
    e.perform m = some m' ↔ resume (body e.call) e.nows m = some (m', .ret e.out) := by
  unfold Entry.perform
  split
  · rename_i m₁ out heq
    rw [heq]
    by_cases hout : out = e.out
    · simp [hout]
    · simp [hout]
  · rename_i hno
    constructor
    · intro h
      cases h
    · intro h
      exact absurd h (hno m' e.out)

theorem resume_concat {p : Prog} {nows : List ℤ} {m m' : Map} {op : String} {rpc : ℤ → Rpc}
    {k : Reply → Prog} (h : resume p nows m = some (m', .ask op rpc k)) (nowMs : ℤ) :
    resume p (nows ++ [nowMs]) m =
      some (((rpc nowMs).whole m').1, k ((rpc nowMs).whole m').2) := by
  induction nows generalizing p m with
  | nil =>
    rw [resume_nil] at h
    cases h
    exact resume_nil _ _
  | cons n nows ih =>
    cases p with
    | ret => cases h
    | ask => exact ih h

/-- A request that stays on a set of keys, stamped with a proper time. -/
def RpcOn (keys : List Bytes) : Rpc → Prop
  | .get key nowMs => key ∈ keys ∧ i64Min ≤ nowMs
  | .put key _ => key ∈ keys
  | .delete key nowMs => key ∈ keys ∧ i64Min ≤ nowMs
  | .batchWrite muts => ∀ mu ∈ muts, mu.key ∈ keys
  | .flushAll _ => False

def ProgOn (keys : List Bytes) : Prog → Prop
  | .ret _ => True
  | .ask _ rpc k => (∀ nowMs, i64Min ≤ nowMs → RpcOn keys (rpc nowMs)) ∧
      ∀ reply, ProgOn keys (k reply)

/-- Every request but the last leaves the map alone. -/
def ReadsFirst : Prog → Prop
  | .ret _ => True
  | .ask _ rpc k =>
      ((∀ nowMs m, ((rpc nowMs).whole m).1 = m) ∨ ∀ reply, ∃ out, k reply = .ret out) ∧
        ∀ reply, ReadsFirst (k reply)

theorem afterRead_cases (key : Bytes) (fn : UpdateFunc) (cur : Option Record) :
    (∃ out, afterRead key fn cur = .ret out) ∨
    (∃ rec out, afterRead key fn cur = putLocked key rec out) ∨
    ∃ out, afterRead key fn cur =
      .ask "update delete" (fun nowMs => .delete key nowMs) (fun _ => .ret out) := by
  unfold afterRead
  split
  · exact Or.inl ⟨_, rfl⟩
  · exact Or.inr (Or.inl ⟨_, _, rfl⟩)
  · split
    · exact Or.inr (Or.inr ⟨_, rfl⟩)
    · exact Or.inl ⟨_, rfl⟩
  · exact Or.inl ⟨_, rfl⟩

theorem afterRead_on (key : Bytes) (fn : UpdateFunc) (cur : Option Record) :
    ProgOn [key] (afterRead key fn cur) ∧ ReadsFirst (afterRead key fn cur) := by
  rcases afterRead_cases key fn cur with ⟨out, heq⟩ | ⟨rec, out, heq⟩ | ⟨out, heq⟩
  · rw [heq]
    exact ⟨trivial, trivial⟩
  · rw [heq]
    exact ⟨⟨fun _ _ => List.mem_singleton_self key, fun _ => trivial⟩,
      Or.inr (fun _ => ⟨out, rfl⟩), fun _ => trivial⟩
  · rw [heq]
    exact ⟨⟨fun _ hnow => ⟨List.mem_singleton_self key, hnow⟩, fun _ => trivial⟩,
      Or.inr (fun _ => ⟨out, rfl⟩), fun _ => trivial⟩

theorem body_on {call : Call} (h : call ≠ .flushAll) : ProgOn call.keys (body call) := by
  match call with
  | .put key rec => exact ⟨fun _ _ => List.mem_singleton_self key, fun _ => trivial⟩
  | .delete key =>
    refine ⟨fun _ hnow => ⟨List.mem_singleton_self key, hnow⟩, fun reply => ?_⟩
    cases reply <;> trivial
  | .update key fn =>
    refine ⟨fun _ hnow => ⟨List.mem_singleton_self key, hnow⟩, fun reply => ?_⟩
    cases reply with
    | found cur => exact (afterRead_on key fn cur).1
    | done | existed => exact (afterRead_on key fn none).1
  | .multiWrite [] => trivial
  | .multiWrite (mu :: muts) =>
    exact ⟨fun _ _ mu' hmu => List.mem_map_of_mem hmu, fun _ => trivial⟩
  | .flushAll => exact absurd rfl h

theorem body_readsFirst (call : Call) : ReadsFirst (body call) := by
  match call with
  | .put key rec => exact ⟨Or.inr (fun _ => ⟨_, rfl⟩), fun _ => trivial⟩
  | .delete key =>
    refine ⟨Or.inr (fun reply => ?_), fun reply => ?_⟩
    · cases reply <;> exact ⟨_, rfl⟩
    · cases reply <;> trivial
  | .update key fn =>
    refine ⟨Or.inl (fun _ _ => rfl), fun reply => ?_⟩
    cases reply with
    | found cur => exact (afterRead_on key fn cur).2
    | done | existed => exact (afterRead_on key fn none).2
  | .multiWrite [] => trivial
  | .multiWrite (mu :: muts) => exact ⟨Or.inr (fun _ => ⟨_, rfl⟩), fun _ => trivial⟩
  | .flushAll => exact ⟨Or.inr (fun _ => ⟨_, rfl⟩), fun _ => trivial⟩

/-- The rest of a program keeps to what the program keeps to. -/
theorem resume_rest {P : Prog → Prop} (hP : ∀ op rpc k, P (.ask op rpc k) → ∀ reply, P (k reply))
    {p q : Prog} {nows : List ℤ} {m m' : Map} (hp : P p) (h : resume p nows m = some (m', q)) :
    P q := by
  induction nows generalizing p m with
  | nil =>
    rw [resume_nil] at h
    cases h
    exact hp
  | cons n nows ih =>
    cases p with
    | ret => cases h
    | ask op rpc k => exact ih (hP op rpc k hp _) h

section Local

variable {keys : List Bytes} {R : Option Record → Option Record → Prop}

theorem whole_off {rpc : Rpc} (hrpc : RpcOn keys rpc) (m : Map) {k : Bytes} (hk : k ∉ keys) :
    (rpc.whole m).1 k = m k := by
  have hne : ∀ key, key ∈ keys → k ≠ key := fun key hkey heq => hk (heq ▸ hkey)
  cases rpc with
  | get => rfl
  | put key => exact Function.update_of_ne (hne key hrpc) _ _
  | delete key => exact Function.update_of_ne (hne key hrpc.1) _ _
  | batchWrite => exact applyAll_of_not_mem m (fun mu hmu heq => hne mu.key (hrpc mu hmu) heq.symm)
  | flushAll => exact hrpc.elim

/-- Maps that are related on the keys of a request give the same reply, and are
related afterwards. -/
theorem whole_related (hrefl : ∀ o, R o o) (halike : ∀ o o', R o o' → Alike o o') {rpc : Rpc}
    (hrpc : RpcOn keys rpc) {m m' : Map} (h : ∀ k ∈ keys, R (m k) (m' k)) :
    (rpc.whole m).2 = (rpc.whole m').2 ∧
      ∀ k ∈ keys, R ((rpc.whole m).1 k) ((rpc.whole m').1 k) := by
  have hupdate : ∀ (key : Bytes) (v : Option Record), ∀ k ∈ keys,
      R (Function.update m key v k) (Function.update m' key v k) := by
    intro key v k hk
    by_cases hkey : k = key
    · subst hkey
      rw [Function.update_self, Function.update_self]
      exact hrefl v
    · rw [Function.update_of_ne hkey, Function.update_of_ne hkey]
      exact h k hk
  cases rpc with
  | get key nowMs =>
    refine ⟨?_, h⟩
    have hsame := halike _ _ (h key hrpc.1) nowMs hrpc.2
    exact congrArg Reply.found hsame
  | put key rec => exact ⟨rfl, hupdate key (some rec)⟩
  | delete key nowMs =>
    refine ⟨?_, hupdate key none⟩
    have hsame := halike _ _ (h key hrpc.1) nowMs hrpc.2
    exact congrArg (fun o => Reply.existed (Option.isSome o)) hsame
  | batchWrite muts =>
    refine ⟨rfl, fun k hk => ?_⟩
    change R (m.applyAll muts k) (m'.applyAll muts k)
    by_cases hmem : ∃ mu ∈ muts, mu.key = k
    · rw [applyAll_of_mem m m' hmem]
      exact hrefl _
    · have hnot : ∀ mu ∈ muts, mu.key ≠ k := fun mu hmu heq => hmem ⟨mu, hmu, heq⟩
      rw [applyAll_of_not_mem m hnot, applyAll_of_not_mem m' hnot]
      exact h k hk
  | flushAll => exact hrpc.elim

theorem resume_off {p q : Prog} {nows : List ℤ} {m m₁ : Map} (hp : ProgOn keys p)
    (hnows : ∀ n ∈ nows, i64Min ≤ n) (h : resume p nows m = some (m₁, q)) {k : Bytes}
    (hk : k ∉ keys) : m₁ k = m k := by
  induction nows generalizing p m with
  | nil =>
    rw [resume_nil] at h
    cases h
    rfl
  | cons n nows ih =>
    cases p with
    | ret => cases h
    | ask =>
      obtain ⟨hn, hrest⟩ := List.forall_mem_cons.mp hnows
      rw [ih (hp.2 _) hrest h]
      exact whole_off (hp.1 n hn) m hk

theorem resume_related (hrefl : ∀ o, R o o) (halike : ∀ o o', R o o' → Alike o o') {p q : Prog}
    {nows : List ℤ} {m m' m₁ : Map} (hp : ProgOn keys p) (hnows : ∀ n ∈ nows, i64Min ≤ n)
    (hkeys : ∀ k ∈ keys, R (m k) (m' k)) (h : resume p nows m = some (m₁, q)) :
    ∃ m₁', resume p nows m' = some (m₁', q) ∧ ∀ k ∈ keys, R (m₁ k) (m₁' k) := by
  induction nows generalizing p m m' with
  | nil =>
    rw [resume_nil] at h
    cases h
    exact ⟨m', resume_nil q m', hkeys⟩
  | cons n nows ih =>
    cases p with
    | ret => cases h
    | ask op rpc c =>
      obtain ⟨hn, hrest⟩ := List.forall_mem_cons.mp hnows
      obtain ⟨hreply, hafter⟩ := whole_related hrefl halike (hp.1 n hn) hkeys
      obtain ⟨m₁', hrun, hrel⟩ := ih (hp.2 _) hrest hafter h
      refine ⟨m₁', ?_, hrel⟩
      change resume (c ((rpc n).whole m').2) nows ((rpc n).whole m').1 = _
      rw [← hreply]
      exact hrun

/-- A call that has only read so far has read the same on any map that has the
same records at its keys. -/
theorem resume_elsewhere {p q : Prog} {nows : List ℤ} {m m' : Map} (hp : ProgOn keys p)
    (hnows : ∀ n ∈ nows, i64Min ≤ n) (hkeys : ∀ k ∈ keys, m k = m' k)
    (h : resume p nows m = some (m, q)) : resume p nows m' = some (m', q) := by
  obtain ⟨m₁, hrun, hsame⟩ := resume_related (R := Eq) (fun _ => rfl)
    (fun _ _ heq _ _ => by rw [heq]) hp hnows hkeys h
  have hm : m₁ = m' := by
    funext k
    by_cases hk : k ∈ keys
    · rw [← hsame k hk, hkeys k hk]
    · exact resume_off hp hnows hrun hk
  rw [hrun, hm]

end Local

end RedisFromScratch.ClientPrograms
