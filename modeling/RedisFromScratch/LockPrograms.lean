import RedisFromScratch.Runs
import Mathlib.Order.Lattice.Nat

/-!
Threads that take locks, with everything left out but guards and control flow.
A guard lives in a scope and goes with it, also when a function returns early; a
condition variable gives the guard up and takes it back. Where every scope asks
only for locks above all it holds, no set of threads can block itself, whether or
not a waiting writer keeps readers out.
-/
namespace RedisFromScratch.LockPrograms

open Relation Runs

inductive Mode
  | shared
  | exclusive
  deriving DecidableEq, Repr

inductive Program (L : Type*)
  | skip
  /-- Return from the function, dropping every guard on the way. -/
  | exit
  | seq (p q : Program L)
  /-- A branch on data. -/
  | either (p q : Program L)
  /-- A loop that data may end at any turn. -/
  | loop (p : Program L)
  /-- A loop that only a return leaves. -/
  | forever (p : Program L)
  /-- The scope of a guard. -/
  | hold (m : Mode) (l : L) (p : Program L)
  /-- Wait on a condition variable with the guard of this lock. -/
  | wait (l : L)
  /-- The body of a function. -/
  | call (p : Program L)
  /-- Go on with something that data selects. -/
  | pick (p : ℕ → Program L)

variable {L : Type*}

/-- What is left to do when a scope, a statement or a function is done. -/
inductive Frame (L : Type*)
  | next (p : Program L)
  | unlock (m : Mode) (l : L)
  | back

inductive Thread (L : Type*)
  | run (p : Program L) (k : List (Frame L))
  | waiting (l : L) (k : List (Frame L))
  /-- Notified or timed out, and in need of the lock again. -/
  | waking (l : L) (k : List (Frame L))

/-- The guards of the open scopes, innermost first. -/
def guards : List (Frame L) → List (Mode × L)
  | [] => []
  | .next _ :: k => guards k
  | .unlock m l :: k => (m, l) :: guards k
  | .back :: k => guards k

namespace Thread

def start (p : Program L) : Thread L := .run p []

/-- A thread on a condition variable has given up that variable's lock. -/
def Holds : Thread L → Mode → L → Prop
  | .run _ k, m, l => (m, l) ∈ guards k
  | .waiting l' k, m, l => (m, l) ∈ guards k ∧ l ≠ l'
  | .waking l' k, m, l => (m, l) ∈ guards k ∧ l ≠ l'

def Waiting : Thread L → Prop
  | .waiting _ _ => True
  | _ => False

def Finished : Thread L → Prop
  | .run .skip [] => True
  | .run .exit [] => True
  | _ => False

/-- Neither waiting on a condition variable nor finished. -/
def Active (t : Thread L) : Prop := ¬ t.Waiting ∧ ¬ t.Finished

end Thread

/-- Steps that need no lock. -/
inductive Local : Thread L → Thread L → Prop
  | next (p : Program L) (k : List (Frame L)) : Local (.run .skip (.next p :: k)) (.run p k)
  | unlock (m : Mode) (l : L) (k : List (Frame L)) :
      Local (.run .skip (.unlock m l :: k)) (.run .skip k)
  | back (k : List (Frame L)) : Local (.run .skip (.back :: k)) (.run .skip k)
  | exitNext (p : Program L) (k : List (Frame L)) :
      Local (.run .exit (.next p :: k)) (.run .exit k)
  | exitUnlock (m : Mode) (l : L) (k : List (Frame L)) :
      Local (.run .exit (.unlock m l :: k)) (.run .exit k)
  | exitBack (k : List (Frame L)) : Local (.run .exit (.back :: k)) (.run .skip k)
  | seq (p q : Program L) (k : List (Frame L)) :
      Local (.run (.seq p q) k) (.run p (.next q :: k))
  | left (p q : Program L) (k : List (Frame L)) : Local (.run (.either p q) k) (.run p k)
  | right (p q : Program L) (k : List (Frame L)) : Local (.run (.either p q) k) (.run q k)
  | leave (p : Program L) (k : List (Frame L)) : Local (.run (.loop p) k) (.run .skip k)
  | enter (p : Program L) (k : List (Frame L)) :
      Local (.run (.loop p) k) (.run p (.next (.loop p) :: k))
  | again (p : Program L) (k : List (Frame L)) :
      Local (.run (.forever p) k) (.run p (.next (.forever p) :: k))
  | wait (l : L) (k : List (Frame L)) : Local (.run (.wait l) k) (.waiting l k)
  | wake (l : L) (k : List (Frame L)) : Local (.waiting l k) (.waking l k)
  | call (p : Program L) (k : List (Frame L)) : Local (.run (.call p) k) (.run p (.back :: k))
  | pick (p : ℕ → Program L) (n : ℕ) (k : List (Frame L)) :
      Local (.run (.pick p) k) (.run (p n) k)

/-- Steps that take a lock. -/
inductive Takes : Thread L → Mode → L → Thread L → Prop
  | hold (m : Mode) (l : L) (p : Program L) (k : List (Frame L)) :
      Takes (.run (.hold m l p) k) m l (.run p (.unlock m l :: k))
  | wake (l : L) (k : List (Frame L)) : Takes (.waking l k) .exclusive l (.run .skip k)

section Threads

variable {I : Type*}

/-- The lock can be had: by one writer, or by readers without a writer. -/
def Free (s : I → Thread L) : Mode → L → Prop
  | .exclusive, l => ∀ j m, ¬ (s j).Holds m l
  | .shared, l => ∀ j, ¬ (s j).Holds .exclusive l

/-- The same, and a reader also lets every waiting writer go first. -/
def FreeFor (s : I → Thread L) (m : Mode) (l : L) : Prop :=
  Free s m l ∧ (m = .shared → ∀ j t, ¬ Takes (s j) .exclusive l t)

/-- One step of thread `i`, where `free` says which locks can be had. -/
inductive StepWith [DecidableEq I] (free : (I → Thread L) → Mode → L → Prop) :
    (I → Thread L) → I → (I → Thread L) → Prop
  | own (s : I → Thread L) (i : I) (t : Thread L) (h : Local (s i) t) :
      StepWith free s i (Function.update s i t)
  | take (s : I → Thread L) (i : I) (m : Mode) (l : L) (t : Thread L) (h : Takes (s i) m l t)
      (hfree : free s m l) : StepWith free s i (Function.update s i t)

/-- Any thread moves, and readers may overtake a waiting writer. -/
def Step [DecidableEq I] (s s' : I → Thread L) : Prop := ∃ i, StepWith Free s i s'

/-- Thread `i` asks for a lock that thread `j` holds. -/
def WaitsFor (s : I → Thread L) (i j : I) : Prop :=
  ∃ m l t m', Takes (s i) m l t ∧ (s j).Holds m' l

/-- Some active thread can move even where readers let waiting writers go
first, unless there is no active thread, and no threads wait in a circle. -/
structure NoDeadlock [DecidableEq I] (s : I → Thread L) : Prop where
  moves : (∃ i, (s i).Active) → ∃ i, (s i).Active ∧ ∃ s', StepWith FreeFor s i s'
  acyclic : ∀ i, ¬ TransGen (WaitsFor s) i i

end Threads

section Ranks

variable (rank : L → ℕ)

/-- All these guards are on locks below a rank. -/
def Below (held : List (Mode × L)) (r : ℕ) : Prop := ∀ g ∈ held, rank g.2 < r

/-- Inside these guards, the program asks for locks in ascending rank, and waits
on a condition variable with no other guard. -/
def Ordered (held : List (Mode × L)) : Program L → Prop
  | .skip => True
  | .exit => True
  | .seq p q => Ordered held p ∧ Ordered held q
  | .either p q => Ordered held p ∧ Ordered held q
  | .loop p => Ordered held p
  | .forever p => Ordered held p
  | .hold m l p => Below rank held (rank l) ∧ Ordered ((m, l) :: held) p
  | .wait l => held = [(.exclusive, l)]
  | .call p => Ordered held p
  | .pick p => ∀ n, Ordered held (p n)

/-- What is left to do is ordered as well. -/
def OrderedFrames : List (Frame L) → Prop
  | [] => True
  | .next p :: k => Ordered rank (guards k) p ∧ OrderedFrames k
  | .unlock _ l :: k => Below rank (guards k) (rank l) ∧ OrderedFrames k
  | .back :: k => OrderedFrames k

def OrderedThread : Thread L → Prop
  | .run p k => Ordered rank (guards k) p ∧ OrderedFrames rank k
  | .waiting l k => guards k = [(.exclusive, l)] ∧ OrderedFrames rank k
  | .waking l k => guards k = [(.exclusive, l)] ∧ OrderedFrames rank k

variable {rank}

theorem Below.nil (r : ℕ) : Below rank [] r := fun _ hg => absurd hg List.not_mem_nil

theorem Below.cons {held : List (Mode × L)} {r : ℕ} {m : Mode} {l : L} (hl : rank l < r)
    (h : Below rank held r) : Below rank ((m, l) :: held) r := by
  intro g hg
  rcases List.mem_cons.mp hg with rfl | hg
  · exact hl
  · exact h g hg

theorem Below.mono {held : List (Mode × L)} {r r' : ℕ} (h : Below rank held r) (hle : r ≤ r') :
    Below rank held r' := fun g hg => (h g hg).trans_le hle

theorem OrderedThread.own {t t' : Thread L} (h : OrderedThread rank t) (hstep : Local t t') :
    OrderedThread rank t' := by
  cases hstep with
  | next => exact h.2
  | unlock | exitNext | exitUnlock => exact ⟨trivial, h.2.2⟩
  | back | exitBack | leave => exact ⟨trivial, h.2⟩
  | seq => exact ⟨h.1.1, h.1.2, h.2⟩
  | left => exact ⟨h.1.1, h.2⟩
  | right => exact ⟨h.1.2, h.2⟩
  | enter | again => exact ⟨h.1, h.1, h.2⟩
  | wait | wake | call => exact h
  | pick p n => exact ⟨h.1 n, h.2⟩

theorem OrderedThread.take {t t' : Thread L} {m : Mode} {l : L} (h : OrderedThread rank t)
    (hstep : Takes t m l t') : OrderedThread rank t' := by
  cases hstep with
  | hold => exact ⟨h.1.2, h.1.1, h.2⟩
  | wake => exact ⟨trivial, h.2⟩

/-- A thread that asks for a lock holds only locks below it. -/
theorem OrderedThread.below {t t' : Thread L} {m m' : Mode} {l l' : L}
    (h : OrderedThread rank t) (htake : Takes t m l t') (hhold : t.Holds m' l') :
    rank l' < rank l := by
  cases htake with
  | hold => exact h.1.1 _ hhold
  | wake =>
    obtain ⟨hmem, hne⟩ := hhold
    rw [h.1] at hmem
    cases List.mem_singleton.mp hmem
    exact absurd rfl hne

/-- A thread on a condition variable holds nothing. -/
theorem OrderedThread.active_of_holds {t : Thread L} {m : Mode} {l : L}
    (h : OrderedThread rank t) (hhold : t.Holds m l) : t.Active := by
  cases t with
  | run p k =>
    refine ⟨id, ?_⟩
    intro hfin
    cases k with
    | nil => cases hhold
    | cons => cases p <;> exact hfin
  | waiting =>
    obtain ⟨hmem, hne⟩ := hhold
    rw [h.1] at hmem
    cases List.mem_singleton.mp hmem
    exact absurd rfl hne
  | waking => exact ⟨id, id⟩

end Ranks

/-- An active thread can go on by itself or asks for a lock. -/
theorem Thread.Active.local_or_takes {t : Thread L} (h : t.Active) :
    (∃ t', Local t t') ∨ ∃ m l t', Takes t m l t' := by
  cases t with
  | waiting => exact absurd trivial h.1
  | waking l k => exact Or.inr ⟨_, _, _, .wake l k⟩
  | run p k =>
    cases p with
    | skip =>
      cases k with
      | nil => exact absurd trivial h.2
      | cons f k =>
        cases f with
        | next p => exact Or.inl ⟨_, .next p k⟩
        | unlock m l => exact Or.inl ⟨_, .unlock m l k⟩
        | back => exact Or.inl ⟨_, .back k⟩
    | exit =>
      cases k with
      | nil => exact absurd trivial h.2
      | cons f k =>
        cases f with
        | next p => exact Or.inl ⟨_, .exitNext p k⟩
        | unlock m l => exact Or.inl ⟨_, .exitUnlock m l k⟩
        | back => exact Or.inl ⟨_, .exitBack k⟩
    | seq p q => exact Or.inl ⟨_, .seq p q k⟩
    | either p q => exact Or.inl ⟨_, .left p q k⟩
    | loop p => exact Or.inl ⟨_, .leave p k⟩
    | forever p => exact Or.inl ⟨_, .again p k⟩
    | hold m l p => exact Or.inr ⟨m, l, _, .hold m l p k⟩
    | wait l => exact Or.inl ⟨_, .wait l k⟩
    | call p => exact Or.inl ⟨_, .call p k⟩
    | pick p => exact Or.inl ⟨_, .pick p 0 k⟩

/-- A thread asks for one lock at a time. -/
theorem Takes.unique {t u u' : Thread L} {m m' : Mode} {l l' : L} (h : Takes t m l u)
    (h' : Takes t m' l' u') : l = l' := by
  cases h with
  | hold | wake =>
    cases h'
    rfl

theorem Takes.active {t u : Thread L} {m : Mode} {l : L} (h : Takes t m l u) : t.Active := by
  cases h with
  | hold | wake => exact ⟨id, id⟩

section Deadlock

variable {I : Type*} {rank : L → ℕ} {s : I → Thread L}

theorem ordered_step [DecidableEq I] {s' : I → Thread L} (h : ∀ i, OrderedThread rank (s i))
    (hstep : Step s s') : ∀ i, OrderedThread rank (s' i) := by
  obtain ⟨i, hstep⟩ := hstep
  cases hstep with
  | own t hlocal => exact (Function.forall_update_iff s _).mpr ⟨(h i).own hlocal, fun j _ => h j⟩
  | take m l t htake =>
    exact (Function.forall_update_iff s _).mpr ⟨(h i).take htake, fun j _ => h j⟩

/-- Along a chain of waiting threads the locks asked for go up. -/
theorem rank_lt_of_chain (h : ∀ i, OrderedThread rank (s i)) {i j : I}
    (hchain : TransGen (WaitsFor s) i j) {m m' : Mode} {l l' : L} {t t' : Thread L}
    (hi : Takes (s i) m l t) (hj : Takes (s j) m' l' t') : rank l < rank l' := by
  have hedge : ∀ {i j m m' l l' t t'}, WaitsFor s i j → Takes (s i) m l t →
      Takes (s j) m' l' t' → rank l < rank l' := by
    rintro i j m m' l l' t t' ⟨m₁, l₁, t₁, m₂, htake, hhold⟩ hi hj
    rw [hi.unique htake]
    exact (h j).below hj hhold
  induction hchain generalizing m' l' t' with
  | single hij => exact hedge hij hi hj
  | tail hchain hlast ih =>
    obtain ⟨m₁, l₁, t₁, m₂, htake, hhold⟩ := hlast
    exact (ih htake).trans (hedge ⟨m₁, l₁, t₁, m₂, htake, hhold⟩ htake hj)

theorem not_waits_for_itself (h : ∀ i, OrderedThread rank (s i)) (i : I) :
    ¬ TransGen (WaitsFor s) i i := by
  intro hcycle
  obtain ⟨j, hij, -⟩ := TransGen.head'_iff.mp hcycle
  obtain ⟨m, l, t, m', htake, -⟩ := hij
  exact lt_irrefl _ (rank_lt_of_chain h hcycle htake htake)

/-- Of the locks asked for, the highest is held by nobody. -/
theorem unheld_of_highest (h : ∀ i, OrderedThread rank (s i))
    (hall : ∀ i, (s i).Active → ∃ m l t, Takes (s i) m l t) {l : L}
    (hmax : ∀ i m l' t, Takes (s i) m l' t → rank l' ≤ rank l) (j : I) (m : Mode) :
    ¬ (s j).Holds m l := by
  intro hhold
  obtain ⟨m', l', t, htake⟩ := hall j ((h j).active_of_holds hhold)
  exact absurd ((h j).below htake hhold) (not_lt.mpr (hmax j m' l' t htake))

theorem some_thread_moves [DecidableEq I] {top : ℕ} (htop : ∀ l, rank l ≤ top)
    (h : ∀ i, OrderedThread rank (s i)) (hactive : ∃ i, (s i).Active) :
    ∃ i, (s i).Active ∧ ∃ s', StepWith FreeFor s i s' := by
  by_cases hlocal : ∃ i, (s i).Active ∧ ∃ t, Local (s i) t
  · obtain ⟨i, hi, t, ht⟩ := hlocal
    exact ⟨i, hi, _, .own s i t ht⟩
  -- all active threads ask for a lock: look at one that asks for the highest
  have hall : ∀ i, (s i).Active → ∃ m l t, Takes (s i) m l t := by
    intro i hi
    rcases hi.local_or_takes with hown | htake
    · exact absurd ⟨i, hi, hown⟩ hlocal
    · exact htake
  let asked : Set ℕ := {r | ∃ i m l t, Takes (s i) m l t ∧ rank l = r}
  have hasked : asked.Nonempty := by
    obtain ⟨i, hi⟩ := hactive
    obtain ⟨m, l, t, htake⟩ := hall i hi
    exact ⟨rank l, i, m, l, t, htake, rfl⟩
  have hbounded : BddAbove asked := by
    refine ⟨top, ?_⟩
    rintro r ⟨i, m, l, t, -, rfl⟩
    exact htop l
  obtain ⟨i, m, l, t, htake, hrank⟩ := Nat.sSup_mem hasked hbounded
  have hmax : ∀ j m' l' t', Takes (s j) m' l' t' → rank l' ≤ rank l := by
    intro j m' l' t' hj
    rw [hrank]
    exact le_csSup hbounded ⟨j, m', l', t', hj, rfl⟩
  have hunheld := unheld_of_highest h hall hmax
  have hwriter : ∀ {j t'}, Takes (s j) .exclusive l t' → StepWith FreeFor s j _ :=
    fun {j t'} hj => .take s j .exclusive l t' hj ⟨hunheld, nofun⟩
  cases m with
  | exclusive => exact ⟨i, htake.active, _, hwriter htake⟩
  | shared =>
    by_cases hqueue : ∃ j t', Takes (s j) .exclusive l t'
    · obtain ⟨j, t', hj⟩ := hqueue
      exact ⟨j, hj.active, _, hwriter hj⟩
    · refine ⟨i, htake.active, _, .take s i .shared l t htake ⟨fun j => hunheld j _, ?_⟩⟩
      exact fun _ j t' hj => hqueue ⟨j, t', hj⟩

/-- Threads that start with programs ordered by a bounded rank never deadlock. -/
theorem no_deadlock [DecidableEq I] {top : ℕ} (htop : ∀ l, rank l ≤ top) {p : I → Program L}
    (hp : ∀ i, Ordered rank [] (p i))
    (hrun : ReflTransGen Step (fun i => Thread.start (p i)) s) : NoDeadlock s := by
  have h : ∀ i, OrderedThread rank (s i) :=
    run_preserves (fun s : I → Thread L => ∀ i, OrderedThread rank (s i))
      (fun _ _ hs hstep => ordered_step hs hstep) hrun (fun i => ⟨hp i, trivial⟩)
  exact ⟨some_thread_moves htop h, not_waits_for_itself h⟩

end Deadlock

end RedisFromScratch.LockPrograms
