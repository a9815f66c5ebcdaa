import RedisFromScratch.LockPrograms
import Mathlib.Data.List.Perm.Basic

/-!
Goroutines that lock and unlock by explicit calls, in any order the code names.
Nothing here gives a lock back by itself: a call that forgets to unlock leaves
its goroutine holding the lock, and unlocking a lock that is not held is an
error of the program. A discipline on the code, to lock upwards and to return
with empty hands, rules out circles of waiting goroutines in every reachable state.
-/
namespace RedisFromScratch.LockScripts

open LockPrograms (Mode)
open Relation Runs

inductive Script (L : Type*)
  /-- The call has returned. -/
  | done
  | lock (m : Mode) (l : L) (next : Script L)
  | unlock (m : Mode) (l : L) (next : Script L)
  /-- A branch on data. -/
  | either (p q : Script L)
  /-- Go on with something that data selects. -/
  | pick (next : ℕ → Script L)

/-- The locks a goroutine has taken and the rest of its call. -/
structure Goroutine (L : Type*) where
  held : List (Mode × L)
  script : Script L

def Goroutine.idle {L : Type*} : Goroutine L := ⟨[], .done⟩

section Runs

variable {I L C : Type*}

/-- A writer needs the lock to itself, readers share it. -/
def Grantable (s : I → Goroutine L) : Mode → L → Prop
  | .exclusive, l => ∀ j m, (m, l) ∉ (s j).held
  | .shared, l => ∀ j, (.exclusive, l) ∉ (s j).held

/-- One step of one goroutine. Between calls it may make any call. -/
inductive Step [DecidableEq I] [DecidableEq L] (code : C → Script L) :
    (I → Goroutine L) → (I → Goroutine L) → Prop
  | call (s : I → Goroutine L) (i : I) (c : C) (hdone : (s i).script = .done) :
      Step code s (Function.update s i ⟨(s i).held, code c⟩)
  | lock (s : I → Goroutine L) (i : I) (m : Mode) (l : L) (next : Script L)
      (hscript : (s i).script = .lock m l next) (hfree : Grantable s m l) :
      Step code s (Function.update s i ⟨(m, l) :: (s i).held, next⟩)
  | unlock (s : I → Goroutine L) (i : I) (m : Mode) (l : L) (next : Script L)
      (hscript : (s i).script = .unlock m l next) :
      Step code s (Function.update s i ⟨(s i).held.erase (m, l), next⟩)
  | left (s : I → Goroutine L) (i : I) (p q : Script L) (hscript : (s i).script = .either p q) :
      Step code s (Function.update s i ⟨(s i).held, p⟩)
  | right (s : I → Goroutine L) (i : I) (p q : Script L) (hscript : (s i).script = .either p q) :
      Step code s (Function.update s i ⟨(s i).held, q⟩)
  | pick (s : I → Goroutine L) (i : I) (next : ℕ → Script L) (n : ℕ)
      (hscript : (s i).script = .pick next) :
      Step code s (Function.update s i ⟨(s i).held, next n⟩)

/-- Goroutine `i` asks for a lock that goroutine `j` holds, in whatever mode. -/
def WaitsFor (s : I → Goroutine L) (i j : I) : Prop :=
  ∃ m l next m', (s i).script = .lock m l next ∧ (m', l) ∈ (s j).held

/-- No set of goroutines waits for itself, a goroutine between calls holds
nothing, and no lock is unlocked that is not held. -/
structure Orderly (s : I → Goroutine L) : Prop where
  unblocked : ∀ G : Set I, G.Nonempty → ¬ ∀ i ∈ G, ∃ j ∈ G, WaitsFor s i j
  released : ∀ i, (s i).script = .done → (s i).held = []
  matched : ∀ i m l next, (s i).script = .unlock m l next → (m, l) ∈ (s i).held

end Runs

section Discipline

variable {L : Type*} [DecidableEq L] (rank : L → ℕ)

/-- With these locks in hand the code locks only above all of them, unlocks only
what it has, and returns with nothing. -/
def Disciplined (held : List (Mode × L)) : Script L → Prop
  | .done => held = []
  | .lock m l next => (∀ g ∈ held, rank g.2 < rank l) ∧ Disciplined ((m, l) :: held) next
  | .unlock m l next => (m, l) ∈ held ∧ Disciplined (held.erase (m, l)) next
  | .either p q => Disciplined held p ∧ Disciplined held q
  | .pick next => ∀ n, Disciplined held (next n)

variable {rank} {I C : Type*} {code : C → Script L}

theorem disciplined_step [DecidableEq I] {s s' : I → Goroutine L}
    (hcode : ∀ c, Disciplined rank [] (code c))
    (h : ∀ i, Disciplined rank (s i).held (s i).script) (hstep : Step code s s') :
    ∀ i, Disciplined rank (s' i).held (s' i).script := by
  have hmove : ∀ i (g : Goroutine L), Disciplined rank g.held g.script →
      ∀ j, Disciplined rank (Function.update s i g j).held (Function.update s i g j).script :=
    fun i g hg => (Function.forall_update_iff s
      (fun _ (g : Goroutine L) => Disciplined rank g.held g.script)).mpr ⟨hg, fun j _ => h j⟩
  have hrest : ∀ i p, (s i).script = p → Disciplined rank (s i).held p :=
    fun i p hscript => hscript ▸ h i
  cases hstep with
  | call i c hdone =>
    have hnone : (s i).held = [] := hrest i _ hdone
    apply hmove
    rw [hnone]
    exact hcode c
  | lock i m l next hscript | unlock i m l next hscript | right i p q hscript =>
    exact hmove i _ (hrest i _ hscript).2
  | left i p q hscript => exact hmove i _ (hrest i _ hscript).1
  | pick i next n hscript => exact hmove i _ (hrest i _ hscript n)

/-- Along a wait the lock asked for goes up. -/
theorem rank_lt_of_waits {s : I → Goroutine L}
    (h : ∀ i, Disciplined rank (s i).held (s i).script) {i j : I} {m m' : Mode} {l l' : L}
    {next next' : Script L} (hi : (s i).script = .lock m l next) (hwaits : WaitsFor s i j)
    (hj : (s j).script = .lock m' l' next') : rank l < rank l' := by
  obtain ⟨m₁, l₁, next₁, m₂, hscript, hheld⟩ := hwaits
  rw [hi] at hscript
  cases hscript
  have hdisc := h j
  rw [hj] at hdisc
  exact hdisc.1 _ hheld

/-- Among goroutines that wait for one another, one would ask for a lock above
every bound. -/
theorem not_all_wait {s : I → Goroutine L} {top : ℕ} (htop : ∀ l, rank l ≤ top)
    (h : ∀ i, Disciplined rank (s i).held (s i).script) {G : Set I} (hG : G.Nonempty) :
    ¬ ∀ i ∈ G, ∃ j ∈ G, WaitsFor s i j := by
  intro hall
  have hclimb : ∀ n, ∃ i ∈ G, ∃ m l next, (s i).script = .lock m l next ∧ n ≤ rank l := by
    intro n
    induction n with
    | zero =>
      obtain ⟨i, hi⟩ := hG
      obtain ⟨j, -, m, l, next, m', hscript, -⟩ := hall i hi
      exact ⟨i, hi, m, l, next, hscript, Nat.zero_le _⟩
    | succ n ih =>
      obtain ⟨i, hi, m, l, next, hscript, hn⟩ := ih
      obtain ⟨j, hj, hwaits⟩ := hall i hi
      obtain ⟨k, -, m', l', next', m₂, hscript', -⟩ := hall j hj
      have hlt := rank_lt_of_waits h hscript hwaits hscript'
      exact ⟨j, hj, m', l', next', hscript', by omega⟩
  obtain ⟨i, -, m, l, next, -, habove⟩ := hclimb (top + 1)
  have hbound := htop l
  omega

/-- Goroutines that run disciplined code stay in order. -/
theorem orderly_of_run [DecidableEq I] {s : I → Goroutine L} {top : ℕ}
    (htop : ∀ l, rank l ≤ top) (hcode : ∀ c, Disciplined rank [] (code c))
    (hrun : ReflTransGen (Step code) (fun _ => Goroutine.idle) s) : Orderly s := by
  have h : ∀ i, Disciplined rank (s i).held (s i).script :=
    run_preserves (fun s : I → Goroutine L => ∀ i, Disciplined rank (s i).held (s i).script)
      (fun _ _ hs hstep => disciplined_step hcode hs hstep) hrun (fun _ => rfl)
  have hrest : ∀ i p, (s i).script = p → Disciplined rank (s i).held p :=
    fun i p hscript => hscript ▸ h i
  exact ⟨fun G hG => not_all_wait htop h hG, fun i hdone => hrest i _ hdone,
    fun i m l next hscript => (hrest i _ hscript).1⟩

end Discipline

section Loops

variable {L : Type*}

def lockAll : List L → Script L → Script L
  | [], next => next
  | l :: ls, next => .lock .exclusive l (lockAll ls next)

def unlockAll : List L → Script L → Script L
  | [], next => next
  | l :: ls, next => .unlock .exclusive l (unlockAll ls next)

variable [DecidableEq L] {rank : L → ℕ}

theorem Disciplined.lockAll {ls : List L} {next : Script L} (held : List (Mode × L))
    (hasc : ls.Pairwise (fun a b => rank a < rank b))
    (hbelow : ∀ g ∈ held, ∀ l ∈ ls, rank g.2 < rank l)
    (hnext : Disciplined rank ((ls.map (fun l => (.exclusive, l))).reverse ++ held) next) :
    Disciplined rank held (lockAll ls next) := by
  induction ls generalizing held with
  | nil => exact hnext
  | cons l ls ih =>
    obtain ⟨hl, hls⟩ := List.pairwise_cons.mp hasc
    refine ⟨fun g hg => hbelow g hg l List.mem_cons_self, ?_⟩
    refine ih ((.exclusive, l) :: held) hls ?_ ?_
    · intro g hg l' hl'
      rcases List.mem_cons.mp hg with rfl | hg
      · exact hl l' hl'
      · exact hbelow g hg l' (List.mem_cons_of_mem _ hl')
    · rw [List.map_cons, List.reverse_cons, List.append_assoc] at hnext
      exact hnext

theorem Disciplined.unlockAll {ls : List L} {next : Script L} {held : List (Mode × L)}
    (hnext : Disciplined rank held next) :
    Disciplined rank (ls.map (fun l => (.exclusive, l)) ++ held) (unlockAll ls next) := by
  induction ls with
  | nil => exact hnext
  | cons l ls ih =>
    refine ⟨List.mem_cons_self, ?_⟩
    rw [List.map_cons, List.cons_append, List.erase_cons_head]
    exact ih

/-- Lock upwards, do something that touches no lock, and unlock downwards. -/
theorem disciplined_batch {ls : List L} (hasc : ls.Pairwise (fun a b => rank a < rank b))
    {body : Script L → Script L}
    (hbody : ∀ held next, Disciplined rank held next → Disciplined rank held (body next)) :
    Disciplined rank [] (LockScripts.lockAll ls
      (body (LockScripts.unlockAll ls.reverse .done))) := by
  apply Disciplined.lockAll [] hasc (by simp)
  apply hbody
  rw [← List.map_reverse]
  exact Disciplined.unlockAll rfl

end Loops

end RedisFromScratch.LockScripts
