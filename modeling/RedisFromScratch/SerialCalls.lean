import RedisFromScratch.CallSteps
import Mathlib.Data.List.Permutation

/-!
Every run of calls that do not fail ends as if the calls had run one after the
other, provided that the wipes keep apart from the rest. Without the proviso an
update that reads before a wipe and writes after it brings the key back, and no
serial order explains what it returned.
-/
namespace RedisFromScratch.SerialCalls

open ByteStrings StoreRecords EngineRequests LsmClient ClientPrograms ClientOrders CallSteps
open FlushPages Relation Runs

/-- In every run in which no call fails and the wipes keep apart from the other
calls, once all calls have returned, they can be put in an order such that
running them one after the other, each with its own readings of the clock,
returns what they have returned and leaves at every key what readers see there. -/
theorem calls_serializable (stripeOf : Bytes → Stripe) (m₀ : Map) (w : World)
    (hrun : ReflTransGen (ServesApart stripeOf) (start m₀) w)
    (hquiet : ∀ i, w.calls i = .idle ∨ ∃ call nows out, w.calls i = .returned call nows out) :
    ∃ order m, (∀ i e, (i, e) ∈ order ↔ w.calls i = .returned e.call e.nows e.out) ∧
      (order.map Prod.fst).Nodup ∧ replay m₀ order = some m ∧
      ∀ k nowMs, i64Min ≤ nowMs → live nowMs (m k) = live nowMs (w.engine k) := by
  have h := run_preserves (Good stripeOf m₀) (fun _ _ h hstep => good_step h hstep) hrun
    (good_start m₀)
  obtain ⟨before, after, mb, ma, hordered⟩ := h.ordered
  have hnowipe : ∀ i, wipe (w.calls i) = none := by
    intro i
    rcases hquiet i with hidle | ⟨call, nows, out, hret⟩
    · rw [hidle]
      rfl
    · rw [hret]
      rfl
  have hnil : after = [] := by
    by_contra hne
    obtain ⟨i, wp, hwp, -⟩ := hordered.alone hne
    rw [hnowipe i] at hwp
    cases hwp
  subst hnil
  have hmem := hordered.members
  have hnodup := hordered.nodup
  rw [List.append_nil] at hmem hnodup
  refine ⟨before, mb, fun i e => ?_, hnodup, hordered.before_run, fun k nowMs hnow => ?_⟩
  · rw [hmem]
    rcases hquiet i with hidle | ⟨call, nows, out, hret⟩
    · rw [hidle]
      exact ⟨fun heq => (by cases heq), fun heq => by cases heq⟩
    · rw [hret]
      constructor
      · intro heq
        cases heq
        rfl
      · intro heq
        cases heq
        rfl
  · refine ((hordered.ahead k ?_).1 nowMs hnow).symm
    rintro ⟨i, wp, hwp, -⟩
    rw [hnowipe i] at hwp
    cases hwp

def oneRecord : Map := Function.update Map.empty [107] (some ⟨[53], 0⟩)

/-- Append to the value, or start one. -/
def grow : UpdateFunc := fun cur _ => .ok (⟨cur.value ++ [1], 0⟩, .put)

theorem oneRecord_page : PageOf oneRecord [] [([107], ⟨[53], 0⟩)] none where
  start_le b _ := not_lt.mp (List.not_lt_nil b.1)
  before n hn := by cases hn
  holds b hb := by
    cases List.mem_singleton.mp hb
    rfl
  progress n hn := by cases hn

theorem oneRecord_complete : Complete oneRecord [] [([107], ⟨[53], 0⟩)] none := by
  intro k _ _ hk
  have hne : k ≠ [107] := fun heq => hk _ (List.mem_singleton_self _) heq.symm
  rw [oneRecord, Function.update_of_ne hne]
  rfl

section Apart

variable {w w' : World} {a : Act} {i : ℕ}

theorem apart_other (hwipe : ∀ i wp, a ≠ .engine i (.flushAll wp))
    (hbatch : ∀ i muts, a ≠ .engine i (.batchWrite muts)) : Apart w a w' where
  single i _ heq := absurd heq (hwipe i _)
  complete i _ _ _ heq := absurd heq (hwipe i _)
  untouched i _ _ heq := absurd heq (hwipe i _)
  whole i muts heq := absurd heq (hbatch i muts)

/-- A wipe while nothing else is under way. -/
theorem apart_alone {wp : Wipe} (hidle : ∀ j, j ≠ i → w.calls j = .idle)
    (hbetween : between (w.calls i) = none)
    (hcomplete : ∀ start page next, wp = .scanning start →
      wipe (w'.calls i) = some (.writing page next) → Complete w.engine start page next) :
    Apart w (.engine i (.flushAll wp)) w' where
  single i' start heq j hj := by
    cases heq
    rw [hidle j hj]
    rintro ⟨_, h, _⟩
    cases h
  complete i' start page next heq hpage := by
    cases heq
    exact hcomplete start page next rfl hpage
  untouched i' page next heq j call hj := by
    by_cases hji : j = i
    · rw [hji, hbetween] at hj
      cases hj
    · rw [hidle j hji] at hj
      cases hj
  whole i' muts heq := by cases heq

end Apart

theorem idle_beyond {stripeOf : Bytes → Stripe} {m : Map} {w : World}
    (hrun : ReflTransGen (Serves stripeOf) (start m) w) {i : ℕ} (hi : w.next ≤ i) :
    w.calls i = .idle := by
  have hholds := run_preserves (Holds stripeOf)
    (fun _ _ h hstep => hstep.elim (fun _ hs => holds_step h hs.1)) hrun (holds_start m)
  exact hholds.fresh i hi

/-- A wipe, and an update after it: the update starts a new value. -/
theorem wipe_then_update_serializable : ∃ w,
    ReflTransGen (ServesApart oneStripe) (start oneRecord) w ∧
    w.calls 1 = .returned (.update [107] grow) [0, 0] (.updated ⟨[], 0⟩ false none) ∧
    ∃ order m, (∀ i e, (i, e) ∈ order ↔ w.calls i = .returned e.call e.nows e.out) ∧
      (order.map Prod.fst).Nodup ∧ replay oneRecord order = some m ∧
      ∀ k nowMs, i64Min ≤ nowMs → live nowMs (m k) = live nowMs (w.engine k) := by
  have hclient : ∀ w w' i, Apart w (.client i) w' := fun w w' i =>
    apart_other (fun _ _ heq => by cases heq) (fun _ _ heq => by cases heq)
  have hwhole : ∀ w w' i key rec, Apart w (.engine i (.put key rec)) w' := fun w w' i key rec =>
    apart_other (fun _ _ heq => by cases heq) (fun _ _ heq => by cases heq)
  have hget : ∀ w w' i key now, Apart w (.engine i (.get key now)) w' := fun w w' i key rec =>
    apart_other (fun _ _ heq => by cases heq) (fun _ _ heq => by cases heq)
  obtain ⟨w, hrun, hnext, h0, h1⟩ : ∃ w, ReflTransGen (ServesApart oneStripe) (start oneRecord) w ∧
      w.next = 2 ∧ w.calls 0 = .returned .flushAll [0] .ok ∧
      w.calls 1 = .returned (.update [107] grow) [0, 0] (.updated ⟨[], 0⟩ false none) := by
    refine exists_run_head ⟨_, .issue _ .flushAll rfl, trivial, hclient _ _ _⟩ ?_
    refine exists_run_head ⟨_, .enter _ 0 _ _ rfl, trivial, hclient _ _ _⟩ ?_
    refine exists_run_head ⟨_, .send _ 0 _ _ _ _ _ _ 0 (by decide) rfl, trivial, hclient _ _ _⟩ ?_
    refine exists_run_head ⟨_, .goesOn _ 0 _ _ _ _ _ _ _ _ rfl (.scanPage _ _ _ _ oneRecord_page),
      trivial, apart_alone (fun j hj => ?_) rfl ?_⟩ ?_
    · simp [World.set, start, hj]
    · intro start page next heq hpage
      cases heq
      cases hpage
      exact oneRecord_complete
    refine exists_run_head ⟨_, .answers _ 0 _ _ _ _ _ _ _ _ rfl (.writeLast _ _),
      trivial, apart_alone (fun j hj => ?_) rfl ?_⟩ ?_
    · simp [World.set, start, hj]
    · intro start page next heq
      cases heq
    refine exists_run_head ⟨_, .receive _ 0 _ _ _ _ _ _ rfl, trivial, hclient _ _ _⟩ ?_
    refine exists_run_head ⟨_, .finish _ 0 _ _ _ rfl, trivial, hclient _ _ _⟩ ?_
    refine exists_run_head ⟨_, .issue _ (.update [107] grow) rfl, trivial, hclient _ _ _⟩ ?_
    refine exists_run_head ⟨_, .lock _ 1 _ _ _ _ rfl rfl, trivial, hclient _ _ _⟩ ?_
    refine exists_run_head ⟨_, .enter _ 1 _ _ rfl, trivial, hclient _ _ _⟩ ?_
    refine exists_run_head ⟨_, .send _ 1 _ _ _ _ _ _ 0 (by decide) rfl, trivial, hclient _ _ _⟩ ?_
    refine exists_run_head ⟨_, .answers _ 1 _ _ _ _ _ _ _ _ rfl (.whole _ _ (by simp)), trivial,
      hget _ _ _ _ _⟩ ?_
    refine exists_run_head ⟨_, .receive _ 1 _ _ _ _ _ _ rfl, trivial, hclient _ _ _⟩ ?_
    refine exists_run_head ⟨_, .send _ 1 _ _ _ _ _ _ 0 (by decide) rfl, trivial, hclient _ _ _⟩ ?_
    refine exists_run_head ⟨_, .answers _ 1 _ _ _ _ _ _ _ _ rfl (.whole _ _ (by simp)), trivial,
      hwhole _ _ _ _ _⟩ ?_
    refine exists_run_head ⟨_, .receive _ 1 _ _ _ _ _ _ rfl, trivial, hclient _ _ _⟩ ?_
    refine exists_run_head ⟨_, .unlock _ 1 _ _ _ _ _ rfl, trivial, hclient _ _ _⟩ ?_
    refine exists_run_head ⟨_, .finish _ 1 _ _ _ rfl, trivial, hclient _ _ _⟩ ?_
    exact ⟨_, .refl, rfl, rfl, rfl⟩
  refine ⟨w, hrun, h1, calls_serializable oneStripe oneRecord w hrun (fun i => ?_)⟩
  match i with
  | 0 => exact Or.inr ⟨_, _, _, h0⟩
  | 1 => exact Or.inr ⟨_, _, _, h1⟩
  | i + 2 =>
    have hserves : ReflTransGen (Serves oneStripe) (start oneRecord) w :=
      ReflTransGen.mono (fun _ _ h => h.imp (fun _ hs => ⟨hs.1, hs.2.1⟩)) _ _ hrun
    exact Or.inl (idle_beyond hserves (by omega))

theorem order_of_two {w : World} {e0 e1 : Entry}
    (h0 : w.calls 0 = .returned e0.call e0.nows e0.out)
    (h1 : w.calls 1 = .returned e1.call e1.nows e1.out) (hidle : ∀ i, w.calls (i + 2) = .idle)
    {order : List (ℕ × Entry)}
    (hmem : ∀ i e, (i, e) ∈ order ↔ w.calls i = .returned e.call e.nows e.out)
    (hnodup : (order.map Prod.fst).Nodup) :
    order = [(0, e0), (1, e1)] ∨ order = [(1, e1), (0, e0)] := by
  have hreturned : ∀ e e' : Entry, Pc.returned e.call e.nows e.out =
      Pc.returned e'.call e'.nows e'.out ↔ e' = e := by
    intro e e'
    rw [Pc.returned.injEq, Entry.ext_iff, eq_comm, eq_comm (a := e.nows), eq_comm (a := e.out)]
  refine List.perm_pair.mp ((List.perm_ext_iff_of_nodup hnodup.of_map (by simp)).mpr ?_)
  rintro ⟨i, e⟩
  rw [hmem]
  match i with
  | 0 =>
    rw [h0, hreturned]
    simp
  | 1 =>
    rw [h1, hreturned]
    simp
  | i + 2 =>
    rw [hidle i]
    simp

/-- An update reads a record, a wipe runs from its beginning to its end, and the
update writes. The update has seen the record, so it would have to come before
the wipe; the key has a record, so it would have to come after it. -/
theorem straddled_update_not_serializable : ∃ w,
    ReflTransGen (Serves oneStripe) (start oneRecord) w ∧
    (∀ i, w.calls i = .idle ∨ ∃ call nows out, w.calls i = .returned call nows out) ∧
    ¬ ∃ order m, (∀ i e, (i, e) ∈ order ↔ w.calls i = .returned e.call e.nows e.out) ∧
      (order.map Prod.fst).Nodup ∧ replay oneRecord order = some m ∧
      ∀ k nowMs, i64Min ≤ nowMs → live nowMs (m k) = live nowMs (w.engine k) := by
  let e0 : Entry := ⟨.update [107] grow, [0, 0], .updated ⟨[53], 0⟩ true none⟩
  let e1 : Entry := ⟨.flushAll, [0], .ok⟩
  obtain ⟨w, hrun, hengine, hnext, h0, h1⟩ : ∃ w,
      ReflTransGen (Serves oneStripe) (start oneRecord) w ∧
      w.engine [107] = some ⟨[53, 1], 0⟩ ∧ w.next = 2 ∧
      w.calls 0 = .returned e0.call e0.nows e0.out ∧
      w.calls 1 = .returned e1.call e1.nows e1.out := by
    refine exists_run_head ⟨_, .issue _ (.update [107] grow) rfl, trivial⟩ ?_
    refine exists_run_head ⟨_, .lock _ 0 _ _ _ _ rfl rfl, trivial⟩ ?_
    refine exists_run_head ⟨_, .enter _ 0 _ _ rfl, trivial⟩ ?_
    refine exists_run_head ⟨_, .send _ 0 _ _ _ _ _ _ 0 (by decide) rfl, trivial⟩ ?_
    refine exists_run_head
      ⟨_, .answers _ 0 _ _ _ _ _ _ _ _ rfl (.whole _ _ (by simp)), trivial⟩ ?_
    refine exists_run_head ⟨_, .receive _ 0 _ _ _ _ _ _ rfl, trivial⟩ ?_
    refine exists_run_head ⟨_, .issue _ .flushAll rfl, trivial⟩ ?_
    refine exists_run_head ⟨_, .enter _ 1 _ _ rfl, trivial⟩ ?_
    refine exists_run_head ⟨_, .send _ 1 _ _ _ _ _ _ 0 (by decide) rfl, trivial⟩ ?_
    refine exists_run_head
      ⟨_, .goesOn _ 1 _ _ _ _ _ _ _ _ rfl (.scanPage _ _ _ _ oneRecord_page), trivial⟩ ?_
    refine exists_run_head ⟨_, .answers _ 1 _ _ _ _ _ _ _ _ rfl (.writeLast _ _), trivial⟩ ?_
    refine exists_run_head ⟨_, .receive _ 1 _ _ _ _ _ _ rfl, trivial⟩ ?_
    refine exists_run_head ⟨_, .finish _ 1 _ _ _ rfl, trivial⟩ ?_
    refine exists_run_head ⟨_, .send _ 0 _ _ _ _ _ _ 0 (by decide) rfl, trivial⟩ ?_
    refine exists_run_head
      ⟨_, .answers _ 0 _ _ _ _ _ _ _ _ rfl (.whole _ _ (by simp)), trivial⟩ ?_
    refine exists_run_head ⟨_, .receive _ 0 _ _ _ _ _ _ rfl, trivial⟩ ?_
    refine exists_run_head ⟨_, .unlock _ 0 _ _ _ _ _ rfl, trivial⟩ ?_
    refine exists_run_head ⟨_, .finish _ 0 _ _ _ rfl, trivial⟩ ?_
    exact ⟨_, .refl, rfl, rfl, rfl, rfl⟩
  have hidle : ∀ i, w.calls (i + 2) = .idle := fun i => idle_beyond hrun (by omega)
  refine ⟨w, hrun, fun i => ?_, ?_⟩
  · match i with
    | 0 => exact Or.inr ⟨_, _, _, h0⟩
    | 1 => exact Or.inr ⟨_, _, _, h1⟩
    | i + 2 => exact Or.inl (hidle i)
  rintro ⟨order, m, hmem, hnodup, hreplay, hsame⟩
  rcases order_of_two h0 h1 hidle hmem hnodup with rfl | rfl
  · -- the wipe comes last and leaves nothing
    have hempty : replay oneRecord [(0, e0), (1, e1)] = some Map.empty := rfl
    cases hempty.symm.trans hreplay
    have hbad := hsame [107] 0 (by decide)
    rw [hengine] at hbad
    cases hbad
  · -- the wipe comes first and the update finds nothing
    have hnone : replay oneRecord [(1, e1), (0, e0)] = none := rfl
    cases hnone.symm.trans hreplay

end RedisFromScratch.SerialCalls
