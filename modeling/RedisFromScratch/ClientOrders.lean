import RedisFromScratch.ClientPrograms

/-!
Calls of the store in some serial order. Calls that share a key keep out of each
other's way by their stripes, so each takes effect with its last request. A wipe
takes no stripe. It divides the other calls by whether it has passed their keys:
those ahead of it go before it in the order and those behind it after it. That
works as long as no deletion of the wipe falls between the read and the write of
an update, no batch has keys on both sides, and no two wipes overlap.
-/
namespace RedisFromScratch.ClientOrders

open ByteStrings StoreRecords EngineRequests LsmClient ClientPrograms FlushPages Relation Runs

/-- A call that has taken effect, and what it is going to return. -/
def settled : Pc → Option Entry
  | .running call _ nows (.ret out) => some ⟨call, nows, out⟩
  | .replied call _ nows _ reply k =>
      match k reply with
      | .ret out => some ⟨call, nows, out⟩
      | .ask _ _ _ => none
  | .returned call nows out => some ⟨call, nows, out⟩
  | _ => none

def wipe : Pc → Option Wipe
  | .sent _ _ _ _ (.flushAll wp) _ => some wp
  | _ => none

def Behind (pc : Pc) (k : Bytes) : Prop := ∃ wp, wipe pc = some wp ∧ wp.Behind k

/-- A wipe that has read its first page. -/
def Wiping (pc : Pc) : Prop := ∃ wp, wipe pc = some wp ∧ wp ≠ .scanning []

def Passed (w : World) (k : Bytes) : Prop := ∃ i, Behind (w.calls i) k

/-- A call with one request carried out and another one to come. -/
def between : Pc → Option Call
  | .running call _ (_ :: _) (.ask _ _ _) => some call
  | .sent call _ (_ :: _ :: _) _ _ _ => some call
  | .replied call _ _ _ reply k =>
      match k reply with
      | .ret _ => none
      | .ask _ _ _ => some call
  | _ => none

/-- The steps of calls that do not fail. -/
def Act.Regular : Act → Prop
  | .client _ => True
  | .engine _ _ => True
  | _ => False

/-- What keeps wipes apart from the other calls. -/
structure Apart (w : World) (a : Act) (w' : World) : Prop where
  single : ∀ i start, a = .engine i (.flushAll (.scanning start)) → ∀ j, j ≠ i →
    ¬ Wiping (w.calls j)
  complete : ∀ i start page next, a = .engine i (.flushAll (.scanning start)) →
    wipe (w'.calls i) = some (.writing page next) → Complete w.engine start page next
  untouched : ∀ i page next, a = .engine i (.flushAll (.writing page next)) →
    ∀ j call, between (w.calls j) = some call → ∀ b ∈ page, b.1 ∉ call.keys
  whole : ∀ i muts, a = .engine i (.batchWrite muts) →
    (∀ mu ∈ muts, Passed w mu.key) ∨ ∀ mu ∈ muts, ¬ Passed w mu.key

def Serves (stripeOf : Bytes → Stripe) (w w' : World) : Prop :=
  ∃ a, Step stripeOf w a w' ∧ Act.Regular a

def ServesApart (stripeOf : Bytes → Stripe) (w w' : World) : Prop :=
  ∃ a, Step stripeOf w a w' ∧ Act.Regular a ∧ Apart w a w'

/-- The calls one after the other, each returning what it has returned. -/
def replay (m : Map) (order : List (ℕ × Entry)) : Option Map :=
  order.foldlM (fun m b => b.2.perform m) m

/-- The order so far: the calls before the wipe under way and those after it. -/
structure Ordered (m₀ : Map) (w : World) (before after : List (ℕ × Entry)) (mb ma : Map) :
    Prop where
  before_run : replay m₀ before = some mb
  after_run : replay Map.empty after = some ma
  behind : ∀ k, Passed w k → Alike (w.engine k) (ma k)
  ahead : ∀ k, ¬ Passed w k → Alike (w.engine k) (mb k) ∧ ma k = none
  members : ∀ i e, (i, e) ∈ before ++ after ↔ settled (w.calls i) = some e
  nodup : ((before ++ after).map Prod.fst).Nodup
  alone : after ≠ [] → ∃ i, Wiping (w.calls i)
  single : ∀ i j, Wiping (w.calls i) → Wiping (w.calls j) → i = j
  pages : ∀ i page n, wipe (w.calls i) = some (.writing page (some n)) →
    n ≠ [] ∧ ∀ b ∈ page, b.1 < n

section Orders

variable {m₀ mb ma : Map} {w w' : World} {before after : List (ℕ × Entry)} {i : ℕ} {pc : Pc}

theorem Alike.refl (o : Option Record) : Alike o o := fun _ _ => rfl

theorem replay_append (m : Map) (l l' : List (ℕ × Entry)) :
    replay m (l ++ l') = (replay m l).bind (fun m' => replay m' l') := List.foldlM_append

theorem replay_singleton (m : Map) (i : ℕ) (e : Entry) : replay m [(i, e)] = e.perform m := by
  simp [replay]

theorem wiping_of_behind {k : Bytes} (h : Behind pc k) : Wiping pc := by
  obtain ⟨wp, hwp, hk⟩ := h
  refine ⟨wp, hwp, ?_⟩
  rintro rfl
  exact List.not_lt_nil k hk

/-- The order with one more call in it, wherever it is put. -/
theorem Ordered.record (h : Ordered m₀ w before after mb ma) (hold : settled (w.calls i) = none)
    {e : Entry} (hcalls : w'.calls = Function.update w.calls i pc) (hsettled : settled pc = some e)
    {order : List (ℕ × Entry)} (hperm : order.Perm ((i, e) :: (before ++ after))) :
    (∀ j e', (j, e') ∈ order ↔ settled (w'.calls j) = some e') ∧
      (order.map Prod.fst).Nodup := by
  have hnew : ∀ e', (i, e') ∉ before ++ after := by
    intro e' hmem
    rw [h.members, hold] at hmem
    cases hmem
  constructor
  · intro j e'
    rw [hperm.mem_iff, List.mem_cons, hcalls]
    by_cases hj : j = i
    · subst hj
      rw [Function.update_self, hsettled]
      constructor
      · rintro (heq | hmem)
        · cases heq
          rfl
        · exact absurd hmem (hnew e')
      · intro heq
        cases heq
        exact Or.inl rfl
    · rw [Function.update_of_ne hj, ← h.members]
      constructor
      · rintro (heq | hmem)
        · cases heq
          exact absurd rfl hj
        · exact hmem
      · exact Or.inr
  · rw [(hperm.map Prod.fst).nodup_iff, List.map_cons, List.nodup_cons]
    refine ⟨?_, h.nodup⟩
    intro hmem
    obtain ⟨⟨j, e'⟩, hb, rfl⟩ := List.mem_map.mp hmem
    exact hnew e' hb

theorem passed_congr (hcalls : w'.calls = Function.update w.calls i pc)
    (hpc : ∀ k, Behind pc k ↔ Behind (w.calls i) k) (k : Bytes) : Passed w' k ↔ Passed w k := by
  rw [Passed, Passed, hcalls]
  exact exists_congr (fun j => (read_update (Behind · k) (propext (hpc k)) j).to_iff)

theorem wiping_congr (hcalls : w'.calls = Function.update w.calls i pc)
    (hpc : Wiping pc ↔ Wiping (w.calls i)) (j : ℕ) :
    Wiping (w'.calls j) ↔ Wiping (w.calls j) := by
  rw [hcalls]
  exact (read_update Wiping (propext hpc) j).to_iff

/-- A step that neither settles a call nor moves a wipe. -/
theorem Ordered.quiet (h : Ordered m₀ w before after mb ma)
    (hcalls : w'.calls = Function.update w.calls i pc) (hengine : w'.engine = w.engine)
    (hsettled : settled pc = settled (w.calls i))
    (hwipe : wipe pc = wipe (w.calls i) ∨
      wipe (w.calls i) = none ∧ wipe pc = some (.scanning [])) :
    Ordered m₀ w' before after mb ma := by
  have hbehind : ∀ k, Behind pc k ↔ Behind (w.calls i) k := by
    intro k
    rcases hwipe with heq | ⟨hnone, hfirst⟩
    · rw [Behind, Behind, heq]
    · refine ⟨fun hk => ?_, fun ⟨wp, hwp, _⟩ => by rw [hnone] at hwp; cases hwp⟩
      obtain ⟨wp, hwp, hk⟩ := hk
      rw [hfirst] at hwp
      cases hwp
      exact absurd hk (List.not_lt_nil k)
  have hwiping : Wiping pc ↔ Wiping (w.calls i) := by
    rcases hwipe with heq | ⟨hnone, hfirst⟩
    · rw [Wiping, Wiping, heq]
    · refine ⟨fun ⟨wp, hwp, hne⟩ => ?_, fun ⟨wp, hwp, _⟩ => by rw [hnone] at hwp; cases hwp⟩
      rw [hfirst] at hwp
      cases hwp
      exact absurd rfl hne
  have hpassed := passed_congr hcalls hbehind
  have hall := wiping_congr hcalls hwiping
  refine ⟨h.before_run, h.after_run, ?_, ?_, ?_, h.nodup, ?_, ?_, ?_⟩
  · intro k hk
    rw [hengine]
    exact h.behind k ((hpassed k).mp hk)
  · intro k hk
    rw [hengine]
    exact h.ahead k (fun hp => hk ((hpassed k).mpr hp))
  · intro j e
    rw [h.members, hcalls, read_update settled hsettled]
  · intro hne
    obtain ⟨j, hj⟩ := h.alone hne
    exact ⟨j, (hall j).mpr hj⟩
  · exact fun j j' hj hj' => h.single j j' ((hall j).mp hj) ((hall j').mp hj')
  · intro j page n hj
    refine h.pages j page n ?_
    rw [hcalls] at hj
    by_cases hji : j = i
    · subst hji
      rw [Function.update_self] at hj
      rcases hwipe with heq | ⟨-, hfirst⟩
      · exact heq ▸ hj
      · rw [hfirst] at hj
        cases hj
    · rwa [Function.update_of_ne hji] at hj

/-- A call takes effect. With all its keys ahead of the wipe it goes before it,
with all of them behind the wipe it goes after it. -/
theorem Ordered.commit (h : Ordered m₀ w before after mb ma) {e : Entry}
    (hold : settled (w.calls i) = none) (hcall : e.call ≠ .flushAll)
    (hnows : ∀ n ∈ e.nows, i64Min ≤ n)
    (hrun : resume (body e.call) e.nows w.engine = some (w'.engine, .ret e.out))
    (hside : (∀ k ∈ e.call.keys, ¬ Passed w k) ∨
      (∀ k ∈ e.call.keys, Passed w k) ∧ ∃ k, Passed w k)
    (hcalls : w'.calls = Function.update w.calls i pc) (hsettled : settled pc = some e)
    (hwipe : wipe pc = none) (hwipe' : wipe (w.calls i) = none) :
    ∃ before' after' mb' ma', Ordered m₀ w' before' after' mb' ma' := by
  have hon := body_on hcall
  have hoff : ∀ k, k ∉ e.call.keys → w'.engine k = w.engine k := fun k hk =>
    resume_off hon hnows hrun hk
  have hpassed : ∀ k, Passed w' k ↔ Passed w k :=
    passed_congr hcalls (fun k => by rw [Behind, Behind, hwipe, hwipe'])
  have hall : ∀ j, Wiping (w'.calls j) ↔ Wiping (w.calls j) :=
    wiping_congr hcalls (by rw [Wiping, Wiping, hwipe, hwipe'])
  have hsingle : ∀ j j', Wiping (w'.calls j) → Wiping (w'.calls j') → j = j' :=
    fun j j' hj hj' => h.single j j' ((hall j).mp hj) ((hall j').mp hj')
  have hpages : ∀ j page n, wipe (w'.calls j) = some (.writing page (some n)) →
      n ≠ [] ∧ ∀ b ∈ page, b.1 < n := by
    intro j page n hj
    rw [hcalls] at hj
    by_cases hji : j = i
    · subst hji
      rw [Function.update_self, hwipe] at hj
      cases hj
    · rw [Function.update_of_ne hji] at hj
      exact h.pages j page n hj
  rcases hside with hahead | ⟨hbehind, k₀, hk₀⟩
  · have hsame : ∀ k ∈ e.call.keys, Alike (w.engine k) (mb k) :=
      fun k hk => (h.ahead k (hahead k hk)).1
    obtain ⟨mb', hrun', hrel⟩ :=
      resume_related Alike.refl (fun _ _ hr => hr) hon hnows hsame hrun
    have hperm : ((before ++ [(i, e)]) ++ after).Perm ((i, e) :: (before ++ after)) := by
      rw [List.append_assoc, List.singleton_append]
      exact List.perm_middle
    obtain ⟨hmem, hnodup⟩ := h.record hold hcalls hsettled hperm
    refine ⟨before ++ [(i, e)], after, mb', ma, ?_, h.after_run, ?_, ?_, hmem, hnodup, ?_,
      hsingle, hpages⟩
    · rw [replay_append, h.before_run, Option.bind_some, replay_singleton]
      exact perform_eq_some.mpr hrun'
    · intro k hk
      have hk := (hpassed k).mp hk
      rw [hoff k (fun hmem => hahead k hmem hk)]
      exact h.behind k hk
    · intro k hk
      have hk : ¬ Passed w k := fun hp => hk ((hpassed k).mpr hp)
      refine ⟨?_, (h.ahead k hk).2⟩
      by_cases hkey : k ∈ e.call.keys
      · exact hrel k hkey
      · rw [hoff k hkey, resume_off hon hnows hrun' hkey]
        exact (h.ahead k hk).1
    · intro hne
      obtain ⟨j, hj⟩ := h.alone hne
      exact ⟨j, (hall j).mpr hj⟩
  · have hsame : ∀ k ∈ e.call.keys, Alike (w.engine k) (ma k) :=
      fun k hk => h.behind k (hbehind k hk)
    obtain ⟨ma', hrun', hrel⟩ :=
      resume_related Alike.refl (fun _ _ hr => hr) hon hnows hsame hrun
    have hperm : (before ++ (after ++ [(i, e)])).Perm ((i, e) :: (before ++ after)) := by
      rw [← List.append_assoc]
      exact List.perm_append_singleton _ _
    obtain ⟨hmem, hnodup⟩ := h.record hold hcalls hsettled hperm
    refine ⟨before, after ++ [(i, e)], mb, ma', h.before_run, ?_, ?_, ?_, hmem, hnodup, ?_,
      hsingle, hpages⟩
    · rw [replay_append, h.after_run, Option.bind_some, replay_singleton]
      exact perform_eq_some.mpr hrun'
    · intro k hk
      by_cases hkey : k ∈ e.call.keys
      · exact hrel k hkey
      · rw [hoff k hkey, resume_off hon hnows hrun' hkey]
        exact h.behind k ((hpassed k).mp hk)
    · intro k hk
      have hk : ¬ Passed w k := fun hp => hk ((hpassed k).mpr hp)
      have hkey : k ∉ e.call.keys := fun hmem => hk (hbehind k hmem)
      rw [hoff k hkey, resume_off hon hnows hrun' hkey]
      exact h.ahead k hk
    · intro _
      obtain ⟨j, hj⟩ := hk₀
      exact ⟨j, (hall j).mpr (wiping_of_behind hj)⟩

theorem passed_alone (hsingle : ∀ j, j ≠ i → ¬ Wiping (w.calls j)) (k : Bytes) :
    Passed w k ↔ Behind (w.calls i) k := by
  refine ⟨fun ⟨j, hj⟩ => ?_, fun hk => ⟨i, hk⟩⟩
  by_cases hji : j = i
  · exact hji ▸ hj
  · exact absurd (wiping_of_behind hj) (hsingle j hji)

theorem alone_update (hsingle : ∀ j, j ≠ i → ¬ Wiping (w.calls j))
    (hcalls : w'.calls = Function.update w.calls i pc) :
    (∀ j, j ≠ i → ¬ Wiping (w'.calls j)) ∧ w'.calls i = pc := by
  refine ⟨fun j hj => ?_, by rw [hcalls, Function.update_self]⟩
  rw [hcalls, Function.update_of_ne hj]
  exact hsingle j hj

/-- The order across a step of a wipe that is not its last. -/
theorem Ordered.advance (h : Ordered m₀ w before after mb ma)
    (hsingle : ∀ j, j ≠ i → ¬ Wiping (w.calls j))
    (hcalls : w'.calls = Function.update w.calls i pc) (hsettled : settled pc = settled (w.calls i))
    {wp : Wipe} (hwipe : wipe pc = some wp) (hbegun : wp ≠ .scanning [])
    (hpages : ∀ page n, wp = .writing page (some n) → n ≠ [] ∧ ∀ b ∈ page, b.1 < n)
    (hpassed : ∀ k, wp.Behind k → Alike (w'.engine k) (ma k))
    (hahead : ∀ k, ¬ wp.Behind k → ¬ Behind (w.calls i) k ∧ w'.engine k = w.engine k) :
    Ordered m₀ w' before after mb ma := by
  obtain ⟨halone, hpc⟩ := alone_update hsingle hcalls
  have hbehind : ∀ k, Passed w' k ↔ wp.Behind k := by
    intro k
    rw [passed_alone halone, hpc, Behind, hwipe]
    exact ⟨fun ⟨_, heq, hk⟩ => Option.some.inj heq ▸ hk, fun hk => ⟨wp, rfl, hk⟩⟩
  have honly : ∀ j, Wiping (w'.calls j) → j = i := fun j hj => by
    by_contra hne
    exact halone j hne hj
  refine ⟨h.before_run, h.after_run, fun k hk => hpassed k ((hbehind k).mp hk), ?_, ?_, h.nodup,
    fun _ => ⟨i, wp, hpc ▸ hwipe, hbegun⟩,
    fun j j' hj hj' => (honly j hj).trans (honly j' hj').symm, ?_⟩
  · intro k hk
    obtain ⟨hold, hsame⟩ := hahead k (fun hp => hk ((hbehind k).mpr hp))
    rw [hsame]
    exact h.ahead k (fun hp => hold ((passed_alone hsingle k).mp hp))
  · intro j e
    rw [h.members, hcalls, read_update settled hsettled]
  · intro j page n hj
    obtain rfl : j = i := honly j ⟨_, hj, by simp⟩
    rw [hpc, hwipe] at hj
    exact hpages page n (Option.some.inj hj)

theorem Ordered.scanPage (h : Ordered m₀ w before after mb ma)
    (hsingle : ∀ j, j ≠ i → ¬ Wiping (w.calls j)) {start : Bytes}
    {page : List (Bytes × Record)} {next : Option Bytes}
    (hscan : wipe (w.calls i) = some (.scanning start)) (hpage : PageOf w.engine start page next)
    (hcomplete : Complete w.engine start page next)
    (hcalls : w'.calls = Function.update w.calls i pc) (hengine : w'.engine = w.engine)
    (hsettled : settled pc = settled (w.calls i)) (hwipe : wipe pc = some (.writing page next)) :
    Ordered m₀ w' before after mb ma := by
  have hold : ∀ k, Behind (w.calls i) k ↔ k < start := by
    intro k
    rw [Behind, hscan]
    exact ⟨fun ⟨_, heq, hk⟩ => by cases heq; exact hk, fun hk => ⟨_, rfl, hk⟩⟩
  refine h.advance hsingle hcalls hsettled hwipe (by simp) ?_ ?_ ?_
  · intro page' n heq
    cases heq
    refine ⟨?_, hpage.before n rfl⟩
    rintro rfl
    exact List.not_lt_nil start (hpage.progress [] rfl)
  · intro k hk
    rw [hengine]
    by_cases hstart : k < start
    · exact h.behind k ((passed_alone hsingle k).mpr ((hold k).mpr hstart))
    · -- the page has passed a key without a record
      have hnot : ¬ Passed w k := fun hp => hstart ((hold k).mp ((passed_alone hsingle k).mp hp))
      have hdead := hcomplete k (not_lt.mp hstart) hk.1 hk.2
      rw [(h.ahead k hnot).2]
      intro nowMs hnow
      rw [live_none]
      exact (live_eq_mono hnow (hdead.trans (live_none i64Min).symm)).trans (live_none nowMs)
  · intro k hk
    refine ⟨fun hlt => hk ?_, by rw [hengine]⟩
    have hlt := (hold k).mp hlt
    refine ⟨fun n hn => hlt.trans (hpage.progress n hn), fun b hb heq => ?_⟩
    exact absurd hlt (not_lt.mpr (heq ▸ hpage.start_le b hb))

theorem Ordered.writePage (h : Ordered m₀ w before after mb ma) {page : List (Bytes × Record)}
    {n : Bytes} (hpage : wipe (w.calls i) = some (.writing page (some n)))
    (hcalls : w'.calls = Function.update w.calls i pc)
    (hengine : w'.engine = w.engine.eraseAll page) (hsettled : settled pc = settled (w.calls i))
    (hwipe : wipe pc = some (.scanning n)) : Ordered m₀ w' before after mb ma := by
  obtain ⟨hn, hbefore⟩ := h.pages i page n hpage
  have hsingle : ∀ j, j ≠ i → ¬ Wiping (w.calls j) := fun j hj hwiping =>
    hj (h.single j i hwiping ⟨_, hpage, by simp⟩)
  have hold : ∀ k, Behind (w.calls i) k ↔ k < n ∧ ∀ b ∈ page, b.1 ≠ k := by
    intro k
    rw [Behind, hpage]
    constructor
    · rintro ⟨_, heq, hk⟩
      cases heq
      exact ⟨hk.1 n rfl, hk.2⟩
    · exact fun hk => ⟨_, rfl, fun n' hn' => Option.some.inj hn' ▸ hk.1, hk.2⟩
  refine h.advance hsingle hcalls hsettled hwipe (by simpa using hn) (by simp) ?_ ?_
  · intro k hk
    rw [hengine]
    by_cases hin : ∃ b ∈ page, b.1 = k
    · have hnot : ¬ Passed w k := fun hp => by
        obtain ⟨b, hb, heq⟩ := hin
        exact ((hold k).mp ((passed_alone hsingle k).mp hp)).2 b hb heq
      rw [(eraseAll_eq w.engine page k).1 hin, (h.ahead k hnot).2]
      exact Alike.refl none
    · have hnone : ∀ b ∈ page, b.1 ≠ k := fun b hb heq => hin ⟨b, hb, heq⟩
      rw [(eraseAll_eq w.engine page k).2 hnone]
      exact h.behind k ((passed_alone hsingle k).mpr ((hold k).mpr ⟨hk, hnone⟩))
  · intro k hk
    refine ⟨fun hb => hk ((hold k).mp hb).1, ?_⟩
    rw [hengine]
    exact (eraseAll_eq w.engine page k).2
      (fun b hb heq => hk (heq ▸ hbefore b hb))

/-- The end of a wipe: it goes into the order between the two halves. -/
theorem Ordered.writeLast (h : Ordered m₀ w before after mb ma) {page : List (Bytes × Record)}
    (hpage : wipe (w.calls i) = some (.writing page none))
    (hcalls : w'.calls = Function.update w.calls i pc)
    (hengine : w'.engine = w.engine.eraseAll page) (hold : settled (w.calls i) = none)
    {nowMs : ℤ} (hsettled : settled pc = some ⟨.flushAll, [nowMs], .ok⟩) (hwipe : wipe pc = none) :
    Ordered m₀ w' (before ++ (i, ⟨.flushAll, [nowMs], .ok⟩) :: after) [] ma Map.empty := by
  have hsingle : ∀ j, j ≠ i → ¬ Wiping (w.calls j) := fun j hj hwiping =>
    hj (h.single j i hwiping ⟨_, hpage, by simp⟩)
  obtain ⟨halone, hpc⟩ := alone_update hsingle hcalls
  have hnobody : ∀ j, ¬ Wiping (w'.calls j) := by
    intro j hj
    by_cases hji : j = i
    · obtain ⟨wp, hwp, -⟩ := hj
      rw [hji, hpc, hwipe] at hwp
      cases hwp
    · exact halone j hji hj
  let e : Entry := ⟨.flushAll, [nowMs], .ok⟩
  have hperm : ((before ++ (i, e) :: after) ++ []).Perm ((i, e) :: (before ++ after)) := by
    rw [List.append_nil]
    exact List.perm_middle
  obtain ⟨hmem, hnodup⟩ := h.record hold hcalls hsettled hperm
  refine ⟨?_, rfl, fun k ⟨j, hj⟩ => absurd (wiping_of_behind hj) (hnobody j), ?_, hmem, hnodup,
    fun hne => absurd rfl hne, fun j _ hj => absurd hj (hnobody j),
    fun j page' n hj => absurd (show Wiping (w'.calls j) from ⟨_, hj, by simp⟩) (hnobody j)⟩
  · rw [replay_append, h.before_run, Option.bind_some, ← List.singleton_append, replay_append,
      replay_singleton]
    exact h.after_run
  · intro k _
    refine ⟨?_, rfl⟩
    rw [hengine]
    by_cases hin : ∃ b ∈ page, b.1 = k
    · have hnot : ¬ Passed w k := by
        rintro hp
        obtain ⟨wp, hwp, hk⟩ := (passed_alone hsingle k).mp hp
        rw [hpage] at hwp
        cases hwp
        obtain ⟨b, hb, heq⟩ := hin
        exact hk.2 b hb heq
      rw [(eraseAll_eq w.engine page k).1 hin, (h.ahead k hnot).2]
      exact Alike.refl none
    · have hnone : ∀ b ∈ page, b.1 ≠ k := fun b hb heq => hin ⟨b, hb, heq⟩
      rw [(eraseAll_eq w.engine page k).2 hnone]
      exact h.behind k ⟨i, _, hpage, fun n hn => (by cases hn), hnone⟩

end Orders

end RedisFromScratch.ClientOrders
