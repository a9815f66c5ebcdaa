import RedisFromScratch.ClientOrders

/-!
What a call has read stays good until it writes, because the calls that could
change it wait for its stripe. So its last request can stand for the whole call,
and every step of a run keeps the order of the calls that have taken effect.
-/
namespace RedisFromScratch.CallSteps

open ByteStrings StoreRecords EngineRequests LsmClient ClientPrograms ClientOrders FlushPages

/-- Started over on this map, the call would read what it has read so far. -/
structure Reads (m : Map) (call : Call) (nows : List ℤ) (rest : Prog) : Prop where
  timely : ∀ n ∈ nows, i64Min ≤ n
  wipe : call = .flushAll → nows = []
  run : resume (body call) nows m = some (m, rest)

/-- A request of a call that has only read so far, or a wipe. -/
def SentOk (m : Map) (call : Call) (nows : List ℤ) (op : String) (rpc : Rpc) (k : Reply → Prog) :
    Prop :=
  (call = .flushAll ∧ (∃ nowMs, nows = [nowMs]) ∧ (∃ wp, rpc = .flushAll wp) ∧
    k = fun _ => .ret .ok) ∨
  (call ≠ .flushAll ∧ ∃ nows₀ nowMs rpc', nows = nows₀ ++ [nowMs] ∧ i64Min ≤ nowMs ∧
    rpc = rpc' nowMs ∧ Reads m call nows₀ (.ask op rpc' k))

def CleanAt (m : Map) : Pc → Prop
  | .running call _ nows (.ask op rpc k) => Reads m call nows (.ask op rpc k)
  | .sent call _ nows op rpc k => SentOk m call nows op rpc k
  | .replied call _ nows _ reply k =>
      (∃ out, k reply = .ret out) ∨ Reads m call nows (k reply)
  | _ => True

section Clean

variable {m m' : Map} {call : Call} {nows : List ℤ} {rest : Prog} {pc : Pc}

theorem reads_nil (m : Map) (call : Call) : Reads m call [] (body call) :=
  ⟨by simp, fun _ => rfl, resume_nil _ _⟩

theorem Reads.on (h : Reads m call nows rest) (hcall : call ≠ .flushAll) : ProgOn call.keys rest :=
  resume_rest (fun _ _ _ hp => hp.2) (body_on hcall) h.run

theorem Reads.elsewhere (h : Reads m call nows rest)
    (hkeys : nows ≠ [] → ∀ k ∈ call.keys, m k = m' k) : Reads m' call nows rest := by
  refine ⟨h.timely, h.wipe, ?_⟩
  by_cases hnil : nows = []
  · have hrun := h.run
    subst hnil
    rw [resume_nil] at hrun ⊢
    cases hrun
    rfl
  · exact resume_elsewhere (body_on (fun hwipe => hnil (h.wipe hwipe))) h.timely (hkeys hnil) h.run

/-- What a call has read is still there if its keys are. -/
theorem CleanAt.elsewhere (h : CleanAt m pc)
    (hkeys : ∀ call, between pc = some call → ∀ k ∈ call.keys, m k = m' k) : CleanAt m' pc := by
  match pc with
  | .idle => trivial
  | .locking call held todo => trivial
  | .returned call nows out => trivial
  | .running call held nows (.ret out) => trivial
  | .running call held nows (.ask op rpc k) =>
    refine Reads.elsewhere h (fun hne => hkeys call ?_)
    cases nows with
    | nil => exact absurd rfl hne
    | cons => rfl
  | .sent call held nows op rpc k =>
    rcases h with hwipe | ⟨hcall, nows₀, nowMs, rpc', hnows, hnow, hrpc, hreads⟩
    · exact Or.inl hwipe
    · refine Or.inr ⟨hcall, nows₀, nowMs, rpc', hnows, hnow, hrpc, hreads.elsewhere ?_⟩
      intro hne
      refine hkeys call ?_
      subst hnows
      match nows₀, hne with
      | [n], _ => rfl
      | n :: n' :: nows₀, _ => rfl
  | .replied call held nows op reply k =>
    rcases h with hret | hreads
    · exact Or.inl hret
    · cases hk : k reply with
      | ret out => exact Or.inl ⟨out, hk⟩
      | ask =>
        refine Or.inr (hreads.elsewhere (fun _ => hkeys call ?_))
        simp [between, hk]

theorem working_of_between (h : between pc = some call) : pc.working = some call := by
  match pc with
  | .running call' held (n :: nows) (.ask op rpc k) => exact h
  | .sent call' held (n :: n' :: nows) op rpc k => exact h
  | .replied call' held nows op reply k =>
    cases hk : k reply with
    | ret => simp [between, hk] at h
    | ask => simpa [between, hk, Pc.working] using h

end Clean

/-- The whole invariant of a run. -/
structure Good (stripeOf : Bytes → Stripe) (m₀ : Map) (w : World) : Prop where
  holds : Holds stripeOf w
  isOpen : w.closed = false
  clean : ∀ i, CleanAt w.engine (w.calls i)
  ordered : ∃ before after mb ma, Ordered m₀ w before after mb ma

section Steps

variable {stripeOf : Bytes → Stripe} {m₀ : Map} {w w' : World} {i : ℕ}

theorem good_start (m₀ : Map) : Good stripeOf m₀ (start m₀) := by
  have hnone : ∀ j, ¬ Wiping ((start m₀).calls j) := fun j ⟨_, h, _⟩ => by cases h
  refine ⟨holds_start m₀, rfl, fun _ => trivial, [], [], m₀, Map.empty, rfl, rfl, ?_, ?_, ?_, ?_,
    ?_, ?_, ?_⟩
  · exact fun k ⟨j, hj⟩ => absurd (wiping_of_behind hj) (hnone j)
  · exact fun k _ => ⟨Alike.refl _, rfl⟩
  · exact fun j e => ⟨fun h => (by cases h), fun h => by cases h⟩
  · exact List.nodup_nil
  · exact fun h => absurd rfl h
  · exact fun j _ h => absurd h (hnone j)
  · exact fun j page n h => by cases h

theorem clean_move {pc : Pc} (h : ∀ j, CleanAt w.engine (w.calls j))
    (hcalls : w'.calls = Function.update w.calls i pc) (hpc : CleanAt w'.engine pc)
    (hothers : ∀ j call, j ≠ i → between (w.calls j) = some call →
      ∀ k ∈ call.keys, w.engine k = w'.engine k) (j : ℕ) : CleanAt w'.engine (w'.calls j) := by
  rw [hcalls]
  by_cases hj : j = i
  · subst hj
    rw [Function.update_self]
    exact hpc
  · rw [Function.update_of_ne hj]
    exact (h j).elsewhere (fun call => hothers j call hj)

/-- A step that neither settles a call nor moves a wipe. -/
theorem Good.quiet (h : Good stripeOf m₀ w) {pc : Pc} (hholds : Holds stripeOf w')
    (hopen : w'.closed = w.closed) (hcalls : w'.calls = Function.update w.calls i pc)
    (hengine : w'.engine = w.engine) (hpc : CleanAt w.engine pc)
    (hsettled : settled pc = settled (w.calls i))
    (hwipe : wipe pc = wipe (w.calls i) ∨
      wipe (w.calls i) = none ∧ wipe pc = some (.scanning [])) : Good stripeOf m₀ w' := by
  obtain ⟨before, after, mb, ma, hordered⟩ := h.ordered
  refine ⟨hholds, hopen.trans h.isOpen, ?_, before, after, mb, ma,
    hordered.quiet hcalls hengine hsettled hwipe⟩
  exact clean_move h.clean hcalls (hengine ▸ hpc) (fun _ _ _ _ _ _ => by rw [hengine])

theorem keys_of_ret {call : Call} {out : Outcome} (h : body call = .ret out) :
    call.keys = [] ∧ call ≠ .flushAll := by
  match call with
  | .multiWrite [] => exact ⟨rfl, by simp⟩
  | .multiWrite (mu :: muts) => cases h
  | .put key rec => cases h
  | .delete key => cases h
  | .update key fn => cases h
  | .flushAll => cases h

theorem good_enter (h : Good stripeOf m₀ w) {call : Call} {held : List Stripe}
    (hpc : w.calls i = .locking call held [])
    (hholds : Holds stripeOf (w.set i (.running call held [] (body call)))) :
    Good stripeOf m₀ (w.set i (.running call held [] (body call))) := by
  cases hbody : body call with
  | ask =>
    rw [hbody] at hholds
    have hreads := reads_nil w.engine call
    rw [hbody] at hreads
    exact h.quiet hholds rfl rfl rfl hreads (by rw [hpc]; rfl) (by rw [hpc]; exact Or.inl rfl)
  | ret out =>
    -- an empty batch has nothing to ask for
    rw [hbody] at hholds
    obtain ⟨hkeys, hcall⟩ := keys_of_ret hbody
    obtain ⟨before, after, mb, ma, hordered⟩ := h.ordered
    refine ⟨hholds, h.isOpen, clean_move h.clean rfl trivial (fun _ _ _ _ _ _ => rfl), ?_⟩
    refine hordered.commit (e := ⟨call, [], out⟩) (by rw [hpc]; rfl) hcall (by simp) ?_
      (Or.inl (by simp [hkeys])) rfl rfl rfl (by rw [hpc]; rfl)
    rw [resume_nil, hbody]
    rfl

theorem good_send (h : Good stripeOf m₀ w) {call : Call} {held : List Stripe} {nows : List ℤ}
    {op : String} {rpc : ℤ → Rpc} {k : Reply → Prog} {nowMs : ℤ} (hnow : i64Min ≤ nowMs)
    (hpc : w.calls i = .running call held nows (.ask op rpc k))
    (hholds : Holds stripeOf (w.set i (.sent call held (nows ++ [nowMs]) op (rpc nowMs) k))) :
    Good stripeOf m₀ (w.set i (.sent call held (nows ++ [nowMs]) op (rpc nowMs) k)) := by
  have hclean := h.clean i
  rw [hpc] at hclean
  have hreads : Reads w.engine call nows (.ask op rpc k) := hclean
  by_cases hcall : call = .flushAll
  · have hnil := hreads.wipe hcall
    have hrun := hreads.run
    subst hcall hnil
    rw [resume_nil] at hrun
    cases hrun
    refine h.quiet hholds rfl rfl rfl (Or.inl ⟨rfl, ⟨nowMs, rfl⟩, ⟨_, rfl⟩, rfl⟩)
      (by rw [hpc]; rfl) (Or.inr ⟨by rw [hpc]; rfl, rfl⟩)
  · have hrpc : ∀ wp, rpc nowMs ≠ .flushAll wp := by
      intro wp heq
      have hrpc := (hreads.on hcall).1 nowMs hnow
      rw [heq] at hrpc
      exact hrpc
    refine h.quiet hholds rfl rfl rfl
      (Or.inr ⟨hcall, nows, nowMs, rpc, rfl, hnow, rfl, hreads⟩) (by rw [hpc]; rfl) (Or.inl ?_)
    rw [hpc]
    cases hr : rpc nowMs with
    | flushAll wp => exact absurd hr (hrpc wp)
    | _ => rfl

theorem good_receive (h : Good stripeOf m₀ w) {call : Call} {held : List Stripe} {nows : List ℤ}
    {op : String} {reply : Reply} {k : Reply → Prog}
    (hpc : w.calls i = .replied call held nows op reply k)
    (hholds : Holds stripeOf (w.set i (.running call held nows (k reply)))) :
    Good stripeOf m₀ (w.set i (.running call held nows (k reply))) := by
  have hclean := h.clean i
  rw [hpc] at hclean
  cases hk : k reply with
  | ret =>
    rw [hk] at hholds
    refine h.quiet hholds rfl rfl rfl trivial ?_ (by rw [hpc]; exact Or.inl rfl)
    rw [hpc]
    simp only [settled, hk]
  | ask =>
    rw [hk] at hholds
    refine h.quiet hholds rfl rfl rfl ?_ ?_ (by rw [hpc]; exact Or.inl rfl)
    · rcases hclean with ⟨out, hret⟩ | hreads
      · rw [hk] at hret
        cases hret
      · rw [hk] at hreads
        exact hreads
    · rw [hpc]
      simp only [settled, hk]

theorem one_side (w : World) (key : Bytes) : (∀ k ∈ [key], ¬ Passed w k) ∨
    (∀ k ∈ [key], Passed w k) ∧ ∃ k, Passed w k := by
  by_cases hkey : Passed w key
  · exact Or.inr ⟨fun k hk => List.mem_singleton.mp hk ▸ hkey, key, hkey⟩
  · exact Or.inl (fun k hk => List.mem_singleton.mp hk ▸ hkey)

/-- The only request of a batch is the batch. -/
theorem reads_multiWrite {m : Map} {muts : List Mutation} {nows : List ℤ} {op : String}
    {rpc : ℤ → Rpc} {k : Reply → Prog}
    (h : Reads m (.multiWrite muts) nows (.ask op rpc k)) (nowMs : ℤ) :
    rpc nowMs = .batchWrite muts := by
  have hrun := h.run
  match muts, nows with
  | [], [] => cases hrun
  | [], n :: nows => cases hrun
  | mu :: muts, [] =>
    cases hrun
    rfl
  | mu :: muts, [n] =>
    have hrest := congrArg (Option.map Prod.snd) hrun
    cases hrest
  | mu :: muts, n :: n' :: nows => cases hrun

/-- A call about to take effect has all its keys on one side of the wipe. -/
theorem side_of_call {call : Call} {nows : List ℤ} {op : String} {rpc : ℤ → Rpc}
    {k : Reply → Prog} {nowMs : ℤ} (hcall : call ≠ .flushAll)
    (hreads : Reads w.engine call nows (.ask op rpc k))
    (hapart : Apart w (.engine i (rpc nowMs)) w') :
    (∀ k ∈ call.keys, ¬ Passed w k) ∨ (∀ k ∈ call.keys, Passed w k) ∧ ∃ k, Passed w k := by
  match call with
  | .put key rec => exact one_side w key
  | .delete key => exact one_side w key
  | .update key fn => exact one_side w key
  | .flushAll => exact absurd rfl hcall
  | .multiWrite [] => exact Or.inl (fun k hk => by cases hk)
  | .multiWrite (mu :: muts) =>
    have hrpc := reads_multiWrite hreads nowMs
    rcases hapart.whole i (mu :: muts) (by rw [hrpc]) with hbehind | hahead
    · refine Or.inr ⟨fun k hk => ?_, mu.key, hbehind mu List.mem_cons_self⟩
      obtain ⟨mu', hmu', rfl⟩ := List.mem_map.mp hk
      exact hbehind mu' hmu'
    · refine Or.inl (fun k hk => ?_)
      obtain ⟨mu', hmu', rfl⟩ := List.mem_map.mp hk
      exact hahead mu' hmu'

/-- The engine carries out a request other than a wipe. -/
theorem good_whole (h : Good stripeOf m₀ w) {call : Call} {held : List Stripe} {nows : List ℤ}
    {op : String} {rpc : Rpc} {k : Reply → Prog}
    (hpc : w.calls i = .sent call held nows op rpc k) (hrpc : ∀ wp, rpc ≠ .flushAll wp)
    (hcalls : w'.calls =
      Function.update w.calls i (.replied call held nows op (rpc.whole w.engine).2 k))
    (hengine : w'.engine = (rpc.whole w.engine).1) (hopen : w'.closed = w.closed)
    (hholds : Holds stripeOf w') (hapart : Apart w (.engine i rpc) w') : Good stripeOf m₀ w' := by
  have hclean := h.clean i
  rw [hpc] at hclean
  rcases hclean with ⟨-, -, ⟨wp, hwp⟩, -⟩ | ⟨hcall, nows₀, nowMs, rpc', rfl, hnow, rfl, hreads⟩
  · exact absurd hwp (hrpc wp)
  have hon := (hreads.on hcall).1 nowMs hnow
  have hnows : ∀ n ∈ nows₀ ++ [nowMs], i64Min ≤ n := by
    intro n hn
    rcases List.mem_append.mp hn with hn | hn
    · exact hreads.timely n hn
    · exact List.mem_singleton.mp hn ▸ hnow
  have hrun := resume_concat hreads.run nowMs
  rw [← hengine] at hrun
  have hothers : ∀ j call', j ≠ i → between (w.calls j) = some call' →
      ∀ x ∈ call'.keys, w.engine x = w'.engine x := by
    intro j call' hj hbetween x hx
    rw [hengine]
    refine (whole_off hon w.engine (fun hmem => hj ?_)).symm
    exact h.holds.apart (working_of_between hbetween) (by rw [hpc]; rfl) hx hmem
  cases hk : k ((rpc' nowMs).whole w.engine).2 with
  | ret out =>
    rw [hk] at hrun
    obtain ⟨before, after, mb, ma, hordered⟩ := h.ordered
    refine ⟨hholds, hopen.trans h.isOpen, clean_move h.clean hcalls (Or.inl ⟨out, hk⟩) hothers, ?_⟩
    refine hordered.commit (e := ⟨call, nows₀ ++ [nowMs], out⟩) (by rw [hpc]; rfl) hcall hnows hrun
      (side_of_call hcall hreads hapart) hcalls (by simp only [settled, hk]) rfl ?_
    rw [hpc]
    cases hr : rpc' nowMs with
    | flushAll wp => exact absurd hr (hrpc wp)
    | _ => rfl
  | ask =>
    -- the request was a read
    have hfirst := (resume_rest (P := ReadsFirst) (fun _ _ _ hp => hp.2) (body_readsFirst call)
      hreads.run).1
    have hsame : w'.engine = w.engine := by
      rw [hengine]
      rcases hfirst with hread | hlast
      · exact hread nowMs w.engine
      · obtain ⟨out, hout⟩ := hlast ((rpc' nowMs).whole w.engine).2
        rw [hk] at hout
        cases hout
    rw [hsame] at hrun
    refine h.quiet hholds hopen hcalls hsame
      (Or.inr ⟨hnows, fun hwipe => absurd hwipe hcall, hrun⟩) ?_ (Or.inl ?_)
    · rw [hpc]
      simp only [settled, hk]
    · rw [hpc]
      cases hr : rpc' nowMs with
      | flushAll wp => exact absurd hr (hrpc wp)
      | _ => rfl

/-- The engine takes a step of a wipe. -/
theorem good_wipe (h : Good stripeOf m₀ w) {call : Call} {held : List Stripe} {nows : List ℤ}
    {op : String} {wp : Wipe} {k : Reply → Prog} {m : Map} {out : Rpc ⊕ Reply} {pc : Pc}
    (hpc : w.calls i = .sent call held nows op (.flushAll wp) k)
    (hexec : Exec w.engine (.flushAll wp) m out)
    (hnext : ∀ rpc', out = .inl rpc' → pc = .sent call held nows op rpc' k)
    (hlast : ∀ reply, out = .inr reply → pc = .replied call held nows op reply k)
    (hcalls : w'.calls = Function.update w.calls i pc) (hengine : w'.engine = m)
    (hopen : w'.closed = w.closed) (hholds : Holds stripeOf w')
    (hapart : Apart w (.engine i (.flushAll wp)) w') : Good stripeOf m₀ w' := by
  have hclean := h.clean i
  rw [hpc] at hclean
  have hwipe : wipe (w.calls i) = some wp := by rw [hpc]; rfl
  have hold : settled (w.calls i) = none := by rw [hpc]; rfl
  obtain ⟨before, after, mb, ma, hordered⟩ := h.ordered
  rcases hclean with ⟨rfl, ⟨nowMs, rfl⟩, -, rfl⟩ |
    ⟨hcall, nows₀, nowMs, rpc', -, hnow, hrpc, hreads⟩
  swap
  · have hbad := (hreads.on hcall).1 nowMs hnow
    rw [← hrpc] at hbad
    exact hbad.elim
  have hsent : ∀ wp', CleanAt w'.engine (.sent .flushAll held [nowMs] op (.flushAll wp')
      (fun _ => .ret .ok)) := fun wp' => Or.inl ⟨rfl, ⟨nowMs, rfl⟩, ⟨wp', rfl⟩, rfl⟩
  cases hexec with
  | whole _ hrpc => exact absurd rfl (hrpc wp)
  | scanPage start page next hpage =>
    obtain rfl := hnext _ rfl
    refine ⟨hholds, hopen.trans h.isOpen, clean_move h.clean hcalls (hsent _)
      (fun _ _ _ _ _ _ => by rw [hengine]), before, after, mb, ma, ?_⟩
    refine hordered.scanPage (hapart.single i start rfl) hwipe hpage
      (hapart.complete i start page next rfl ?_) hcalls hengine hold.symm rfl
    rw [hcalls, Function.update_self]
    rfl
  | writePage page n =>
    obtain rfl := hnext _ rfl
    refine ⟨hholds, hopen.trans h.isOpen, clean_move h.clean hcalls (hsent _) ?_, before, after,
      mb, ma, hordered.writePage hwipe hcalls hengine hold.symm rfl⟩
    intro j call' _ hbetween x hx
    rw [hengine]
    refine ((eraseAll_eq w.engine page x).2 (fun b hb heq => ?_)).symm
    exact hapart.untouched i page (some n) rfl j call' hbetween b hb (heq ▸ hx)
  | writeLast page =>
    obtain rfl := hlast _ rfl
    refine ⟨hholds, hopen.trans h.isOpen, clean_move h.clean hcalls (Or.inl ⟨_, rfl⟩) ?_, _, _,
      _, _, hordered.writeLast hwipe hcalls hengine hold rfl rfl⟩
    intro j call' _ hbetween x hx
    rw [hengine]
    refine ((eraseAll_eq w.engine page x).2 (fun b hb heq => ?_)).symm
    exact hapart.untouched i page none rfl j call' hbetween b hb (heq ▸ hx)

theorem good_step (h : Good stripeOf m₀ w) (hstep : ServesApart stripeOf w w') :
    Good stripeOf m₀ w' := by
  obtain ⟨a, hstep, hregular, hapart⟩ := hstep
  have hholds := holds_step h.holds hstep
  cases hstep with
  | issue =>
    have hidle : w.calls w.next = .idle := h.holds.fresh _ le_rfl
    exact h.quiet hholds rfl rfl rfl trivial (by rw [hidle]; rfl) (by rw [hidle]; exact Or.inl rfl)
  | refuse call hclosed =>
    rw [h.isOpen] at hclosed
    cases hclosed
  | lock i call held todo s hpc | unlock i call held nows out s hpc | finish i call nows out hpc =>
    exact h.quiet hholds rfl rfl rfl trivial (by rw [hpc]; rfl) (by rw [hpc]; exact Or.inl rfl)
  | enter i call held hpc => exact good_enter h hpc hholds
  | send i call held nows op rpc k nowMs hnow hpc => exact good_send h hnow hpc hholds
  | goesOn i call held nows op rpc rpc' k m hpc hexec =>
    cases rpc with
    | flushAll =>
      exact good_wipe h hpc hexec (fun _ heq => by cases heq; rfl) (fun _ heq => by cases heq) rfl
        rfl rfl hholds hapart
    | _ => cases hexec
  | answers i call held nows op rpc reply k m hpc hexec =>
    cases rpc with
    | flushAll =>
      exact good_wipe h hpc hexec (fun _ heq => by cases heq) (fun _ heq => by cases heq; rfl) rfl
        rfl rfl hholds hapart
    | _ =>
      cases hexec with
      | whole _ hrpc => exact good_whole h hpc hrpc rfl rfl rfl hholds hapart
  | receive i call held nows op reply k hpc => exact good_receive h hpc hholds
  | expireSent | expireReplied | lateGoesOn | lateAnswers | close => exact hregular.elim

end Steps

end RedisFromScratch.CallSteps
