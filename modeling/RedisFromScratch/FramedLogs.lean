import Mathlib.Data.List.Basic
import Mathlib.Data.List.Infix

/-!
Logs made of self-delimiting frames. A framing reads one frame off the front of
a file and knows a frame cut short. Scanning visits the frames in order until
the file ends, a frame is unreadable, or the visitor objects. On encoded frames
the scan is the visitor's own fold, and any prefix of encoded frames is some
of them followed by at most one that is cut short.
-/
namespace RedisFromScratch.FramedLogs

variable {β α σ ε : Type*}

/-- What stands at the front of a file. -/
inductive Read (α : Type*)
  | eof
  | damaged
  | frame (a : α) (size : ℕ)

structure Framing (β α : Type*) where
  read : List β → Read α
  encode : α → List β
  /-- Values small enough to be read back. -/
  Fits : α → Prop
  read_nil : read [] = .eof
  read_encode : ∀ a rest, Fits a → read (encode a ++ rest) = .frame a (encode a).length
  read_torn : ∀ a t, Fits a → t <+: encode a → t ≠ [] → t ≠ encode a → read t = .damaged
  read_frame : ∀ d a n, read d = .frame a n → 0 < n ∧ n ≤ d.length

def Read.map {γ : Type*} (g : α → γ) : Read α → Read γ
  | .eof => .eof
  | .damaged => .damaged
  | .frame a n => .frame (g a) n

/-- A framing of the same bytes seen as other values. -/
def Framing.view {γ : Type*} (F : Framing β α) (out : γ → α) (back : α → γ) :
    Framing β γ where
  read d := (F.read d).map back
  encode c := F.encode (out c)
  Fits c := F.Fits (out c) ∧ back (out c) = c
  read_nil := by rw [F.read_nil, Read.map]
  read_encode c rest h := by rw [F.read_encode _ rest h.1, Read.map, h.2]
  read_torn c t h hpre hne hcut := by rw [F.read_torn _ t h.1 hpre hne hcut, Read.map]
  read_frame d c n h := by
    cases hread : F.read d with
    | eof | damaged =>
      rw [hread] at h
      cases h
    | frame a =>
      rw [hread] at h
      cases h
      exact F.read_frame d a n hread

/-- The visitor's answer to a frame: go on, call it damage, or give up. -/
inductive Verdict (σ ε : Type*)
  | next (s : σ)
  | stop
  | fail (e : ε)

inductive Ending (ε : Type*)
  | clean
  | damaged
  | failed (e : ε)

/-- Where a scan stopped, and why. -/
structure Outcome (σ ε : Type*) where
  state : σ
  off : ℕ
  ending : Ending ε

/-- The visitor's fold over frames it does not object to. -/
def visits (visit : σ → α → Verdict σ ε) : σ → List α → Option σ
  | s, [] => some s
  | s, a :: l =>
      match visit s a with
      | .next s' => visits visit s' l
      | .stop => none
      | .fail _ => none

/-- The frames a visitor goes on behind, from the first. -/
def accepted (visit : σ → α → Verdict σ ε) : σ → List α → List α
  | _, [] => []
  | s, a :: l =>
      match visit s a with
      | .next s' => a :: accepted visit s' l
      | .stop => []
      | .fail _ => []

theorem visits_append (visit : σ → α → Verdict σ ε) {s s' : σ} {l : List α}
    (h : visits visit s l = some s') (m : List α) :
    visits visit s (l ++ m) = visits visit s' m := by
  induction l generalizing s with
  | nil =>
    cases h
    rfl
  | cons a l ih =>
    simp only [List.cons_append, visits] at h ⊢
    cases hv : visit s a with
    | next =>
      rw [hv] at h
      exact ih h
    | stop | fail =>
      rw [hv] at h
      cases h

theorem accepted_append (visit : σ → α → Verdict σ ε) {s s' : σ} {l : List α}
    (h : visits visit s l = some s') (m : List α) :
    accepted visit s (l ++ m) = l ++ accepted visit s' m := by
  induction l generalizing s with
  | nil =>
    cases h
    rfl
  | cons a l ih =>
    simp only [List.cons_append, visits, accepted] at h ⊢
    cases hv : visit s a with
    | next =>
      rw [hv] at h
      exact congrArg (List.cons a) (ih h)
    | stop | fail =>
      rw [hv] at h
      cases h

namespace Framing

variable (F : Framing β α)

def encodeAll (l : List α) : List β := l.flatMap F.encode

@[simp] theorem encodeAll_nil : F.encodeAll [] = [] := rfl

@[simp] theorem encodeAll_cons (a : α) (l : List α) :
    F.encodeAll (a :: l) = F.encode a ++ F.encodeAll l := List.flatMap_cons

@[simp] theorem encodeAll_append (l m : List α) :
    F.encodeAll (l ++ m) = F.encodeAll l ++ F.encodeAll m := List.flatMap_append

def scan (visit : σ → α → Verdict σ ε) (s : σ) (off : ℕ) (d : List β) : Outcome σ ε :=
  match _hread : F.read d with
  | .eof => ⟨s, off, .clean⟩
  | .damaged => ⟨s, off, .damaged⟩
  | .frame a n =>
      match visit s a with
      | .next s' => scan visit s' (off + n) (d.drop n)
      | .stop => ⟨s, off, .damaged⟩
      | .fail e => ⟨s, off + n, .failed e⟩
  termination_by d.length
  decreasing_by
    have := F.read_frame d a n _hread
    rw [List.length_drop]
    omega

variable {F}

theorem scan_read (visit : σ → α → Verdict σ ε) (s : σ) (off : ℕ) (d : List β) :
    F.scan visit s off d =
      match F.read d with
      | .eof => ⟨s, off, .clean⟩
      | .damaged => ⟨s, off, .damaged⟩
      | .frame a n =>
          match visit s a with
          | .next s' => F.scan visit s' (off + n) (d.drop n)
          | .stop => ⟨s, off, .damaged⟩
          | .fail e => ⟨s, off + n, .failed e⟩ := by
  rw [scan]
  split <;> rename_i h <;> rw [h]

theorem scan_nil (visit : σ → α → Verdict σ ε) (s : σ) (off : ℕ) :
    F.scan visit s off [] = ⟨s, off, .clean⟩ := by
  rw [scan_read, F.read_nil]

theorem scan_damaged (visit : σ → α → Verdict σ ε) (s : σ) (off : ℕ) {d : List β}
    (hd : F.read d = .damaged) : F.scan visit s off d = ⟨s, off, .damaged⟩ := by
  rw [scan_read, hd]

theorem scan_frame (visit : σ → α → Verdict σ ε) (s : σ) (off : ℕ) {a : α} (ha : F.Fits a)
    (rest : List β) :
    F.scan visit s off (F.encode a ++ rest) =
      match visit s a with
      | .next s' => F.scan visit s' (off + (F.encode a).length) rest
      | .stop => ⟨s, off, .damaged⟩
      | .fail e => ⟨s, off + (F.encode a).length, .failed e⟩ := by
  rw [scan_read, F.read_encode a rest ha]
  dsimp only
  rw [List.drop_left]

/-- Over encoded frames the scan is the visitor's fold. -/
theorem scan_encodeAll (visit : σ → α → Verdict σ ε) {s s' : σ} {l : List α}
    (hfits : ∀ a ∈ l, F.Fits a) (hvisits : visits visit s l = some s') (off : ℕ) (rest : List β) :
    F.scan visit s off (F.encodeAll l ++ rest) =
      F.scan visit s' (off + (F.encodeAll l).length) rest := by
  induction l generalizing s off with
  | nil =>
    cases Option.some.inj hvisits
    rfl
  | cons a l ih =>
    rw [encodeAll_cons, List.append_assoc, scan_frame visit s off (hfits a List.mem_cons_self)]
    simp only [visits] at hvisits
    cases hv : visit s a with
    | next =>
      simp only [hv] at hvisits
      dsimp only
      rw [ih (fun b hb => hfits b (List.mem_cons_of_mem _ hb)) hvisits, List.length_append,
        Nat.add_assoc]
    | stop | fail =>
      simp only [hv] at hvisits
      cases hvisits

variable (F)

/-- A frame cut short: some of its bytes, but not all. -/
def Torn (l : List α) (t : List β) : Prop :=
  t = [] ∨ ∃ a, a ∈ l ∧ t <+: F.encode a ∧ t ≠ [] ∧ t ≠ F.encode a

variable {F}

theorem Torn.mono {l m : List α} {t : List β} (h : F.Torn l t) (hsub : l ⊆ m) : F.Torn m t := by
  rcases h with h | ⟨a, ha, hcut⟩
  · exact Or.inl h
  · exact Or.inr ⟨a, hsub ha, hcut⟩

theorem Torn.of_prefix {l : List α} {t u : List β} (h : F.Torn l t) (hu : u <+: t) :
    F.Torn l u := by
  rcases h with rfl | ⟨a, ha, hcut, -, hne⟩
  · exact Or.inl (List.prefix_nil.mp hu)
  · by_cases hnil : u = []
    · exact Or.inl hnil
    · refine Or.inr ⟨a, ha, hu.trans hcut, hnil, ?_⟩
      rintro rfl
      exact hne (List.IsPrefix.eq_of_length_le hcut hu.length_le)

/-- What is left of a frame cut short does not begin with a whole one. -/
theorem Torn.not_prefix {l : List α} {t : List β} (h : F.Torn l t) (hfits : ∀ a ∈ l, F.Fits a)
    {b : α} (hb : F.Fits b) : ¬ F.encode b <+: t := by
  rintro ⟨rest, rfl⟩
  have hread := F.read_encode b rest hb
  rcases h with hnil | ⟨a, ha, hpre, hne, hcut⟩
  · rw [hnil, F.read_nil] at hread
    cases hread
  · rw [F.read_torn a _ (hfits a ha) hpre hne hcut] at hread
    cases hread

/-- A prefix of encoded frames is the first few of them and one cut short. -/
theorem prefix_encodeAll {l : List α} {d : List β} (h : d <+: F.encodeAll l) :
    ∃ l₁ l₂ t, l = l₁ ++ l₂ ∧ d = F.encodeAll l₁ ++ t ∧ F.Torn l₂ t := by
  induction l generalizing d with
  | nil =>
    have hd : d = [] := List.prefix_nil.mp h
    exact ⟨[], [], [], rfl, by simp [hd], Or.inl rfl⟩
  | cons a l ih =>
    rw [encodeAll_cons] at h
    obtain ⟨e, he⟩ := h
    rcases List.append_eq_append_iff.mp he with ⟨u, hcut, -⟩ | ⟨d', rfl, hrest⟩
    -- the cut falls inside the first frame
    · by_cases hd : d = []
      · exact ⟨[], a :: l, [], rfl, by simp [hd], Or.inl rfl⟩
      by_cases hwhole : d = F.encode a
      · exact ⟨[a], l, [], rfl, by simp [hwhole], Or.inl rfl⟩
      · refine ⟨[], a :: l, d, rfl, rfl, Or.inr ⟨a, List.mem_cons_self, ?_, hd, hwhole⟩⟩
        exact ⟨u, hcut.symm⟩
    · obtain ⟨l₁, l₂, t, rfl, rfl, ht⟩ := ih ⟨e, hrest.symm⟩
      exact ⟨a :: l₁, l₂, t, rfl, by simp, ht⟩

/-- The scan of cleanly encoded frames with a last one cut short. -/
theorem scan_torn (visit : σ → α → Verdict σ ε) (s : σ) (off : ℕ) {l : List α} {t : List β}
    (hfits : ∀ a ∈ l, F.Fits a) (ht : F.Torn l t) :
    F.scan visit s off t = ⟨s, off, if t = [] then .clean else .damaged⟩ := by
  rcases ht with rfl | ⟨a, ha, hpre, hne, hcut⟩
  · rw [scan_nil, if_pos rfl]
  · rw [scan_damaged visit s off (F.read_torn a t (hfits a ha) hpre hne hcut), if_neg hne]

variable (F) in
/-- The frames at the front of a file, up to the first that is unreadable. -/
def frames (d : List β) : List α :=
  match _hread : F.read d with
  | .eof => []
  | .damaged => []
  | .frame a n => a :: frames (d.drop n)
  termination_by d.length
  decreasing_by
    have := F.read_frame d a n _hread
    rw [List.length_drop]
    omega

theorem frames_read (d : List β) :
    F.frames d =
      match F.read d with
      | .eof => []
      | .damaged => []
      | .frame a n => a :: F.frames (d.drop n) := by
  rw [frames]
  split <;> rename_i h <;> rw [h]

theorem frames_encodeAll {l : List α} (hfits : ∀ a ∈ l, F.Fits a) :
    F.frames (F.encodeAll l) = l := by
  induction l with
  | nil => rw [encodeAll_nil, frames_read, F.read_nil]
  | cons a l ih =>
    rw [encodeAll_cons, frames_read, F.read_encode a _ (hfits a List.mem_cons_self)]
    dsimp only
    rw [List.drop_left, ih (fun b hb => hfits b (List.mem_cons_of_mem _ hb))]

/-- A scan visits the frames of its file; one that ends cleanly accepts them all. -/
theorem scan_visits (visit : σ → α → Verdict σ ε) (s : σ) (off : ℕ) (d : List β)
    (hend : ∀ e, (F.scan visit s off d).ending ≠ .failed e) :
    visits visit s (accepted visit s (F.frames d)) = some (F.scan visit s off d).state ∧
      ((F.scan visit s off d).ending = .clean → accepted visit s (F.frames d) = F.frames d) := by
  fun_induction F.scan visit s off d with
  | case1 s off d hread | case2 s off d hread =>
    rw [frames_read, hread]
    exact ⟨rfl, fun _ => rfl⟩
  | case3 s off d a n hread s' hvisit ih =>
    obtain ⟨hstate, hclean⟩ := ih hend
    rw [frames_read, hread]
    rw [accepted, hvisit]
    rw [visits, hvisit]
    exact ⟨hstate, fun hc => congrArg (List.cons a) (hclean hc)⟩
  | case4 s off d a n hread hvisit =>
    rw [frames_read, hread]
    dsimp only
    rw [accepted, hvisit]
    exact ⟨rfl, fun hc => by cases hc⟩
  | case5 s off d a n hread e => exact absurd rfl (hend e)

/-- Two visitors that answer alike end their scans alike. -/
theorem scan_simulates {τ ε' : Type*} (visit : σ → α → Verdict σ ε)
    (visit' : τ → α → Verdict τ ε') (rel : σ → τ → Prop)
    (hnext : ∀ s t a s', rel s t → visit s a = .next s' → ∃ t', visit' t a = .next t' ∧ rel s' t')
    (hstop : ∀ s t a, rel s t → visit s a = .stop → visit' t a = .stop)
    {s : σ} {t : τ} (h : rel s t) (off : ℕ) (d : List β)
    (hend : ∀ e, (F.scan visit s off d).ending ≠ .failed e) :
    rel (F.scan visit s off d).state (F.scan visit' t off d).state ∧
      ((F.scan visit s off d).ending = .clean ↔ (F.scan visit' t off d).ending = .clean) := by
  fun_induction F.scan visit s off d generalizing t with
  | case1 s off d hread | case2 s off d hread =>
    rw [scan_read, hread]
    exact ⟨h, by simp⟩
  | case3 s off d a n hread s' hvisit ih =>
    obtain ⟨t', ht', hrel⟩ := hnext s t a s' h hvisit
    rw [scan_read visit' t, hread]
    dsimp only
    rw [ht']
    exact ih hrel hend
  | case4 s off d a n hread hvisit =>
    rw [scan_read visit' t, hread]
    dsimp only
    rw [hstop s t a h hvisit]
    exact ⟨h, by simp⟩
  | case5 s off d a n hread e => exact absurd rfl (hend e)

end Framing

section Numbering

variable {ρ : Type*} (frame : ℕ → ρ → α)

/-- Records framed under consecutive numbers. -/
def numberedWith : ℕ → List ρ → List α
  | _, [] => []
  | n, r :: l => frame n r :: numberedWith (n + 1) l

variable {frame}

@[simp] theorem numberedWith_nil (n : ℕ) : numberedWith frame n [] = [] := rfl

@[simp] theorem numberedWith_cons (n : ℕ) (r : ρ) (l : List ρ) :
    numberedWith frame n (r :: l) = frame n r :: numberedWith frame (n + 1) l := rfl

theorem numberedWith_append (n : ℕ) (l m : List ρ) :
    numberedWith frame n (l ++ m) =
      numberedWith frame n l ++ numberedWith frame (n + l.length) m := by
  induction l generalizing n with
  | nil => rfl
  | cons r l ih =>
    simp only [List.cons_append, numberedWith_cons, ih, List.length_cons]
    rw [show n + 1 + l.length = n + (l.length + 1) by omega]

theorem numberedWith_eq_append {n : ℕ} {l : List ρ} {l₁ l₂ : List α}
    (h : numberedWith frame n l = l₁ ++ l₂) :
    ∃ r₁ r₂, l = r₁ ++ r₂ ∧ l₁ = numberedWith frame n r₁ ∧
      l₂ = numberedWith frame (n + r₁.length) r₂ := by
  induction l₁ generalizing n l with
  | nil => exact ⟨[], l, rfl, rfl, h.symm⟩
  | cons f l₁ ih =>
    cases l with
    | nil => cases h
    | cons r =>
      obtain ⟨hf, hrest⟩ := List.cons.inj h
      obtain ⟨r₁, r₂, rfl, rfl, rfl⟩ := ih hrest
      refine ⟨r :: r₁, r₂, rfl, by rw [← hf, numberedWith_cons], ?_⟩
      rw [List.length_cons, Nat.add_assoc, Nat.add_comm 1]

theorem mem_numberedWith {n : ℕ} {l : List ρ} {f : α} (h : f ∈ numberedWith frame n l) :
    ∃ i r, r ∈ l ∧ n ≤ i ∧ i < n + l.length ∧ f = frame i r := by
  induction l generalizing n with
  | nil => cases h
  | cons r l ih =>
    rw [List.length_cons]
    rcases List.mem_cons.mp h with rfl | h
    · exact ⟨n, r, List.mem_cons_self, le_rfl, by omega, rfl⟩
    · obtain ⟨i, r', hr', hlow, hi, rfl⟩ := ih h
      exact ⟨i, r', List.mem_cons_of_mem _ hr', by omega, by omega, rfl⟩

theorem numberedWith_split (n : ℕ) {l : List ρ} {i : ℕ} {r : ρ} (hi : l[i]? = some r) :
    numberedWith frame n l = numberedWith frame n (l.take i) ++
      (frame (n + i) r :: numberedWith frame (n + i + 1) (l.drop (i + 1))) := by
  obtain ⟨hlt, hrec⟩ := List.getElem?_eq_some_iff.mp hi
  have hsplit : l = l.take i ++ (r :: l.drop (i + 1)) := by
    rw [← hrec, ← List.drop_eq_getElem_cons hlt, List.take_append_drop]
  have hlen : (l.take i).length = i := List.length_take_of_le (by omega)
  conv_lhs => rw [hsplit, numberedWith_append, hlen]
  rfl

variable {F : Framing β α}

/-- A prefix of numbered records is some of them and one cut short. -/
theorem prefix_numberedWith {n : ℕ} {l : List ρ} {d : List β}
    (h : d <+: F.encodeAll (numberedWith frame n l)) :
    ∃ r₁ r₂ t, l = r₁ ++ r₂ ∧ d = F.encodeAll (numberedWith frame n r₁) ++ t ∧
      F.Torn (numberedWith frame (n + r₁.length) r₂) t := by
  obtain ⟨l₁, l₂, t, hsplit, hd, ht⟩ := Framing.prefix_encodeAll h
  obtain ⟨r₁, r₂, hrecs, rfl, rfl⟩ := numberedWith_eq_append hsplit
  exact ⟨r₁, r₂, t, hrecs, hd, ht⟩

/-- A prefix of records that already end in one cut short. -/
theorem prefix_numberedWith_torn {n : ℕ} {l later : List ρ} {d t : List β}
    (ht : F.Torn (numberedWith frame (n + l.length) later) t)
    (h : d <+: F.encodeAll (numberedWith frame n l) ++ t) :
    ∃ r₁ r₂ u, l ++ later = r₁ ++ r₂ ∧ d = F.encodeAll (numberedWith frame n r₁) ++ u ∧
      F.Torn (numberedWith frame (n + r₁.length) r₂) u := by
  rcases List.prefix_or_prefix_of_prefix h (List.prefix_append _ t) with hd | ⟨u, rfl⟩
  · obtain ⟨r₁, r₂, u, rfl, hd, hu⟩ := prefix_numberedWith hd
    refine ⟨r₁, r₂ ++ later, u, List.append_assoc .., hd, hu.mono ?_⟩
    rw [numberedWith_append]
    exact List.subset_append_left _ _
  · rw [List.prefix_append_right_inj] at h
    exact ⟨l, later, u, rfl, rfl, ht.of_prefix h⟩

/-- Whole records at the front of a file are among those it is split into. -/
theorem le_length_of_prefix {n j : ℕ} {r₁ r₂ : List ρ} {u : List β}
    (hfits : ∀ f ∈ numberedWith frame (n + r₁.length) r₂, F.Fits f)
    (hu : F.Torn (numberedWith frame (n + r₁.length) r₂) u) (hj : j ≤ (r₁ ++ r₂).length)
    (h : F.encodeAll (numberedWith frame n ((r₁ ++ r₂).take j)) <+:
      F.encodeAll (numberedWith frame n r₁) ++ u) : j ≤ r₁.length := by
  by_contra hlt
  rw [not_le] at hlt
  rw [List.length_append] at hj
  cases r₂ with
  | nil =>
    rw [List.length_nil] at hj
    omega
  | cons =>
    obtain ⟨k, hk⟩ : ∃ k, j - r₁.length = k + 1 := ⟨j - r₁.length - 1, by omega⟩
    rw [List.take_append, List.take_of_length_le hlt.le, hk, List.take_succ_cons,
      numberedWith_append, Framing.encodeAll_append, List.prefix_append_right_inj,
      numberedWith_cons, Framing.encodeAll_cons] at h
    exact hu.not_prefix hfits (hfits _ List.mem_cons_self) ((List.prefix_append _ _).trans h)

/-- Cutting numbered records at any offset keeps the first `k` of them, those that lie
in front of the cut as a whole, and some of the next. -/
theorem cut_numberedWith {n : ℕ} {l : List ρ} (hfits : ∀ f ∈ numberedWith frame n l, F.Fits f)
    (m : ℕ) :
    ∃ k ≤ l.length, ∃ t,
      (F.encodeAll (numberedWith frame n l)).take m =
        F.encodeAll (numberedWith frame n (l.take k)) ++ t ∧
      F.Torn (numberedWith frame (n + k) (l.drop k)) t ∧
      ∀ j ≤ l.length, (F.encodeAll (numberedWith frame n (l.take j))).length ≤ m ↔ j ≤ k := by
  obtain ⟨r₁, r₂, t, rfl, hd, ht⟩ := prefix_numberedWith (List.take_prefix m
    (F.encodeAll (numberedWith frame n l)))
  have hfits₂ : ∀ f ∈ numberedWith frame (n + r₁.length) r₂, F.Fits f := fun f hf =>
    hfits f (by rw [numberedWith_append]; exact List.mem_append_right _ hf)
  have hsplit : ∀ j, F.encodeAll (numberedWith frame n (r₁ ++ r₂)) =
      F.encodeAll (numberedWith frame n ((r₁ ++ r₂).take j)) ++ F.encodeAll
        (numberedWith frame (n + ((r₁ ++ r₂).take j).length) ((r₁ ++ r₂).drop j)) := by
    intro j
    rw [← Framing.encodeAll_append, ← numberedWith_append, List.take_append_drop]
  refine ⟨r₁.length, by rw [List.length_append]; omega, t, ?_, ?_, ?_⟩
  · rw [List.take_left]
    exact hd
  · rw [List.drop_left]
    exact ht
  · intro j hj
    constructor
    · intro hle
      refine le_length_of_prefix hfits₂ ht hj ?_
      rw [← hd]
      exact List.prefix_take_iff.mpr ⟨⟨_, (hsplit j).symm⟩, hle⟩
    · intro hle
      have hone : (F.encodeAll (numberedWith frame n r₁)).length ≤ m := by
        have hlen := congrArg List.length hd
        rw [List.length_append, List.length_take] at hlen
        omega
      rw [List.take_append_of_le_length hle]
      have hfront := congrArg (fun l => (F.encodeAll (numberedWith frame n l)).length)
        (List.take_append_drop j r₁)
      simp only [numberedWith_append, Framing.encodeAll_append, List.length_append] at hfront
      omega

end Numbering

end RedisFromScratch.FramedLogs
