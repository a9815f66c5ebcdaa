import Mathlib.Order.Defs.Unbundled

/-!
Programs on a state that return a result or panic, and what holds whenever one
returns. A property of the state before, the result and the state after is carried
through a sequence by composing it; a relation between states that is reflexive and
transitive is kept by a sequence of programs that keep it.
-/
namespace RedisFromScratch.StatePrograms

variable {S α β : Type}

/-- The result and the state that is left, or a panic. -/
def Prog (S α : Type) : Type := S → Option (α × S)

instance : Monad (Prog S) where
  pure a := fun s => some (a, s)
  bind m f := fun s => (m s).bind (fun p => f p.1 p.2)

/-- Read something off the state. -/
def reading (f : S → α) : Prog S α := fun s => some (f s, s)

/-- Change the state. -/
def changing (f : S → S) : Prog S Unit := fun s => some ((), f s)

/-- An operation of a part of the state. -/
def acting (f : S → α × S) : Prog S α := fun s => some (f s)

def panicking : Prog S α := fun _ => none

/-- What holds whenever the program returns. -/
def Ensures (P : S → α → S → Prop) (m : Prog S α) : Prop :=
  ∀ s a s', m s = some (a, s') → P s a s'

theorem Ensures.pure {P : S → α → S → Prop} {a : α} (h : ∀ s, P s a s) :
    Ensures P (Pure.pure a : Prog S α) := by
  intro s b s' hrun
  cases hrun
  exact h s

theorem Ensures.reading {P : S → α → S → Prop} {f : S → α} (h : ∀ s, P s (f s) s) :
    Ensures P (reading f) := by
  intro s b s' hrun
  cases hrun
  exact h s

theorem Ensures.changing {P : S → Unit → S → Prop} {f : S → S} (h : ∀ s, P s () (f s)) :
    Ensures P (changing f) := by
  intro s b s' hrun
  cases hrun
  exact h s

theorem Ensures.acting {P : S → α → S → Prop} {f : S → α × S}
    (h : ∀ s, P s (f s).1 (f s).2) : Ensures P (acting f) := by
  intro s a s' hrun
  have hs := h s
  rw [Option.some.inj hrun] at hs
  exact hs

theorem Ensures.panicking {P : S → α → S → Prop} : Ensures P (panicking : Prog S α) := by
  intro s a s' hrun
  cases hrun

theorem Ensures.bind {P : S → α → S → Prop} {Q : α → S → β → S → Prop} {R : S → β → S → Prop}
    {m : Prog S α} {f : α → Prog S β} (hm : Ensures P m) (hf : ∀ a, Ensures (Q a) (f a))
    (h : ∀ s a s' b s'', P s a s' → Q a s' b s'' → R s b s'') : Ensures R (m >>= f) := by
  intro s b s'' hrun
  obtain ⟨⟨a, s'⟩, hfirst, hrest⟩ := Option.bind_eq_some_iff.mp hrun
  exact h s a s' b s'' (hm s a s' hfirst) (hf a s' b s'' hrest)

theorem Ensures.ite {P : S → α → S → Prop} {p : Prop} [Decidable p] {m m' : Prog S α}
    (h : Ensures P m) (h' : Ensures P m') : Ensures P (if p then m else m') := by
  split
  · exact h
  · exact h'

/-- What is read does not matter for a property that every continuation ensures. -/
theorem Ensures.reading_bind {R : S → β → S → Prop} {f : S → α} {g : α → Prog S β}
    (h : ∀ a, Ensures R (g a)) : Ensures R (StatePrograms.reading f >>= g) :=
  fun s b s' hrun => h (f s) s b s' hrun

/-- A result that is returned at the end. -/
theorem Ensures.returning {P : S → S → Prop} {m : Prog S α}
    (hm : Ensures (fun s _ s' => P s s') m) (b : β) :
    Ensures (fun s _ s' => P s s') (m >>= fun _ => (Pure.pure b : Prog S β)) := by
  intro s b' s' hrun
  obtain ⟨⟨a, s₁⟩, hfirst, hrest⟩ := Option.bind_eq_some_iff.mp hrun
  cases hrest
  exact hm s a s₁ hfirst

theorem Ensures.mono {P Q : S → α → S → Prop} {m : Prog S α} (hm : Ensures P m)
    (h : ∀ s a s', P s a s' → Q s a s') : Ensures Q m := fun s a s' hrun =>
  h s a s' (hm s a s' hrun)

/-- The states before and after are related. -/
def Keeps (rel : S → S → Prop) (m : Prog S α) : Prop := Ensures (fun s _ s' => rel s s') m

section Keeps

variable {rel : S → S → Prop}

theorem Keeps.bind [IsTrans S rel] {m : Prog S α} {f : α → Prog S β} (hm : Keeps rel m)
    (hf : ∀ a, Keeps rel (f a)) : Keeps rel (m >>= f) :=
  Ensures.bind hm hf (fun _ _ _ _ _ hfirst hrest => IsTrans.trans _ _ _ hfirst hrest)

theorem Keeps.pure [Std.Refl rel] (a : α) : Keeps rel (Pure.pure a : Prog S α) :=
  Ensures.pure (fun s => Std.Refl.refl s)

theorem Keeps.reading [Std.Refl rel] (f : S → α) : Keeps rel (StatePrograms.reading f) :=
  Ensures.reading (fun s => Std.Refl.refl s)

end Keeps

end RedisFromScratch.StatePrograms
