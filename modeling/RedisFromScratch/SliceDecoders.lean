import Mathlib.Data.List.Infix
import Mathlib.Data.Option.Basic

/-!
Decoders that take values off the front of a slice. A decoder extends if more input
behind what it has taken is left alone. One that must take everything then refuses its
own output with something behind it, and every proper beginning of it. Slice
expressions outside of the slice panic, which is an outcome of its own.
-/
namespace RedisFromScratch.SliceDecoders

variable {β α γ : Type*}

/-- More input behind what was taken changes nothing but the rest. -/
def Extends (dec : List β → Option (α × List β)) : Prop :=
  ∀ p a q, dec p = some (a, q) → ∀ t, dec (p ++ t) = some (a, q ++ t)

/-- A decoder that must take everything. -/
def whole (dec : List β → Option (α × List β)) (p : List β) : Option α :=
  match dec p with
  | some (a, []) => some a
  | _ => none

section Extends

variable {dec : List β → Option (α × List β)}

theorem Extends.pure (a : α) : Extends (fun p : List β => some (a, p)) := by
  intro p b q h t
  cases h
  rfl

theorem Extends.map (h : Extends dec) (f : α → γ) :
    Extends (fun p => (dec p).map fun r => (f r.1, r.2)) := by
  intro p a q hp t
  obtain ⟨⟨b, q'⟩, hb, heq⟩ := Option.map_eq_some_iff.mp hp
  cases heq
  simp [h p b _ hb t]

theorem Extends.bind {next : α → List β → Option (γ × List β)} (h : Extends dec)
    (hnext : ∀ a, Extends (next a)) : Extends (fun p => (dec p).bind fun r => next r.1 r.2) := by
  intro p c q hp t
  obtain ⟨⟨a, q'⟩, ha, hc⟩ := Option.bind_eq_some_iff.mp hp
  change (dec (p ++ t)).bind _ = _
  rw [h p a q' ha t]
  exact hnext a q' c q hc t

/-- Something behind what is taken is refused. -/
theorem whole_append (h : Extends dec) {p s : List β} {a : α} (hp : dec p = some (a, []))
    (hs : s ≠ []) : whole dec (p ++ s) = none := by
  rw [whole, h p a [] hp s, List.nil_append]
  cases s with
  | nil => exact absurd rfl hs
  | cons => rfl

/-- So is a beginning of it. -/
theorem whole_prefix (h : Extends dec) {p t : List β} {a : α} (hp : dec p = some (a, []))
    (ht : t <+: p) (hne : t ≠ p) : whole dec t = none := by
  obtain ⟨s, rfl⟩ := ht
  unfold whole
  split
  · rename_i b hb
    have hboth := h t b [] hb s
    rw [hp, List.nil_append] at hboth
    cases hboth
    exact absurd (List.append_nil t).symm hne
  · rfl

theorem whole_eq {p : List β} {a : α} (hp : dec p = some (a, [])) : whole dec p = some a := by
  rw [whole, hp]

end Extends

/-- How a decoder of a slice may end. -/
inductive Decoded (α : Type*)
  | ok (a : α)
  | corrupt
  | panic

namespace Decoded

def bind (d : Decoded α) (f : α → Decoded γ) : Decoded γ :=
  match d with
  | .ok a => f a
  | .corrupt => .corrupt
  | .panic => .panic

def ofOption : Option α → Decoded α
  | some a => .ok a
  | none => .corrupt

@[simp] theorem ok_bind (a : α) (f : α → Decoded γ) : (ok a).bind f = f a := rfl

@[simp] theorem corrupt_bind (f : α → Decoded γ) : (corrupt : Decoded α).bind f = corrupt := rfl

theorem ofOption_ne_panic (o : Option α) : ofOption o ≠ panic := by
  cases o <;> exact nofun

end Decoded

/-- `p[i:]` -/
def sliceFrom (p : List β) (i : ℕ) : Decoded (List β) :=
  if i ≤ p.length then .ok (p.drop i) else .panic

/-- `p[:i]` -/
def sliceTo (p : List β) (i : ℕ) : Decoded (List β) :=
  if i ≤ p.length then .ok (p.take i) else .panic

/-- `p[i]` -/
def index (p : List β) (i : ℕ) : Decoded β :=
  match p[i]? with
  | some b => .ok b
  | none => .panic

theorem sliceFrom_of_le {p : List β} {i : ℕ} (h : i ≤ p.length) :
    sliceFrom p i = .ok (p.drop i) := if_pos h

theorem sliceTo_of_le {p : List β} {i : ℕ} (h : i ≤ p.length) : sliceTo p i = .ok (p.take i) :=
  if_pos h

end RedisFromScratch.SliceDecoders
