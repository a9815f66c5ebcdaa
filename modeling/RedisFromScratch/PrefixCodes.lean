import Mathlib.Data.List.Basic

/-!
Codes none of whose words is a proper prefix of another one. A sequence of words of
such a code can be read off their concatenation.
-/
namespace RedisFromScratch.PrefixCodes

variable {α : Type*} {P : List α → Prop}

/-- No other word of the code can stand where this one does. -/
def Starts (P : List α → Prop) (v : List α) : Prop :=
  ∀ ⦃b x y : List α⦄, P b → v ++ x = b ++ y → v = b

def PrefixFree (P : List α → Prop) : Prop := ∀ ⦃v⦄, P v → Starts P v

/-- A text up to the first occurrence of a delimiter is settled by it. -/
theorem eq_of_delimited {d : α} {l l' x y : List α} (h : d ∉ l) (h' : d ∉ l')
    (heq : l ++ d :: x = l' ++ d :: y) : l = l' ∧ x = y := by
  induction l generalizing l' with
  | nil =>
    cases l' with
    | nil => exact ⟨rfl, (List.cons.inj heq).2⟩
    | cons =>
      rw [(List.cons.inj heq).1] at h'
      exact absurd List.mem_cons_self h'
  | cons a l ih =>
    cases l' with
    | nil =>
      rw [(List.cons.inj heq).1] at h
      exact absurd List.mem_cons_self h
    | cons =>
      obtain ⟨rfl, htail⟩ := List.cons.inj heq
      obtain ⟨rfl, hrest⟩ := ih (fun hl => h (List.mem_cons_of_mem a hl))
        (fun hl => h' (List.mem_cons_of_mem a hl)) htail
      exact ⟨rfl, hrest⟩

/-- As many words on both sides: they agree one by one, and so does what is behind. -/
theorem eq_of_flatten_append {vs us : List (List α)} (hv : ∀ v ∈ vs, Starts P v)
    (hu : ∀ u ∈ us, P u) (hlength : vs.length = us.length) {x y : List α}
    (heq : vs.flatten ++ x = us.flatten ++ y) : vs = us ∧ x = y := by
  induction vs generalizing us with
  | nil =>
    cases us with
    | nil => exact ⟨rfl, heq⟩
    | cons => cases hlength
  | cons v vs ih =>
    cases us with
    | nil => cases hlength
    | cons u =>
      rw [List.flatten_cons, List.flatten_cons, List.append_assoc, List.append_assoc] at heq
      obtain rfl := hv v List.mem_cons_self (hu u List.mem_cons_self) heq
      obtain ⟨rfl, hrest⟩ := ih (fun w hw => hv w (List.mem_cons_of_mem v hw))
        (fun w hw => hu w (List.mem_cons_of_mem v hw)) (Nat.succ.inj hlength)
        (List.append_cancel_left heq)
      exact ⟨rfl, hrest⟩

/-- A concatenation of words of a prefix-free code has one reading. -/
theorem PrefixFree.flatten_inj (h : PrefixFree P) (hsome : ¬ P []) {vs us : List (List α)}
    (hv : ∀ v ∈ vs, P v) (hu : ∀ u ∈ us, P u) (heq : vs.flatten = us.flatten) : vs = us := by
  have hempty : ∀ ws : List (List α), (∀ w ∈ ws, P w) → ws.flatten = [] → ws = [] := by
    intro ws hw hflat
    cases ws with
    | nil => rfl
    | cons w =>
      have hnil := List.flatten_eq_nil_iff.mp hflat w List.mem_cons_self
      exact absurd (hnil ▸ hw w List.mem_cons_self) hsome
  induction vs generalizing us with
  | nil => exact (hempty us hu heq.symm).symm
  | cons v vs ih =>
    cases us with
    | nil => exact hempty (v :: vs) hv heq
    | cons u =>
      rw [List.flatten_cons, List.flatten_cons] at heq
      obtain rfl := h (hv v List.mem_cons_self) (hu u List.mem_cons_self) heq
      rw [ih (fun w hw => hv w (List.mem_cons_of_mem v hw))
        (fun w hw => hu w (List.mem_cons_of_mem v hw)) (List.append_cancel_left heq)]

end RedisFromScratch.PrefixCodes
