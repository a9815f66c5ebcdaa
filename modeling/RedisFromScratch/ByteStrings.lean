import Mathlib.Data.List.Lex
import Mathlib.Order.Lattice

/-!
Byte strings and their lexicographic order. Shorter prefixes come first, so
appending a zero byte gives the immediate successor of a string.
-/
namespace RedisFromScratch.ByteStrings

abbrev Bytes := List UInt8

instance byteLinearOrder : LinearOrder UInt8 where
  le_refl := UInt8.le_refl
  le_trans _ _ _ := UInt8.le_trans
  le_antisymm _ _ := UInt8.le_antisymm
  le_total := UInt8.le_total
  lt_iff_le_not_ge a b := by
    rw [UInt8.lt_iff_toNat_lt, UInt8.le_iff_toNat_le, UInt8.le_iff_toNat_le]
    omega
  toDecidableLE := fun _ _ => inferInstance
  toDecidableLT := fun _ _ => inferInstance
  toDecidableEq := fun _ _ => inferInstance

theorem lt_append_zero (k : Bytes) : k < k ++ [0] := by
  induction k with
  | nil => exact List.nil_lt_cons 0 []
  | cons a k ih => exact List.cons_lt_cons_iff.mpr (Or.inr ⟨rfl, ih⟩)

/-- Nothing lies strictly between a string and the string with a zero appended. -/
theorem append_zero_le_of_lt {k x : Bytes} (h : k < x) : k ++ [0] ≤ x := by
  induction k generalizing x with
  | nil =>
    cases x with
    | nil => exact absurd h (lt_irrefl _)
    | cons b x =>
      have hb : (0 : UInt8) ≤ b := UInt8.le_iff_toNat_le.mpr (Nat.zero_le _)
      rcases hb.lt_or_eq with hlt | heq
      · exact le_of_lt (List.cons_lt_cons_iff.mpr (Or.inl hlt))
      · subst heq
        cases x with
        | nil => exact le_rfl
        | cons c x =>
          exact le_of_lt (List.cons_lt_cons_iff.mpr (Or.inr ⟨rfl, List.nil_lt_cons c x⟩))
  | cons a k ih =>
    cases x with
    | nil => exact absurd h (List.not_lt_nil _)
    | cons =>
      rcases List.cons_lt_cons_iff.mp h with hlt | ⟨heq, hlt⟩
      · exact le_of_lt (List.cons_lt_cons_iff.mpr (Or.inl hlt))
      · subst heq
        rcases (ih hlt).lt_or_eq with hlt' | heq'
        · exact le_of_lt (List.cons_lt_cons_iff.mpr (Or.inr ⟨rfl, hlt'⟩))
        · exact le_of_eq (congrArg (List.cons a) heq')

end RedisFromScratch.ByteStrings
