import RedisFromScratch.RespReader

/-!
Signed decimals as text. The parser that the request reader uses for counts accepts
exactly the decimals of 64-bit integers, with or without a sign and with any number
of leading zeros, and it reads back what the reply writer prints.
-/
namespace RedisFromScratch.SignedDecimals

open ByteStrings RespReader ReplyWriter

/-- Decimal digits only. -/
def Digits (ds : Bytes) : Prop := ∀ c ∈ ds, 48 ≤ c ∧ c ≤ 57

/-- The number that digits spell behind a number that was read before them. -/
def digitsValue (v : ℕ) (ds : Bytes) : ℕ := ds.foldl (fun v c => v * 10 + (c.toNat - 48)) v

inductive Decimal : Bytes → ℤ → Prop
  | unsigned (ds : Bytes) (hsome : ds ≠ []) (hdigits : Digits ds) : Decimal ds (digitsValue 0 ds)
  | plus (ds : Bytes) (hsome : ds ≠ []) (hdigits : Digits ds) :
      Decimal (43 :: ds) (digitsValue 0 ds)
  | minus (ds : Bytes) (hsome : ds ≠ []) (hdigits : Digits ds) :
      Decimal (45 :: ds) (-digitsValue 0 ds)

theorem le_digitsValue (v : ℕ) (ds : Bytes) : v ≤ digitsValue v ds := by
  induction ds generalizing v with
  | nil => exact Nat.le_refl _
  | cons c ds ih =>
    have := ih (v * 10 + (c.toNat - 48))
    change v ≤ digitsValue (v * 10 + (c.toNat - 48)) ds
    omega

theorem digit_toNat {c : UInt8} (hlow : 48 ≤ c) (hhigh : c ≤ 57) :
    (c - 48).toNat = c.toNat - 48 ∧ c.toNat - 48 ≤ 9 := by
  have hlow' : 48 ≤ c.toNat := UInt8.le_iff_toNat_le.mp hlow
  have hhigh' : c.toNat ≤ 57 := UInt8.le_iff_toNat_le.mp hhigh
  refine ⟨?_, by omega⟩
  rw [UInt8.toNat_sub_of_le _ _ hlow]
  rfl

/-- The overflow test of the parser is exact. -/
theorem parseDigits_eq_some_iff {limit : ℕ} (hlimit : 9 ≤ limit) {v w : ℕ} (hv : v ≤ limit)
    (ds : Bytes) :
    parseDigits limit v ds = some w ↔ Digits ds ∧ digitsValue v ds = w ∧ w ≤ limit := by
  induction ds generalizing v with
  | nil =>
    constructor
    · intro h
      cases h
      exact ⟨fun c hc => absurd hc List.not_mem_nil, rfl, hv⟩
    · rintro ⟨-, rfl, -⟩
      rfl
  | cons c ds ih =>
    rw [parseDigits]
    by_cases hdigit : 48 ≤ c ∧ c ≤ 57
    · obtain ⟨hc, hc9⟩ := digit_toNat hdigit.1 hdigit.2
      rw [if_neg (by simpa [UInt8.not_lt] using hdigit), hc]
      have hcons : Digits (c :: ds) ↔ Digits ds := by
        simp [Digits, hdigit]
      have hvalue : digitsValue v (c :: ds) = digitsValue (v * 10 + (c.toNat - 48)) ds := rfl
      rw [hcons, hvalue]
      split
      · rename_i hover
        have hbig : limit < v * 10 + (c.toNat - 48) := by omega
        have := le_digitsValue (v * 10 + (c.toNat - 48)) ds
        constructor
        · intro h
          cases h
        · rintro ⟨-, rfl, hle⟩
          omega
      · exact ih (by omega)
    · rw [if_pos (by simpa [UInt8.not_le, Classical.or_iff_not_imp_left] using hdigit)]
      constructor
      · intro h
        cases h
      · rintro ⟨hdigits, -⟩
        exact absurd (hdigits c List.mem_cons_self) hdigit

theorem toInt64_of_le {v : ℕ} (hv : v ≤ 2 ^ 63 - 1) : toInt64 v = v := by
  unfold toInt64
  rw [if_pos (by omega)]

/-- Going through unsigned arithmetic gives the negative, also of the largest magnitude. -/
theorem negated_of_le {v : ℕ} (hv : v ≤ 2 ^ 63) : negated v = -v := by
  unfold negated toInt64
  rcases Nat.eq_zero_or_pos v with rfl | hpos
  · rfl
  · have hmod : (v + (2 ^ 64 - 1)) % 2 ^ 64 = v - 1 := by omega
    rw [hmod, if_pos (by omega)]
    omega

/-- Digits without a minus: every value up to the largest. -/
theorem parse_nonneg_iff (ds : Bytes) (v : ℤ) :
    (parseDigits (2 ^ 63 - 1) 0 ds).map toInt64 = some v ↔
      Digits ds ∧ v = digitsValue 0 ds ∧ v ≤ 2 ^ 63 - 1 := by
  rw [Option.map_eq_some_iff]
  constructor
  · rintro ⟨w, hw, rfl⟩
    obtain ⟨hdigits, hvalue, hle⟩ :=
      (parseDigits_eq_some_iff (by decide) (Nat.zero_le _) ds).mp hw
    rw [toInt64_of_le hle, hvalue]
    exact ⟨hdigits, rfl, by omega⟩
  · rintro ⟨hdigits, rfl, hle⟩
    have hle' : digitsValue 0 ds ≤ 2 ^ 63 - 1 := by omega
    exact ⟨digitsValue 0 ds,
      (parseDigits_eq_some_iff (by decide) (Nat.zero_le _) ds).mpr ⟨hdigits, rfl, hle'⟩,
      toInt64_of_le hle'⟩

/-- Digits behind a minus: every magnitude up to that of the smallest integer. -/
theorem parse_negative_iff (ds : Bytes) (v : ℤ) :
    (parseDigits (2 ^ 63) 0 ds).map negated = some v ↔
      Digits ds ∧ v = -digitsValue 0 ds ∧ -2 ^ 63 ≤ v := by
  rw [Option.map_eq_some_iff]
  constructor
  · rintro ⟨w, hw, rfl⟩
    obtain ⟨hdigits, hvalue, hle⟩ :=
      (parseDigits_eq_some_iff (by decide) (Nat.zero_le _) ds).mp hw
    rw [negated_of_le hle, hvalue]
    exact ⟨hdigits, rfl, by omega⟩
  · rintro ⟨hdigits, rfl, hle⟩
    have hle' : digitsValue 0 ds ≤ 2 ^ 63 := by omega
    exact ⟨digitsValue 0 ds,
      (parseDigits_eq_some_iff (by decide) (Nat.zero_le _) ds).mpr ⟨hdigits, rfl, hle'⟩,
      negated_of_le hle'⟩

/-- What the parser accepts is a decimal of a 64-bit integer. -/
theorem decimal_of_parseInt {b : Bytes} {v : ℤ} (h : parseInt b = some v) :
    Decimal b v ∧ -2 ^ 63 ≤ v ∧ v ≤ 2 ^ 63 - 1 := by
  cases b with
  | nil => cases h
  | cons c rest =>
    rw [parseInt] at h
    split at h
    · rename_i hsign
      split at h
      · cases h
      rename_i hsome
      split at h
      · rename_i hminus
        obtain ⟨hdigits, rfl, hle⟩ := (parse_negative_iff rest v).mp h
        subst hminus
        exact ⟨.minus rest hsome hdigits, hle, by omega⟩
      · rename_i hminus
        obtain ⟨hdigits, rfl, hle⟩ := (parse_nonneg_iff rest v).mp h
        cases hsign.resolve_left hminus
        exact ⟨.plus rest hsome hdigits, by omega, hle⟩
    · obtain ⟨hdigits, rfl, hle⟩ := (parse_nonneg_iff _ v).mp h
      exact ⟨.unsigned _ (List.cons_ne_nil _ _) hdigits, by omega, hle⟩

theorem parseInt_of_decimal {b : Bytes} {v : ℤ} (h : Decimal b v) (hlow : -2 ^ 63 ≤ v)
    (hhigh : v ≤ 2 ^ 63 - 1) : parseInt b = some v := by
  cases h with
  | unsigned ds hsome hdigits =>
    cases b with
    | nil => exact absurd rfl hsome
    | cons c =>
      have hdigit := hdigits c List.mem_cons_self
      have hsign : ¬ (c = 45 ∨ c = 43) := by
        rintro (rfl | rfl)
        · exact absurd hdigit.1 (by decide)
        · exact absurd hdigit.1 (by decide)
      rw [parseInt, if_neg hsign]
      exact (parse_nonneg_iff _ _).mpr ⟨hdigits, rfl, hhigh⟩
  | plus ds hsome hdigits =>
    rw [parseInt, if_pos (Or.inr rfl), if_neg hsome, if_neg (by decide)]
    exact (parse_nonneg_iff _ _).mpr ⟨hdigits, rfl, hhigh⟩
  | minus ds hsome hdigits =>
    rw [parseInt, if_pos (Or.inl rfl), if_neg hsome, if_pos rfl]
    exact (parse_negative_iff _ _).mpr ⟨hdigits, rfl, hlow⟩

/-- Parsing is exact: it succeeds on the decimals of 64-bit integers and on nothing else. -/
theorem parseInt_eq_some_iff (b : Bytes) (v : ℤ) :
    parseInt b = some v ↔ Decimal b v ∧ -2 ^ 63 ≤ v ∧ v ≤ 2 ^ 63 - 1 := by
  constructor
  · exact decimal_of_parseInt
  · rintro ⟨hdecimal, hlow, hhigh⟩
    exact parseInt_of_decimal hdecimal hlow hhigh

/-- Every byte of a decimal is a sign or a digit. -/
theorem Decimal.mem {b : Bytes} {v : ℤ} (h : Decimal b v) {c : UInt8} (hc : c ∈ b) :
    c = 43 ∨ c = 45 ∨ 48 ≤ c := by
  cases h with
  | unsigned ds hsome hdigits => exact Or.inr (Or.inr (hdigits c hc).1)
  | plus ds hsome hdigits =>
    rcases List.mem_cons.mp hc with hc | hc
    · exact Or.inl hc
    · exact Or.inr (Or.inr (hdigits c hc).1)
  | minus ds hsome hdigits =>
    rcases List.mem_cons.mp hc with hc | hc
    · exact Or.inr (Or.inl hc)
    · exact Or.inr (Or.inr (hdigits c hc).1)

theorem Decimal.no_line_break {b : Bytes} {v : ℤ} (h : Decimal b v) : 10 ∉ b ∧ 13 ∉ b := by
  constructor
  · intro hc
    exact absurd (h.mem hc) (by decide)
  · intro hc
    exact absurd (h.mem hc) (by decide)

/-- A text is a decimal of one number only: a sign is not a digit. -/
theorem Decimal.unique {b : Bytes} {v w : ℤ} (hv : Decimal b v) (hw : Decimal b w) : v = w := by
  have hsign : ∀ {c : UInt8} {ds : Bytes}, Digits (c :: ds) → c ≠ 43 ∧ c ≠ 45 := by
    intro c ds hdigits
    have hc := (hdigits c List.mem_cons_self).1
    constructor
    · rintro rfl
      exact absurd hc (by decide)
    · rintro rfl
      exact absurd hc (by decide)
  cases hv with
  | unsigned ds hsome hdigits =>
    cases hw with
    | unsigned => rfl
    | plus => exact absurd rfl (hsign hdigits).1
    | minus => exact absurd rfl (hsign hdigits).2
  | plus =>
    cases hw with
    | unsigned _ _ hother => exact absurd rfl (hsign hother).1
    | plus => rfl
  | minus =>
    cases hw with
    | unsigned _ _ hother => exact absurd rfl (hsign hother).2
    | minus => rfl

/-- The digits that are printed, one division by ten at a time. -/
def printed (n : ℕ) : Bytes := (Nat.toDigits 10 n).map (fun c => c.toNat.toUInt8)

theorem digitChar_toUInt8 {d : ℕ} (hd : d < 10) :
    48 ≤ (Nat.digitChar d).toNat.toUInt8 ∧ (Nat.digitChar d).toNat.toUInt8 ≤ 57 ∧
      (Nat.digitChar d).toNat.toUInt8.toNat - 48 = d := by
  revert d
  decide

theorem digitsValue_append (v : ℕ) (xs ys : Bytes) :
    digitsValue v (xs ++ ys) = digitsValue (digitsValue v xs) ys := List.foldl_append

/-- Printing divides by ten until one digit is left; reading multiplies it back. -/
theorem printed_spells (n : ℕ) :
    printed n ≠ [] ∧ Digits (printed n) ∧ digitsValue 0 (printed n) = n := by
  induction n using Nat.strongRecOn with
  | ind n ih =>
    unfold printed
    rw [Nat.toDigits_eq_if (by decide)]
    split
    · rename_i hsmall
      obtain ⟨hlow, hhigh, hvalue⟩ := digitChar_toUInt8 hsmall
      refine ⟨List.cons_ne_nil _ _, ?_, ?_⟩
      · intro c hc
        cases List.mem_singleton.mp hc
        exact ⟨hlow, hhigh⟩
      · change 0 * 10 + ((Nat.digitChar n).toNat.toUInt8.toNat - 48) = n
        omega
    · obtain ⟨-, hdigits, hrest⟩ := ih (n / 10) (by omega)
      obtain ⟨hlow, hhigh, hvalue⟩ := digitChar_toUInt8 (Nat.mod_lt n (by decide : 0 < 10))
      rw [List.map_append]
      refine ⟨by simp, ?_, ?_⟩
      · intro c hc
        rcases List.mem_append.mp hc with hc | hc
        · exact hdigits c hc
        · cases List.mem_singleton.mp hc
          exact ⟨hlow, hhigh⟩
      · change digitsValue 0 (printed (n / 10) ++ _) = n
        rw [digitsValue_append, hrest]
        change n / 10 * 10 + ((Nat.digitChar (n % 10)).toNat.toUInt8.toNat - 48) = n
        omega

/-- What the writer prints for a number is a decimal of it. -/
theorem decimal_appendInt (n : ℤ) : Decimal (appendInt n) n := by
  obtain ⟨hsome, hdigits, hvalue⟩ := printed_spells n.natAbs
  unfold appendInt
  split
  · have h := Decimal.minus _ hsome hdigits
    rwa [hvalue, show -(n.natAbs : ℤ) = n by omega] at h
  · have h := Decimal.unsigned _ hsome hdigits
    rwa [hvalue, show (n.natAbs : ℤ) = n by omega] at h

end RedisFromScratch.SignedDecimals
