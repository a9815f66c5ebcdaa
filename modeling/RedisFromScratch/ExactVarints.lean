import RedisFromScratch.EngineCoding

/-!
What the cursor makes of a varint. It shifts the tenth byte by sixty-three places, so
all but the lowest of its bits are lost and a number of 2 ^ 64 or more comes back
reduced. Below that every number is exact, and a signed one goes through the zig-zag
of its machine word unchanged.
-/
namespace RedisFromScratch.ExactVarints

open ByteStrings ByteCoding EngineCoding

/-- What the bytes of a varint spell, however many they are. -/
def spelled : Bytes → ℕ
  | [] => 0
  | b :: bs => b.toNat % 128 + 128 * spelled bs

def putVarint (v : Int64) : Bytes := uvarint ((v <<< 1) ^^^ (v >>> 63)).toUInt64.toNat

def cursorVarint (d : Bytes) : Option (Int64 × Bytes) :=
  (getUvarint 0 0 d).map fun r =>
    ((UInt64.ofNat r.1 >>> 1).toInt64 ^^^ -(UInt64.ofNat r.1 &&& 1).toInt64, r.2)

/-- The sign, spread over the word, flips the bits of a negative number. -/
theorem zigzag_bits (x : BitVec 64) : (x <<< 1 ^^^ x.sshiftRight 63).toNat = zigzag x.toInt := by
  cases hsign : x.msb with
  | false =>
    have hx := BitVec.msb_eq_false_iff_two_mul_lt.mp hsign
    have hspread : x.sshiftRight 63 = 0#64 := by
      rw [BitVec.sshiftRight_eq_of_msb_false hsign]
      bv_omega
    rw [hspread, BitVec.xor_zero, BitVec.toNat_shiftLeft, Nat.shiftLeft_eq,
      BitVec.toInt_eq_toNat_of_msb hsign, zigzag, if_pos (by omega)]
    omega
  | true =>
    have hx := BitVec.msb_eq_true_iff_two_mul_ge.mp hsign
    have hspread : x.sshiftRight 63 = BitVec.allOnes 64 := by
      rw [BitVec.sshiftRight_eq_of_msb_true hsign, show ~~~x >>> 63 = 0 by bv_omega]
      rfl
    have hint : x.toInt = x.toNat - 2 ^ 64 := by
      rw [BitVec.toInt_eq_msb_cond, if_pos hsign]
      rfl
    rw [hspread, BitVec.xor_allOnes, BitVec.toNat_not, BitVec.toNat_shiftLeft, Nat.shiftLeft_eq,
      hint, zigzag, if_neg (by omega)]
    omega

/-- The lowest bit, spread over the word, flips the others back. -/
theorem unzigzag_bits (x : BitVec 64) : (x >>> 1 ^^^ -(x &&& 1)).toInt = unzigzag x.toNat := by
  have hbit : (x &&& 1).toNat = x.toNat % 2 := by
    rw [BitVec.toNat_and]
    exact Nat.and_one_is_mod _
  rcases Nat.mod_two_eq_zero_or_one x.toNat with heven | hodd
  · have hzero : x &&& 1 = 0#64 := by bv_omega
    rw [hzero, BitVec.neg_zero, BitVec.xor_zero, BitVec.toInt_eq_toNat_cond,
      BitVec.toNat_ushiftRight, Nat.shiftRight_eq_div_pow, if_pos (by omega), unzigzag,
      if_pos heven]
  · have hone : -(x &&& 1) = BitVec.allOnes 64 := by
      rw [show x &&& 1 = 1 by bv_omega]
      rfl
    rw [hone, BitVec.xor_allOnes, BitVec.toInt_eq_toNat_cond, BitVec.toNat_not,
      BitVec.toNat_ushiftRight, Nat.shiftRight_eq_div_pow, if_neg (by omega), unzigzag,
      if_neg (by omega)]
    omega

theorem putVarint_eq (v : Int64) : putVarint v = varint v.toInt := by
  rw [putVarint, varint]
  exact congrArg uvarint (zigzag_bits v.toBitVec)

theorem spelled_lt {k : ℕ} {bs : Bytes} (hlen : bs.length ≤ k + 1)
    (hlast : ∀ b ∈ bs[k]?, b ≤ 1) : spelled bs < 2 * 128 ^ k := by
  induction bs generalizing k with
  | nil =>
    have := Nat.pow_pos (n := k) (by decide : 0 < 128)
    rw [spelled]
    omega
  | cons b bs ih =>
    cases k with
    | zero =>
      have hb : b.toNat ≤ 1 := UInt8.le_iff_toNat_le.mp (hlast b rfl)
      cases bs with
      | nil => rw [spelled, spelled]; omega
      | cons => cases hlen with | step h => cases h
    | succ =>
      have := ih (Nat.le_of_succ_le_succ hlen) hlast
      rw [spelled, pow_succ]
      omega

/-- Whatever the cursor accepts, it returns what the bytes spell modulo 2 ^ 64. -/
theorem getUvarint_spells {i v r : ℕ} {d rest : Bytes} (h : getUvarint i v d = some (r, rest)) :
    ∃ used, d = used ++ rest ∧ (i ≤ 10 → i + used.length ≤ 10) ∧
      r = (v + 2 ^ (7 * i) * spelled used) % 2 ^ 64 := by
  induction d generalizing i v with
  | nil => cases h
  | cons b d ih =>
    rw [getUvarint] at h
    split at h
    · cases h
    rename_i hten
    have hbyte := b.toNat_lt
    split at h
    · rename_i hlast
      have hsmall : b.toNat < 128 := UInt8.lt_iff_toNat_lt.mp hlast
      split at h
      · cases h
        refine ⟨[b], rfl, ?_, ?_⟩
        · intro hi
          simp
          omega
        · rw [spelled, spelled, Nat.mod_eq_of_lt hsmall, Nat.mul_zero, Nat.add_zero,
            Nat.mul_comm (2 ^ _)]
          omega
      · cases h
    · rename_i hmore
      have hlarge : 128 ≤ b.toNat := UInt8.le_iff_toNat_le.mp (UInt8.not_lt.mp hmore)
      obtain ⟨used, rfl, hlen, rfl⟩ := ih h
      refine ⟨b :: used, rfl, ?_, ?_⟩
      · intro hi
        have := hlen (by omega)
        rw [List.length_cons]
        omega
      · have hlow : b.toNat % 128 = b.toNat - 128 := by omega
        have hnext : 2 ^ (7 * (i + 1)) * spelled used = 2 ^ (7 * i) * (128 * spelled used) := by
          rw [Nat.mul_add, pow_add, Nat.mul_assoc]
          rfl
        rw [spelled, hlow, hnext, Nat.mul_add, Nat.mul_comm _ (b.toNat - 128)]
        omega

/-- The word and the integer that the cursor reads are the same number. -/
theorem getVarint_eq (d : Bytes) :
    getVarint d = (cursorVarint d).map (fun r => (r.1.toInt, r.2)) := by
  rw [getVarint, cursorVarint, Option.map_map]
  apply Option.map_congr
  rintro ⟨r, rest⟩ hr
  obtain ⟨used, -, -, rfl⟩ := getUvarint_spells hr
  have hword := unzigzag_bits (BitVec.ofNat 64 ((0 + 2 ^ (7 * 0) * spelled used) % 2 ^ 64))
  rw [BitVec.toNat_ofNat, Nat.mod_mod] at hword
  exact congrArg (·, rest) hword.symm

theorem cursorVarint_putVarint (v : Int64) (rest : Bytes) :
    cursorVarint (putVarint v ++ rest) = some (v, rest) := by
  have hread := getVarint_varint v.toInt rest v.le_toInt v.toInt_lt
  rw [← putVarint_eq, getVarint_eq, Option.map_eq_some_iff] at hread
  obtain ⟨⟨w, left⟩, hread, hsame⟩ := hread
  obtain ⟨hword, hrest⟩ := Prod.mk.inj hsame
  rw [hread]
  exact congrArg some (Prod.ext (Int64.toInt_inj.mp hword) hrest)

end RedisFromScratch.ExactVarints
