import RedisFromScratch.ByteStrings
import Mathlib.Tactic.Ring
import Mathlib.Tactic.NormNum

/-!
Fixed-width little-endian integers, base-128 varints with zig-zag signs, and
the reflected 32-bit cyclic redundancy check. Every decoder returns what the
encoder was given and leaves what follows untouched.
-/
namespace RedisFromScratch.ByteCoding

open ByteStrings

/-- The low `w` bytes of a number, least significant first. -/
def le : ℕ → ℕ → Bytes
  | 0, _ => []
  | w + 1, n => UInt8.ofNat n :: le w (n / 256)

def ofLe : Bytes → ℕ
  | [] => 0
  | b :: bs => b.toNat + 256 * ofLe bs

@[simp] theorem le_length (w n : ℕ) : (le w n).length = w := by
  induction w generalizing n with
  | zero => rfl
  | succ w ih => simp [le, ih]

theorem ofLe_le (w n : ℕ) (h : n < 256 ^ w) : ofLe (le w n) = n := by
  induction w generalizing n with
  | zero =>
    have hn : n = 0 := by simpa using h
    simp [le, ofLe, hn]
  | succ w ih =>
    have hdiv : n / 256 < 256 ^ w := by
      rw [Nat.div_lt_iff_lt_mul (by decide)]
      rwa [pow_succ] at h
    simp only [le, ofLe, ih _ hdiv, UInt8.toNat_ofNat']
    omega

/-- Seven bits a byte, least significant first; a set top bit means more. -/
def uvarint (n : ℕ) : Bytes :=
  if n < 128 then [UInt8.ofNat n] else UInt8.ofNat (n % 128 + 128) :: uvarint (n / 128)

/-- Read a varint of at most 64 bits, having read `i` bytes worth `x` already. -/
def readUvarint : ℕ → ℕ → Bytes → Option (ℕ × Bytes)
  | _, _, [] => none
  | i, x, b :: rest =>
      if i = 10 then none
      else if b < 128 then
        if i = 9 ∧ 1 < b then none else some (x + b.toNat * 2 ^ (7 * i), rest)
      else readUvarint (i + 1) (x + (b.toNat - 128) * 2 ^ (7 * i)) rest

theorem readUvarint_uvarint (n i x : ℕ) (rest : Bytes) (h : n * 2 ^ (7 * i) < 2 ^ 64)
    (hi : i ≤ 9) :
    readUvarint i x (uvarint n ++ rest) = some (x + n * 2 ^ (7 * i), rest) := by
  induction n using Nat.strongRecOn generalizing i x with
  | ind n ih =>
    rw [uvarint]
    split
    · rename_i hsmall
      have hbyte : (UInt8.ofNat n).toNat = n := by
        rw [UInt8.toNat_ofNat']
        omega
      have hlt : UInt8.ofNat n < 128 := by
        rw [UInt8.lt_iff_toNat_lt, hbyte]
        exact hsmall
      have hlast : ¬ (i = 9 ∧ 1 < UInt8.ofNat n) := by
        rintro ⟨rfl, hbig⟩
        rw [UInt8.lt_iff_toNat_lt, hbyte] at hbig
        change 1 < n at hbig
        norm_num at h
        omega
      simp only [List.singleton_append, readUvarint, if_neg (by omega : ¬ i = 10), if_pos hlt,
        if_neg hlast, hbyte]
    · rename_i hlarge
      have hbyte : (UInt8.ofNat (n % 128 + 128)).toNat = n % 128 + 128 := by
        rw [UInt8.toNat_ofNat']
        omega
      have hge : ¬ UInt8.ofNat (n % 128 + 128) < 128 := by
        rw [UInt8.lt_iff_toNat_lt, hbyte]
        change ¬ n % 128 + 128 < 128
        omega
      have hpow : 2 ^ (7 * (i + 1)) = 128 * 2 ^ (7 * i) := by
        rw [Nat.mul_add, pow_add]
        norm_num [Nat.mul_comm]
      have hstep : n / 128 * 2 ^ (7 * (i + 1)) ≤ n * 2 ^ (7 * i) := by
        rw [hpow, ← Nat.mul_assoc]
        exact Nat.mul_le_mul_right _ (Nat.div_mul_le_self n 128)
      have hnext : i + 1 ≤ 9 := by
        by_contra hcon
        have h9 : i = 9 := by omega
        subst h9
        norm_num at h
        omega
      simp only [List.cons_append, readUvarint, if_neg (by omega : ¬ i = 10), if_neg hge, hbyte]
      rw [ih (n / 128) (by omega) (i + 1) _ (by omega) hnext, hpow]
      have hsplit : n = n % 128 + 128 * (n / 128) := (Nat.mod_add_div n 128).symm
      congr 2
      rw [Nat.add_sub_cancel, Nat.add_assoc]
      congr 1
      conv_rhs => rw [hsplit]
      ring

/-- Small magnitudes of either sign get small codes. -/
def zigzag (n : ℤ) : ℕ := if 0 ≤ n then 2 * n.toNat else 2 * (-n).toNat - 1

def unzigzag (u : ℕ) : ℤ := if u % 2 = 0 then (u / 2 : ℕ) else -((u / 2 : ℕ) : ℤ) - 1

theorem unzigzag_zigzag (n : ℤ) : unzigzag (zigzag n) = n := by
  unfold unzigzag zigzag
  split
  · rw [if_pos (by omega)]
    omega
  · rw [if_neg (by omega)]
    omega

theorem zigzag_lt {n : ℤ} (hlow : -2 ^ 63 ≤ n) (hhigh : n < 2 ^ 63) : zigzag n < 2 ^ 64 := by
  unfold zigzag
  split <;> omega

def varint (n : ℤ) : Bytes := uvarint (zigzag n)

def readVarint (d : Bytes) : Option (ℤ × Bytes) :=
  (readUvarint 0 0 d).map (fun r => (unzigzag r.1, r.2))

theorem readUvarint_uvarint_zero (n : ℕ) (rest : Bytes) (h : n < 2 ^ 64) :
    readUvarint 0 0 (uvarint n ++ rest) = some (n, rest) := by
  have hread := readUvarint_uvarint n 0 0 rest (by simpa using h) (by omega)
  simpa using hread

theorem readVarint_varint (n : ℤ) (rest : Bytes) (hlow : -2 ^ 63 ≤ n) (hhigh : n < 2 ^ 63) :
    readVarint (varint n ++ rest) = some (n, rest) := by
  unfold readVarint varint
  rw [readUvarint_uvarint_zero _ rest (zigzag_lt hlow hhigh)]
  simp [unzigzag_zigzag]

/-- One bit of the division, lowest bit first. -/
def crcBit (poly c : UInt32) : UInt32 := if c &&& 1 = 1 then (c >>> 1) ^^^ poly else c >>> 1

def crcByte (poly c : UInt32) (b : UInt8) : UInt32 :=
  Nat.iterate (crcBit poly) 8 (c ^^^ b.toUInt32)

/-- The reflected CRC-32 of a byte string, for a reversed polynomial. -/
def crc32 (poly : UInt32) (data : Bytes) : UInt32 :=
  ~~~ (data.foldl (crcByte poly) 0xFFFFFFFF)

end RedisFromScratch.ByteCoding
