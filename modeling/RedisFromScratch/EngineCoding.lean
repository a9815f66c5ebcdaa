import RedisFromScratch.ByteCoding
import RedisFromScratch.EngineTypes

/-!
The binary encoding shared by the engine's files: length-prefixed byte strings
and the layout of one entry, which the log and the SSTables have in common. The
cursor reads a varint with 64-bit shifts, so it accepts more than it should,
but everything the encoder writes it reads back exactly.
-/
namespace RedisFromScratch.EngineCoding

open ByteStrings ByteCoding EngineTypes

def putBytes (b : Bytes) : Bytes := uvarint b.length ++ b

def encodeEntry (key : Bytes) : Entry → Bytes
  | .delete => putBytes key ++ [1]
  | .put r => putBytes key ++ 0 :: (varint r.expireAt ++ putBytes r.value)

/-- Read a varint, having read `i` bytes worth `v` already. A shift loses what
does not fit 64 bits. -/
def getUvarint : ℕ → ℕ → Bytes → Option (ℕ × Bytes)
  | _, _, [] => none
  | i, v, b :: rest =>
      if i = 10 then none
      else if b < 128 then
        if v + b.toNat * 2 ^ (7 * i) % 2 ^ 64 < 2 ^ 64 then
          some (v + b.toNat * 2 ^ (7 * i) % 2 ^ 64, rest)
        else none
      else getUvarint (i + 1) (v + (b.toNat - 128) * 2 ^ (7 * i) % 2 ^ 64) rest

def getVarint (d : Bytes) : Option (ℤ × Bytes) :=
  (getUvarint 0 0 d).map (fun r => (unzigzag r.1, r.2))

def getBytes (d : Bytes) : Option (Bytes × Bytes) :=
  match getUvarint 0 0 d with
  | none => none
  | some (n, rest) => if rest.length < n then none else some (rest.take n, rest.drop n)

def decodeEntry (d : Bytes) : Option ((Bytes × Entry) × Bytes) :=
  match getBytes d with
  | none => none
  | some (_, []) => none
  | some (key, tag :: p) =>
      if tag = 1 then some ((key, .delete), p)
      else if tag = 0 then
        match getVarint p with
        | none => none
        | some (exp, q) => (getBytes q).map (fun r => ((key, .put ⟨r.1, exp⟩), r.2))
      else none

/-- What a strict reader accepts, the cursor reads alike. -/
theorem getUvarint_of_readUvarint {i v : ℕ} {d : Bytes} {r : ℕ × Bytes} (hi : i ≤ 10)
    (hv : v < 2 ^ (7 * i)) (h : readUvarint i v d = some r) : getUvarint i v d = some r := by
  induction d generalizing i v with
  | nil => cases h
  | cons b d ih =>
    rw [readUvarint] at h
    rw [getUvarint]
    by_cases hten : i = 10
    · rw [if_pos hten] at h
      cases h
    rw [if_neg hten] at h ⊢
    have hbyte : b.toNat < 256 := b.toNat_lt
    by_cases hlast : b < 128
    · have hsmall : b.toNat < 128 := UInt8.lt_iff_toNat_lt.mp hlast
      rw [if_pos hlast] at h ⊢
      by_cases hnine : i = 9 ∧ 1 < b
      · rw [if_pos hnine] at h
        cases h
      rw [if_neg hnine] at h
      have hsum : v + b.toNat * 2 ^ (7 * i) < 2 ^ 64 := by
        rcases Nat.lt_or_ge i 9 with hlow | hhigh
        · have hpow : (b.toNat + 1) * 2 ^ (7 * i) ≤ 128 * 2 ^ (7 * i) :=
            Nat.mul_le_mul_right _ (by omega)
          have htop : 2 ^ (7 * i) ≤ 2 ^ (7 * 8) := Nat.pow_le_pow_right (by decide) (by omega)
          rw [Nat.add_one_mul] at hpow
          omega
        · obtain rfl : i = 9 := by omega
          have hone : b.toNat ≤ 1 := by
            by_contra hmore
            exact hnine ⟨rfl, UInt8.lt_iff_toNat_lt.mpr (Nat.not_le.mp hmore)⟩
          omega
      rw [Nat.mod_eq_of_lt (by omega), if_pos hsum]
      exact h
    · rw [if_neg hlast] at h ⊢
      rcases Nat.lt_or_ge i 9 with hlow | hhigh
      · have hpart : (b.toNat - 128) * 2 ^ (7 * i) ≤ 127 * 2 ^ (7 * i) :=
          Nat.mul_le_mul_right _ (by omega)
        have htop : 2 ^ (7 * i) ≤ 2 ^ (7 * 8) := Nat.pow_le_pow_right (by decide) (by omega)
        rw [Nat.mod_eq_of_lt (by omega)]
        refine ih (by omega) ?_ h
        rw [Nat.mul_add, pow_add]
        omega
      -- a tenth byte that promises an eleventh
      · obtain rfl : i = 9 := by omega
        cases d with
        | nil => cases h
        | cons =>
          rw [readUvarint, if_pos rfl] at h
          cases h

theorem getUvarint_uvarint (n : ℕ) (rest : Bytes) (h : n < 2 ^ 64) :
    getUvarint 0 0 (uvarint n ++ rest) = some (n, rest) :=
  getUvarint_of_readUvarint (by decide) (by decide) (readUvarint_uvarint_zero n rest h)

theorem getVarint_varint (n : ℤ) (rest : Bytes) (hlow : -2 ^ 63 ≤ n) (hhigh : n < 2 ^ 63) :
    getVarint (varint n ++ rest) = some (n, rest) := by
  rw [getVarint, varint, getUvarint_uvarint _ _ (zigzag_lt hlow hhigh), Option.map_some,
    unzigzag_zigzag]

theorem getBytes_putBytes (b rest : Bytes) (h : b.length < 2 ^ 64) :
    getBytes (putBytes b ++ rest) = some (b, rest) := by
  rw [getBytes, putBytes, List.append_assoc, getUvarint_uvarint _ _ h]
  dsimp only
  rw [if_neg (by simp), List.take_left, List.drop_left]

/-- The expiry is a 64-bit integer. -/
def InRange : Entry → Prop
  | .delete => True
  | .put r => -2 ^ 63 ≤ r.expireAt ∧ r.expireAt < 2 ^ 63

theorem decodeEntry_encodeEntry {key : Bytes} {e : Entry} (hrange : InRange e)
    (hlen : (encodeEntry key e).length < 2 ^ 64) (rest : Bytes) :
    decodeEntry (encodeEntry key e ++ rest) = some ((key, e), rest) := by
  cases e with
  | delete =>
    simp only [encodeEntry, putBytes, List.length_append] at hlen
    rw [encodeEntry, List.append_assoc, decodeEntry, getBytes_putBytes key _ (by omega)]
    rfl
  | put =>
    simp only [encodeEntry, putBytes, List.length_append, List.length_cons] at hlen
    rw [encodeEntry, List.append_assoc, decodeEntry, getBytes_putBytes key _ (by omega)]
    dsimp only [List.cons_append]
    rw [if_neg (by decide), if_pos rfl, List.append_assoc,
      getVarint_varint _ _ hrange.1 hrange.2]
    dsimp only
    rw [getBytes_putBytes _ _ (by omega)]
    rfl

theorem encodeEntry_ne_nil (key : Bytes) (e : Entry) : encodeEntry key e ≠ [] := by
  cases e <;> simp [encodeEntry]

end RedisFromScratch.EngineCoding
