import RedisFromScratch.ByteStrings

/-!
The Bloom filter of an SSTable. Building sets, for every key, the bits its
double-hashed probe sequence visits; asking visits the same bits. Bits are only
ever set, so no key that went in is ever reported absent, whatever the hash.
-/
namespace RedisFromScratch.BloomFilters

open ByteStrings

structure Bloom where
  bits : Bytes
  hashes : ℕ
  deriving DecidableEq, Repr

/-- FNV-1a with a final avalanche. -/
def hashKey (data : Bytes) : UInt64 :=
  let h : UInt64 :=
    data.foldl (fun h b => (h ^^^ b.toUInt64) * 0x1000000001b3) 0xcbf29ce484222325
  let h := (h ^^^ (h >>> 33)) * 0xff51afd7ed558ccd
  h ^^^ (h >>> 33)

/-- Start and stride of the probe sequence. -/
def seedFromHash (h : UInt64) : UInt32 × UInt32 :=
  let h2 := (h >>> 32).toUInt32
  (h.toUInt32, ((h2 <<< 15) ||| (h2 >>> 17)) ||| 1)

def probesFrom (numBits : ℕ) : ℕ → UInt32 → UInt32 → List ℕ
  | 0, _, _ => []
  | n + 1, probe, delta => probe.toNat % numBits :: probesFrom numBits n (probe + delta) delta

def probes (numBits hashes : ℕ) (h : UInt64) : List ℕ :=
  probesFrom numBits hashes (seedFromHash h).1 (seedFromHash h).2

def mask (bit : ℕ) : UInt8 := 1 <<< UInt8.ofNat (bit % 8)

def setBit (bits : Bytes) (bit : ℕ) : Bytes := bits.modify (bit / 8) (fun b => b ||| mask bit)

def IsSet (bits : Bytes) (bit : ℕ) : Prop := bits.getD (bit / 8) 0 &&& mask bit ≠ 0

instance (bits : Bytes) (bit : ℕ) : Decidable (IsSet bits bit) := by
  unfold IsSet
  infer_instance

def setAll (bits : Bytes) (l : List ℕ) : Bytes := l.foldl setBit bits

def fromHashes (hashesOfKeys : List UInt64) (bitsPerKey : ℕ) : Bloom :=
  let bitsPerKey := max bitsPerKey 1
  let numBytes := (max (hashesOfKeys.length * bitsPerKey) 64 + 7) / 8
  -- 0.69 probes a bit, computed in floating point by the source; the product is
  -- never within rounding of a whole number below the cap
  let hashes := min (max (bitsPerKey * 69 / 100) 1) 30
  ⟨hashesOfKeys.foldl (fun bits h => setAll bits (probes (numBytes * 8) hashes h))
    (List.replicate numBytes 0), hashes⟩

def Bloom.mayContain (b : Bloom) (key : Bytes) : Bool :=
  if b.bits = [] ∨ b.hashes = 0 then true
  else (probes (b.bits.length * 8) b.hashes (hashKey key)).all (fun bit => IsSet b.bits bit)

theorem mask_ne_zero (bit : ℕ) : mask bit ≠ 0 := by
  have hsmall : ∀ i < 8, (1 : UInt8) <<< UInt8.ofNat i ≠ 0 := by decide
  exact hsmall _ (Nat.mod_lt _ (by decide))

theorem or_and_eq (b c m : UInt8) : (b ||| c) &&& m = (b &&& m) ||| (c &&& m) := by
  apply UInt8.toNat_inj.mp
  simp only [UInt8.toNat_and, UInt8.toNat_or]
  exact Nat.and_or_distrib_right _ _ _

@[simp] theorem setBit_length (bits : Bytes) (bit : ℕ) :
    (setBit bits bit).length = bits.length := List.length_modify _ _ _

theorem setBit_getD (bits : Bytes) (i j : ℕ) :
    (setBit bits i).getD j 0 =
      if i / 8 = j ∧ j < bits.length then bits.getD j 0 ||| mask i else bits.getD j 0 := by
  simp only [setBit, List.getD_eq_getElem?_getD, List.getElem?_modify]
  by_cases hj : j < bits.length
  · rw [List.getElem?_eq_getElem hj]
    by_cases hi : i / 8 = j <;> simp [hi, hj]
  · rw [List.getElem?_eq_none (Nat.not_lt.mp hj)]
    simp [hj]

theorem isSet_setBit_self {bits : Bytes} {i : ℕ} (h : i < bits.length * 8) :
    IsSet (setBit bits i) i := by
  unfold IsSet
  rw [setBit_getD, if_pos ⟨rfl, Nat.div_lt_of_lt_mul (by omega)⟩, or_and_eq]
  intro hzero
  have hmask := (UInt8.or_eq_zero_iff.mp hzero).2
  rw [UInt8.and_self] at hmask
  exact mask_ne_zero i hmask

/-- Setting a bit clears none. -/
theorem IsSet.setBit {bits : Bytes} {j : ℕ} (h : IsSet bits j) (i : ℕ) :
    IsSet (setBit bits i) j := by
  unfold IsSet at *
  rw [setBit_getD]
  split
  · rw [or_and_eq]
    exact fun hzero => h (UInt8.or_eq_zero_iff.mp hzero).1
  · exact h

@[simp] theorem setAll_length (bits : Bytes) (l : List ℕ) :
    (setAll bits l).length = bits.length := by
  induction l generalizing bits with
  | nil => rfl
  | cons i l ih => exact (ih (setBit bits i)).trans (setBit_length bits i)

theorem IsSet.setAll {bits : Bytes} {j : ℕ} (h : IsSet bits j) (l : List ℕ) :
    IsSet (setAll bits l) j := by
  induction l generalizing bits with
  | nil => exact h
  | cons i l ih => exact ih (h.setBit i)

theorem isSet_setAll {bits : Bytes} {l : List ℕ} (hl : ∀ i ∈ l, i < bits.length * 8) :
    ∀ i ∈ l, IsSet (setAll bits l) i := by
  induction l generalizing bits with
  | nil => simp
  | cons j l ih =>
    intro i hi
    rcases List.mem_cons.mp hi with rfl | hi
    · exact (isSet_setBit_self (hl i List.mem_cons_self)).setAll l
    · apply ih _ i hi
      intro m hm
      rw [setBit_length]
      exact hl m (List.mem_cons_of_mem _ hm)

theorem lt_of_mem_probes {numBits : ℕ} (hpos : 0 < numBits) (n : ℕ) (h : UInt64) :
    ∀ i ∈ probes numBits n h, i < numBits := by
  have hfrom : ∀ n p d, ∀ i ∈ probesFrom numBits n p d, i < numBits := by
    intro n
    induction n with
    | zero => simp [probesFrom]
    | succ n ih =>
      intro p d i hi
      rcases List.mem_cons.mp hi with rfl | hi
      · exact Nat.mod_lt _ hpos
      · exact ih _ _ i hi
  exact hfrom n _ _

/-- Every probe of every hash that went in finds its bit set. -/
theorem isSet_build {numBits n : ℕ} {bits : Bytes} (hlen : bits.length * 8 = numBits)
    (hpos : 0 < numBits) (hs : List UInt64) :
    ∀ h ∈ hs, ∀ i ∈ probes numBits n h,
      IsSet (hs.foldl (fun bits h => setAll bits (probes numBits n h)) bits) i := by
  have hkeep : ∀ (hs : List UInt64) (bits : Bytes) (i : ℕ), IsSet bits i →
      IsSet (hs.foldl (fun bits h => setAll bits (probes numBits n h)) bits) i := by
    intro hs
    induction hs with
    | nil => exact fun _ _ h => h
    | cons h hs ih => exact fun bits i hi => ih _ i (hi.setAll _)
  induction hs generalizing bits with
  | nil => simp
  | cons h hs ih =>
    intro g hg i hi
    rcases List.mem_cons.mp hg with rfl | hg
    · subst numBits
      exact hkeep hs _ i (isSet_setAll (lt_of_mem_probes hpos n g) i hi)
    · exact ih (by simpa using hlen) g hg i hi

theorem build_length (numBits n : ℕ) (bits : Bytes) (hs : List UInt64) :
    (hs.foldl (fun bits h => setAll bits (probes numBits n h)) bits).length = bits.length := by
  induction hs generalizing bits with
  | nil => rfl
  | cons h hs ih => exact (ih _).trans (setAll_length _ _)

/-- A filter never reports a key absent that it was built from. -/
theorem mayContain_fromHashes {keys : List Bytes} {key : Bytes} (bitsPerKey : ℕ)
    (hkey : key ∈ keys) : (fromHashes (keys.map hashKey) bitsPerKey).mayContain key = true := by
  unfold Bloom.mayContain
  split
  · rfl
  rw [List.all_eq_true]
  intro i hi
  have hmem : hashKey key ∈ keys.map hashKey := List.mem_map_of_mem hkey
  simp only [fromHashes, build_length, List.length_replicate] at hi
  refine decide_eq_true (isSet_build ?_ ?_ (keys.map hashKey) _ hmem i hi)
  · rw [List.length_replicate]
  · omega

end RedisFromScratch.BloomFilters
