import RedisFromScratch.LogRecords
import RedisFromScratch.SliceDecoders

/-!
The payload decoders of the segmented log, slice by slice. No slice expression leaves
its slice, whatever the bytes are, so no decoder panics. Each takes what its encoder has
written and nothing else. The room a batch is given is the count its bytes announce,
which is checked against a fixed bound and not against the bytes that are there.
-/
namespace RedisFromScratch.PayloadDecoders

open ByteStrings ByteCoding StoreRecords SliceDecoders
open LogRecords hiding takeBytes takeRecord decodePut decodeDelete decodeMutation decodeMutations
  decodeBatch

section Varints

/-- What a varint is read from, and what is left. -/
theorem readUvarint_eq_append {i x : ℕ} {p : Bytes} {n : ℕ} {q : Bytes}
    (h : readUvarint i x p = some (n, q)) : ∃ u, p = u ++ q := by
  fun_induction readUvarint i x p with
  | case1 | case2 | case3 => cases h
  | case4 i x b =>
    cases h
    exact ⟨[b], rfl⟩
  | case5 i x b rest _ _ ih =>
    obtain ⟨u, rfl⟩ := ih h
    exact ⟨b :: u, rfl⟩

theorem readUvarint_extends (i x : ℕ) : Extends (readUvarint i x) := by
  intro p n q h t
  fun_induction readUvarint i x p with
  | case1 | case2 | case3 => cases h
  | case4 i x b rest hi hb hlast =>
    cases h
    simp only [List.cons_append, readUvarint, if_neg hi, if_pos hb, if_neg hlast]
  | case5 i x b rest hi hb ih =>
    simp only [List.cons_append, readUvarint, if_neg hi, if_neg hb]
    exact ih h

theorem readVarint_extends : Extends readVarint := (readUvarint_extends 0 0).map unzigzag

/-- binary.Uvarint: the number and how many bytes it takes. -/
def uvarintAt (p : Bytes) : Option (ℕ × ℕ) :=
  (readUvarint 0 0 p).map fun r => (r.1, p.length - r.2.length)

/-- binary.Varint. -/
def varintAt (p : Bytes) : Option (ℤ × ℕ) :=
  (readVarint p).map fun r => (r.1, p.length - r.2.length)

/-- The slice behind a varint is the rest of it. -/
theorem sliceFrom_suffix {u q : Bytes} :
    sliceFrom (u ++ q) ((u ++ q).length - q.length) = .ok q := by
  have hlen : (u ++ q).length - q.length = u.length := by
    rw [List.length_append]
    omega
  rw [hlen, sliceFrom_of_le (by rw [List.length_append]; omega), List.drop_left]

theorem uvarintAt_bind {α : Type} (p : Bytes) (f : ℕ → Bytes → Decoded α) :
    (match uvarintAt p with
      | none => .corrupt
      | some (n, adv) => (sliceFrom p adv).bind (f n)) =
      (Decoded.ofOption (readUvarint 0 0 p)).bind fun r => f r.1 r.2 := by
  cases hread : readUvarint 0 0 p with
  | none => simp [uvarintAt, hread, Decoded.ofOption]
  | some =>
    obtain ⟨u, rfl⟩ := readUvarint_eq_append hread
    simp only [uvarintAt, hread, Option.map_some, sliceFrom_suffix, Decoded.ofOption,
      Decoded.ok_bind]

theorem varintAt_bind {α : Type} (p : Bytes) (f : ℤ → Bytes → Decoded α) :
    (match varintAt p with
      | none => .corrupt
      | some (n, adv) => (sliceFrom p adv).bind (f n)) =
      (Decoded.ofOption (readVarint p)).bind fun r => f r.1 r.2 := by
  cases hread : readVarint p with
  | none => simp [varintAt, hread, Decoded.ofOption]
  | some =>
    obtain ⟨r', hr', rfl⟩ := Option.map_eq_some_iff.mp hread
    obtain ⟨u, rfl⟩ := readUvarint_eq_append hr'
    simp only [varintAt, hread, Option.map_some, sliceFrom_suffix, Decoded.ofOption,
      Decoded.ok_bind]

end Varints

def takeBytes (p : Bytes) : Decoded (Bytes × Bytes) :=
  match uvarintAt p with
  | none => .corrupt
  | some (n, adv) => (sliceFrom p adv).bind fun p =>
      if p.length < n then .corrupt
      else (sliceTo p n).bind fun val => (sliceFrom p n).bind fun rest => .ok (val, rest)

/-- The expiry and the value, which a put and a batch read alike. -/
def takeRecord (p : Bytes) : Decoded (Record × Bytes) :=
  match varintAt p with
  | none => .corrupt
  | some (exp, adv) => (sliceFrom p adv).bind fun p =>
      (takeBytes p).bind fun r => .ok (⟨r.1, exp⟩, r.2)

def decodePut (p : Bytes) : Decoded (Bytes × Record) :=
  (takeBytes p).bind fun k => (takeRecord k.2).bind fun r =>
    if r.2 = [] then .ok (k.1, r.1) else .corrupt

def decodeDelete (p : Bytes) : Decoded Bytes :=
  (takeBytes p).bind fun k => if k.2 = [] then .ok k.1 else .corrupt

/-- One turn of the loop. -/
def decodeMutation (p : Bytes) : Decoded (Mutation × Bytes) :=
  if p.length = 0 then .corrupt
  else (index p 0).bind fun sub => (sliceFrom p 1).bind fun p =>
    (takeBytes p).bind fun k =>
      if sub = recDelete then .ok (⟨k.1, Record.zero, true⟩, k.2)
      else if sub = recPut then (takeRecord k.2).bind fun r => .ok (⟨k.1, r.1, false⟩, r.2)
      else .corrupt

def decodeMutations : ℕ → Bytes → Decoded (List Mutation)
  | 0, p => if p = [] then .ok [] else .corrupt
  | n + 1, p => (decodeMutation p).bind fun m =>
      (decodeMutations n m.2).bind fun ms => .ok (m.1 :: ms)

/-- The room that is reserved for mutations, and the mutations. -/
def decodeBatch (p : Bytes) : ℕ × Decoded (List Mutation) :=
  match uvarintAt p with
  | none => (0, .corrupt)
  | some (n, adv) =>
      if maxRecordSize < n then (0, .corrupt) else (n, (sliceFrom p adv).bind (decodeMutations n))

section NoPanic

theorem takeBytes_eq (p : Bytes) : takeBytes p = .ofOption (LogRecords.takeBytes p) := by
  unfold takeBytes LogRecords.takeBytes
  rw [uvarintAt_bind]
  cases readUvarint 0 0 p with
  | none => rfl
  | some r =>
    simp only [Decoded.ofOption, Decoded.ok_bind]
    split
    · rfl
    · rename_i hlen
      rw [sliceTo_of_le (by omega), sliceFrom_of_le (by omega)]
      rfl

theorem takeRecord_eq (p : Bytes) : takeRecord p = .ofOption (LogRecords.takeRecord p) := by
  unfold takeRecord LogRecords.takeRecord
  rw [varintAt_bind]
  cases readVarint p with
  | none => rfl
  | some r =>
    simp only [Decoded.ofOption, Decoded.ok_bind, takeBytes_eq]
    cases LogRecords.takeBytes r.2 <;> rfl

theorem decodePut_eq (p : Bytes) : decodePut p = .ofOption (LogRecords.decodePut p) := by
  unfold decodePut LogRecords.decodePut
  rw [takeBytes_eq]
  cases LogRecords.takeBytes p with
  | none => rfl
  | some k =>
    simp only [Decoded.ofOption, Decoded.ok_bind, takeRecord_eq]
    cases LogRecords.takeRecord k.2 with
    | none => rfl
    | some =>
      simp only [Decoded.ok_bind]
      split <;> rfl

theorem decodeDelete_eq (p : Bytes) : decodeDelete p = .ofOption (LogRecords.decodeDelete p) := by
  unfold decodeDelete LogRecords.decodeDelete
  rw [takeBytes_eq]
  cases LogRecords.takeBytes p with
  | none => rfl
  | some =>
    simp only [Decoded.ofOption, Decoded.ok_bind]
    split <;> rfl

theorem decodeMutation_eq (p : Bytes) :
    decodeMutation p = .ofOption (LogRecords.decodeMutation p) := by
  cases p with
  | nil => rfl
  | cons sub p =>
    have hhead : index (sub :: p) 0 = .ok sub := rfl
    have htail : sliceFrom (sub :: p) 1 = .ok p := sliceFrom_of_le (by simp)
    rw [decodeMutation, LogRecords.decodeMutation, if_neg (by simp), hhead, Decoded.ok_bind, htail,
      Decoded.ok_bind, takeBytes_eq]
    cases LogRecords.takeBytes p with
    | none => rfl
    | some k =>
      simp only [Decoded.ofOption, Decoded.ok_bind, takeRecord_eq]
      split_ifs
      · rfl
      · cases LogRecords.takeRecord k.2 <;> rfl
      · rfl

theorem decodeMutations_eq (n : ℕ) (p : Bytes) :
    decodeMutations n p = .ofOption (LogRecords.decodeMutations n p) := by
  induction n generalizing p with
  | zero =>
    unfold decodeMutations LogRecords.decodeMutations
    split <;> rfl
  | succ n ih =>
    rw [decodeMutations, LogRecords.decodeMutations, decodeMutation_eq]
    cases LogRecords.decodeMutation p with
    | none => rfl
    | some m =>
      simp only [Decoded.ofOption, Decoded.ok_bind, ih]
      cases LogRecords.decodeMutations n m.2 <;> rfl

theorem decodeBatch_eq (p : Bytes) :
    (decodeBatch p).2 = .ofOption (LogRecords.decodeBatch p) := by
  unfold decodeBatch LogRecords.decodeBatch
  cases hread : readUvarint 0 0 p with
  | none => simp [uvarintAt, hread, Decoded.ofOption]
  | some =>
    obtain ⟨u, rfl⟩ := readUvarint_eq_append hread
    simp only [uvarintAt, hread, Option.map_some]
    split
    · rfl
    · rw [sliceFrom_suffix, Decoded.ok_bind, decodeMutations_eq]

end NoPanic

section Exact

theorem takeBytes_extends : Extends LogRecords.takeBytes := by
  have hbody : ∀ n : ℕ, Extends fun q : Bytes =>
      if q.length < n then none else some (q.take n, q.drop n) := by
    intro n q val rest h t
    dsimp only at h ⊢
    split at h
    · cases h
    · rename_i hlen
      cases h
      rw [if_neg (by rw [List.length_append]; omega), List.take_append_of_le_length (by omega),
        List.drop_append_of_le_length (by omega)]
  intro p a q h t
  have hall := (readUvarint_extends 0 0).bind hbody p a q
  have heq : ∀ p, LogRecords.takeBytes p = (readUvarint 0 0 p).bind fun r =>
      if r.2.length < r.1 then none else some (r.2.take r.1, r.2.drop r.1) := by
    intro p
    unfold LogRecords.takeBytes
    cases readUvarint 0 0 p <;> rfl
  rw [heq] at h ⊢
  exact hall h t

theorem takeRecord_extends : Extends LogRecords.takeRecord := by
  have heq : ∀ p, LogRecords.takeRecord p = (readVarint p).bind fun r =>
      (LogRecords.takeBytes r.2).map fun v => (⟨v.1, r.1⟩, v.2) := by
    intro p
    unfold LogRecords.takeRecord
    cases readVarint p <;> rfl
  intro p a q h t
  rw [heq] at h ⊢
  exact readVarint_extends.bind
    (fun exp => takeBytes_extends.map fun v => (⟨v, exp⟩ : Record)) p a q h t

/-- What a put takes, whatever follows. -/
def takePut (p : Bytes) : Option ((Bytes × Record) × Bytes) :=
  (LogRecords.takeBytes p).bind fun k => (LogRecords.takeRecord k.2).map fun r =>
    ((k.1, r.1), r.2)

theorem takePut_extends : Extends takePut :=
  takeBytes_extends.bind fun key => takeRecord_extends.map fun r => (key, r)

theorem decodePut_eq_whole (p : Bytes) : LogRecords.decodePut p = whole takePut p := by
  unfold LogRecords.decodePut whole takePut
  cases LogRecords.takeBytes p with
  | none => rfl
  | some k =>
    simp only [Option.bind_some]
    cases LogRecords.takeRecord k.2 with
    | none => rfl
    | some r =>
      obtain ⟨rec, rest⟩ := r
      cases rest <;> rfl

theorem decodeDelete_eq_whole (p : Bytes) :
    LogRecords.decodeDelete p = whole LogRecords.takeBytes p := by
  unfold LogRecords.decodeDelete whole
  cases LogRecords.takeBytes p with
  | none => rfl
  | some k =>
    obtain ⟨key, rest⟩ := k
    cases rest <;> rfl

theorem decodeMutation_extends : Extends LogRecords.decodeMutation := by
  intro p m q h t
  cases p with
  | nil => cases h
  | cons sub p =>
    rw [LogRecords.decodeMutation] at h
    rw [List.cons_append, LogRecords.decodeMutation]
    cases hkey : LogRecords.takeBytes p with
    | none =>
      rw [hkey] at h
      cases h
    | some k =>
      rw [takeBytes_extends p k.1 k.2 hkey t]
      rw [hkey] at h
      split_ifs at h ⊢
      · cases h
        rfl
      · exact takeRecord_extends.map (fun r => (⟨k.1, r, false⟩ : Mutation)) k.2 m q h t

/-- What a batch of `n` mutations takes. -/
def takeMutations : ℕ → Bytes → Option (List Mutation × Bytes)
  | 0, p => some ([], p)
  | n + 1, p => (LogRecords.decodeMutation p).bind fun m =>
      (takeMutations n m.2).map fun ms => (m.1 :: ms.1, ms.2)

theorem takeMutations_extends (n : ℕ) : Extends (takeMutations n) := by
  induction n with
  | zero => exact Extends.pure []
  | succ n ih => exact decodeMutation_extends.bind fun m => ih.map fun ms => m :: ms

theorem decodeMutations_eq_whole (n : ℕ) (p : Bytes) :
    LogRecords.decodeMutations n p = whole (takeMutations n) p := by
  induction n generalizing p with
  | zero => cases p <;> rfl
  | succ n ih =>
    rw [LogRecords.decodeMutations, whole, takeMutations]
    cases LogRecords.decodeMutation p with
    | none => rfl
    | some m =>
      simp only [Option.bind_some, ih, whole]
      cases takeMutations n m.2 with
      | none => rfl
      | some ms =>
        obtain ⟨ms, rest⟩ := ms
        cases rest <;> rfl

def takeBatch (p : Bytes) : Option (List Mutation × Bytes) :=
  (readUvarint 0 0 p).bind fun r => if maxRecordSize < r.1 then none else takeMutations r.1 r.2

theorem takeBatch_extends : Extends takeBatch := by
  have hbody : ∀ n, Extends fun p => if maxRecordSize < n then none else takeMutations n p := by
    intro n p ms q h t
    dsimp only at h ⊢
    split at h
    · cases h
    · rename_i hn
      rw [if_neg hn]
      exact takeMutations_extends n p ms q h t
  exact (readUvarint_extends 0 0).bind hbody

theorem decodeBatch_eq_whole (p : Bytes) : LogRecords.decodeBatch p = whole takeBatch p := by
  unfold LogRecords.decodeBatch whole takeBatch
  cases readUvarint 0 0 p with
  | none => rfl
  | some =>
    simp only [Option.bind_some]
    split
    · rfl
    · rw [decodeMutations_eq_whole, whole]

end Exact

/-- A decoder and the output of its encoder: the data come back, and nothing but the whole
output will do. -/
structure Inverts {α : Type} (dec : Bytes → Decoded α) (enc : Bytes) (a : α) : Prop where
  same : dec enc = .ok a
  longer : ∀ s, s ≠ [] → dec (enc ++ s) = .corrupt
  shorter : ∀ t, t <+: enc → t ≠ enc → dec t = .corrupt

theorem inverts_of_whole {α : Type} {dec : Bytes → Decoded α}
    {take : Bytes → Option (α × Bytes)} (heq : ∀ p, dec p = .ofOption (whole take p))
    (htake : Extends take) {enc : Bytes} {a : α} (henc : take enc = some (a, [])) :
    Inverts dec enc a where
  same := by rw [heq, whole_eq henc]; rfl
  longer s hs := by rw [heq, whole_append htake henc hs]; rfl
  shorter t ht hne := by rw [heq, whole_prefix htake henc ht hne]; rfl

section Encoded

theorem decodePut_inverts {key : Bytes} {r : Record} (hr : Int64Range r)
    (hlen : (appendPutPayload key r).length < 2 ^ 63) :
    Inverts decodePut (appendPutPayload key r) (key, r) := by
  refine inverts_of_whole (fun p => by rw [decodePut_eq, decodePut_eq_whole]) takePut_extends ?_
  simp only [appendPutPayload, List.length_append] at hlen
  have hvalue := takeRecord_encoded r [] hr (by omega)
  rw [List.append_nil] at hvalue
  rw [takePut, appendPutPayload, takeBytes_encoded key _ (by omega), Option.bind_some, hvalue]
  rfl

theorem decodeDelete_inverts {key : Bytes} (hlen : (appendDeletePayload key).length < 2 ^ 63) :
    Inverts decodeDelete (appendDeletePayload key) key := by
  refine inverts_of_whole (fun p => by rw [decodeDelete_eq, decodeDelete_eq_whole])
    takeBytes_extends ?_
  simp only [appendDeletePayload, List.length_append] at hlen
  have hkey := takeBytes_encoded key [] (by omega)
  rwa [List.append_nil] at hkey

theorem takeMutations_encoded {muts : List Mutation} (hm : ∀ m ∈ muts, Int64Range m.record)
    (hlen : (muts.flatMap mutationPayload).length < 2 ^ 63) :
    takeMutations muts.length (muts.flatMap mutationPayload) =
      some (muts.map stripMutation, []) := by
  induction muts with
  | nil => rfl
  | cons m muts ih =>
    rw [List.flatMap_cons, List.length_append] at hlen
    have hfirst := decodeMutation_encoded m (muts.flatMap mutationPayload)
      (hm m List.mem_cons_self) (by omega)
    have hrest := ih (fun x hx => hm x (List.mem_cons_of_mem _ hx)) (by omega)
    rw [List.length_cons, takeMutations, List.flatMap_cons, hfirst, Option.bind_some, hrest]
    rfl

/-- A delete is logged without the record its mutation carried; there is room for as many
mutations as the bound allows. -/
theorem decodeBatch_inverts {muts : List Mutation} (hm : ∀ m ∈ muts, Int64Range m.record)
    (hlen : (appendBatchPayload muts).length < 2 ^ 63) (hcount : muts.length ≤ maxRecordSize) :
    Inverts (fun p => (decodeBatch p).2) (appendBatchPayload muts) (muts.map stripMutation) := by
  refine inverts_of_whole (fun p => by rw [decodeBatch_eq, decodeBatch_eq_whole])
    takeBatch_extends ?_
  simp only [appendBatchPayload, List.length_append] at hlen
  have hnumber := length_le_flatMap_mutationPayload muts
  rw [takeBatch, appendBatchPayload, readUvarint_uvarint_zero _ _ (by omega), Option.bind_some,
    if_neg (by dsimp only; omega), takeMutations_encoded hm (by omega)]

end Encoded

/-- The count at the front of the bytes is no larger than their number, or above the bound
anyway. -/
def Modest (p : Bytes) : Prop :=
  ∀ n q, readUvarint 0 0 p = some (n, q) → n ≤ p.length ∨ maxRecordSize < n

theorem reserved_le {p : Bytes} (hp : Modest p) : (decodeBatch p).1 ≤ p.length := by
  unfold decodeBatch uvarintAt
  cases hread : readUvarint 0 0 p with
  | none => exact Nat.zero_le _
  | some r =>
    rcases hp r.1 r.2 hread with hle | hlt
    · simp only [Option.map_some]
      split
      · exact Nat.zero_le _
      · exact hle
    · simp only [Option.map_some, if_pos hlt]
      exact Nat.zero_le _

end RedisFromScratch.PayloadDecoders
