import RedisFromScratch.CommandContext
import RedisFromScratch.RespValues

/-!
Counting the values a handler writes. A program writes so many complete values when
what it gives to the reply writer is that many values of the writer's dialect one
after another; a header followed by the elements it announces is one value again.
-/
namespace RedisFromScratch.ReplyCounts

open ByteStrings ReplyWriter StatePrograms CommandContext RespValues

variable {E : Env} {α β : Type}

def opBytes (ops : List WriterOp) : Bytes := ops.flatMap WriterOp.bytes

/-- Everything that was given to the reply writer. -/
def outBytes (w : World E) : Bytes := opBytes w.out

theorem opBytes_append (xs ys : List WriterOp) :
    opBytes (xs ++ ys) = opBytes xs ++ opBytes ys := List.flatMap_append

section Values

theorem noBreak_sanitizeLine (s : Bytes) : NoBreak (sanitizeLine s) := by
  have hmem : ∀ b ∈ sanitizeLine s, b ≠ 13 ∧ b ≠ 10 := by
    intro b hb
    obtain ⟨c, -, rfl⟩ := List.mem_map.mp hb
    split
    · decide
    · rename_i hc
      exact ⟨fun h => hc (Or.inl h), fun h => hc (Or.inr h)⟩
  exact ⟨fun h => (hmem 13 h).1 rfl, fun h => (hmem 10 h).2 rfl⟩

theorem opBytes_header (t : UInt8) (n : ℤ) : opBytes (writeHeader t n) = header t n :=
  List.append_nil _

theorem value_simpleString (ver : Version) {s : Bytes} (h : NoBreak s) :
    Value ver (opBytes (writeSimpleString s)) := .simple ver s h

theorem value_error (ver : Version) (msg : Bytes) : Value ver (opBytes (writeError msg)) :=
  .error ver _ (noBreak_sanitizeLine msg)

theorem value_int (ver : Version) (n : ℤ) : Value ver (opBytes (writeInt n)) := by
  rw [writeInt, opBytes_header]
  exact .integer ver n

theorem value_null (ver : Version) : Value ver (opBytes (writeNull ver)) := by
  cases ver with
  | resp2 => exact .nullBulk
  | resp3 => exact .null

theorem value_bulkString (ver : Version) (s : Bytes) :
    Value ver (opBytes (writeBulkString s)) := by
  rw [writeBulkString, opBytes_append, opBytes_header]
  exact .bulk ver s

theorem value_bulk (ver : Version) (b : Option Bytes) :
    Value ver (opBytes (writeBulk ver b)) := by
  cases b with
  | none => exact value_null ver
  | some s => exact value_bulkString ver s

theorem value_bool (ver : Version) (b : Bool) : Value ver (opBytes (writeBool ver b)) := by
  cases ver with
  | resp2 => exact value_int .resp2 _
  | resp3 => cases b with
    | false => exact .boolean false
    | true => exact .boolean true

end Values

/-- What a program that has nothing to do with the reply writer leaves alone. -/
def SameReply (w w' : World E) : Prop := w'.out = w.out ∧ w'.ver = w.ver

def Silent (m : M E α) : Prop := Keeps SameReply m

/-- So many values of the writer's dialect, which stays what it is. -/
def Writes (n : ℕ) (m : M E α) : Prop := Ensures (fun w _ w' => w'.ver = w.ver ∧
  ∃ vs : List Bytes, vs.length = n ∧ (∀ v ∈ vs, Value w.ver v) ∧
    outBytes w' = outBytes w ++ vs.flatten) m

/-- One value, of the dialect the writer is left with. -/
def Replies (m : M E α) : Prop := Ensures (fun w _ w' =>
  ∃ v, Value w'.ver v ∧ outBytes w' = outBytes w ++ v) m

section Silent

theorem onStore_silent (f : E.Store → α × E.Store) : Silent (onStore f) :=
  Ensures.acting (fun _ => ⟨rfl, rfl⟩)

theorem onAmbient_silent (f : E.Ambient → α × E.Ambient) : Silent (onAmbient f) :=
  Ensures.acting (fun _ => ⟨rfl, rfl⟩)

theorem onConn_silent (f : ConnState → ConnState) : Silent (onConn (E := E) f) :=
  Ensures.changing (fun _ => ⟨rfl, rfl⟩)

theorem reading_silent (f : World E → α) : Silent (reading f) :=
  Ensures.reading (fun _ => ⟨rfl, rfl⟩)

theorem pure_silent (a : α) : Silent (pure a : M E α) := Ensures.pure (fun _ => ⟨rfl, rfl⟩)

theorem nowMs_silent : Silent (nowMs (E := E)) := onAmbient_silent _

theorem Silent.bind {m : M E α} {f : α → M E β} (hm : Silent m) (hf : ∀ a, Silent (f a)) :
    Silent (m >>= f) :=
  Ensures.bind hm hf (fun _ _ _ _ _ h h' => ⟨h'.1.trans h.1, h'.2.trans h.2⟩)

end Silent

namespace Writes

theorem silent {m : M E α} (h : Silent m) : Writes 0 m := by
  refine Ensures.mono h ?_
  rintro w a w' ⟨hout, hver⟩
  refine ⟨hver, [], rfl, by simp, ?_⟩
  rw [outBytes, hout, List.flatten_nil, List.append_nil]
  rfl

theorem pure (a : α) : Writes 0 (Pure.pure a : M E α) := silent (pure_silent a)

theorem write {f : Version → List WriterOp} (h : ∀ ver, Value ver (opBytes (f ver))) :
    Writes 1 (write (E := E) f) := by
  refine Ensures.changing ?_
  intro w
  refine ⟨rfl, [opBytes (f w.ver)], rfl, ?_, ?_⟩
  · intro v hv
    rw [List.mem_singleton.mp hv]
    exact h w.ver
  · rw [outBytes, opBytes_append, List.flatten_singleton]
    rfl

theorem bind {n k : ℕ} {m : M E α} {f : α → M E β} (hm : Writes n m)
    (hf : ∀ a, Writes k (f a)) : Writes (n + k) (m >>= f) := by
  refine Ensures.bind hm hf ?_
  rintro w a w' b w'' ⟨hver, vs, hn, hvs, hout⟩ ⟨hver', us, hk, hus, hout'⟩
  refine ⟨hver'.trans hver, vs ++ us, by rw [List.length_append, hn, hk], ?_, ?_⟩
  · intro v hv
    rcases List.mem_append.mp hv with hv | hv
    · exact hvs v hv
    · exact hver ▸ hus v hv
  · rw [hout', hout, List.flatten_append, List.append_assoc]

/-- One value and then the others. -/
theorem next {n : ℕ} {f : Version → List WriterOp} {m : M E α}
    (h : ∀ ver, Value ver (opBytes (f ver))) (hm : Writes n m) :
    Writes (n + 1) (CommandContext.write f >>= fun _ => m) := by
  rw [Nat.add_comm]
  exact bind (write h) (fun _ => hm)

/-- Something silent before. -/
theorem after {n : ℕ} {m : M E α} {f : α → M E β} (hm : Silent m) (hf : ∀ a, Writes n (f a)) :
    Writes n (m >>= f) := by
  have h := bind (silent hm) hf
  rwa [Nat.zero_add] at h

/-- A result once everything is written. -/
theorem returning {n : ℕ} {m : M E α} (hm : Writes n m) (b : β) :
    Writes n (m >>= fun _ => Pure.pure b) := bind hm (fun _ => pure b)

/-- A header and what it announces are one value. -/
theorem announced {n : ℕ} {f : Version → List WriterOp} {m : M E α} (hm : Writes n m)
    (h : ∀ ver (vs : List Bytes), vs.length = n → (∀ v ∈ vs, Value ver v) →
      Value ver (opBytes (f ver) ++ vs.flatten)) :
    Writes 1 (CommandContext.write f >>= fun _ => m) := by
  intro w b w'' hrun
  obtain ⟨hver, vs, hn, hvs, hout⟩ := hm _ b w'' hrun
  refine ⟨hver, [opBytes (f w.ver) ++ vs.flatten], rfl, ?_, ?_⟩
  · intro v hv
    rw [List.mem_singleton.mp hv]
    exact h w.ver vs hn hvs
  · rw [hout, List.flatten_singleton, outBytes, opBytes_append, List.append_assoc]
    rfl

theorem array {n : ℕ} {m : M E α} (hm : Writes n m) :
    Writes 1 (CommandContext.write (fun _ => writeArrayHeader n) >>= fun _ => m) := by
  apply announced hm
  rintro ver vs rfl hvs
  rw [writeArrayHeader, opBytes_header]
  exact .array ver vs hvs

/-- Pairs are flattened to twice as many elements in the older dialect. -/
theorem map {n : ℕ} {m : M E α} (hm : Writes (2 * n) m) :
    Writes 1 (CommandContext.write (fun ver => writeMapHeader ver n) >>= fun _ => m) := by
  apply announced hm
  intro ver vs hlength hvs
  cases ver with
  | resp2 =>
    have hcount : (n : ℤ) * 2 = vs.length := by omega
    rw [writeMapHeader, opBytes_header, hcount]
    exact .array .resp2 vs hvs
  | resp3 =>
    rw [writeMapHeader, opBytes_header]
    exact .map n vs hlength hvs

end Writes

namespace Replies

theorem of_writes {m : M E α} (h : Writes 1 m) : Replies m := by
  refine Ensures.mono h ?_
  rintro w a w' ⟨hver, vs, hlength, hvs, hout⟩
  obtain ⟨v, rfl⟩ := List.length_eq_one_iff.mp hlength
  refine ⟨v, hver ▸ hvs v List.mem_cons_self, ?_⟩
  rw [hout, List.flatten_singleton]

theorem after {m : M E α} {f : α → M E β} (hm : Silent m) (hf : ∀ a, Replies (f a)) :
    Replies (m >>= f) := by
  refine Ensures.bind hm hf ?_
  rintro w a w' b w'' ⟨hout, -⟩ ⟨v, hv, hout'⟩
  refine ⟨v, hv, ?_⟩
  rw [hout', outBytes, hout]
  rfl

/-- The dialect may change as long as nothing of the reply is written. -/
theorem after_setVersion {ver : Version} {m : M E β} (hm : Replies m) :
    Replies (setVersion ver >>= fun _ => m) := fun w b w'' hrun =>
  hm { w with ver } b w'' hrun

theorem ite {p : Prop} [Decidable p] {m m' : M E α} (h : Replies m) (h' : Replies m') :
    Replies (if p then m else m') := Ensures.ite h h'

theorem panicking : Replies (StatePrograms.panicking : M E α) := Ensures.panicking

end Replies

section Atoms

theorem reply_writes {f : Version → List WriterOp} (h : ∀ ver, Value ver (opBytes (f ver))) :
    Writes 1 (reply (E := E) f) := Writes.returning (Writes.write h) none

theorem reply_replies {f : Version → List WriterOp} (h : ∀ ver, Value ver (opBytes (f ver))) :
    Replies (reply (E := E) f) := .of_writes (reply_writes h)

@[simp] theorem simpleString_replies {s : Bytes} (h : NoBreak s) :
    Replies (simpleString (E := E) s) := reply_replies (fun ver => value_simpleString ver h)

@[simp] theorem ok_replies : Replies (ok (E := E)) := simpleString_replies (by decide)

@[simp] theorem int_replies (n : ℤ) : Replies (int (E := E) n) :=
  reply_replies (fun ver => value_int ver n)

@[simp] theorem bulk_replies (b : Option Bytes) : Replies (bulk (E := E) b) :=
  reply_replies (fun ver => value_bulk ver b)

@[simp] theorem bulkString_replies (s : Bytes) : Replies (bulkString (E := E) s) :=
  reply_replies (fun ver => value_bulkString ver s)

@[simp] theorem null_replies : Replies (null (E := E)) := reply_replies value_null

@[simp] theorem bool_replies (b : Bool) : Replies (bool (E := E) b) :=
  reply_replies (fun ver => value_bool ver b)

@[simp] theorem errCode_replies (code text : Bytes) : Replies (errCode (E := E) code text) :=
  reply_replies (fun ver => value_error ver _)

@[simp] theorem err_replies (text : Bytes) : Replies (err (E := E) text) := errCode_replies _ _

@[simp] theorem errSyntax_replies : Replies (errSyntax (E := E)) := err_replies _

@[simp] theorem errNotInteger_replies : Replies (errNotInteger (E := E)) := err_replies _

@[simp] theorem errWrongArgs_replies (c : Call) : Replies (errWrongArgs (E := E) c) :=
  err_replies _

/-- Whatever the store fails with, there is an error reply. -/
@[simp] theorem storeErr_replies (e : Err) : Replies (storeErr (E := E) e) := by
  cases e <;> exact err_replies _

end Atoms

end RedisFromScratch.ReplyCounts
