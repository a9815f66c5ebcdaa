import RedisFromScratch.PrefixCodes
import RedisFromScratch.SignedDecimals

/-!
The values of the reply protocol in its two dialects. A value is a line, which may
announce a payload or elements, and what it announces. No value is a proper prefix of
another one, also across the dialects, so a stream of replies has one reading.
-/
namespace RedisFromScratch.RespValues

open ByteStrings ReplyWriter SignedDecimals PrefixCodes

def NoBreak (line : Bytes) : Prop := 13 ∉ line ∧ 10 ∉ line

instance (line : Bytes) : Decidable (NoBreak line) :=
  inferInstanceAs (Decidable (13 ∉ line ∧ 10 ∉ line))

def header (t : UInt8) (n : ℤ) : Bytes := t :: appendInt n ++ crlf

/-- A complete value. An array has as many elements as it announces, a map twice as
many; only the newer dialect has maps, booleans, verbatim texts and a null of its own. -/
inductive Value : Version → Bytes → Prop
  | simple (ver : Version) (line : Bytes) (h : NoBreak line) :
      Value ver (typeSimpleString :: line ++ crlf)
  | error (ver : Version) (line : Bytes) (h : NoBreak line) :
      Value ver (typeError :: line ++ crlf)
  | integer (ver : Version) (n : ℤ) : Value ver (header typeInteger n)
  | bulk (ver : Version) (body : Bytes) :
      Value ver (header typeBulkString body.length ++ (body ++ crlf))
  | nullBulk : Value .resp2 (header typeBulkString (-1))
  | nullArray : Value .resp2 (header typeArray (-1))
  | null : Value .resp3 [95, 13, 10]
  | boolean (b : Bool) : Value .resp3 (35 :: [if b then 116 else 102] ++ crlf)
  | verbatim (format body : Bytes) (h : format.length = 3) :
      Value .resp3 (header typeVerbatim (body.length + 4 : ℕ) ++ (format ++ 58 :: body ++ crlf))
  | array (ver : Version) (items : List Bytes) (h : ∀ v ∈ items, Value ver v) :
      Value ver (header typeArray items.length ++ items.flatten)
  | map (n : ℕ) (items : List Bytes) (hn : items.length = 2 * n)
      (h : ∀ v ∈ items, Value .resp3 v) :
      Value .resp3 (header typeMap n ++ items.flatten)

/-- A value of one of the dialects. -/
def Reply (v : Bytes) : Prop := ∃ ver, Value ver v

/-- What follows the first line of a value, by the type and the line. -/
inductive Tail (t : UInt8) (line : Bytes) : Bytes → Prop
  | leaf (h : t ∉ [typeBulkString, typeVerbatim, typeArray, typeMap] ∨ Decimal line (-1)) :
      Tail t line []
  | body (n : ℕ) (ht : t = typeBulkString ∨ t = typeVerbatim) (hn : Decimal line n)
      (payload : Bytes) (hlength : payload.length = n + 2) : Tail t line payload
  | items (n k : ℕ) (ht : t = typeArray ∧ k = n ∨ t = typeMap ∧ k = 2 * n)
      (hn : Decimal line n) (vs : List Bytes) (hlength : vs.length = k)
      (h : ∀ v ∈ vs, Reply v) : Tail t line vs.flatten

theorem noBreak_appendInt (n : ℤ) : NoBreak (appendInt n) :=
  (decimal_appendInt n).no_line_break.symm

theorem header_append (t : UInt8) (n : ℤ) (tail : Bytes) :
    header t n ++ tail = t :: appendInt n ++ (crlf ++ tail) := List.append_assoc _ _ _

theorem Value.shape {ver : Version} {v : Bytes} (h : Value ver v) :
    ∃ t line tail, v = t :: line ++ (crlf ++ tail) ∧ NoBreak line ∧ Tail t line tail := by
  have hleaf : ∀ {t : UInt8} {line : Bytes}, NoBreak line →
      t ∉ [typeBulkString, typeVerbatim, typeArray, typeMap] ∨ Decimal line (-1) →
      ∃ t' line' tail, t :: line ++ crlf = t' :: line' ++ (crlf ++ tail) ∧ NoBreak line' ∧
        Tail t' line' tail :=
    fun hline h => ⟨_, _, [], by rw [List.append_nil], hline, .leaf h⟩
  cases h with
  | simple _ line h | error _ line h => exact hleaf h (Or.inl (by decide))
  | integer _ n => exact hleaf (noBreak_appendInt n) (Or.inl (by decide))
  | bulk _ body =>
    exact ⟨_, _, _, header_append _ _ _, noBreak_appendInt _,
      .body _ (Or.inl rfl) (decimal_appendInt _) _ (by rw [List.length_append]; rfl)⟩
  | nullBulk | nullArray => exact hleaf (noBreak_appendInt _) (Or.inr (decimal_appendInt _))
  | null => exact @hleaf 95 [] (by decide) (Or.inl (by decide))
  | boolean b =>
    have hline : NoBreak [if b then 116 else 102] := by cases b <;> decide
    exact hleaf hline (Or.inl (by decide))
  | verbatim format body h =>
    refine ⟨_, _, _, header_append _ _ _, noBreak_appendInt _,
      .body _ (Or.inr rfl) (decimal_appendInt _) _ ?_⟩
    simp only [List.length_append, List.length_cons, h, crlf, List.length_nil]
    omega
  | array _ items h =>
    exact ⟨_, _, _, header_append _ _ _, noBreak_appendInt _,
      .items _ _ (Or.inl ⟨rfl, rfl⟩) (decimal_appendInt _) items rfl (fun v hv => ⟨_, h v hv⟩)⟩
  | map n items hn h =>
    exact ⟨_, _, _, header_append _ _ _, noBreak_appendInt _,
      .items _ _ (Or.inr ⟨rfl, rfl⟩) (decimal_appendInt _) items hn (fun v hv => ⟨_, h v hv⟩)⟩

/-- Two values that agree as far as they go have the same type and first line. -/
theorem line_eq {t t' : UInt8} {line line' : Bytes} (h : NoBreak line) (h' : NoBreak line')
    {x y : Bytes} (heq : t :: line ++ (crlf ++ x) = t' :: line' ++ (crlf ++ y)) :
    t = t' ∧ line = line' ∧ x = y := by
  obtain ⟨ht, heq⟩ := List.cons.inj heq
  obtain ⟨hline, hrest⟩ := eq_of_delimited h.1 h'.1 heq
  exact ⟨ht, hline, (List.cons.inj hrest).2⟩

/-- A value is settled by its first line and by what the line announces. -/
theorem starts_of_tail {t : UInt8} {line tail : Bytes} (hline : NoBreak line)
    (h : ∀ ⦃other x y : Bytes⦄, Tail t line other → tail ++ x = other ++ y → tail = other) :
    Starts Reply (t :: line ++ (crlf ++ tail)) := by
  intro b x y hb heq
  obtain ⟨ver, hb⟩ := hb
  obtain ⟨t', line', other, rfl, hline', hother⟩ := hb.shape
  rw [List.append_assoc, List.append_assoc, List.append_assoc, List.append_assoc] at heq
  obtain ⟨rfl, rfl, hrest⟩ := line_eq hline hline' heq
  rw [h hother hrest]

theorem starts_leaf {t : UInt8} {line : Bytes} (hline : NoBreak line)
    (h : t ∉ [typeBulkString, typeVerbatim, typeArray, typeMap] ∨ Decimal line (-1)) :
    Starts Reply (t :: line ++ crlf) := by
  have hcount : ∀ n : ℕ, t ∈ [typeBulkString, typeVerbatim, typeArray, typeMap] →
      ¬ Decimal line n := by
    intro n ht hn
    rcases h with h | h
    · exact h ht
    · have := hn.unique h
      omega
  have hstarts := @starts_of_tail t line [] hline (by
    intro other x y hother _
    cases hother with
    | leaf => rfl
    | body n ht hn => exact absurd hn (hcount n (by rcases ht with rfl | rfl <;> decide))
    | items n k ht hn =>
      exact absurd hn (hcount n (by rcases ht with ⟨rfl, -⟩ | ⟨rfl, -⟩ <;> decide)))
  rwa [List.append_nil] at hstarts

theorem starts_body {t : UInt8} {n : ℕ} {payload : Bytes}
    (ht : t = typeBulkString ∨ t = typeVerbatim) (hlength : payload.length = n + 2) :
    Starts Reply (header t n ++ payload) := by
  rw [header_append]
  apply starts_of_tail (noBreak_appendInt n)
  intro other x y hother heq
  cases hother with
  | leaf h =>
    rcases h with h | h
    · exact absurd (by rcases ht with rfl | rfl <;> decide) h
    · have := (decimal_appendInt n).unique h
      omega
  | body m _ hm =>
    have hnm := (decimal_appendInt n).unique hm
    exact List.append_inj_left heq (by omega)
  | items m k hitems =>
    have hbad : t = typeArray ∨ t = typeMap := hitems.imp And.left And.left
    rcases ht with rfl | rfl
    · exact absurd hbad (by decide)
    · exact absurd hbad (by decide)

theorem starts_items {t : UInt8} {n k : ℕ} {vs : List Bytes}
    (ht : t = typeArray ∧ k = n ∨ t = typeMap ∧ k = 2 * n) (hlength : vs.length = k)
    (h : ∀ v ∈ vs, Starts Reply v) : Starts Reply (header t n ++ vs.flatten) := by
  rw [header_append]
  apply starts_of_tail (noBreak_appendInt n)
  intro other x y hother heq
  cases hother with
  | leaf hleaf =>
    rcases hleaf with hleaf | hleaf
    · exact absurd (by rcases ht with ⟨rfl, -⟩ | ⟨rfl, -⟩ <;> decide) hleaf
    · have := (decimal_appendInt n).unique hleaf
      omega
  | body m hbody =>
    rcases ht with ⟨rfl, -⟩ | ⟨rfl, -⟩
    · exact absurd hbody (by decide)
    · exact absurd hbody (by decide)
  | items m j hitems hm us hus hreply =>
    have hnm := (decimal_appendInt n).unique hm
    have hsame : k = j := by
      rcases ht with ⟨rfl, hk⟩ | ⟨rfl, hk⟩
      · rcases hitems with ⟨-, hj⟩ | ⟨hbad, -⟩
        · omega
        · exact absurd hbad (by decide)
      · rcases hitems with ⟨hbad, -⟩ | ⟨-, hj⟩
        · exact absurd hbad (by decide)
        · omega
    rw [(eq_of_flatten_append h hreply (by omega) heq).1]

/-- No value is a proper prefix of another one, whatever their dialects are. -/
theorem prefixFree_reply : PrefixFree Reply := by
  rintro v ⟨ver, hv⟩
  induction hv with
  | simple _ line h | error _ line h => exact starts_leaf h (Or.inl (by decide))
  | integer _ n => exact starts_leaf (noBreak_appendInt n) (Or.inl (by decide))
  | bulk => exact starts_body (Or.inl rfl) (by rw [List.length_append]; rfl)
  | nullBulk | nullArray => exact starts_leaf (noBreak_appendInt _) (Or.inr (decimal_appendInt _))
  | null => exact @starts_leaf 95 [] (by decide) (Or.inl (by decide))
  | boolean b => exact starts_leaf (by cases b <;> decide) (Or.inl (by decide))
  | verbatim format body h =>
    apply starts_body (Or.inr rfl)
    simp only [List.length_append, List.length_cons, h, crlf, List.length_nil]
    omega
  | array _ items _ ih => exact starts_items (Or.inl ⟨rfl, rfl⟩) rfl ih
  | map n items hn _ ih => exact starts_items (Or.inr ⟨rfl, rfl⟩) hn ih

theorem not_reply_nil : ¬ Reply [] := by
  rintro ⟨ver, h⟩
  obtain ⟨t, line, tail, heq, -⟩ := h.shape
  cases heq

/-- A stream of replies has one reading. -/
theorem replies_unique {vs us : List Bytes} (hv : ∀ v ∈ vs, Reply v) (hu : ∀ u ∈ us, Reply u)
    (heq : vs.flatten = us.flatten) : vs = us :=
  prefixFree_reply.flatten_inj not_reply_nil hv hu heq

end RedisFromScratch.RespValues
