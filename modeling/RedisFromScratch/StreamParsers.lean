import RedisFromScratch.ReaderSequences

/-!
Parsers over a buffered reader. A parser is what it asks of the reader next and
how it goes on from the answer. It can be run on a reader, or on a sequence that
is all there, where it is done, rejects what it sees, or finds the sequence too
short. The two agree: a run depends on what is ahead and not on the pieces it
comes in, and a run that what is buffered decides never calls the source.
-/
namespace RedisFromScratch.StreamParsers

open BufferedReader

variable {α ε ρ β γ : Type}

/-- `wrap` says what an error of the source becomes. -/
inductive Parser (α ε ρ β : Type)
  | pure (b : β)
  | reject (p : ρ)
  | peek (k : α → Parser α ε ρ β)
  | byte (k : α → Parser α ε ρ β)
  | slice (d : α) (wrap : ε → ε) (k : Option (List α) → Parser α ε ρ β)
  | full (n : ℕ) (wrap : ε → ε) (k : List α → Parser α ε ρ β)

namespace Parser

def bind : Parser α ε ρ β → (β → Parser α ε ρ γ) → Parser α ε ρ γ
  | .pure b, f => f b
  | .reject p, _ => .reject p
  | .peek k, f => .peek (fun x => (k x).bind f)
  | .byte k, f => .byte (fun x => (k x).bind f)
  | .slice d wrap k, f => .slice d wrap (fun x => (k x).bind f)
  | .full n wrap k, f => .full n wrap (fun x => (k x).bind f)

instance : Monad (Parser α ε ρ) where
  pure := .pure
  bind := .bind

end Parser

/-- Peek(1). -/
def peekByte : Parser α ε ρ α := .peek .pure

def readByte : Parser α ε ρ α := .byte .pure

def readSlice (d : α) (wrap : ε → ε) : Parser α ε ρ (Option (List α)) := .slice d wrap .pure

def readFull (n : ℕ) (wrap : ε → ε) : Parser α ε ρ (List α) := .full n wrap .pure

inductive Outcome (ε ρ β : Type)
  | ok (b : β)
  | failed (e : ε)
  | rejected (p : ρ)
  | blocked

def Outcome.map (f : β → γ) : Outcome ε ρ β → Outcome ε ρ γ
  | .ok b => .ok (f b)
  | .failed e => .failed e
  | .rejected p => .rejected p
  | .blocked => .blocked

theorem Outcome.map_eq_ok_iff {f : β → γ} {out : Outcome ε ρ β} {c : γ} :
    out.map f = .ok c ↔ ∃ b, out = .ok b ∧ f b = c := by
  cases out <;> simp [map]

/-- Go on with the answer of an operation, if there is one. -/
def andThen (wrap : ε → ε) (out : Got ε γ × Reader α ε)
    (f : γ → Reader α ε → Outcome ε ρ β × Reader α ε) : Outcome ε ρ β × Reader α ε :=
  match out with
  | (.ok b, r) => f b r
  | (.failed e, r) => (.failed (wrap e), r)
  | (.blocked, r) => (.blocked, r)

def Parser.run [DecidableEq α] : Parser α ε ρ β → Reader α ε → Outcome ε ρ β × Reader α ε
  | .pure b, r => (.ok b, r)
  | .reject p, r => (.rejected p, r)
  | .peek k, r => andThen id r.peek (fun x r' => (k x).run r')
  | .byte k, r => andThen id r.readByte (fun x r' => (k x).run r')
  | .slice d wrap k, r => andThen wrap (r.readSlice d) (fun x r' => (k x).run r')
  | .full n wrap k, r => andThen wrap (r.readFull n) (fun x r' => (k x).run r')

/-- What a parser makes of a sequence that is all there. -/
inductive Parsed (α ρ β : Type)
  | done (b : β) (rest : List α)
  | rejected (p : ρ)
  | short

def Parsed.bind : Parsed α ρ β → (β → List α → Parsed α ρ γ) → Parsed α ρ γ
  | .done b rest, f => f b rest
  | .rejected p, _ => .rejected p
  | .short, _ => .short

/-- Too short for an operation is too short for the parser. -/
def Parsed.given : Option (β × List α) → Parsed α ρ β
  | some (b, rest) => .done b rest
  | none => .short

def Parser.parse [DecidableEq α] (size : ℕ) : Parser α ε ρ β → List α → Parsed α ρ β
  | .pure b, s => .done b s
  | .reject p, _ => .rejected p
  | .peek k, s => (Parsed.given (seeItem s)).bind (fun x rest => (k x).parse size rest)
  | .byte k, s => (Parsed.given (takeItem s)).bind (fun x rest => (k x).parse size rest)
  | .slice d _ k, s =>
      (Parsed.given (takeLine size d s)).bind (fun x rest => (k x).parse size rest)
  | .full n _ k, s => (Parsed.given (takeFull n s)).bind (fun x rest => (k x).parse size rest)

@[simp] theorem Parsed.bind_done (b : β) (rest : List α) (f : β → List α → Parsed α ρ γ) :
    (Parsed.done b rest).bind f = f b rest := rfl

theorem Parsed.bind_assoc {δ : Type} (x : Parsed α ρ β) (f : β → List α → Parsed α ρ γ)
    (g : γ → List α → Parsed α ρ δ) :
    (x.bind f).bind g = x.bind (fun b rest => (f b rest).bind g) := by
  cases x <;> rfl

theorem Parsed.given_bind_done (x : Option (β × List α)) :
    ((Parsed.given x).bind fun b rest => .done b rest : Parsed α ρ β) = .given x := by
  cases x <;> rfl

namespace Parser

variable [DecidableEq α] (size : ℕ)

theorem parse_bind (p : Parser α ε ρ β) (f : β → Parser α ε ρ γ) (s : List α) :
    (p >>= f).parse size s = (p.parse size s).bind (fun b rest => (f b).parse size rest) := by
  change (p.bind f).parse size s = _
  induction p generalizing s with
  | pure | reject => rfl
  | peek k ih | byte k ih | slice d wrap k ih | full n wrap k ih =>
    rw [bind, parse, parse, Parsed.bind_assoc]
    congr 1
    funext x rest
    exact ih x rest

@[simp] theorem parse_pure (b : β) (s : List α) :
    (Pure.pure b : Parser α ε ρ β).parse size s = .done b s := rfl

@[simp] theorem parse_readByte (s : List α) :
    (readByte : Parser α ε ρ α).parse size s = .given (takeItem s) :=
  Parsed.given_bind_done _

@[simp] theorem parse_readSlice (d : α) (wrap : ε → ε) (s : List α) :
    (readSlice d wrap : Parser α ε ρ _).parse size s = .given (takeLine size d s) :=
  Parsed.given_bind_done _

@[simp] theorem parse_readFull (n : ℕ) (wrap : ε → ε) (s : List α) :
    (readFull n wrap : Parser α ε ρ _).parse size s = .given (takeFull n s) :=
  Parsed.given_bind_done _

end Parser

/-- The run ends as the parser does on what is ahead. If that is too short, the
source fails or never answers. -/
def Agrees (size : ℕ) (out : Outcome ε ρ β × Reader α ε) : Parsed α ρ β → Prop
  | .done b rest => out.1 = .ok b ∧ out.2.ahead = rest ∧ out.2.size = size
  | .rejected p => out.1 = .rejected p
  | .short => (∃ e, out.1 = .failed e) ∨ out.1 = .blocked

/-- The run ends as the parser does on what is buffered, taking it from there. -/
def AgreesFromBuffer (r : Reader α ε) (out : Outcome ε ρ β × Reader α ε) : Parsed α ρ β → Prop
  | .done b rest => ∃ n, out = (.ok b, r.drop n) ∧ rest = r.buf.drop n
  | .rejected p => ∃ n, out = (.rejected p, r.drop n)
  | .short => True

theorem Agrees.andThen {size : ℕ} {out : Got ε γ × Reader α ε} {given : Option (γ × List α)}
    (h : Delivers size out given) (wrap : ε → ε)
    {f : γ → Reader α ε → Outcome ε ρ β × Reader α ε} {g : γ → List α → Parsed α ρ β}
    (hnext : ∀ x r, r.size = size → Agrees size (f x r) (g x r.ahead)) :
    Agrees size (andThen wrap out f) ((Parsed.given given).bind g) := by
  rcases out with ⟨got, r⟩
  rcases given with _ | ⟨x, rest⟩
  · cases got with
    | ok x => exact absurd rfl (h x)
    | failed e => exact Or.inl ⟨wrap e, rfl⟩
    | blocked => exact Or.inr rfl
  · obtain ⟨hok, hahead, hsize⟩ := h
    subst hok
    rw [← hahead]
    exact hnext x r hsize

theorem AgreesFromBuffer.andThen {r : Reader α ε} {out : Got ε γ × Reader α ε}
    {given : Option (γ × List α)} (h : FromBuffer r out given) (wrap : ε → ε)
    {f : γ → Reader α ε → Outcome ε ρ β × Reader α ε} {g : γ → List α → Parsed α ρ β}
    (hnext : ∀ x n, AgreesFromBuffer (r.drop n) (f x (r.drop n)) (g x (r.drop n).buf)) :
    AgreesFromBuffer r (andThen wrap out f) ((Parsed.given given).bind g) := by
  rcases given with _ | ⟨x, rest⟩
  · trivial
  · obtain ⟨n, rfl, rfl⟩ := h
    have hafter := hnext x n
    change AgreesFromBuffer (r.drop n) (f x (r.drop n)) (g x (r.buf.drop n)) at hafter
    change AgreesFromBuffer r (f x (r.drop n)) (g x (r.buf.drop n))
    cases hg : g x (r.buf.drop n) with
    | done =>
      rw [hg] at hafter
      obtain ⟨m, hout, hrest⟩ := hafter
      refine ⟨n + m, ?_, ?_⟩
      · rw [hout, Reader.drop_drop]
      · rw [hrest, ← List.drop_drop]
        rfl
    | rejected =>
      rw [hg] at hafter
      obtain ⟨m, hout⟩ := hafter
      exact ⟨n + m, by rw [hout, Reader.drop_drop]⟩
    | short => trivial

variable [DecidableEq α]

/-- A run depends on what is ahead only. -/
theorem run_agrees (p : Parser α ε ρ β) {size : ℕ} (r : Reader α ε) (hsize : r.size = size) :
    Agrees size (p.run r) (p.parse size r.ahead) := by
  induction p generalizing r with
  | pure => exact ⟨rfl, rfl, hsize⟩
  | reject => rfl
  | peek k ih => exact .andThen (hsize ▸ r.peek_delivers) id ih
  | byte k ih => exact .andThen (hsize ▸ r.readByte_delivers) id ih
  | slice d wrap k ih => exact .andThen (hsize ▸ r.readSlice_delivers d) wrap ih
  | full n wrap k ih => exact .andThen (hsize ▸ r.readFull_delivers n) wrap ih

/-- A run that what is buffered decides leaves the source alone. -/
theorem run_fromBuffer (p : Parser α ε ρ β) {size : ℕ} (r : Reader α ε) (hsize : r.size = size) :
    AgreesFromBuffer r (p.run r) (p.parse size r.buf) := by
  induction p generalizing r with
  | pure => exact ⟨0, rfl, rfl⟩
  | reject => exact ⟨0, rfl⟩
  | peek k ih => exact .andThen r.peek_fromBuffer id (fun x n => ih x (r.drop n) hsize)
  | byte k ih => exact .andThen r.readByte_fromBuffer id (fun x n => ih x (r.drop n) hsize)
  | slice d wrap k ih =>
    exact .andThen (hsize ▸ r.readSlice_fromBuffer d) wrap (fun x n => ih x (r.drop n) hsize)
  | full n wrap k ih =>
    exact .andThen (r.readFull_fromBuffer n) wrap (fun x n => ih x (r.drop n) hsize)

/-- A run returns exactly what the parser makes of what is ahead. -/
theorem run_ok_iff (p : Parser α ε ρ β) (r : Reader α ε) (b : β) (rest : List α) :
    (p.run r).1 = .ok b ∧ (p.run r).2.ahead = rest ↔ p.parse r.size r.ahead = .done b rest := by
  have h := run_agrees p r rfl
  constructor
  · rintro ⟨hok, hahead⟩
    cases hparse : p.parse r.size r.ahead with
    | done =>
      rw [hparse] at h
      rw [← hahead, h.2.1, Outcome.ok.inj (h.1.symm.trans hok)]
    | rejected =>
      rw [hparse] at h
      cases h.symm.trans hok
    | short =>
      rw [hparse] at h
      rcases h with ⟨e, h⟩ | h <;> cases h.symm.trans hok
  · intro hparse
    rw [hparse] at h
    exact ⟨h.1, h.2.1⟩

end RedisFromScratch.StreamParsers
