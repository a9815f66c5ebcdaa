import RedisFromScratch.ByteStrings

/-!
The storage boundary of internal/store: records with an absolute expiry,
mutations, the actions an update function can ask for, and the log records a
store journals. Expiry is the only way a record stops being live by itself, and
it is monotone in the clock.
-/
namespace RedisFromScratch.StoreRecords

open ByteStrings

/-- A value and its expiry in Unix milliseconds; zero means never. -/
structure Record where
  value : Bytes
  expireAt : ℤ
  deriving DecidableEq, Repr

/-- The zero value of the struct, handed to an update function on a missing key. -/
def Record.zero : Record := ⟨[], 0⟩

def Record.Expired (r : Record) (nowMs : ℤ) : Prop := r.expireAt ≠ 0 ∧ r.expireAt ≤ nowMs

instance (r : Record) (nowMs : ℤ) : Decidable (r.Expired nowMs) := by
  unfold Record.Expired
  infer_instance

def Record.Volatile (r : Record) : Prop := r.expireAt ≠ 0

instance (r : Record) : Decidable r.Volatile := by
  unfold Record.Volatile
  infer_instance

theorem Record.Expired.mono {r : Record} {now later : ℤ} (h : r.Expired now)
    (hle : now ≤ later) : r.Expired later := ⟨h.1, Int.le_trans h.2 hle⟩

/-- The record a reader sees: nothing once it has expired. -/
def live (nowMs : ℤ) : Option Record → Option Record
  | none => none
  | some r => if r.Expired nowMs then none else some r

@[simp] theorem live_none (nowMs : ℤ) : live nowMs none = none := rfl

theorem live_of_expired {r : Record} {nowMs : ℤ} (h : r.Expired nowMs) :
    live nowMs (some r) = none := if_pos h

theorem live_eq_some_iff (nowMs : ℤ) (o : Option Record) (r : Record) :
    live nowMs o = some r ↔ o = some r ∧ ¬ r.Expired nowMs := by
  cases o with
  | none => simp
  | some q =>
    by_cases hq : q.Expired nowMs
    · simp only [live, hq, if_true]
      constructor
      · intro h
        cases h
      · rintro ⟨heq, hr⟩
        cases Option.some.inj heq
        exact absurd hq hr
    · simp only [live, hq, if_false]
      constructor
      · intro heq
        cases Option.some.inj heq
        exact ⟨rfl, hq⟩
      · exact fun h => h.1

/-- Two contents that look the same now look the same at every later time. -/
theorem live_eq_mono {o p : Option Record} {now later : ℤ} (hle : now ≤ later)
    (h : live now o = live now p) : live later o = live later p := by
  cases hq : live now o with
  | some r =>
    have ho := (live_eq_some_iff now o r).mp hq
    have hp := (live_eq_some_iff now p r).mp (h ▸ hq)
    rw [ho.1, hp.1]
  | none =>
    have hgone : ∀ q : Option Record, live now q = none → live later q = none := by
      intro q hn
      cases q with
      | none => rfl
      | some r =>
        by_cases hr : r.Expired now
        · exact live_of_expired (hr.mono hle)
        · simp [live, hr] at hn
    rw [hgone o hq, hgone p (h ▸ hq)]

/-- One write of a batch. -/
structure Mutation where
  key : Bytes
  record : Record
  delete : Bool
  deriving DecidableEq, Repr

/-- What a mutation leaves at its key. -/
def Mutation.outcome (m : Mutation) : Option Record := if m.delete then none else some m.record

inductive Action
  | none
  | put
  | delete
  deriving DecidableEq, Repr

/-- An update function sees the record, or the zero record and `false`. An
error leaves the key alone. -/
abbrev UpdateFunc := Record → Bool → Except String (Record × Action)

/-- The four records a store journals. -/
inductive LogRecord
  | put (key : Bytes) (rec : Record)
  | delete (key : Bytes)
  | flushAll
  | batch (muts : List Mutation)
  deriving DecidableEq, Repr

/-- The single-key writes a log record carries out, in order. -/
def LogRecord.writes : LogRecord → List (Bytes × Option Record)
  | .put key rec => [(key, some rec)]
  | .delete key => [(key, none)]
  | .flushAll => []
  | .batch muts => muts.map (fun m => (m.key, m.outcome))

end RedisFromScratch.StoreRecords
