import RedisFromScratch.StoreRecords
import RedisFromScratch.SortedTables

/-!
The units of storage of the log-structured engine. A key maps to a record or
to a tombstone, and a tombstone is an answer. Two answers agree from some time
on when no reader that late can tell them apart; this is the sense in which a
compaction may drop what has expired.
-/
namespace RedisFromScratch.EngineTypes

open ByteStrings SortedTables
open StoreRecords (Record)

inductive Entry
  | put (r : Record)
  | delete
  deriving DecidableEq, Repr

def Entry.live (nowMs : ℤ) : Entry → Option Record
  | .put r => if r.Expired nowMs then none else some r
  | .delete => none

/-- A tombstone, or a record that has expired. -/
def Entry.Obsolete (nowMs : ℤ) : Entry → Prop
  | .put r => r.Expired nowMs
  | .delete => True

instance (nowMs : ℤ) (e : Entry) : Decidable (e.Obsolete nowMs) := by
  cases e <;> unfold Entry.Obsolete <;> infer_instance

theorem Entry.live_of_obsolete {e : Entry} {t now : ℤ} (h : e.Obsolete t) (hle : t ≤ now) :
    e.live now = none := by
  cases e with
  | put => exact if_pos (StoreRecords.Record.Expired.mono h hle)
  | delete => rfl

/-- What a reader at a time makes of the newest entry of a key. -/
def seen (nowMs : ℤ) (o : Option Entry) : Option Record := o.bind (Entry.live nowMs)

@[simp] theorem seen_some (nowMs : ℤ) (e : Entry) : seen nowMs (some e) = e.live nowMs := rfl

/-- No reader from `t` on can tell the two apart. -/
def Agrees (t : ℤ) (o p : Option Entry) : Prop := ∀ now, t ≤ now → seen now o = seen now p

theorem Agrees.refl (t : ℤ) (o : Option Entry) : Agrees t o o := fun _ _ => rfl

theorem Agrees.of_eq {t : ℤ} {o p : Option Entry} (h : o = p) : Agrees t o p := h ▸ .refl t o

theorem Agrees.symm {t : ℤ} {o p : Option Entry} (h : Agrees t o p) : Agrees t p o :=
  fun now hle => (h now hle).symm

theorem Agrees.trans {t : ℤ} {o p q : Option Entry} (h : Agrees t o p) (h' : Agrees t p q) :
    Agrees t o q := fun now hle => (h now hle).trans (h' now hle)

theorem Agrees.mono {t t' : ℤ} {o p : Option Entry} (h : Agrees t o p) (hle : t ≤ t') :
    Agrees t' o p := fun now hnow => h now (hle.trans hnow)

/-- A newer answer hides both. -/
theorem Agrees.under {t : ℤ} {o p : Option Entry} (h : Agrees t o p) (q : Option Entry) :
    Agrees t (q.or o) (q.or p) := by
  cases q with
  | none => simpa using h
  | some => exact .of_eq (by simp)

theorem Agrees.of_obsolete {t : ℤ} {e : Entry} (h : e.Obsolete t) : Agrees t (some e) none :=
  fun _ hle => Entry.live_of_obsolete h hle

structure Mutation where
  key : Bytes
  entry : Entry
  deriving DecidableEq, Repr

/-- The single-key writes of a batch, in order. -/
def writes (muts : List Mutation) : List (Bytes × Entry) := muts.map (fun m => (m.key, m.entry))

@[simp] theorem writes_append (a b : List Mutation) : writes (a ++ b) = writes a ++ writes b :=
  List.map_append

abbrev MemTable := Table Bytes Entry

/-- What one source answers: the outer option says whether it knows the key. -/
def answer (nowMs : ℤ) : Option Entry → Option (Option Record)
  | none => none
  | some .delete => some none
  | some (.put r) => if r.Expired nowMs then some none else some (some r)

theorem answer_eq (nowMs : ℤ) (o : Option Entry) : answer nowMs o = o.map (Entry.live nowMs) := by
  match o with
  | none => rfl
  | some .delete => rfl
  | some (.put r) => by_cases h : r.Expired nowMs <;> simp [answer, Entry.live, h]

def MemTable.lookupAt (t : MemTable) (key : Bytes) (nowMs : ℤ) : Option (Option Record) :=
  answer nowMs (t.lookup key)

end RedisFromScratch.EngineTypes
