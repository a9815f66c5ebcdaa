import RedisFromScratch.ByteStrings
import RedisFromScratch.BufferedWriter

/-!
The reply writer of internal/resp: each reply is a short sequence of calls on a
buffered writer. Which call is used matters, because only a whole slice may
bypass an empty buffer. Every byte remembers the log record its reply
acknowledges.
-/
namespace RedisFromScratch.ReplyWriter

open ByteStrings BufferedWriter

/-- The calls a reply is made of: WriteByte, WriteString and Write. -/
inductive WriterOp
  | byte (b : UInt8)
  | str (s : Bytes)
  | raw (p : Bytes)
  deriving DecidableEq, Repr

def WriterOp.bytes : WriterOp → Bytes
  | .byte b => [b]
  | .str s => s
  | .raw p => p

def WriterOp.direct : WriterOp → Bool
  | .byte _ => false
  | .str _ => false
  | .raw _ => true

inductive Version
  | resp2
  | resp3
  deriving DecidableEq, Repr

/-- The bytes of a text of the program. -/
def ofString (s : String) : Bytes := s.toUTF8.data.toList

def crlf : Bytes := [13, 10]

def typeSimpleString : UInt8 := 43

def typeError : UInt8 := 45

def typeInteger : UInt8 := 58

def typeBulkString : UInt8 := 36

def typeArray : UInt8 := 42

def typeMap : UInt8 := 37

def typeVerbatim : UInt8 := 61

/-- Decimal text, as strconv.AppendInt writes it. -/
def appendInt (n : ℤ) : Bytes :=
  (if n < 0 then [45] else []) ++ (Nat.toDigits 10 n.natAbs).map (fun c => c.toNat.toUInt8)

def writeHeader (t : UInt8) (n : ℤ) : List WriterOp := [.raw (t :: appendInt n ++ crlf)]

def writeSimpleString (s : Bytes) : List WriterOp := [.byte typeSimpleString, .str s, .raw crlf]

/-- Line breaks inside a line reply become blanks. -/
def sanitizeLine (s : Bytes) : Bytes := s.map (fun b => if b = 13 ∨ b = 10 then 32 else b)

def writeError (msg : Bytes) : List WriterOp :=
  [.byte typeError, .str (sanitizeLine msg), .raw crlf]

def writeNull : Version → List WriterOp
  | .resp3 => [.str [95, 13, 10]]
  | .resp2 => [.str [36, 45, 49, 13, 10]]

/-- A missing slice is the null reply, an empty one is not. -/
def writeBulk (ver : Version) : Option Bytes → List WriterOp
  | none => writeNull ver
  | some b => writeHeader typeBulkString b.length ++ [.raw b, .raw crlf]

def writeInt (n : ℤ) : List WriterOp := writeHeader typeInteger n

def writeBulkString (s : Bytes) : List WriterOp :=
  writeHeader typeBulkString s.length ++ [.str s, .raw crlf]

/-- Older clients tell a missing array from a missing string. -/
def writeNullArray : Version → List WriterOp
  | .resp3 => [.str [95, 13, 10]]
  | .resp2 => [.str [42, 45, 49, 13, 10]]

def writeArrayHeader (n : ℤ) : List WriterOp := writeHeader typeArray n

/-- Pairs are announced as pairs or, in the older dialect, as twice as many elements. -/
def writeMapHeader (ver : Version) (n : ℤ) : List WriterOp :=
  match ver with
  | .resp3 => writeHeader typeMap n
  | .resp2 => writeHeader typeArray (n * 2)

def writeBool (ver : Version) (b : Bool) : List WriterOp :=
  match ver with
  | .resp3 => [.str (if b then [35, 116, 13, 10] else [35, 102, 13, 10])]
  | .resp2 => writeInt (if b then 1 else 0)

def writeVerbatim (ver : Version) (format s : Bytes) : List WriterOp :=
  if ver = .resp3 ∧ format.length = 3 then
    writeHeader typeVerbatim (s.length + 4) ++ [.str format, .byte 58, .str s, .raw crlf]
  else writeBulkString s

/-- A reply byte and the sequence number of the record it acknowledges, zero if none. -/
structure ReplyByte where
  byte : UInt8
  lsn : ℕ
  deriving DecidableEq, Repr

def WriterOp.tagged (op : WriterOp) (lsn : ℕ) : List ReplyByte :=
  op.bytes.map (fun b => ⟨b, lsn⟩)

@[simp] theorem tagged_length (op : WriterOp) (lsn : ℕ) :
    (op.tagged lsn).length = op.bytes.length := by
  simp [WriterOp.tagged]

theorem lsn_of_mem_tagged {op : WriterOp} {lsn : ℕ} {x : ReplyByte} (hx : x ∈ op.tagged lsn) :
    x.lsn = lsn := by
  obtain ⟨b, -, rfl⟩ := List.mem_map.mp hx
  rfl

/-- The buffer NewWriter makes; a size that is not positive means 16 KiB. -/
def newWriter (bufSize : ℤ) : Writer ReplyByte :=
  if h : bufSize ≤ 0 then Writer.new (16 <<< 10) (by decide)
  else Writer.new bufSize.toNat (by omega)

end RedisFromScratch.ReplyWriter
