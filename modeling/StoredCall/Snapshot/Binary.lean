import StoredCall.Snapshot
import StoredCall.Text.Utf8

/-!
# The binary form of snapshots

Fields stand one after the other without names. Lengths, counts, numbers of 32 bits and the numbers
of variants are written in groups of seven bits, the lowest first, with the high bit set in all but
the last group. Bytes stand for themselves, an optional value follows a byte that says whether it
is there, and a text is its length and its bytes in UTF-8.

* `Snapshot.toBinary` (`to_binary`) writes and `Snapshot.ofBinary?` (`from_binary`) reads; bytes
  after a snapshot do not count.
-/

namespace StoredCall.Snapshot

open Number Text

/-! ## Writing -/

/-- A number in groups of seven bits. -/
def varint (n : Nat) : List UInt8 :=
  if n < 128 then [UInt8.ofNat n] else UInt8.ofNat (n % 128 + 128) :: varint (n / 128)

/-- A value that may be absent. -/
def optionBytes {α : Type} (f : α → List UInt8) : Option α → List UInt8
  | none => [0]
  | some a => 1 :: f a

/-- A text. -/
def textBytes (s : String) : List UInt8 :=
  varint (utf8 s).length ++ utf8 s

/-- A scalar. -/
def scalarBytes (s : Scalar) : List UInt8 :=
  textBytes s.name ++ optionBytes (fun n => varint n.toNat) s.length
    ++ optionBytes (fun n => [n]) s.precision
    ++ optionBytes (fun n => [n.toUInt8]) s.scale
    ++ optionBytes textBytes s.typeName

/-- A reference. -/
def refBytes : TypeRef → List UInt8
  | .scalar s => varint 0 ++ scalarBytes s
  | .named key => varint 1 ++ textBytes key

/-- A field. -/
def fieldBytes (f : Field) : List UInt8 :=
  textBytes f.name ++ refBytes f.type

/-- An index kind. -/
def indexBytes : IndexBy → List UInt8
  | .integer => varint 0

/-- A definition. -/
def defBytes : TypeDef → List UInt8
  | .scalar s => varint 0 ++ scalarBytes s
  | .record fields => varint 1 ++ varint fields.length ++ fields.flatMap fieldBytes
  | .collection elem indexBy => varint 2 ++ refBytes elem ++ optionBytes indexBytes indexBy

/-- The binary form of a snapshot. -/
def toBinary (s : Snapshot) : List UInt8 :=
  varint s.types.length ++ s.types.flatMap fun (key, d) => textBytes key ++ defBytes d

/-! ## Reading -/

/-- Takes a value off the front of a list of bytes. -/
abbrev Take (α : Type) := List UInt8 → Option (α × List UInt8)

/-- Takes a byte. -/
def takeByte : Take UInt8
  | [] => none
  | b :: rest => some (b, rest)

/-- Takes a number of at most `groups` groups of seven bits. -/
def takeGroups : (groups : Nat) → Take Nat
  | 0, _ => none
  | _ + 1, [] => none
  | groups + 1, b :: rest =>
    if b < 128 then some (b.toNat, rest)
    else (takeGroups groups rest).map fun (n, rest) => (b.toNat % 128 + 128 * n, rest)

/-- Takes a number below `2 ^ bits`, in no more groups than such a number can need. -/
def takeVarint (bits : Nat) : Take Nat := fun bytes =>
  match takeGroups ((bits + 6) / 7) bytes with
  | some (n, rest) => if n < pow2 bits then some (n, rest) else none
  | none => none

/-- Takes a value that may be absent. -/
def takeOption {α : Type} (take : Take α) : Take (Option α)
  | 0 :: rest => some (none, rest)
  | 1 :: rest => (take rest).map fun (a, rest) => (some a, rest)
  | _ => none

/-- Takes a given count of values. -/
def takeMany {α : Type} (take : Take α) : (count : Nat) → Take (List α)
  | 0, bytes => some ([], bytes)
  | count + 1, bytes => do
    let (a, bytes) ← take bytes
    let (as, bytes) ← takeMany take count bytes
    return (a :: as, bytes)

/-- Takes a text. -/
def takeText : Take String := fun bytes => do
  let (length, bytes) ← takeVarint 64 bytes
  if bytes.length < length then none
  else return (← utf8? (bytes.take length), bytes.drop length)

/-- Takes a scalar. -/
def takeScalar : Take Scalar := fun bytes => do
  let (name, bytes) ← takeText bytes
  let (length, bytes) ← takeOption (takeVarint 32) bytes
  let (precision, bytes) ← takeOption takeByte bytes
  let (scale, bytes) ← takeOption takeByte bytes
  let (typeName, bytes) ← takeOption takeText bytes
  return ({
    name, precision, typeName
    length := length.map Nat.toUInt32
    scale := scale.map UInt8.toInt8 }, bytes)

/-- Takes a reference. -/
def takeRef : Take TypeRef := fun bytes => do
  match ← takeVarint 32 bytes with
  | (0, bytes) => (takeScalar bytes).map fun (s, rest) => (.scalar s, rest)
  | (1, bytes) => (takeText bytes).map fun (key, rest) => (.named key, rest)
  | _ => none

/-- Takes a field. -/
def takeField : Take Field := fun bytes => do
  let (name, bytes) ← takeText bytes
  let (type, bytes) ← takeRef bytes
  return (⟨name, type⟩, bytes)

/-- Takes an index kind. -/
def takeIndex : Take IndexBy := fun bytes => do
  match ← takeVarint 32 bytes with
  | (0, bytes) => some (.integer, bytes)
  | _ => none

/-- Takes a definition. -/
def takeDef : Take TypeDef := fun bytes => do
  match ← takeVarint 32 bytes with
  | (0, bytes) => (takeScalar bytes).map fun (s, rest) => (.scalar s, rest)
  | (1, bytes) =>
    let (count, bytes) ← takeVarint 64 bytes
    (takeMany takeField count bytes).map fun (fields, rest) => (.record fields, rest)
  | (2, bytes) =>
    let (elem, bytes) ← takeRef bytes
    let (indexBy, bytes) ← takeOption takeIndex bytes
    return (.collection elem indexBy, bytes)
  | _ => none

/-- Takes a key and its definition. -/
def takeType : Take (String × TypeDef) := fun bytes => do
  let (key, bytes) ← takeText bytes
  let (d, bytes) ← takeDef bytes
  return ((key, d), bytes)

/-- Reads a snapshot from its binary form; a later type under the same key takes the place of an
earlier one. -/
def ofBinary? (bytes : List UInt8) : Option Snapshot := do
  let (count, bytes) ← takeVarint 64 bytes
  let (types, _) ← takeMany takeType count bytes
  return ⟨types.foldl (fun t (key, d) => Assoc.put key d t) []⟩

end StoredCall.Snapshot
