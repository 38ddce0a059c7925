import StoredCall.Error
import StoredCall.Number.Digits
import StoredCall.Text.Blank
import StoredCall.Text.Split

/-!
# Delimited data

A data file has a header and records of as many fields. A field that begins with a quote runs to
the next single quote, and two quotes in it stand for one; what follows the closing quote up to the
delimiter belongs to the field. Records end at a line feed, a carriage return or both, empty lines
do not count, and every field is trimmed.

* `Csv.records` cuts a text into records.
* `Csv.Column` says what a column holds, and `Csv.readTable` reads a file of given columns.
-/

namespace StoredCall.Csv

open Number

/-! ## Records -/

/-- Where in a record the reader stands. -/
inductive Place where
  | lineStart | fieldStart | plain | inQuotes | afterQuote
  deriving DecidableEq, Repr

/-- A character that ends a record. -/
def isLineEnd (c : Char) : Bool := c == '\n' || c == '\r'

/-- Cuts the rest of a text into records. `field` holds the characters of the current field and
`fields` the fields before it, both reversed. -/
def recordsFrom (delimiter : Char) :
    Place → (field : List Char) → (fields : List (List Char)) → List Char → List (List (List Char))
  | .lineStart, _, _, [] => []
  | _, field, fields, [] => [(field.reverse :: fields).reverse]
  | .lineStart, _, _, c :: cs =>
    if isLineEnd c then recordsFrom delimiter .lineStart [] [] cs
    else if c = '"' then recordsFrom delimiter .inQuotes [] [] cs
    else if c = delimiter then recordsFrom delimiter .fieldStart [] [[]] cs
    else recordsFrom delimiter .plain [c] [] cs
  | .inQuotes, field, fields, c :: cs =>
    if c = '"' then recordsFrom delimiter .afterQuote field fields cs
    else recordsFrom delimiter .inQuotes (c :: field) fields cs
  | place, field, fields, c :: cs =>
    if c = '"' ∧ place = .fieldStart then recordsFrom delimiter .inQuotes field fields cs
    else if c = '"' ∧ place = .afterQuote then
      recordsFrom delimiter .inQuotes (c :: field) fields cs
    else if c = delimiter then
      recordsFrom delimiter .fieldStart [] (field.reverse :: fields) cs
    else if isLineEnd c then
      (field.reverse :: fields).reverse :: recordsFrom delimiter .lineStart [] [] cs
    else recordsFrom delimiter .plain (c :: field) fields cs

/-- The records of a text, their fields trimmed. -/
def records (delimiter : Char) (cs : List Char) : List (List String) :=
  (recordsFrom delimiter .lineStart [] [] cs).map fun fields =>
    fields.map fun field => String.ofList (Text.strip Text.isBlank field)

/-- A semicolon divides the fields when the first line has more semicolons than commas. -/
def delimiterOf (cs : List Char) : Char :=
  let header := cs.takeWhile (· ≠ '\n')
  if header.count ',' < header.count ';' then ';' else ','

/-! ## Columns -/

/-- What the fields of a column hold. -/
inductive Content where
  | text
  /-- A number from `low` to `high`; an empty field is none where that is allowed. -/
  | number (low high : Int) (optional : Bool)
  deriving DecidableEq, Repr

/-- A column: its name, the other names it goes by, and what its fields hold. -/
structure Column where
  name : String
  aka : List String := []
  content : Content := .text
  required : Bool := false

/-- What a field holds. -/
inductive Cell where
  | text (s : String)
  | number (n : Option Int)
  deriving DecidableEq, Repr

/-- The number of hexadecimal digits with an optional sign. -/
def readHex? (cs : List Char) : Option Int :=
  let digit (c : Char) : Option Nat :=
    if c.isDigit then some (c.toNat - '0'.toNat)
    else if 'a' ≤ c.toLower ∧ c.toLower ≤ 'f' then some (c.toLower.toNat - 'a'.toNat + 10)
    else none
  let (negative, ds) := takeSign cs
  if ds.isEmpty then none
  else
    (ds.foldl (fun acc c => acc.bind fun n => (digit c).map (16 * n + ·)) (some 0)).map
      (signed negative)

/-- Reads a number in decimal, or in hexadecimal after `0x`. A minus sign is only for ranges with
numbers below zero. -/
def readNumber? (low high : Int) (s : String) : Option Int := do
  let cs := s.toList
  let body := (Text.dropStart? ['0', 'x'] cs).getD cs
  if body.head? = some '-' ∧ 0 ≤ low then none
  else
    let n ← if body.length < cs.length then readHex? body else readInt? body
    if low ≤ n ∧ n ≤ high then return n else none

/-- Reads a field. -/
def Content.read? : Content → String → Option Cell
  | .text, s => some (.text s)
  | .number low high optional, s =>
    if optional && s.isEmpty then some (.number none)
    else (readNumber? low high s).map fun n => .number (some n)

/-- Reads the fields of a record from left to right. A field under a name that no column goes by
does not count; one under a column that has been read already is refused. -/
def readFields (columns : List Column) :
    (index : Nat) → (row : List (String × Cell)) → List (String × String) →
    Except RecordFault (List (String × Cell))
  | _, row, [] => .ok row
  | index, row, (heading, s) :: rest =>
    match columns.find? fun c => c.name = heading ∨ heading ∈ c.aka with
    | none => readFields columns (index + 1) row rest
    | some column =>
      if row.any fun cell => cell.1 = column.name then .error .badColumns
      else match column.content.read? s with
        | none => .error (.badNumber index)
        | some cell => readFields columns (index + 1) (row ++ [(column.name, cell)]) rest

/-- Reads a record under a header. -/
def readRecord (columns : List Column) (header fields : List String) :
    Except RecordFault (List (String × Cell)) :=
  if fields.length ≠ header.length then .error (.unequalLengths header.length fields.length)
  else do
    let row ← readFields columns 0 [] (header.zip fields)
    if columns.all fun c => !c.required || row.any fun cell => cell.1 = c.name then return row
    else throw .badColumns

/-- Reads records one after the other; `number` is that of the next. -/
def readRecords {α : Type} (read : List String → Except RecordFault α) :
    (number : Nat) → List (List String) → Except Error (List α)
  | _, [] => .ok []
  | number, fields :: rest =>
    match read fields with
    | .error fault => .error (.record number fault)
    | .ok a => do return a :: (← readRecords read (number + 1) rest)

/-- Reads a file of given columns. Byte order marks at its beginning do not count. -/
def readTable (columns : List Column) (text : String) :
    Except Error (List (List (String × Cell))) :=
  let cs := text.toList.dropWhile (· = '\ufeff')
  match records (delimiterOf cs) cs with
  | [] => .ok []
  | header :: rest => readRecords (readRecord columns (header.map Text.upper)) 1 rest

end StoredCall.Csv
