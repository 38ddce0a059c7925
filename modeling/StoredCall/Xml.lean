import StoredCall.Text.Blank
import StoredCall.Text.Split

/-!
# Pieces of markup

An XML text is read as a sequence of pieces: tags, texts between tags, and verbatim sections.
Comments, processing instructions and document types are passed over. Texts lose the white space at
their ends, and a text of white space alone is no piece. What is wrong with a text only counts once
a reader gets there, so it is the last piece of the sequence.

* `Xml.Piece` is a piece; `Xml.scan` cuts a text into pieces.
* `Xml.escape` and `Xml.unescape?` are the two directions of character references.
-/

namespace StoredCall.Xml

open Text

/-- A piece of markup. -/
inductive Piece where
  | start (name : String) (attributes : List (String × String))
  | empty (name : String) (attributes : List (String × String))
  | close (name : String)
  /-- Text as it is written, with its references. -/
  | text (raw : List Char)
  | verbatim (chars : List Char)
  /-- The rest of the text is no markup. -/
  | fault
  deriving DecidableEq, Repr

/-! ## Character references -/

/-- How a character stands in text. -/
def escapeChar : Char → List Char
  | '<' => "&lt;".toList
  | '>' => "&gt;".toList
  | '&' => "&amp;".toList
  | '\'' => "&apos;".toList
  | '"' => "&quot;".toList
  | c => [c]

/-- How a text stands in markup. -/
def escape (cs : List Char) : List Char := cs.flatMap escapeChar

/-- The number of digits of a base, if there are any and nothing else. -/
def radix? (base : Nat) (cs : List Char) : Option Nat :=
  let value (c : Char) : Option Nat :=
    let n :=
      if c.isDigit then c.toNat - '0'.toNat
      else if c.isLower then c.toNat - 'a'.toNat + 10
      else if c.isUpper then c.toNat - 'A'.toNat + 10
      else base
    if n < base then some n else none
  if cs.isEmpty then none
  else cs.foldl (fun acc c => acc.bind fun n => (value c).map (base * n + ·)) (some 0)

/-- The character of a number; zero and what is no character have none. -/
def charOf? (n : Nat) : Option Char :=
  if n ≠ 0 ∧ n.isValidChar then some (Char.ofNat n) else none

/-- The character that a reference names. -/
def reference? : List Char → Option Char
  | ['l', 't'] => some '<'
  | ['g', 't'] => some '>'
  | ['a', 'm', 'p'] => some '&'
  | ['a', 'p', 'o', 's'] => some '\''
  | ['q', 'u', 'o', 't'] => some '"'
  | '#' :: 'x' :: ds => (radix? 16 ds).bind charOf?
  | '#' :: ds => (radix? 10 ds).bind charOf?
  | _ => none

/-- Replaces references by their characters. `pending` holds what follows an ampersand, reversed.
A reference must end before the next ampersand. -/
def unescapeFrom : (pending : Option (List Char)) → List Char → Option (List Char)
  | none, [] => some []
  | some _, [] => none
  | none, c :: cs =>
    if c = '&' then unescapeFrom (some []) cs else (unescapeFrom none cs).map (c :: ·)
  | some name, c :: cs =>
    if c = '&' then none
    else if c = ';' then
      match reference? name.reverse with
      | none => none
      | some d => (unescapeFrom none cs).map (d :: ·)
    else unescapeFrom (some (c :: name)) cs

/-- The text that stands in markup. -/
def unescape? (cs : List Char) : Option (List Char) := unescapeFrom none cs

/-! ## Tags -/

/-- The inside of a tag up to its closing bracket, and the text after it. A bracket between quotes
does not close the tag; `quote` is the quote that is open. -/
def tagInside : (quote : Option Char) → List Char → Option (List Char × List Char)
  | _, [] => none
  | none, c :: cs =>
    if c = '>' then some ([], cs)
    else
      (tagInside (if c = '"' ∨ c = '\'' then some c else none) cs).map fun (t, r) => (c :: t, r)
  | some q, c :: cs =>
    (tagInside (if c = q then none else some q) cs).map fun (t, r) => (c :: t, r)

/-- The text from its next white space on. -/
def afterWord (cs : List Char) : List Char := cs.dropWhile fun c => !isSpace c

/-- The attributes of a tag. One with a name that stood before, or without a quoted value, is passed
over: the text is read again from the next white space after its equals sign, or after the beginning
of its value, even if that stands between quotes. -/
def attributesFrom : (fuel : Nat) → (seen : List (List Char)) → List Char →
    List (String × String)
  | 0, _, _ => []
  | fuel + 1, seen, cs =>
    match cs.dropWhile isSpace with
    | [] => []
    | c :: rest =>
      let inName := fun d => d != '=' && !isSpace d
      let name := c :: rest.takeWhile inName
      match (rest.dropWhile inName).dropWhile isSpace with
      | '=' :: value =>
        if seen.contains name then attributesFrom fuel seen (afterWord value)
        else
          match value.dropWhile isSpace with
          | [] => []
          | q :: body =>
            if q = '"' ∨ q = '\'' then
              match cutAt? [q] body with
              | none => []
              | some (v, rest) =>
                (String.ofList name, String.ofList v) :: attributesFrom fuel (name :: seen) rest
            else attributesFrom fuel (name :: seen) (afterWord body)
      | rest => attributesFrom fuel seen rest

/-- Name and attributes from the inside of a tag; the name ends at white space. -/
def nameAndAttributes (inside : List Char) : String × List (String × String) :=
  let name := inside.takeWhile fun c => !isSpace c
  (String.ofList name, attributesFrom inside.length [] (inside.drop name.length))

/-- The piece of an opening or empty tag. -/
def openingPiece (inside : List Char) : Piece :=
  match dropEnd? ['/'] inside with
  | some inside => let (name, attributes) := nameAndAttributes inside; .empty name attributes
  | none => let (name, attributes) := nameAndAttributes inside; .start name attributes

/-- The name of a closing tag; white space after it does not count. -/
def closingName (inside : List Char) : String :=
  let name := stripEnd isSpace inside
  String.ofList (if name.isEmpty then inside else name)

/-! ## Declarations -/

/-- The text after a document type, in which brackets are balanced, and whether it names
anything. -/
def afterDoctype : (balance : Nat) → (named : Bool) → List Char → Option (Bool × List Char)
  | _, _, [] => none
  | balance, named, c :: cs =>
    if c = '<' then afterDoctype (balance + 1) true cs
    else if c = '>' then
      match balance with
      | 0 => some (named, cs)
      | balance + 1 => afterDoctype balance true cs
    else afterDoctype balance (named || !isSpace c) cs

/-- What follows `<!`: a piece that counts, or nothing, and the rest. -/
def declaration (cs : List Char) : Option (Option Piece × List Char) :=
  match dropStart? "--".toList cs with
  | some body => (cutAt? "-->".toList body).map fun (_, rest) => (none, rest)
  | none =>
    match dropStart? "[CDATA[".toList cs with
    | some body => (cutAt? "]]>".toList body).map fun (t, rest) => (some (.verbatim t), rest)
    | none =>
      if (cs.take 7).map Char.toUpper = "DOCTYPE".toList then
        match afterDoctype 0 false (cs.drop 7) with
        | some (true, rest) => some (none, rest)
        | _ => none
      else none

/-- What follows `<`: a piece that counts, or nothing, and the rest. -/
def markup : List Char → Option (Option Piece × List Char)
  | [] => none
  | '!' :: cs => declaration cs
  | '?' :: '>' :: _ => none
  | '?' :: cs => (cutAt? "?>".toList cs).map fun (_, rest) => (none, rest)
  | '/' :: cs => (tagInside none cs).map fun (t, rest) => (some (.close (closingName t)), rest)
  | cs => (tagInside none cs).map fun (t, rest) => (some (openingPiece t), rest)

/-! ## Sequence -/

/-- Cuts a text into pieces; every step takes at least one character. -/
def scanFrom : (fuel : Nat) → List Char → List Piece
  | 0, _ => []
  | fuel + 1, cs =>
    match cs.dropWhile isSpace with
    | [] => []
    | '<' :: rest =>
      match markup rest with
      | none => [.fault]
      | some (piece, rest) => piece.toList ++ scanFrom fuel rest
    | cs =>
      .text (stripEnd isSpace (cs.takeWhile (· ≠ '<'))) :: scanFrom fuel (cs.dropWhile (· ≠ '<'))

/-- The pieces of a text. A byte order mark at its beginning is passed over. -/
def scan (cs : List Char) : List Piece :=
  match cs with
  | '\ufeff' :: rest => scanFrom (rest.length + 1) rest
  | _ => scanFrom (cs.length + 1) cs

end StoredCall.Xml
