/-!
# Spelling of names

Database names arrive in capitals with `_`, `$`, `#`, `%`, `.` and `-` inside. Three spellings are
made of them, all by ASCII letters only:

* `snake` (`to_snake_case`) for fields and entry points: small letters, separators as one `_`;
* `pascal` (`to_pascal_case`) for messages and services: each part capitalised, separators dropped;
* `isPlainIdent` (`is_plain_sql_ident`) says whether a name can stand in a block without quotes.
-/

namespace StoredCall.Text

/-- Characters that part the words of a name. -/
def isSeparator (c : Char) : Bool :=
  c == '_' || c == '-' || c == '.' || c == '$' || c == '#' || c == '%'

/-- Capitalises the first letter after each separator and drops the separators. `start` says
that the next letter begins a word. -/
def pascalWords : Bool → List Char → List Char
  | _, [] => []
  | start, c :: cs =>
    if isSeparator c then pascalWords true cs
    else (if start then c.toUpper else c.toLower) :: pascalWords false cs

/-- A name that already is mixed case without separators, beginning with a capital. -/
def isPascal (cs : List Char) : Bool :=
  (cs.head?.map Char.isUpper).getD false && cs.any Char.isLower && !cs.any isSeparator

/-- The spelling of message and service names. -/
def pascal (s : String) : String :=
  if isPascal s.toList then s else String.ofList (pascalWords true s.toList)

/-- Writes the rest of a name in small letters. `last` is the character written before, and in a
name of mixed case (`mixed`) a capital begins a new word. -/
def snakeWords (mixed : Bool) : Option Char → List Char → List Char
  | _, [] => []
  | last, c :: cs =>
    if isSeparator c && c != '_' then
      if last = some '_' then snakeWords mixed last cs
      else '_' :: snakeWords mixed (some '_') cs
    else if c.isUpper && mixed && last.isSome && last != some '_' then
      '_' :: c.toLower :: snakeWords mixed (some c.toLower) cs
    else c.toLower :: snakeWords mixed (some c.toLower) cs

/-- The spelling of fields and entry points. -/
def snake (s : String) : String :=
  String.ofList (snakeWords (s.toList.any Char.isLower) none s.toList)

/-- The longest identifier a block may hold. -/
def maxIdent : Nat := 30

/-- Whether a name is an identifier of the block language without quotes: a letter, then letters,
digits, `_`, `$` and `#`, at most `maxIdent` bytes. -/
def isPlainIdent (s : String) : Bool :=
  match s.toList with
  | [] => false
  | c :: cs =>
    c.isAlpha && cs.all (fun d => d.isAlphanum || d == '_' || d == '$' || d == '#')
      && decide (s.utf8ByteSize ≤ maxIdent)

end StoredCall.Text
