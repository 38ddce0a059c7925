import StoredCall.Call.Error
import StoredCall.Plan
import StoredCall.Text.Quoted

/-!
# Glue

The glue of a plan is source text of a function that carries the plan out: it checks the options of
the call, makes one bind for each slot, runs the block and collects the outputs into a response. It
is kept as a program of these operations and written out at the end.

* `BindOp` makes a bind, `CollectOp` collects an output.
* `Glue.ofPlan` is the program of a plan and `Glue.text` (`render_function`) its source text.
* `rawString` (`raw_string`) is a literal that its text cannot end early.
-/

namespace StoredCall

open Text

/-! ## Operations -/

/-- How one bind is made. -/
inductive BindOp where
  | copyIn (source : Nat)
  | copyOut (source : Nat) (capacity : Option Nat)
  | arrayOut (capacity : Nat)
  | output
  | scalarIn (path : String) (kind : Kind)
  | scalarInOut (path : String) (kind : Kind)
  | arrayIn (path : String) (kind : Kind) (capacity : Nat)
  | arrayInOut (path : String) (kind : Kind) (capacity : Nat)
  | documentIn (format : BlobFormat)
  | documentInOut (format : BlobFormat)
  deriving DecidableEq, Repr

/-- How one output is collected from the bind of an index. -/
inductive CollectOp where
  | lob (bind : Nat) (path : String) (kind : Kind) (threshold : Nat)
  | scalar (bind : Nat) (path : String) (kind : Kind)
  | array (bind : Nat) (path : String) (kind : Kind)
  | cursor (bind : Nat) (path : String) (columns : List (String × Kind)) (batchSize : Nat)
  | document (bind : Nat) (format : BlobFormat)
  deriving DecidableEq, Repr

/-- The bind of a slot that converts a value of the request. -/
def BindOp.converting (path : String) : SlotKind → Direction → BindOp
  | .array _ capacity, .output => .arrayOut capacity
  | _, .output => .output
  | .scalar kind, .input => .scalarIn path kind
  | .scalar kind, .both => .scalarInOut path kind
  | .array elem capacity, .input => .arrayIn path elem capacity
  | .array elem capacity, .both => .arrayInOut path elem capacity
  | .document format, .input => .documentIn format
  | .document format, .both => .documentInOut format
  | .cursor _, _ => .output

/-- The bind of a slot. -/
def BindOp.ofSlot (slot : Slot) : BindOp :=
  match slot.source with
  | .copyOf source =>
    if slot.direction = .input then .copyIn source else .copyOut source slot.kind.capacity?
  | .convert => .converting slot.path.text slot.kind slot.direction

/-- Limits of collecting. -/
structure Limits where
  batchSize : Nat
  threshold : Nat

/-- How the output of a slot is collected. -/
def CollectOp.ofSlot (limits : Limits) (bind : Nat) (slot : Slot) : CollectOp :=
  let path := slot.path.text
  match slot.kind with
  | .scalar kind =>
    if kind.isLob then .lob bind path kind limits.threshold else .scalar bind path kind
  | .array elem _ => .array bind path elem
  | .cursor columns =>
    .cursor bind path (columns.map fun c => (c.path.text, c.kind)) limits.batchSize
  | .document format => .document bind format

/-- The program that carries a plan out. -/
structure Glue where
  function : String
  ident : String
  block : String
  binds : List BindOp
  collects : List CollectOp
  deriving DecidableEq, Repr

/-- The program of a plan. -/
def Glue.ofPlan (limits : Limits) (p : Plan) : Glue where
  function := p.function
  ident := p.ident
  block := p.block
  binds := p.slots.map BindOp.ofSlot
  collects := p.outputs.map fun (index, slot) => .ofSlot limits index slot

/-! ## Literals -/

/-- Words that can be identifiers only with a mark. -/
def markedWords : List String :=
  ["as", "async", "await", "break", "const", "continue", "dyn", "else", "enum", "extern",
    "false", "fn", "for", "gen", "if", "impl", "in", "let", "loop", "match", "mod", "move", "mut",
    "pub", "ref", "return", "static", "struct", "trait", "true", "type", "unsafe", "use", "where",
    "while", "abstract", "become", "box", "do", "final", "macro", "override", "priv", "try",
    "typeof", "unsized", "virtual", "yield"]

/-- Words that cannot be identifiers at all. -/
def reservedWords : List String := ["crate", "self", "super", "Self"]

/-- The identifier for a name. -/
def glueIdent (name : String) : String :=
  if reservedWords.contains name then name ++ "_"
  else if markedWords.contains name then "r#" ++ name
  else name

/-- The longest run of hashes right after a quote. `run` is the length of the run so far, if the
characters before are a quote and hashes. -/
def longestRun : (run : Option Nat) → List Char → Nat
  | _, [] => 0
  | run, c :: cs =>
    if c = '"' then longestRun (some 0) cs
    else match c, run with
      | '#', some n => max (n + 1) (longestRun (some (n + 1)) cs)
      | _, _ => longestRun none cs

/-- A literal of a text that has more hashes than any quote in the text is followed by. -/
def rawString (s : String) : String :=
  let hashes := String.ofList (List.replicate (longestRun none s.toList + 1) '#')
  "r" ++ hashes ++ "\"" ++ s ++ "\"" ++ hashes

/-- A kind in glue. -/
def Kind.glue : Kind → String
  | .int => "ScalarKind::Int"
  | .decimal => "ScalarKind::Decimal"
  | .float => "ScalarKind::Float"
  | .bool => "ScalarKind::Bool"
  | .text => "ScalarKind::Text"
  | .bytes => "ScalarKind::Bytes"
  | .timestamp => "ScalarKind::Timestamp"
  | .clob => "ScalarKind::Clob"
  | .blob => "ScalarKind::Blob"

/-- A format in glue. -/
def BlobFormat.glue (f : BlobFormat) : String := "BlobFormat::" ++ f.word

/-- An optional number in glue. -/
def optionGlue : Option Nat → String
  | some n => "Some(" ++ toString n ++ ")"
  | none => "None"

/-! ## Source text -/

/-- A call of a marshalling function. -/
def marshalCall (name : String) (args : List String) : String :=
  "marshal::" ++ name ++ "(" ++ join ", " args ++ ")"

/-- A bind by its index. -/
def bindGlue (index : Nat) : String := "binds[" ++ toString index ++ "]"

/-- The lines that make a bind. -/
def BindOp.lines : BindOp → List String
  | .copyIn source => copied (marshalCall "copy_in" ["&" ++ bindGlue source])
  | .copyOut source capacity =>
    copied (marshalCall "copy_out" ["&" ++ bindGlue source, optionGlue capacity])
  | .arrayOut capacity => pushed (marshalCall "array_out" [toString capacity])
  | .output => pushed (marshalCall "output" [])
  | .scalarIn path kind => pushed (marshalCall "scalar_in" ["req", quoted path, kind.glue] ++ "?")
  | .scalarInOut path kind =>
    pushed (marshalCall "scalar_inout" ["req", quoted path, kind.glue] ++ "?")
  | .arrayIn path kind capacity =>
    pushed (marshalCall "array_in" ["req", quoted path, kind.glue, toString capacity] ++ "?")
  | .arrayInOut path kind capacity =>
    pushed (marshalCall "array_inout" ["req", quoted path, kind.glue, toString capacity] ++ "?")
  | .documentIn format => pushed (marshalCall "blob_in" ["req", format.glue] ++ "?")
  | .documentInOut format => pushed (marshalCall "blob_inout" ["req", format.glue] ++ "?")
where
  pushed (e : String) : List String := ["binds.push(" ++ e ++ ");"]
  copied (e : String) : List String := ["let copy = " ++ e ++ ";", "binds.push(copy);"]

/-- The line that collects an output. -/
def CollectOp.line : CollectOp → String
  | .lob bind path kind threshold =>
    collected "lob" ["&mut " ++ bindGlue bind, quoted path, kind.glue, toString threshold]
  | .scalar bind path kind => collected "scalar" ["&" ++ bindGlue bind, quoted path, kind.glue]
  | .array bind path kind => collected "array" ["&" ++ bindGlue bind, quoted path, kind.glue]
  | .cursor bind path columns batchSize =>
    let columns := columns.map fun (path, kind) => "(" ++ quoted path ++ ", " ++ kind.glue ++ ")"
    collected "cursor" ["&mut " ++ bindGlue bind, quoted path,
      "&[" ++ join ", " columns ++ "]", toString batchSize, "opts"]
  | .document bind format => collected "blob" ["&" ++ bindGlue bind, format.glue]
where
  collected (name : String) (args : List String) : String :=
    marshalCall ("collect_" ++ name) ("&mut resp" :: args) ++ "?;"

namespace Glue

/-- The lines inside the function. -/
def body (g : Glue) : List String :=
  ["const BLOCK: &str = " ++ rawString g.block ++ ";",
    "opts.check()?;",
    "let mut binds = Vec::with_capacity(" ++ toString g.binds.length ++ ");"]
  ++ g.binds.flatMap BindOp.lines
  ++ ["exec.execute(BLOCK, &mut binds, opts.deadline)?;",
    "let mut resp = Response::new();"]
  ++ g.collects.map CollectOp.line
  ++ ["Ok(resp)"]

/-- The first line of the function. -/
def signature (g : Glue) : String :=
  "pub fn " ++ glueIdent g.ident ++ "<E: Executor + ?Sized>(exec: &mut E, req: &Value, "
    ++ "opts: &CallOptions) -> Result<Response> \x7b"

/-- The source text of the function. -/
def text (g : Glue) : String :=
  "/// Calls `" ++ g.function ++ "`.\n" ++ g.signature ++ "\n"
    ++ String.join (g.body.map fun line => "    " ++ line ++ "\n") ++ "\x7d\n"

end Glue

end StoredCall
