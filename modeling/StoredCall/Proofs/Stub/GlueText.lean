import StoredCall.Proofs.Text.Reader

/-!
# What glue says

The source text of a function is read back into the program that it was written from. The reader
knows what each statement looks like and nothing about plans. It takes the block between its hashes
as it stands, with the carriage returns that a stricter reader would change or refuse.

* `BindOp.forms` and `CollectOp.forms` are the statements of glue.
* `Glue.read? function ident text` is the program of a text, for a function with these names.
* `Glue.read?_text`: the text of a program is read as this program.
-/

namespace StoredCall

open Text

/-! ## Arguments -/

/-- All kinds. -/
def Kind.all : List Kind :=
  [.int, .decimal, .float, .bool, .text, .bytes, .timestamp, .clob, .blob]

/-- Takes a kind. -/
def takeKind (close : String) : Take Kind := named Kind.all Kind.glue close

/-- Takes a format. -/
def takeFormat (close : String) : Take BlobFormat := named [.json, .xml] BlobFormat.glue close

/-- How an optional number is written. -/
def optionForms (close : String) : Forms (Option Nat) := [
  ("None", do
    expect close
    return none),
  ("Some(", do
    let n ← number ")"
    expect close
    return some n)]

/-- Takes a path and a kind. -/
def takePathKind (close : String) : Take (String × Kind) := do
  let path ← quotedText
  expect ", "
  let kind ← takeKind close
  return (path, kind)

/-- How the columns of a cursor are written. -/
def columnForms : Forms (List (String × Kind)) := [
  ("]", return []),
  ("(", do
    let first ← takePathKind ")"
    let more ← upTo "]" [(", (", takePathKind ")")]
    return first :: more)]

/-! ## Statements -/

namespace BindOp

/-- What makes a bind from an earlier one, after the name of the module. -/
def copies : Forms BindOp := [
  ("copy_in(&binds[", do
    let source ← number "]);\n    binds.push(copy);\n"
    return .copyIn source),
  ("copy_out(&binds[", do
    let source ← number "], "
    let capacity ← oneOf (optionForms ");\n    binds.push(copy);\n")
    return .copyOut source capacity)]

/-- What makes a bind of its own, after the name of the module. -/
def pushes : Forms BindOp := [
  ("array_out(", do
    let capacity ← number "));\n"
    return .arrayOut capacity),
  ("output(", do
    expect "));\n"
    return .output),
  ("scalar_in(req, ", do
    let arg ← takePathKind ")?);\n"
    return .scalarIn arg.1 arg.2),
  ("scalar_inout(req, ", do
    let arg ← takePathKind ")?);\n"
    return .scalarInOut arg.1 arg.2),
  ("array_in(req, ", do
    let arg ← takePathKind ", "
    let capacity ← number ")?);\n"
    return .arrayIn arg.1 arg.2 capacity),
  ("array_inout(req, ", do
    let arg ← takePathKind ", "
    let capacity ← number ")?);\n"
    return .arrayInOut arg.1 arg.2 capacity),
  ("blob_in(req, ", do
    let format ← takeFormat ")?);\n"
    return .documentIn format),
  ("blob_inout(req, ", do
    let format ← takeFormat ")?);\n"
    return .documentInOut format)]

/-- The statements that make a bind. -/
def forms : Forms BindOp := [
  ("    let copy = marshal::", oneOf copies),
  ("    binds.push(marshal::", oneOf pushes)]

end BindOp

namespace CollectOp

/-- What collects an output, after the name of the module. -/
def collects : Forms CollectOp := [
  ("lob(&mut resp, &mut binds[", do
    let bind ← number "], "
    let arg ← takePathKind ", "
    let threshold ← number ")?;\n"
    return .lob bind arg.1 arg.2 threshold),
  ("scalar(&mut resp, &binds[", do
    let bind ← number "], "
    let arg ← takePathKind ")?;\n"
    return .scalar bind arg.1 arg.2),
  ("array(&mut resp, &binds[", do
    let bind ← number "], "
    let arg ← takePathKind ")?;\n"
    return .array bind arg.1 arg.2),
  ("cursor(&mut resp, &mut binds[", do
    let bind ← number "], "
    let path ← quotedText
    expect ", &["
    let columns ← oneOf columnForms
    expect ", "
    let batchSize ← number ", opts)?;\n"
    return .cursor bind path columns batchSize),
  ("blob(&mut resp, &binds[", do
    let bind ← number "], "
    let format ← takeFormat ")?;\n"
    return .document bind format)]

/-- The statements that collect an output. -/
def forms : Forms CollectOp := [("    marshal::collect_", oneOf collects)]

end CollectOp

/-! ## Functions -/

/-- A statement on a line of its own. -/
def lineText (statement : String) : String := "    " ++ statement ++ "\n"

/-- The first lines of a function with the given names, up to the block. -/
def headText (function ident : String) : String :=
  "/// Calls `" ++ function ++ "`.\n" ++ "pub fn " ++ glueIdent ident
    ++ "<E: Executor + ?Sized>(exec: &mut E, req: &Value, "
    ++ "opts: &CallOptions) -> Result<Response> \x7b" ++ "\n" ++ "    " ++ "const BLOCK: &str = "

/-- What stands between the block and the count of the binds. -/
def checkText : String :=
  ";" ++ "\n" ++ lineText "opts.check()?;" ++ "    " ++ "let mut binds = Vec::with_capacity("

/-- What stands between the binds and the outputs. -/
def executeText : String :=
  lineText "exec.execute(BLOCK, &mut binds, opts.deadline)?;"
    ++ lineText "let mut resp = Response::new();"

/-- The end of a function. -/
def closeText : String := lineText "Ok(resp)" ++ "\x7d\n"

/-- Takes a function with the given names. How many binds it makes room for is not what it does. -/
def takeGlue (function ident : String) : Take Glue := do
  expect (headText function ident)
  let block ← rawText
  expect checkText
  let _ ← number (");" ++ "\n")
  let binds ← upTo executeText BindOp.forms
  let collects ← upTo closeText CollectOp.forms
  return { function, ident, block, binds, collects }

/-- The program of a text that is a function with the given names and nothing else. -/
def Glue.read? (function ident text : String) : Option Glue :=
  match (takeGlue function ident).run text.toList with
  | some (g, []) => some g
  | _ => none

/-! ## Arguments are read back -/

section Arguments

variable {close : String}

theorem reads_takeKind (kind : Kind) (hc : EndsWord close.toList) :
    Reads (takeKind close) (kind.glue.toList ++ close.toList) kind := by
  refine reads_named ?_ ?_ ?_ hc
  · cases kind <;> decide
  · cases kind <;> simp [Kind.all, Kind.glue]
  · cases kind <;> decide

theorem reads_takeFormat (format : BlobFormat) (hc : EndsWord close.toList) :
    Reads (takeFormat close) (format.glue.toList ++ close.toList) format := by
  refine reads_named ?_ ?_ ?_ hc
  · cases format <;> decide
  · cases format <;> simp [BlobFormat.glue, BlobFormat.word]
  · cases format <;> simp [IsWord, BlobFormat.glue, BlobFormat.word, isWordChar]

theorem reads_optionGlue (n : Option Nat) :
    Reads (oneOf (optionForms close)) ((optionGlue n).toList ++ close.toList) n := by
  have htold : Told ((optionForms close).map Prod.fst) :=
    show Told ["None", "Some("] by decide
  cases n with
  | none =>
    exact Formed.reads htold (i := 0)
      ⟨_, _, _, rfl, rfl, (reads_expect close).bind_pure fun _ => none⟩
  | some n =>
    have htext : (optionGlue (some n)).toList ++ close.toList =
        "Some(".toList ++ (((toString n).toList ++ ")".toList) ++ close.toList) := by
      simp [optionGlue]
    rw [htext]
    exact Formed.reads htold (i := 1) ⟨_, _, _, rfl, rfl,
      (reads_number n (by decide)).bind ((reads_expect close).bind_pure fun _ => some n)⟩

/-- A path and a kind as they stand between other arguments. -/
def pathKindChars (path : String) (kind : Kind) (close : String) : List Char :=
  (quoted path).toList ++ (", ".toList ++ (kind.glue.toList ++ close.toList))

theorem reads_takePathKind (path : String) (kind : Kind) (hc : EndsWord close.toList) :
    Reads (takePathKind close) (pathKindChars path kind close) (path, kind) :=
  (reads_quotedText path).bind ((reads_expect ", ").bind
    ((reads_takeKind kind hc).bind_pure fun kind => (path, kind)))

/-- A column of a cursor as it is written. -/
def columnGlue (column : String × Kind) : String :=
  "(" ++ quoted column.1 ++ ", " ++ column.2.glue ++ ")"

theorem join_cons_toList (sep s : String) (texts : List String) :
    (join sep (s :: texts)).toList = s.toList ++ texts.flatMap fun t => sep.toList ++ t.toList := by
  induction texts generalizing s with
  | nil => simp [join]
  | cons t texts ih => simp [join, ih]

theorem reads_columns (columns : List (String × Kind)) :
    Reads (oneOf columnForms) ((join ", " (columns.map columnGlue)).toList ++ "]".toList)
      columns := by
  have htold : Told (columnForms.map Prod.fst) := by decide
  cases columns with
  | nil => exact Formed.reads htold (i := 0) ⟨_, _, _, rfl, rfl, Reads.pure []⟩
  | cons first more =>
    have hmore : Reads (upTo "]" [(", (", takePathKind ")")])
        (more.flatMap (fun column => ", (".toList ++ pathKindChars column.1 column.2 ")") ++
          "]".toList) more :=
      reads_upTo (by decide) fun column _ =>
        ⟨0, _, _, _, rfl, rfl, reads_takePathKind column.1 column.2 (by decide)⟩
    have htext : (join ", " ((first :: more).map columnGlue)).toList ++ "]".toList =
        "(".toList ++ (pathKindChars first.1 first.2 ")" ++
          (more.flatMap (fun column => ", (".toList ++ pathKindChars column.1 column.2 ")") ++
            "]".toList)) := by
      rw [List.map_cons, join_cons_toList, List.flatMap_map]
      simp [columnGlue, pathKindChars]
    rw [htext]
    exact Formed.reads htold (i := 1) ⟨_, _, _, rfl, rfl,
      (reads_takePathKind first.1 first.2 (by decide)).bind (hmore.bind_pure (first :: ·))⟩

end Arguments

/-! ## Statements are read back -/

/-- Lines as they stand in a function. -/
def lineChars (lines : List String) : List Char :=
  lines.flatMap fun line => (lineText line).toList

namespace BindOp

theorem copies_told : Told (copies.map Prod.fst) := by decide

theorem pushes_told : Told (pushes.map Prod.fst) := by decide

/-- The statements that make a bind do not start like the one that runs the block. -/
theorem told : Told (executeText :: forms.map Prod.fst) := by
  simp [Told, Parts, executeText, lineText, forms, List.isPrefixOf]

theorem formed_lines (op : BindOp) : ∃ i, Formed forms i (lineChars op.lines) op := by
  cases op with
  | copyIn source =>
    have htext : lineChars (lines (.copyIn source)) = "    let copy = marshal::".toList ++
        ("copy_in(&binds[".toList ++
          ((toString source).toList ++ "]);\n    binds.push(copy);\n".toList)) := by
      simp [lineChars, lineText, lines, lines.copied, marshalCall, bindGlue, join]
    exact ⟨0, _, _, _, rfl, htext, Formed.reads copies_told (i := 0) ⟨_, _, _, rfl, rfl,
      (reads_number source (by decide)).bind_pure _⟩⟩
  | copyOut source capacity =>
    have htext : lineChars (lines (.copyOut source capacity)) = "    let copy = marshal::".toList ++
        ("copy_out(&binds[".toList ++ (((toString source).toList ++ "], ".toList) ++
          ((optionGlue capacity).toList ++ ");\n    binds.push(copy);\n".toList))) := by
      simp [lineChars, lineText, lines, lines.copied, marshalCall, bindGlue, join]
    exact ⟨0, _, _, _, rfl, htext, Formed.reads copies_told (i := 1) ⟨_, _, _, rfl, rfl,
      (reads_number source (by decide)).bind ((reads_optionGlue capacity).bind_pure _)⟩⟩
  | arrayOut capacity =>
    have htext : lineChars (lines (.arrayOut capacity)) = "    binds.push(marshal::".toList ++
        ("array_out(".toList ++ ((toString capacity).toList ++ "));\n".toList)) := by
      simp [lineChars, lineText, lines, lines.pushed, marshalCall, join]
    exact ⟨1, _, _, _, rfl, htext, Formed.reads pushes_told (i := 0) ⟨_, _, _, rfl, rfl,
      (reads_number capacity (by decide)).bind_pure _⟩⟩
  | output =>
    have htext : lineChars (lines (.output)) = "    binds.push(marshal::".toList ++
        ("output(".toList ++ "));\n".toList) := by
      simp [lineChars, lineText, lines, lines.pushed, marshalCall, join]
    exact ⟨1, _, _, _, rfl, htext, Formed.reads pushes_told (i := 1) ⟨_, _, _, rfl, rfl,
      (reads_expect _).bind_pure _⟩⟩
  | scalarIn path kind =>
    have htext : lineChars (lines (.scalarIn path kind)) = "    binds.push(marshal::".toList ++
        ("scalar_in(req, ".toList ++ pathKindChars path kind ")?);\n") := by
      simp [lineChars, lineText, lines, lines.pushed, marshalCall, join, pathKindChars]
    exact ⟨1, _, _, _, rfl, htext, Formed.reads pushes_told (i := 2) ⟨_, _, _, rfl, rfl,
      (reads_takePathKind path kind (by decide)).bind_pure _⟩⟩
  | scalarInOut path kind =>
    have htext : lineChars (lines (.scalarInOut path kind)) = "    binds.push(marshal::".toList ++
        ("scalar_inout(req, ".toList ++ pathKindChars path kind ")?);\n") := by
      simp [lineChars, lineText, lines, lines.pushed, marshalCall, join, pathKindChars]
    exact ⟨1, _, _, _, rfl, htext, Formed.reads pushes_told (i := 3) ⟨_, _, _, rfl, rfl,
      (reads_takePathKind path kind (by decide)).bind_pure _⟩⟩
  | arrayIn path kind capacity =>
    have htext : lineChars (lines (.arrayIn path kind capacity)) =
        "    binds.push(marshal::".toList ++
          ("array_in(req, ".toList ++ (pathKindChars path kind ", " ++
          ((toString capacity).toList ++ ")?);\n".toList))) := by
      simp [lineChars, lineText, lines, lines.pushed, marshalCall, join, pathKindChars]
    exact ⟨1, _, _, _, rfl, htext, Formed.reads pushes_told (i := 4) ⟨_, _, _, rfl, rfl,
      (reads_takePathKind path kind (by decide)).bind
        ((reads_number capacity (by decide)).bind_pure _)⟩⟩
  | arrayInOut path kind capacity =>
    have htext : lineChars (lines (.arrayInOut path kind capacity)) =
        "    binds.push(marshal::".toList ++
          ("array_inout(req, ".toList ++ (pathKindChars path kind ", " ++
          ((toString capacity).toList ++ ")?);\n".toList))) := by
      simp [lineChars, lineText, lines, lines.pushed, marshalCall, join, pathKindChars]
    exact ⟨1, _, _, _, rfl, htext, Formed.reads pushes_told (i := 5) ⟨_, _, _, rfl, rfl,
      (reads_takePathKind path kind (by decide)).bind
        ((reads_number capacity (by decide)).bind_pure _)⟩⟩
  | documentIn format =>
    have htext : lineChars (lines (.documentIn format)) = "    binds.push(marshal::".toList ++
        ("blob_in(req, ".toList ++ (format.glue.toList ++ ")?);\n".toList)) := by
      simp [lineChars, lineText, lines, lines.pushed, marshalCall, join]
    exact ⟨1, _, _, _, rfl, htext, Formed.reads pushes_told (i := 6) ⟨_, _, _, rfl, rfl,
      (reads_takeFormat format (by decide)).bind_pure _⟩⟩
  | documentInOut format =>
    have htext : lineChars (lines (.documentInOut format)) = "    binds.push(marshal::".toList ++
        ("blob_inout(req, ".toList ++ (format.glue.toList ++ ")?);\n".toList)) := by
      simp [lineChars, lineText, lines, lines.pushed, marshalCall, join]
    exact ⟨1, _, _, _, rfl, htext, Formed.reads pushes_told (i := 7) ⟨_, _, _, rfl, rfl,
      (reads_takeFormat format (by decide)).bind_pure _⟩⟩

end BindOp

namespace CollectOp

theorem collects_told : Told (collects.map Prod.fst) := by decide

/-- The statements that collect an output do not start like the end. -/
theorem told : Told (closeText :: forms.map Prod.fst) := by
  simp [Told, Parts, closeText, lineText, forms, List.isPrefixOf]

theorem formed_line (op : CollectOp) : ∃ i, Formed forms i (lineChars [op.line]) op := by
  cases op with
  | lob bind path kind threshold =>
    have htext : lineChars [line (.lob bind path kind threshold)] =
        "    marshal::collect_".toList ++
          ("lob(&mut resp, &mut binds[".toList ++ (((toString bind).toList ++ "], ".toList) ++
          (pathKindChars path kind ", " ++ ((toString threshold).toList ++ ")?;\n".toList)))) := by
      simp [lineChars, lineText, line, line.collected, marshalCall, bindGlue, join, pathKindChars]
    exact ⟨0, _, _, _, rfl, htext, Formed.reads collects_told (i := 0) ⟨_, _, _, rfl, rfl,
      (reads_number bind (by decide)).bind ((reads_takePathKind path kind (by decide)).bind
        ((reads_number threshold (by decide)).bind_pure _))⟩⟩
  | scalar bind path kind =>
    have htext : lineChars [line (.scalar bind path kind)] = "    marshal::collect_".toList ++
        ("scalar(&mut resp, &binds[".toList ++ (((toString bind).toList ++ "], ".toList) ++
          pathKindChars path kind ")?;\n")) := by
      simp [lineChars, lineText, line, line.collected, marshalCall, bindGlue, join, pathKindChars]
    exact ⟨0, _, _, _, rfl, htext, Formed.reads collects_told (i := 1) ⟨_, _, _, rfl, rfl,
      (reads_number bind (by decide)).bind
        ((reads_takePathKind path kind (by decide)).bind_pure _)⟩⟩
  | array bind path kind =>
    have htext : lineChars [line (.array bind path kind)] = "    marshal::collect_".toList ++
        ("array(&mut resp, &binds[".toList ++ (((toString bind).toList ++ "], ".toList) ++
          pathKindChars path kind ")?;\n")) := by
      simp [lineChars, lineText, line, line.collected, marshalCall, bindGlue, join, pathKindChars]
    exact ⟨0, _, _, _, rfl, htext, Formed.reads collects_told (i := 2) ⟨_, _, _, rfl, rfl,
      (reads_number bind (by decide)).bind
        ((reads_takePathKind path kind (by decide)).bind_pure _)⟩⟩
  | cursor bind path columns batchSize =>
    have htext : lineChars [line (.cursor bind path columns batchSize)] =
        "    marshal::collect_".toList ++
          ("cursor(&mut resp, &mut binds[".toList ++ (((toString bind).toList ++ "], ".toList) ++
          ((quoted path).toList ++ (", &[".toList ++
            (((join ", " (columns.map columnGlue)).toList ++ "]".toList) ++ (", ".toList ++
              ((toString batchSize).toList ++ ", opts)?;\n".toList))))))) := by
      have hline : line (.cursor bind path columns batchSize) =
          line.collected "cursor" ["&mut " ++ bindGlue bind, quoted path,
            "&[" ++ join ", " (columns.map columnGlue) ++ "]", toString batchSize, "opts"] := rfl
      simp [lineChars, lineText, hline, line.collected, marshalCall, bindGlue, join]
    exact ⟨0, _, _, _, rfl, htext, Formed.reads collects_told (i := 3) ⟨_, _, _, rfl, rfl,
      (reads_number bind (by decide)).bind ((reads_quotedText path).bind ((reads_expect _).bind
        ((reads_columns columns).bind ((reads_expect _).bind
          ((reads_number batchSize (by decide)).bind_pure _)))))⟩⟩
  | document bind format =>
    have htext : lineChars [line (.document bind format)] = "    marshal::collect_".toList ++
        ("blob(&mut resp, &binds[".toList ++ (((toString bind).toList ++ "], ".toList) ++
          (format.glue.toList ++ ")?;\n".toList))) := by
      simp [lineChars, lineText, line, line.collected, marshalCall, bindGlue, join]
    exact ⟨0, _, _, _, rfl, htext, Formed.reads collects_told (i := 4) ⟨_, _, _, rfl, rfl,
      (reads_number bind (by decide)).bind ((reads_takeFormat format (by decide)).bind_pure _)⟩⟩

end CollectOp

/-! ## Functions are read back -/

namespace Glue

theorem toList_join_lines (lines : List String) :
    (String.join (lines.map fun line => "    " ++ line ++ "\n")).toList = lineChars lines :=
  toList_join lines _

/-- The text of a program, part by part. -/
theorem toList_text (g : Glue) : g.text.toList = (headText g.function g.ident).toList ++
    ((rawString g.block).toList ++ (checkText.toList ++
      (((toString g.binds.length).toList ++ (");" ++ "\n").toList) ++
        (((g.binds.flatMap fun op => lineChars op.lines) ++ executeText.toList) ++
          ((g.collects.flatMap fun op => lineChars [op.line]) ++ closeText.toList))))) := by
  have hbinds : lineChars (g.binds.flatMap BindOp.lines) =
      g.binds.flatMap fun op => lineChars op.lines := List.flatMap_assoc
  have hcollects : lineChars (g.collects.map CollectOp.line) =
      g.collects.flatMap fun op => lineChars [op.line] := by
    simp [lineChars, List.flatMap_map]
  have happend : ∀ a b, lineChars (a ++ b) = lineChars a ++ lineChars b := fun a b =>
    List.flatMap_append
  have hcons : ∀ line lines, lineChars (line :: lines) =
      (lineText line).toList ++ lineChars lines := fun line lines => List.flatMap_cons
  have hnil : lineChars [] = [] := rfl
  -- Literals stay folded: they are not to be read character by character here.
  delta text signature body headText checkText executeText closeText
  simp only [String.toList_append, toList_join_lines, happend, hcons, hnil, hbinds, hcollects]
  delta lineText
  simp only [String.toList_append, List.append_assoc, List.append_nil]

theorem reads_text (g : Glue) : Reads (takeGlue g.function g.ident) g.text.toList g := by
  have hbinds := reads_upTo BindOp.told fun op (_ : op ∈ g.binds) => BindOp.formed_lines op
  have hcollects := reads_upTo CollectOp.told fun op (_ : op ∈ g.collects) =>
    CollectOp.formed_line op
  rw [toList_text]
  exact (reads_expect _).bind ((reads_rawText g.block).bind ((reads_expect _).bind
    ((reads_number g.binds.length (by decide)).bind (hbinds.bind (hcollects.bind_pure _)))))

/-- **The text of a program says what the program does.** -/
theorem read?_text (g : Glue) : read? g.function g.ident g.text = some g := by
  have h := reads_text g []
  rw [List.append_nil] at h
  delta read?
  rw [h]

end Glue

end StoredCall
