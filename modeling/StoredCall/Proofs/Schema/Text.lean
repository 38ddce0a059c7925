import StoredCall.Proofs.Text.Reader
import StoredCall.Schema

/-!
# Schema files are read back

A schema is a tree, and its file is a text. What the file says is what a reader finds in it, who
knows neither the tree nor the subprograms it was made for.

* `Schema.read?` reads a file: package, imports, service, calls and messages.
* `Schema.Legible`: no name in a file has a character that ends a name.
* **`Schema.read?_text`**: the file of a legible schema is read as this schema, if its fields have
  types that can be told from what is written.
-/

namespace StoredCall

open Text Number

/-! ## Names -/

/-- A character inside a name. A blank, a closing parenthesis or a semicolon ends a name. -/
def isNameChar (c : Char) : Bool := c != ' ' && c != ')' && c != ';'

/-- A name that no character of its own ends. -/
def IsName (name : String) : Prop := name.toList.all isNameChar = true

instance (name : String) : Decidable (IsName name) := inferInstanceAs (Decidable (_ = true))

/-- Takes a name and the text right after it. -/
def takeName (close : String) : Take String := spanTo isNameChar close

theorem reads_takeName {name : String} (h : IsName name) (close : String)
    (hc : Stops isNameChar close.toList) :
    Reads (takeName close) (name.toList ++ close.toList) name :=
  reads_spanTo h hc

/-- A text that does not begin with a small letter. -/
def StartsTall (cs : List Char) : Prop := ∀ c ∈ cs.head?, c.isLower = false

/-! ## Types -/

/-- The scalar types that a file can name. -/
def WireScalar.all : List WireScalar :=
  [.sint32, .sint64, .double, .bool, .string, .bytes, .timestamp]

theorem WireScalar.mem_all (t : WireScalar) : t ∈ all := by cases t <;> decide

theorem WireScalar.text_injective : ∀ t ∈ all, ∀ u ∈ all, t.text = u.text → t = u := by decide

theorem WireScalar.text_ne_of_startsTall {name : String} (h : StartsTall name.toList)
    (t : WireScalar) : t.text ≠ name := by
  rintro rfl
  cases t <;> exact absurd (h _ rfl) (by decide)

namespace FieldType

/-- The type that is written as `name`. -/
def ofText (name : String) : FieldType :=
  match WireScalar.all.find? (·.text = name) with
  | some t => .scalar t
  | none => .message name

/-- A type that can be told from what is written. -/
def Told : FieldType → Prop
  | .scalar _ => True
  | .message name => StartsTall name.toList
  | .unspecified => False

theorem ofText_text {type : FieldType} (h : type.Told) : ofText type.text = type := by
  unfold ofText
  cases type with
  | scalar t =>
    rw [text]
    cases hfind : WireScalar.all.find? (·.text = t.text) with
    | none => simpa using List.find?_eq_none.mp hfind t t.mem_all
    | some u =>
      have hu : u.text = t.text := by simpa using List.find?_some hfind
      rw [WireScalar.text_injective u u.mem_all t t.mem_all hu]
  | message name =>
    have hnone : WireScalar.all.find? (·.text = name) = none :=
      List.find?_eq_none.mpr fun t _ => by simpa using WireScalar.text_ne_of_startsTall h t
    rw [text, hnone]
  | unspecified => exact h.elim

/-- The word in front of a repeated type is not a type itself. -/
theorem text_ne_repeated {type : FieldType} (h : type.Told) : type.text ≠ "repeated" := by
  cases type with
  | scalar t => cases t <;> decide
  | message name =>
    rintro rfl
    exact absurd (h 'r' rfl) (by decide)
  | unspecified => exact h.elim

end FieldType

/-! ## Fields and messages -/

/-- Goes on after the first word of a field, which is its type or says that it is repeated. -/
def typeAfter (first : String) : Take (Bool × FieldType) :=
  if first = "repeated" then do return (true, .ofText (← takeName " "))
  else return (false, .ofText first)

/-- Takes whether a field is repeated, and its type. -/
def takeType : Take (Bool × FieldType) := do
  typeAfter (← takeName " ")

theorem reads_takeType {isRepeated : Bool} {type : FieldType} (hname : IsName type.text)
    (htold : type.Told) :
    Reads takeType ((if isRepeated then "repeated " else "").toList ++
      (type.text.toList ++ " ".toList)) (isRepeated, type) := by
  have htype := reads_takeName hname " " (by decide)
  cases isRepeated with
  | true =>
    have hafter : Reads (typeAfter "repeated") (type.text.toList ++ " ".toList) (true, type) := by
      have h := htype.bind_pure fun name => (true, FieldType.ofText name)
      rwa [FieldType.ofText_text htold] at h
    have hword : IsName "repeated" := by decide
    exact (reads_takeName hword " " (by decide)).bind hafter
  | false =>
    have hafter : Reads (typeAfter type.text) [] (false, type) := by
      rw [typeAfter, if_neg (FieldType.text_ne_repeated htold), FieldType.ofText_text htold]
      exact Reads.pure _
    have h := htype.bind hafter
    rwa [List.append_nil] at h

/-- How a field ends: with a type in the catalog or without one. -/
def fieldEnds : Forms (Option String) :=
  [(";\n", return none),
   (" [(catalog_type) = ", do
      let t ← quotedText
      expect "];\n"
      return some t)]

/-- Takes a field. -/
def takeField : Take MessageField := do
  let (isRepeated, type) ← takeType
  let name ← takeName " = "
  span isWordChar fun digits => do
    let catalogType ← oneOf fieldEnds
    match readNat? digits with
    | some number => return { isRepeated, type, name, number, catalogType }
    | none => failure

/-- The end of a field as written. -/
def endText : Option String → List Char
  | some t => " [(catalog_type) = ".toList ++ ((quoted t).toList ++ "];\n".toList)
  | none => ";\n".toList

theorem reads_fieldEnds (catalogType : Option String) :
    Reads (oneOf fieldEnds) (endText catalogType) catalogType := by
  have htold : Told (fieldEnds.map Prod.fst) := by decide
  cases catalogType with
  | none => exact Formed.reads htold (i := 0) ⟨_, _, [], rfl, rfl, Reads.pure none⟩
  | some t =>
    exact Formed.reads htold (i := 1) ⟨_, _, _, rfl, rfl,
      (reads_quotedText t).bind ((reads_expect _).bind_pure fun _ => some t)⟩

namespace MessageField

/-- A field that can be told from what is written. -/
structure Legible (f : MessageField) : Prop where
  name : IsName f.name
  type : IsName f.type.text
  told : f.type.Told

theorem toList_text (f : MessageField) : f.text.toList = "  ".toList ++
    (((if f.isRepeated then "repeated " else "").toList ++ (f.type.text.toList ++ " ".toList)) ++
      ((f.name.toList ++ " = ".toList) ++
        ((toString f.number).toList ++ endText f.catalogType))) := by
  delta text endText
  cases f.catalogType with
  | none =>
    simp only [String.toList_append, String.toList_empty, List.append_assoc, List.append_nil]
  | some t =>
    have hend : "];\n" = "]" ++ ";\n" := by decide
    simp only [hend, String.toList_append, List.append_assoc]

theorem stops_endText (catalogType : Option String) : EndsWord (endText catalogType) := by
  cases catalogType <;> rfl

theorem formed_text {f : MessageField} (h : f.Legible) :
    Formed [("  ", takeField)] 0 f.text.toList f := by
  refine ⟨_, _, _, rfl, toList_text f, ?_⟩
  refine (reads_takeType h.type h.told).bind ((reads_takeName h.name _ (by decide)).bind
    (reads_span (isWord_toString f.number) (stops_endText _) ?_))
  have hread := (reads_fieldEnds f.catalogType).bind_pure fun catalogType =>
    ({ f with catalogType } : MessageField)
  rw [readNat?_toString]
  exact hread

end MessageField

/-- Takes a message. -/
def takeMessage : Take Message := do
  let name ← takeName " \x7b\n"
  let fields ← upTo "\x7d\n" [("  ", takeField)]
  return { name, fields }

namespace Message

/-- A message that can be told from what is written. -/
structure Legible (m : Message) : Prop where
  name : IsName m.name
  fields : ∀ f ∈ m.fields, f.Legible

theorem formed_text {m : Message} (h : m.Legible) :
    Formed [("\nmessage ", takeMessage)] 0 ("\n" ++ m.text).toList m := by
  have htext : ("\n" ++ m.text).toList = "\nmessage ".toList ++ ((m.name.toList ++ " \x7b\n".toList)
      ++ ((m.fields.flatMap fun f => f.text.toList) ++ "\x7d\n".toList)) := by
    unfold text
    simp only [String.toList_append, toList_join, List.append_assoc]
    rfl
  refine ⟨_, _, _, rfl, htext, (reads_takeName h.name _ (by decide)).bind ?_⟩
  have hfields : Reads (upTo "\x7d\n" [("  ", takeField)]) _ m.fields :=
    reads_upTo (by decide) fun f hf => ⟨0, MessageField.formed_text (h.fields f hf)⟩
  exact hfields.bind_pure fun fields => ({ m with fields } : Message)

end Message

/-! ## Calls -/

/-- How a call ends, with one response of the type that was read last, or with a stream of them. -/
def callEnds (name input : String) (last : List Char) : Forms Rpc :=
  [(") \x7b\x7d\n", return { name, input, output := String.ofList last, isStream := false }),
   (" ", if last = "stream".toList then do
      let output ← takeName ") \x7b\x7d\n"
      return { name, input, output, isStream := true }
    else failure)]

/-- Takes a call. -/
def takeRpc : Take Rpc := do
  let name ← takeName " ("
  let input ← takeName ") returns ("
  span isNameChar fun last => oneOf (callEnds name input last)

namespace Rpc

/-- A call that can be told from what is written. -/
structure Legible (r : Rpc) : Prop where
  name : IsName r.name
  input : IsName r.input
  output : IsName r.output

theorem reads_output {r : Rpc} (h : r.Legible) :
    Reads (span isNameChar fun last => oneOf (callEnds r.name r.input last))
      (((if r.isStream then "stream " else "") ++ r.output ++ ") \x7b\x7d\n").toList) r := by
  obtain ⟨name, input, output, isStream⟩ := r
  have htold : ∀ last, Told ((callEnds name input last).map Prod.fst) := fun _ => by
    show Told [") \x7b\x7d\n", " "]
    decide
  cases isStream with
  | true =>
    have hread := (reads_takeName h.output ") \x7b\x7d\n" (by decide)).bind_pure
      fun output => ({ name, input, output, isStream := true } : Rpc)
    have htext : ((if true then "stream " else "") ++ output ++ ") \x7b\x7d\n").toList =
        "stream".toList ++ (" ".toList ++ (output.toList ++ ") \x7b\x7d\n".toList)) := by
      simp
    rw [htext]
    refine reads_span (by decide) rfl (Formed.reads (htold _) (i := 1) ⟨_, _, _, rfl, rfl, ?_⟩)
    rwa [if_pos rfl]
  | false =>
    have htext : ((if false then "stream " else "") ++ output ++ ") \x7b\x7d\n").toList =
        output.toList ++ (") \x7b\x7d\n".toList ++ []) := by
      simp
    rw [htext]
    refine reads_span h.output rfl (Formed.reads (htold _) (i := 0) ⟨_, _, _, rfl, rfl, ?_⟩)
    rw [String.ofList_toList]
    exact Reads.pure _

theorem formed_text {r : Rpc} (h : r.Legible) : Formed [("  rpc ", takeRpc)] 0 r.text.toList r := by
  have htext : r.text.toList = "  rpc ".toList ++ ((r.name.toList ++ " (".toList) ++
      ((r.input.toList ++ ") returns (".toList) ++
        ((if r.isStream then "stream " else "") ++ r.output ++ ") \x7b\x7d\n").toList)) := by
    unfold text
    simp only [String.toList_append, List.append_assoc]
  exact ⟨_, _, _, rfl, htext, (reads_takeName h.name _ (by decide)).bind
    ((reads_takeName h.input _ (by decide)).bind (reads_output h))⟩

end Rpc

/-! ## Files -/

/-- Takes the name of a file that is imported. -/
def takeImport : Take String := spanTo (· != '"') "\";\n"

namespace Schema

/-- What stands between the imports and the name of the service. -/
def optionText : String :=
  "\nextend google.protobuf.FieldOptions \x7b\n  string catalog_type = "
    ++ toString catalogTypeOption ++ ";\n\x7d\n\nservice "

/-- Takes a file up to its messages. -/
def takeHead : Take Schema := do
  expect "syntax = \"proto3\";\n\npackage "
  let package ← takeName ";\n\n"
  let imports ← upTo optionText [("import \"", takeImport)]
  let service ← takeName " \x7b\n"
  let rpcs ← upTo "\x7d\n" [("  rpc ", takeRpc)]
  return {
    package, service, rpcs
    messages := []
    importsTimestamp := imports.contains "google/protobuf/timestamp.proto" }

/-- Reads a file. -/
def read? (text : String) : Option Schema := do
  let (s, rest) ← takeHead.run text.toList
  let messages ← untilEnd [("\nmessage ", takeMessage)] rest.length rest
  return { s with messages }

/-- The names in a file. -/
def names (s : Schema) : List String :=
  s.package :: s.service :: (s.rpcs.flatMap fun r => [r.name, r.input, r.output])
    ++ s.messages.flatMap fun m => m.name :: m.fields.flatMap fun f => [f.name, f.type.text]

/-- A file without a name that its own characters end. -/
def Legible (s : Schema) : Prop := ∀ name ∈ s.names, IsName name

instance (s : Schema) : Decidable s.Legible := inferInstanceAs (Decidable (∀ _ ∈ _, _))

section Legible

variable {s : Schema}

theorem Legible.rpc (h : s.Legible) {r : Rpc} (hr : r ∈ s.rpcs) : r.Legible := by
  have hmem : ∀ n ∈ [r.name, r.input, r.output], n ∈ s.names := fun n hn =>
    List.mem_append_left _ (List.mem_cons_of_mem _ (List.mem_cons_of_mem _
      (List.mem_flatMap.mpr ⟨r, hr, hn⟩)))
  exact ⟨h _ (hmem _ (by simp)), h _ (hmem _ (by simp)), h _ (hmem _ (by simp))⟩

theorem Legible.message (h : s.Legible) {m : Message} (hm : m ∈ s.messages)
    (htold : ∀ f ∈ m.fields, f.type.Told) : m.Legible := by
  have hmem : ∀ n ∈ m.name :: m.fields.flatMap fun f => [f.name, f.type.text], n ∈ s.names :=
    fun n hn => List.mem_append_right _ (List.mem_flatMap.mpr ⟨m, hm, hn⟩)
  refine ⟨h _ (hmem _ List.mem_cons_self), fun f hf => ?_⟩
  have hfield : ∀ n ∈ [f.name, f.type.text], n ∈ s.names := fun n hn =>
    hmem n (List.mem_cons_of_mem _ (List.mem_flatMap.mpr ⟨f, hf, hn⟩))
  exact ⟨h _ (hfield _ (by simp)), h _ (hfield _ (by simp)), htold f hf⟩

theorem formed_import {i : String} (h : i ∈ s.imports) :
    Formed [("import \"", takeImport)] 0 ("import \"" ++ i ++ "\";\n").toList i := by
  have hplain : i.toList.all (· != '"') = true := by
    have hall : ∀ i ∈ ["google/protobuf/descriptor.proto", "google/protobuf/timestamp.proto"],
        i.toList.all (· != '"') = true := by decide
    have hlist : s.imports ⊆ ["google/protobuf/descriptor.proto",
        "google/protobuf/timestamp.proto"] := by
      unfold imports
      split <;> simp
    exact hall i (hlist h)
  have htext : ("import \"" ++ i ++ "\";\n").toList =
      "import \"".toList ++ (i.toList ++ "\";\n".toList) := by
    simp only [String.toList_append, List.append_assoc]
  exact ⟨_, _, _, rfl, htext, reads_spanTo hplain (by decide)⟩

/-- A file up to its messages, part by part. -/
def headText (s : Schema) : List Char :=
  "syntax = \"proto3\";\n\npackage ".toList ++ ((s.package.toList ++ ";\n\n".toList) ++
    (((s.imports.flatMap fun i => ("import \"" ++ i ++ "\";\n").toList) ++ optionText.toList) ++
      ((s.service.toList ++ " \x7b\n".toList) ++
        ((s.rpcs.flatMap fun r => r.text.toList) ++ "\x7d\n".toList))))

theorem toList_text (s : Schema) :
    s.text.toList = s.headText ++ s.messages.flatMap fun m => ("\n" ++ m.text).toList := by
  delta text headText optionText
  simp only [String.toList_append, toList_join, List.append_assoc]

theorem contains_imports (s : Schema) :
    s.imports.contains "google/protobuf/timestamp.proto" = s.importsTimestamp := by
  unfold imports
  cases s.importsTimestamp <;> decide

theorem reads_headText (h : s.Legible) : Reads takeHead s.headText { s with messages := [] } := by
  have hpackage : IsName s.package := h _ (by simp [names])
  have hservice : IsName s.service := h _ (by simp [names])
  have himports : Reads (upTo optionText [("import \"", takeImport)]) _ s.imports :=
    reads_upTo (by decide) fun i hi => ⟨0, formed_import hi⟩
  have hrpcs : Reads (upTo "\x7d\n" [("  rpc ", takeRpc)]) _ s.rpcs :=
    reads_upTo (by decide) fun r hr => ⟨0, Rpc.formed_text (h.rpc hr)⟩
  rw [← contains_imports s]
  exact (reads_expect _).bind ((reads_takeName hpackage _ (by decide)).bind (himports.bind
    ((reads_takeName hservice _ (by decide)).bind (hrpcs.bind_pure _))))

/-- **The file of a schema says what the schema does**, if names keep clear of what ends a name. -/
theorem read?_text (h : s.Legible)
    (htold : ∀ m ∈ s.messages, ∀ f ∈ m.fields, f.type.Told) : read? s.text = some s := by
  have hform : ∀ m ∈ s.messages, ∃ i, Formed [("\nmessage ", takeMessage)] i
      ("\n" ++ m.text).toList m := fun m hm => ⟨0, Message.formed_text (h.message hm (htold m hm))⟩
  have hne : ∀ m ∈ s.messages, ("\n" ++ m.text).toList ≠ [] := fun m _ => by simp
  unfold read?
  rw [toList_text, reads_headText h]
  simp only [Option.bind_eq_bind, Option.bind_some]
  rw [untilEnd_flatMap (by decide) hform hne (length_le_length_flatMap hne)]
  rfl

end Legible

end Schema

end StoredCall
