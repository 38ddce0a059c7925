import StoredCall.Proofs.Xml
import StoredCall.Value.Document

/-!
# Values come back from markup

Writing a value as markup and reading it gives the value, as long as the value has only what markup
can tell: texts without white space at their ends, lists, objects and null.

* `Value.Markable` are these values.
* `Value.Reading.run_append`: pieces are taken in one after the other.
* `Value.Markable.written`: the element of a value is cut into pieces that, taken in at any point of
  a document, add the value there.
* **`Value.decode_encode_xml`**: hence the document of a value is read as the value.
-/

namespace StoredCall.Value

open Text Xml

/-- Values that markup can tell apart from all others. Two or more fields of the name that elements
of a list have would be a list. -/
inductive Markable : Value → Prop where
  | null : Markable null
  | text {s : String} : Trimmed s.toList → Markable (text s)
  | list {items : List Value} : (∀ v ∈ items, Markable v) → Markable (list items)
  | object {fields : List (String × Value)} : fields ≠ [] → (∀ f ∈ fields, isName f.1 = true) →
      ¬ (2 ≤ fields.length ∧ ∀ f ∈ fields, f.1 = itemName) → (∀ f ∈ fields, Markable f.2) →
        Markable (object fields)

/-! ## Tags of elements -/

section Tags

variable {name : String}

theorem scans_openTag (h : isName name = true) : Scans (openTag name) [.start name []] := by
  have hscans := scans_opening h [] fun rest => rfl
  rwa [List.append_nil, openingPiece, dropEnd?_of_isName h, nameAndAttributes_of_isName h] at hscans

/-- The tag of null. -/
theorem scans_emptyTag (h : isName name = true) :
    Scans ('<' :: (name.toList ++ ['/', '>'])) [.empty name []] := by
  have hscans := scans_opening h ['/'] fun rest => rfl
  rwa [openingPiece_slash, nameAndAttributes_of_isName h, List.append_assoc,
    List.singleton_append] at hscans

theorem scans_closeTag (h : isName name = true) : Scans (closeTag name) [.close name] := by
  refine scans_markup fun rest => ?_
  have hinside : tagInside none (name.toList ++ '>' :: rest) = some (name.toList, rest) := by
    rw [tagInside_append (not_quote_of_isName h), tagInside, if_pos rfl]
    simp
  have hstrip : stripEnd isSpace name.toList = name.toList := by
    obtain ⟨c, cs, hname, hchars⟩ := exists_of_isName h
    refine List.rdropWhile_eq_self_iff.mpr fun hne => ?_
    rw [isSpace_of_isNameChar (hchars _ (hname ▸ List.getLast_mem hne))]
    exact Bool.false_ne_true
  rw [List.cons_append, List.append_assoc, List.singleton_append, markup, hinside, Option.map_some]
  simp only [closingName, hstrip, ite_self, String.ofList_toList]

/-- The mark of a list as it stands after the name of a tag. -/
def markText : List Char :=
  ' ' :: (listMark.1.toList ++ '=' :: '"' :: (listMark.2.toList ++ ['"']))

theorem tagInside_markText (rest : List Char) :
    tagInside none (markText ++ rest) =
      (tagInside none rest).map fun x => (markText ++ x.1, x.2) := by
  cases hrest : tagInside none rest <;> simp [markText, listMark, tagInside, hrest]

theorem nameAndAttributes_markText (h : isName name = true) :
    nameAndAttributes (name.toList ++ markText) = (name, [listMark]) := by
  have hattributes : ∀ fuel, attributesFrom (fuel + 2) [] markText = [listMark] := fun fuel => by
    simp [attributesFrom, markText, listMark, isSpace, cutAt?, dropStart?]
  have htake : markText.takeWhile (fun c => !isSpace c) = [] := by decide
  have hlength : (name.toList ++ markText).length = (name.toList.length + 10) + 2 := by
    simp [markText, listMark]
  simp only [nameAndAttributes, takeWhile_isName h, htake, List.append_nil, List.drop_left, hlength,
    hattributes, String.ofList_toList]

/-- The tag of a list that has elements. -/
theorem scans_markedTag (h : isName name = true) :
    Scans ('<' :: (markedName name ++ ['>'])) [.start name [listMark]] := by
  have hscans := scans_opening h markText fun rest => by
    rw [tagInside_markText, tagInside, if_pos rfl, Option.map_some, List.append_nil]
  have hopen : dropEnd? ['/'] (name.toList ++ markText) = none := by
    have hlast : name.toList ++ markText =
        (name.toList ++ ' ' :: (listMark.1.toList ++ '=' :: '"' :: listMark.2.toList)) ++
          ['"'] := by
      simp [markText]
    rw [hlast]
    exact dropEnd?_eq_none (by decide) _
  rwa [openingPiece, hopen, nameAndAttributes_markText h] at hscans

/-- The tag of a list without elements. -/
theorem scans_markedEmptyTag (h : isName name = true) :
    Scans ('<' :: (markedName name ++ ['/', '>'])) [.empty name [listMark]] := by
  have hscans := scans_opening h (markText ++ ['/']) fun rest => by
    rw [List.append_assoc, tagInside_markText]
    rfl
  rw [← List.append_assoc, openingPiece_slash, nameAndAttributes_markText h, List.append_assoc,
    List.singleton_append] at hscans
  exact hscans

end Tags

/-! ## Taking pieces in -/

namespace Reading

/-- Pieces are taken in one after the other. -/
theorem run_append (ps qs : List Piece) (r : Reading) :
    r.run (ps ++ qs) = r.run ps >>= fun r' => r'.run qs := by
  induction ps generalizing r with
  | nil => rfl
  | cons p ps ih =>
    rw [List.cons_append, run, run]
    cases r.step p with
    | error e => rfl
    | ok r' => exact ih r'

theorem run_cons (p : Piece) (ps : List Piece) (r : Reading) :
    r.run (p :: ps) = r.step p >>= fun r' => r'.run ps := rfl

/-- A reading inside one more element. -/
def inside (r : Reading) (e : OpenElement) : Reading := { r with stack := e :: r.stack }

/-- Pieces that add a value under a name, wherever they are taken in. -/
def Adds (ps : List Piece) (name : String) (v : Value) : Prop :=
  ∀ r : Reading, r.run ps = r.attach name v

/-- Finished elements are added to the one they stand in. -/
theorem attach_inside (r : Reading) (e : OpenElement) (name : String) (v : Value) :
    (r.inside e).attach name v = .ok (r.inside { e with children := (name, v) :: e.children }) :=
  rfl

/-- Escaped text is added to the element it stands in. -/
theorem step_text (r : Reading) (e : OpenElement) (cs : List Char) :
    (r.inside e).step (.text (escape cs)) = .ok (r.inside { e with text := e.text ++ cs }) := by
  simp only [step, inside, List.isEmpty_cons, Bool.false_eq_true, if_false, unescape?_escape]
  rfl

/-- An element adds the value that it has when it is closed. -/
theorem step_close (r : Reading) (e : OpenElement) :
    (r.inside e).step (.close e.name) = r.attach e.name e.value := by
  simp only [step, inside, if_true]

theorem adds_singleton {p : Piece} {name : String} {v : Value}
    (h : ∀ r : Reading, r.step p = r.attach name v) : Adds [p] name v := by
  intro r
  rw [run_cons, h]
  cases r.attach name v <;> rfl

/-- An element adds the value of what was taken in between its tags. -/
theorem adds_element {name : String} {attributes : List (String × String)} (ps : List Piece)
    {children : List (String × Value)} {text : List Char}
    (h : ∀ r : Reading, (r.inside ⟨name, attributes.contains listMark, [], []⟩).run ps =
      .ok (r.inside ⟨name, attributes.contains listMark, children, text⟩)) :
    Adds (.start name attributes :: (ps ++ [.close name])) name
      (OpenElement.value ⟨name, attributes.contains listMark, children, text⟩) := by
  intro r
  let e : OpenElement := ⟨name, attributes.contains listMark, children, text⟩
  have hstart : r.run (.start name attributes :: (ps ++ [.close name])) =
      (r.inside ⟨name, attributes.contains listMark, [], []⟩).run (ps ++ [.close name]) := rfl
  have hclose : (r.inside e).step (.close name) = r.attach name e.value := r.step_close e
  rw [hstart, run_append, h]
  show (r.inside e).run [.close name] = r.attach name e.value
  rw [run_cons, hclose]
  cases r.attach name e.value <;> rfl

end Reading

/-! ## Elements -/

/-- The element of a name that holds a value is written, and its pieces add `w`. -/
def WrittenAs (name : String) (v w : Value) : Prop :=
  ∃ cs ps, v.element name = .ok cs ∧ cs.head? = some '<' ∧ Scans cs ps ∧ Reading.Adds ps name w

/-- A document is read as what the pieces of its element add. -/
theorem WrittenAs.decode_encode {v w : Value} (h : WrittenAs rootName v w) :
    ∃ s, v.encode .xml = .ok s ∧ decode s .xml = .ok w := by
  obtain ⟨cs, ps, hcs, hhead, hscans, hadds⟩ := h
  refine ⟨String.ofList cs, ?_, ?_⟩
  · rw [encode, write, hcs]
    rfl
  · rw [decode, read, String.toList_ofList, hscans.scan_eq hhead, hadds]
    rfl

/-- An element with nothing but text is read as the text, whatever value it was written for. -/
theorem writtenAs_text {name : String} (hname : isName name = true) {v : Value} {s : String}
    (hv : v.element name = .ok (openTag name ++ escape s.toList ++ closeTag name))
    (htrim : Trimmed s.toList) : WrittenAs name v (text s) := by
  have hscans := (scans_openTag hname).append (scans_text htrim (scans_closeTag hname))
  have hne : s.toList.isEmpty = false := by simpa using htrim.ne_nil
  have hadds : Reading.Adds [.start name [], .text (escape s.toList), .close name] name
      (OpenElement.value ⟨name, false, [], s.toList⟩) :=
    Reading.adds_element [.text (escape s.toList)] fun r => by
      rw [Reading.run_cons, Reading.step_text]
      rfl
  simp only [OpenElement.value, List.reverse_nil, List.isEmpty_nil, hne, if_true,
    Bool.false_eq_true, if_false, String.ofList_toList] at hadds
  refine ⟨_, _, hv, rfl, ?_, hadds⟩
  rw [List.append_assoc]
  exact hscans

/-- Elements of a list are fields of one name. -/
theorem itemElements_eq (items : List Value) :
    itemElements items = fieldElements (items.map fun v => (itemName, v)) := by
  induction items with
  | nil => rfl
  | cons v rest ih => rw [itemElements, List.map_cons, fieldElements, ih]

/-- Fields inside an open element become its children. -/
theorem fields_written {fields : List (String × Value)} (h : ∀ f ∈ fields, WrittenAs f.1 f.2 f.2) :
    ∃ cs ps, fieldElements fields = .ok cs ∧ Scans cs ps ∧ ∀ (r : Reading) (e : OpenElement),
      (r.inside e).run ps = .ok (r.inside { e with children := fields.reverse ++ e.children }) := by
  induction fields with
  | nil => exact ⟨[], [], rfl, .nil, fun r e => rfl⟩
  | cons f rest ih =>
    rw [List.forall_mem_cons] at h
    obtain ⟨cs, ps, hcs, -, hscans, hadds⟩ := h.1
    obtain ⟨cs', ps', hcs', hscans', hrun⟩ := ih h.2
    refine ⟨cs ++ cs', ps ++ ps', ?_, hscans.append hscans', fun r e => ?_⟩
    · rw [fieldElements, hcs, hcs']
      rfl
    · rw [Reading.run_append, hadds, Reading.attach_inside]
      refine (hrun r _).trans ?_
      simp

/-- An element that is opened by a tag and has fields inside. -/
theorem scans_of_fields {name : String} (hname : isName name = true)
    {fields : List (String × Value)} (h : ∀ f ∈ fields, WrittenAs f.1 f.2 f.2) {tag : List Char}
    {attributes : List (String × String)} (htag : Scans tag [.start name attributes]) :
    ∃ cs ps, fieldElements fields = .ok cs ∧ Scans (tag ++ cs ++ closeTag name) ps ∧
      Reading.Adds ps name
        (OpenElement.value ⟨name, attributes.contains listMark, fields.reverse, []⟩) := by
  obtain ⟨cs, ps, hcs, hscans, hrun⟩ := fields_written h
  refine ⟨cs, .start name attributes :: (ps ++ [.close name]), hcs, ?_, ?_⟩
  · rw [List.append_assoc]
    exact htag.append (hscans.append (scans_closeTag hname))
  · refine Reading.adds_element ps fun r => (hrun r _).trans ?_
    rw [List.append_nil]

/-- An element without the mark is an object, unless it looks like a list. -/
theorem value_of_fields {fields : List (String × Value)} (hne : fields ≠ [])
    (hitem : ¬ (2 ≤ fields.length ∧ ∀ f ∈ fields, f.1 = itemName)) (name : String) :
    OpenElement.value ⟨name, false, fields.reverse, []⟩ = object fields := by
  have hsome : fields.isEmpty = false := by simpa using hne
  have hcond : (decide (1 < fields.length) && fields.all fun f => f.1 == itemName) = false := by
    rw [Bool.eq_false_iff]
    intro h
    rw [Bool.and_eq_true, decide_eq_true_eq, List.all_eq_true] at h
    exact hitem ⟨h.1, fun f hf => beq_iff_eq.mp (h.2 f hf)⟩
  simp only [OpenElement.value, List.reverse_reverse, Bool.false_eq_true, if_false, hsome, hcond]

/-- **The element of a value** is written, and its pieces add the value wherever they are taken
in. -/
theorem Markable.written {v : Value} (h : Markable v) :
    ∀ name, isName name = true → WrittenAs name v v := by
  induction h with
  | null =>
    intro name hname
    exact ⟨_, _, rfl, rfl, scans_emptyTag hname, Reading.adds_singleton fun r => rfl⟩
  | @text s htrim =>
    intro name hname
    exact writtenAs_text hname rfl htrim
  | @list items _ ih =>
    intro name hname
    cases items with
    | nil =>
      exact ⟨_, _, rfl, rfl, scans_markedEmptyTag hname, Reading.adds_singleton fun r => rfl⟩
    | cons v rest =>
      have hitem : isName itemName = true := by decide
      have hall : ∀ f ∈ (v :: rest).map fun v => (itemName, v), WrittenAs f.1 f.2 f.2 :=
        List.forall_mem_map.mpr fun w hw => ih w hw itemName hitem
      obtain ⟨cs, ps, hcs, hscans, hadds⟩ := scans_of_fields hname hall (scans_markedTag hname)
      have hvalue : OpenElement.value ⟨name, [listMark].contains listMark,
          ((v :: rest).map fun v => (itemName, v)).reverse, []⟩ = .list (v :: rest) := by
        simp [OpenElement.value]
      rw [← itemElements_eq] at hcs
      rw [hvalue] at hadds
      refine ⟨'<' :: (markedName name ++ '>' :: (cs ++ closeTag name)), ps, ?_, rfl, ?_, hadds⟩
      · rw [element, hcs]
        rfl
      · simpa using hscans
  | @object fields hne hnames hitem _ ih =>
    intro name hname
    obtain ⟨cs, ps, hcs, hscans, hadds⟩ :=
      scans_of_fields hname (fun f hf => ih f hf f.1 (hnames f hf)) (scans_openTag hname)
    rw [List.contains_nil, value_of_fields hne hitem] at hadds
    refine ⟨openTag name ++ cs ++ closeTag name, ps, ?_, rfl, hscans, hadds⟩
    rw [element, hcs]
    rfl

/-- **Values come back from markup**: the document of a value that markup can tell is read as this
value. -/
theorem decode_encode_xml {v : Value} (h : Markable v) :
    ∃ s, v.encode .xml = .ok s ∧ decode s .xml = .ok v :=
  (h.written rootName (by decide)).decode_encode

/-- A shipment: a list in a list, an empty list, an object with nothing but an `item`, null inside a
list, and a text with all characters that need a reference. -/
def shipment : Value :=
  object [
    ("note", text "5 < 6 & \"7\" > '3'"),
    ("boxes", list [list [text "a", null], list []]),
    ("wrapper", object [("item", text "y z")]),
    ("returned", null)]

theorem shipment_markable : Markable shipment := by
  have hboxes : Markable (list [list [text "a", null], list []]) := by
    refine .list (List.forall_mem_cons.mpr ⟨.list (List.forall_mem_cons.mpr ⟨?_, ?_⟩), ?_⟩)
    · exact .text (by decide)
    · exact List.forall_mem_singleton.mpr .null
    · exact List.forall_mem_singleton.mpr (.list fun v hv => absurd hv List.not_mem_nil)
  have hwrapper : Markable (object [("item", text "y z")]) :=
    .object (by simp) (by decide) (by decide) (List.forall_mem_singleton.mpr (.text (by decide)))
  refine .object (by simp) (by decide) (by decide) ?_
  simp only [List.forall_mem_cons]
  exact ⟨.text (by decide), hboxes, hwrapper, .null, fun f hf => absurd hf List.not_mem_nil⟩

theorem shipment_decode_encode_xml :
    Markable shipment ∧ ∃ s, shipment.encode .xml = .ok s ∧ decode s .xml = .ok shipment :=
  ⟨shipment_markable, decode_encode_xml shipment_markable⟩

end StoredCall.Value
