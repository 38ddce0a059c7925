import StoredCall.Name
import StoredCall.Proofs.Text.Blank
import StoredCall.Proofs.Text.Split

/-!
# References and keys

A reference is brought to its normal text and read from there. The key of a full name that a
reference may mean is itself the normal text of a reference, which means this full name first.

* `PlainText` are texts without quotes and white space, `CapitalText` those that are normal already.
* `Reference.ofNormal?` reads a normal text, and `Reference.text_of_ofNormal?` gives it back.
* `Reference.Formed` says of what names a reference is made; `Reference.Formed.ofNormal?_text` reads
  such a reference from its text.
* **`Reference.Formed.exists_reads_key`**: the key of a name that a reference may mean reads as a
  reference which means that name first.
* `QName.eq_of_key_eq`: a key of two names without a mark is that of one full name only.
-/

namespace StoredCall

open Text

/-! ## Normal texts -/

/-- A text without quotes and white space. -/
def PlainText (s : String) : Prop := ∀ c ∈ s.toList, c ≠ '"' ∧ isBlank c = false

/-- A plain text in capitals. -/
def CapitalText (s : String) : Prop := ∀ c ∈ s.toList, c ≠ '"' ∧ isBlank c = false ∧ c.toUpper = c

theorem toList_normalize {s : String} (h : PlainText s) :
    (normalize s).toList = s.toList.map Char.toUpper := by
  have hstrip : strip isBlank s.toList = s.toList := strip_eq_self fun c hc => (h c hc).2
  have hfilter : s.toList.filter (· ≠ '"') = s.toList :=
    List.filter_eq_self.mpr fun c hc => by simpa using (h c hc).1
  simp only [normalize, upper, trim, String.toList_ofList, hstrip, hfilter]

/-- Only letters turn into letters. -/
theorem toUpper_ne {c d : Char} (hd : d.isAlpha = false) (h : c ≠ d) : c.toUpper ≠ d := by
  by_cases hlower : c.isLower = true
  · rintro rfl
    rw [Char.isAlpha_toUpper_eq_isAlpha, Char.isAlpha, hlower, Bool.or_true] at hd
    cases hd
  · rwa [Char.toUpper_eq_of_not_isLower hlower]

/-- The normal text of a plain one is in capitals. -/
theorem PlainText.capital_normalize {s : String} (h : PlainText s) : CapitalText (normalize s) := by
  intro c hc
  rw [toList_normalize h] at hc
  obtain ⟨d, hd, rfl⟩ := List.mem_map.mp hc
  exact ⟨toUpper_ne rfl (h d hd).1, (isBlank_toUpper d).trans (h d hd).2,
    Char.toUpper_toUpper_eq_toUpper d⟩

/-- A text in capitals is normal. -/
theorem CapitalText.normalize_eq {s : String} (h : CapitalText s) : normalize s = s := by
  refine String.toList_inj.mp ?_
  rw [toList_normalize fun c hc => ⟨(h c hc).1, (h c hc).2.1⟩]
  calc s.toList.map Char.toUpper = s.toList.map id :=
        List.map_congr_left fun c hc => (h c hc).2.2
    _ = s.toList := List.map_id _

/-- A name: not empty, without dots, and in capitals. -/
structure NamePart (s : String) : Prop where
  nonempty : s ≠ ""
  dot : '.' ∉ s.toList
  capital : CapitalText s

/-- A name as it may be written: not empty, without dots, quotes and white space. -/
structure WrittenName (s : String) : Prop where
  nonempty : s ≠ ""
  dot : '.' ∉ s.toList
  plain : PlainText s

theorem WrittenName.namePart {s : String} (h : WrittenName s) : NamePart (normalize s) where
  nonempty hempty := by
    have hlist := toList_normalize h.plain
    rw [hempty] at hlist
    exact h.nonempty (String.toList_inj.mp (List.map_eq_nil_iff.mp hlist.symm))
  dot hdot := by
    rw [toList_normalize h.plain] at hdot
    obtain ⟨c, hc, hupper⟩ := List.mem_map.mp hdot
    exact toUpper_ne rfl (fun heq : c = '.' => h.dot (heq ▸ hc)) hupper
  capital := h.plain.capital_normalize

/-! ## Dotted names -/

/-- Names with dots between them. -/
def dotted (names : List String) : List Char := ['.'].intercalate (names.map String.toList)

theorem dotted_singleton (s : String) : dotted [s] = s.toList := List.intercalate_singleton

theorem dotted_cons_cons (s t : String) (rest : List String) :
    dotted (s :: t :: rest) = s.toList ++ '.' :: dotted (t :: rest) := by
  simp only [dotted, List.map_cons, List.intercalate_cons_cons, List.append_assoc,
    List.singleton_append]

/-- The parts of a text make it up. -/
theorem dotted_parts (cs : List Char) : dotted (Reference.parts cs) = cs := by
  have hmap : (Reference.parts cs).map String.toList = pieces '.' cs := by
    simp [Reference.parts, Function.comp_def]
  rw [dotted, hmap, intercalate_pieces]

/-- Names without dots are the parts of the text that they make up. -/
theorem parts_dotted : ∀ {names : List String}, names ≠ [] → (∀ s ∈ names, '.' ∉ s.toList) →
    Reference.parts (dotted names) = names
  | [], hne, _ => absurd rfl hne
  | [s], _, h => by
    rw [dotted_singleton, Reference.parts, pieces_eq_singleton (h s List.mem_cons_self)]
    simp
  | s :: t :: rest, _, h => by
    have ih := parts_dotted (List.cons_ne_nil t rest) fun u hu => h u (List.mem_cons_of_mem s hu)
    rw [Reference.parts] at ih ⊢
    rw [dotted_cons_cons, pieces_append_sep (h s List.mem_cons_self), List.map_cons, ih,
      String.ofList_toList]

theorem capital_dotted : ∀ {names : List String}, (∀ s ∈ names, CapitalText s) →
    ∀ c ∈ dotted names, c ≠ '"' ∧ isBlank c = false ∧ c.toUpper = c
  | [], _, c, hc => by cases hc
  | [s], h, c, hc => h s List.mem_cons_self c (dotted_singleton s ▸ hc)
  | s :: t :: rest, h, c, hc => by
    rw [dotted_cons_cons] at hc
    rcases List.mem_append.mp hc with hc | hc
    · exact h s List.mem_cons_self c hc
    rcases List.mem_cons.mp hc with rfl | hc
    · decide
    · exact capital_dotted (fun u hu => h u (List.mem_cons_of_mem s hu)) c hc

/-- The parts of a text in capitals are names, unless they are empty. -/
theorem namePart_of_mem_parts {cs : List Char} {s : String} (hs : s ∈ Reference.parts cs)
    (hne : s ≠ "") (h : ∀ c ∈ cs, c ≠ '"' ∧ isBlank c = false ∧ c.toUpper = c) : NamePart s := by
  obtain ⟨w, hw, rfl⟩ := List.mem_map.mp hs
  refine ⟨hne, ?_, fun c hc => h c ?_⟩
  · rw [String.toList_ofList]
    exact notMem_of_mem_pieces hw
  · rw [String.toList_ofList] at hc
    exact mem_of_mem_pieces hw hc

/-- A text that does not end in the mark of a row type. -/
def Unmarked (cs : List Char) : Prop := dropEnd? rowMark.toList cs = none

theorem dot_notMem_rowMark : '.' ∉ rowMark.toList := by decide

/-- A mark stands in the last name. -/
theorem Unmarked.append_dot {cs : List Char} (h : Unmarked cs) (before : List Char) :
    Unmarked (before ++ '.' :: cs) := by
  rw [Unmarked, dropEnd?_append_cons dot_notMem_rowMark, h]
  rfl

/-! ## Full names -/

namespace QName

/-- The normal forms of names are the names. -/
theorem ofType_none {owner name : String} (ho : NamePart owner) (hn : NamePart name) :
    ofType owner none name = { owner := owner, name := name } := by
  simp [ofType, ho.capital.normalize_eq, hn.capital.normalize_eq]

theorem ofType_some {owner package name : String} (ho : NamePart owner) (hp : NamePart package)
    (hn : NamePart name) : ofType owner (some package) name =
      { owner := owner, package := some package, name := name } := by
  simp [ofType, ho.capital.normalize_eq, hp.capital.normalize_eq, hn.capital.normalize_eq,
    hp.nonempty]

theorem ofRow_eq {owner table : String} (ho : NamePart owner) (ht : NamePart table) :
    ofRow owner table = { owner := owner, name := table, isRow := true } := by
  simp [ofRow, ho.capital.normalize_eq, ht.capital.normalize_eq]

theorem toList_key (q : QName) : q.key.toList =
    dotted (q.owner :: (q.package.toList ++ [q.name])) ++
      if q.isRow then rowMark.toList else [] := by
  obtain ⟨owner, _ | package, name, _ | _⟩ := q <;>
    simp [key, dotted_cons_cons, dotted_singleton]

/-- **A key of two names without a mark is that of one full name only.** -/
theorem eq_of_key_eq {owner name : String} (ho : '.' ∉ owner.toList)
    (hn : '.' ∉ name.toList) (hmark : Unmarked (owner.toList ++ '.' :: name.toList)) {q : QName}
    (h : q.key = owner ++ "." ++ name) : q = { owner := owner, name := name } := by
  have hkey : q.key.toList = dotted [owner, name] := by
    rw [h, dotted_cons_cons, dotted_singleton]
    simp
  have hrow : q.isRow = false := by
    by_contra hrow
    rw [toList_key, if_pos (by simpa using hrow), dotted_cons_cons owner, dotted_singleton] at hkey
    rw [Unmarked, dropEnd?_eq_some_iff.mpr hkey.symm] at hmark
    cases hmark
  rw [toList_key, hrow, if_neg (by simp), List.append_nil] at hkey
  -- One dot leaves no room for a package, nor for another dot in a name.
  have hdots := congrArg (List.count '.') hkey
  have hparts : Reference.parts (dotted [owner, name]) = [owner, name] :=
    parts_dotted (by simp) (by simp [ho, hn])
  obtain ⟨owner', _ | package', name', isRow'⟩ := q
  · simp only [dotted_cons_cons, dotted_singleton, Option.toList_none, List.nil_append,
      List.count_append, List.count_cons_self, List.count_eq_zero.mpr ho,
      List.count_eq_zero.mpr hn] at hdots
    have hparts' : Reference.parts (dotted [owner', name']) = [owner', name'] := by
      refine parts_dotted (by simp) fun s hs => ?_
      rcases List.mem_pair.mp hs with rfl | rfl
      · exact List.count_eq_zero.mp (by omega)
      · exact List.count_eq_zero.mp (by omega)
    have hnames : [owner', name'] = [owner, name] := by
      rw [← hparts', ← hparts, ← hkey]
      rfl
    cases hnames
    cases hrow
    rfl
  · simp only [dotted_cons_cons, dotted_singleton, Option.toList_some, List.singleton_append,
      List.count_append, List.count_cons_self, List.count_eq_zero.mpr ho,
      List.count_eq_zero.mpr hn] at hdots
    omega

end QName

/-! ## References -/

namespace Reference

/-- Reads a normal text. -/
def ofNormal? (text : String) : Option Reference :=
  if text = "" then none
  else match dropEnd? rowMark.toList text.toList with
    | some base => ofRowParts? (parts base)
    | none => ofParts? (parts text.toList)

theorem parse?_eq (s : String) : parse? s = ofNormal? (normalize s) := by
  delta parse? ofNormal?
  generalize normalize s = text
  rfl

theorem parse_eq_ok_iff {s : String} {r : Reference} :
    parse s = .ok r ↔ ofNormal? (normalize s) = some r := by
  simp only [← parse?_eq]
  unfold parse
  cases parse? s <;> simp

theorem ofNormal?_of_marked {text : String} {base : List Char}
    (h : text.toList = base ++ rowMark.toList) : ofNormal? text = ofRowParts? (parts base) := by
  have hne : text ≠ "" := by
    rintro rfl
    exact absurd (List.append_eq_nil_iff.mp h.symm).2 (by decide)
  rw [ofNormal?, if_neg hne, dropEnd?_eq_some_iff.mpr h]

theorem ofNormal?_of_unmarked {text : String} (hne : text ≠ "") (h : Unmarked text.toList) :
    ofNormal? text = ofParts? (parts text.toList) := by
  rw [ofNormal?, if_neg hne, h]

/-- The names of a reference. -/
def names : Reference → List String
  | .bare name => [name]
  | .qualified owner name => [owner, name]
  | .full owner package name => [owner, package, name]
  | .row (some owner) table => [owner, table]
  | .row none table => [table]

/-- Whether a reference is to the row of a table. -/
def isRow : Reference → Bool
  | .row .. => true
  | _ => false

theorem toList_text (r : Reference) :
    r.text.toList = dotted r.names ++ if r.isRow then rowMark.toList else [] := by
  rcases r with name | ⟨owner, name⟩ | ⟨owner, package, name⟩ | ⟨_ | owner, table⟩ <;>
    simp [text, names, isRow, dotted_cons_cons, dotted_singleton]

theorem text_ne_empty {r : Reference} (h : ∀ s ∈ r.names, s ≠ "") : r.text ≠ "" := by
  intro hempty
  have hlist := r.toList_text
  rw [hempty] at hlist
  have hnil := (List.append_eq_nil_iff.mp hlist.symm).1
  rcases r with name | ⟨owner, name⟩ | ⟨owner, package, name⟩ | ⟨_ | owner, table⟩ <;>
    simp_all [names, dotted_cons_cons, dotted_singleton]

/-- A type reference is made of the parts that it is read from. -/
theorem ofParts?_eq_some {ps : List String} {r : Reference} (h : ofParts? ps = some r) :
    r.names = ps ∧ r.isRow = false ∧ ∀ s ∈ ps, s ≠ "" := by
  unfold ofParts? at h
  split at h
  · cases h
  · next hany =>
    have hne : ∀ s ∈ ps, s ≠ "" := fun s hs hempty =>
      hany (List.any_eq_true.mpr ⟨s, hs, by simpa using hempty⟩)
    split at h <;> cases h <;> exact ⟨rfl, rfl, hne⟩

/-- A row reference is made of the parts that it is read from. -/
theorem ofRowParts?_eq_some {ps : List String} {r : Reference} (h : ofRowParts? ps = some r) :
    r.names = ps ∧ r.isRow = true ∧ ∀ s ∈ ps, s ≠ "" := by
  unfold ofRowParts? at h
  split at h
  · next table =>
    split at h
    · cases h
    · next hne =>
      cases h
      exact ⟨rfl, rfl, by simpa using hne⟩
  · next owner table =>
    split at h
    · cases h
    · next hne =>
      cases h
      exact ⟨rfl, rfl, by simpa using hne⟩
  · cases h

/-- **What was read has the text that it was read from.** -/
theorem text_of_ofNormal? {text : String} {r : Reference} (h : ofNormal? text = some r) :
    r.text = text := by
  refine String.toList_inj.mp ?_
  by_cases hne : text = ""
  · rw [ofNormal?, if_pos hne] at h
    cases h
  cases hmark : dropEnd? rowMark.toList text.toList with
  | some base =>
    have htext := dropEnd?_eq_some_iff.mp hmark
    rw [ofNormal?_of_marked htext] at h
    obtain ⟨hnames, hrow, -⟩ := ofRowParts?_eq_some h
    rw [toList_text, hnames, hrow, dotted_parts, htext]
    rfl
  | none =>
    rw [ofNormal?_of_unmarked hne hmark] at h
    obtain ⟨hnames, hrow, -⟩ := ofParts?_eq_some h
    rw [toList_text, hnames, hrow, dotted_parts]
    exact List.append_nil _

/-- A reference that is made of names, and is to a row just if it has the mark. -/
structure Formed (r : Reference) : Prop where
  namePart : ∀ s ∈ r.names, NamePart s
  unmarked : r.isRow = false → Unmarked r.text.toList

/-- A text in capitals reads as a formed reference. -/
theorem formed_of_ofNormal? {text : String} {r : Reference} (hcap : CapitalText text)
    (h : ofNormal? text = some r) : r.Formed := by
  have htext : r.text = text := text_of_ofNormal? h
  have hne : text ≠ "" := by
    rintro rfl
    cases h
  cases hmark : dropEnd? rowMark.toList text.toList with
  | some base =>
    have hbase := dropEnd?_eq_some_iff.mp hmark
    rw [ofNormal?_of_marked hbase] at h
    obtain ⟨hnames, hrow, hparts⟩ := ofRowParts?_eq_some h
    refine ⟨fun s hs => ?_, fun hrow' => absurd (hrow.symm.trans hrow') (by simp)⟩
    rw [hnames] at hs
    exact namePart_of_mem_parts hs (hparts s hs) fun c hc =>
      hcap c (hbase ▸ List.mem_append_left _ hc)
  | none =>
    rw [ofNormal?_of_unmarked hne hmark] at h
    obtain ⟨hnames, -, hparts⟩ := ofParts?_eq_some h
    refine ⟨fun s hs => ?_, fun _ => htext ▸ hmark⟩
    rw [hnames] at hs
    exact namePart_of_mem_parts hs (hparts s hs) hcap

theorem Formed.capital {r : Reference} (h : r.Formed) : CapitalText r.text := by
  have hmark : CapitalText rowMark := by simp [CapitalText, rowMark, isBlank]
  intro c hc
  rw [toList_text] at hc
  rcases List.mem_append.mp hc with hc | hc
  · exact capital_dotted (fun s hs => (h.namePart s hs).capital) c hc
  · split at hc
    · exact hmark c hc
    · cases hc

/-- **A formed reference is read from its text.** -/
theorem Formed.ofNormal?_text {r : Reference} (h : r.Formed) : ofNormal? r.text = some r := by
  have hparts : parts (dotted r.names) = r.names := by
    refine parts_dotted ?_ fun s hs => (h.namePart s hs).dot
    rcases r with name | ⟨owner, name⟩ | ⟨owner, package, name⟩ | ⟨_ | owner, table⟩ <;>
      simp [names]
  have hne : ∀ s ∈ r.names, s ≠ "" := fun s hs => (h.namePart s hs).nonempty
  by_cases hrow : r.isRow = true
  · have htext : r.text.toList = dotted r.names ++ rowMark.toList := by
      rw [toList_text, if_pos hrow]
    rw [ofNormal?_of_marked htext, hparts]
    rcases r with name | ⟨owner, name⟩ | ⟨owner, package, name⟩ | ⟨_ | owner, table⟩ <;>
      simp_all [names, isRow, ofRowParts?]
  · have htext : r.text.toList = dotted r.names := by
      rw [toList_text, if_neg hrow, List.append_nil]
    rw [ofNormal?_of_unmarked (text_ne_empty hne) (h.unmarked (by simpa using hrow)), htext,
      hparts]
    rcases r with name | ⟨owner, name⟩ | ⟨owner, package, name⟩ | ⟨_ | owner, table⟩ <;>
      simp_all [names, isRow, ofParts?]

/-- Only the normal form of an owner matters. -/
theorem candidates_normalize {owner : String} (ho : WrittenName owner) (r : Reference) :
    r.candidates (normalize owner) = r.candidates owner := by
  have hnormal : normalize (normalize owner) = normalize owner :=
    ho.namePart.capital.normalize_eq
  rcases r with name | ⟨o, name⟩ | ⟨o, package, name⟩ | ⟨_ | o, table⟩ <;>
    simp [candidates, QName.ofType, QName.ofRow, hnormal]

/-- **The key of a name that a reference may mean reads as a reference that means it first.** -/
theorem Formed.exists_reads_key {r : Reference} (h : r.Formed) {owner : String}
    (ho : WrittenName owner) {q : QName} (hq : q ∈ r.candidates owner) :
    ∃ r' rest, Formed r' ∧ r'.text = q.key ∧ r'.candidates owner = q :: rest := by
  rw [← candidates_normalize ho] at hq
  simp only [← candidates_normalize ho]
  have ho := ho.namePart
  generalize normalize owner = owner at ho hq ⊢
  have hnames := h.namePart
  rcases r with name | ⟨o, name⟩ | ⟨o, package, name⟩ | ⟨_ | o, table⟩
  · have hn : NamePart name := hnames name (by simp [names])
    rw [candidates, QName.ofType_none ho hn, List.mem_singleton] at hq
    refine ⟨.qualified owner name, _, ⟨by simp [names, ho, hn], fun _ => ?_⟩, ?_,
      by rw [candidates, QName.ofType_none ho hn, hq]⟩
    · have := (h.unmarked rfl).append_dot owner.toList
      simpa [text] using this
    · simp [hq, QName.key, text]
  · have hp : NamePart o := hnames o (by simp [names])
    have hn : NamePart name := hnames name (by simp [names])
    rw [candidates, QName.ofType_none hp hn, QName.ofType_some ho hp hn, List.mem_pair] at hq
    rcases hq with rfl | rfl
    · exact ⟨.qualified o name, _, h, by simp [QName.key, text],
        by rw [candidates, QName.ofType_none hp hn]⟩
    · refine ⟨.full owner o name, _, ⟨by simp [names, ho, hp, hn], fun _ => ?_⟩, ?_,
        by rw [candidates, QName.ofType_some ho hp hn]⟩
      · have := (h.unmarked rfl).append_dot owner.toList
        simpa [text] using this
      · simp [QName.key, text]
  · have hq' : q = _ := List.mem_singleton.mp hq
    refine ⟨.full o package name, _, h, ?_, by rw [candidates, hq']⟩
    rw [hq', QName.ofType_some (hnames o (by simp [names])) (hnames package (by simp [names]))
      (hnames name (by simp [names]))]
    simp [QName.key, text]
  · have ht : NamePart table := hnames table (by simp [names])
    have hq' : q = _ := List.mem_singleton.mp hq
    refine ⟨.row (some owner) table, _, ⟨by simp [names, ho, ht], fun hrow => by cases hrow⟩, ?_,
      by rw [candidates, hq']; rfl⟩
    rw [hq', Option.getD_none, QName.ofRow_eq ho ht]
    simp [QName.key, text]
  · have hq' : q = _ := List.mem_singleton.mp hq
    refine ⟨.row (some o) table, _, h, ?_, by rw [candidates, hq']⟩
    rw [hq', Option.getD_some,
      QName.ofRow_eq (hnames o (by simp [names])) (hnames table (by simp [names]))]
    simp [QName.key, text]

/-- A name that is passed over shares its key with no other. -/
theorem Formed.eq_of_key_eq {r : Reference} (h : r.Formed) {owner : String}
    {q q' : QName} {before rest : List QName} (hq : r.candidates owner = before ++ q :: q' :: rest)
    {p : QName} (hp : p.key = q.key) : p = q := by
  -- Only a reference of two names may mean more than one name.
  have hsingle : ∀ x : QName, [x] ≠ before ++ q :: q' :: rest := fun x hx => by
    have hlen := congrArg List.length hx
    simp only [List.length_append, List.length_cons, List.length_nil] at hlen
    omega
  rcases r with name | ⟨o, name⟩ | ⟨o, package, name⟩ | ⟨o, table⟩
  · exact absurd hq (hsingle _)
  · have ho : NamePart o := h.namePart o (by simp [names])
    have hn : NamePart name := h.namePart name (by simp [names])
    rw [candidates, QName.ofType_none ho hn] at hq
    obtain ⟨rfl⟩ : before = [] := by
      have hlen := congrArg List.length hq
      simp only [List.length_append, List.length_cons, List.length_nil] at hlen
      exact List.length_eq_zero_iff.mp (by omega)
    obtain ⟨rfl, -⟩ := List.cons.inj hq
    refine QName.eq_of_key_eq ho.dot hn.dot ?_ (hp.trans (by simp [QName.key]))
    simpa [text] using h.unmarked rfl
  · exact absurd hq (hsingle _)
  · exact absurd hq (hsingle _)

end Reference

end StoredCall
