import StoredCall.Proofs.Text.Base64
import StoredCall.Proofs.Text.Split
import StoredCall.Proofs.Timestamp
import StoredCall.Proofs.Value.Json
import StoredCall.Proofs.Value.Markup

/-!
# Scalars survive documents

Documents do not tell all kinds of scalars apart. JSON has texts for decimals, bytes and timestamps,
and markup has nothing but texts; the kind that a slot asks for brings the scalar back.

* `Value.OfKind` are the scalars that a kind has, with decimals that are literals.
* `Value.Shown` are those that a format tells from null and from each other: markup has no empty
  text, and drops white space at the ends of one.
* `Value.settled` is a scalar with its long seconds settled, the one thing that no text tells.
* `Value.coerce?_scalarText`: a scalar is brought back from its text, settled.
* **`Value.coerce_decode_encode`**: a scalar that was written to a document, read and brought into
  its kind is the scalar, but for seconds that are too long and no leap seconds.
-/

namespace StoredCall.Value

open Number Text Xml

/-! ## Decimal literals -/

/-- An optional sign, and digits with an optional point among them. -/
inductive DecimalLiteral : List Char → Prop where
  | whole {sign digits : List Char} : sign ∈ [[], ['-'], ['+']] → digits ≠ [] →
      (∀ c ∈ digits, c.isDigit = true) → DecimalLiteral (sign ++ digits)
  | point {sign before after : List Char} : sign ∈ [[], ['-'], ['+']] → before ++ after ≠ [] →
      (∀ c ∈ before ++ after, c.isDigit = true) → DecimalLiteral (sign ++ (before ++ '.' :: after))

/-- A sign is taken off a text that does not begin with one otherwise. -/
theorem takeSign_append {sign body : List Char} (hsign : sign ∈ [[], ['-'], ['+']])
    (hbody : ∀ c ∈ body.head?, c ≠ '-' ∧ c ≠ '+') :
    takeSign (sign ++ body) = (sign == ['-'], body) := by
  simp only [List.mem_cons, List.not_mem_nil, or_false] at hsign
  rcases hsign with rfl | rfl | rfl
  · cases body with
    | nil => rfl
    | cons c body =>
      obtain ⟨hminus, hplus⟩ := hbody c rfl
      rw [List.nil_append, takeSign]
      · rfl
      · exact fun _ h => hminus (List.cons.inj h).1
      · exact fun _ h => hplus (List.cons.inj h).1
  · rfl
  · rfl

/-- The point is not a digit. -/
theorem point_notMem {ds : List Char} (h : ∀ c ∈ ds, c.isDigit = true) : '.' ∉ ds :=
  fun hmem => absurd (h '.' hmem) (by decide)

theorem ne_sign_of_isDigit {c : Char} (h : c.isDigit = true) : c ≠ '-' ∧ c ≠ '+' := by
  constructor <;> (rintro rfl; cases h)

theorem DecimalLiteral.isDecimalText {cs : List Char} (h : DecimalLiteral cs) :
    isDecimalText cs = true := by
  cases h with
  | @whole sign digits hsign hne hdigits =>
    have hbody : ∀ c ∈ digits.head?, c ≠ '-' ∧ c ≠ '+' := fun c hc =>
      ne_sign_of_isDigit (hdigits c (List.mem_of_mem_head? hc))
    simp only [StoredCall.isDecimalText, takeSign_append hsign hbody,
      cutAt?_eq_none (point_notMem hdigits), Option.getD_none, List.all_nil, Bool.and_true,
      List.all_eq_true.mpr hdigits]
    simpa using hne
  | @point sign before after hsign hne hdigits =>
    rw [List.forall_mem_append] at hdigits
    have hbody : ∀ c ∈ (before ++ '.' :: after).head?, c ≠ '-' ∧ c ≠ '+' := by
      cases before with
      | nil => simp
      | cons d before => simpa using ne_sign_of_isDigit (hdigits.1 d List.mem_cons_self)
    simp only [StoredCall.isDecimalText, takeSign_append hsign hbody,
      cutAt?_append_sep (point_notMem hdigits.1), Option.getD_some,
      List.all_eq_true.mpr hdigits.1, List.all_eq_true.mpr hdigits.2, Bool.and_true]
    simpa [or_iff_not_imp_left] using hne

theorem DecimalLiteral.isBlank {cs : List Char} (h : DecimalLiteral cs) :
    ∀ c ∈ cs, isBlank c = false := by
  have hsigns : ∀ sign ∈ [[], ['-'], ['+']], ∀ c ∈ sign, Text.isBlank c = false := by
    simp [Text.isBlank]
  have hdigits : ∀ {ds : List Char}, (∀ c ∈ ds, c.isDigit = true) →
      ∀ c ∈ ds, Text.isBlank c = false := fun hds c hc => isBlank_of_isDigit (hds c hc)
  cases h with
  | whole hsign _ hds => exact List.forall_mem_append.mpr ⟨hsigns _ hsign, hdigits hds⟩
  | point hsign _ hds =>
    rw [List.forall_mem_append] at hds
    exact List.forall_mem_append.mpr ⟨hsigns _ hsign, List.forall_mem_append.mpr
      ⟨hdigits hds.1, List.forall_mem_cons.mpr ⟨rfl, hdigits hds.2⟩⟩⟩

theorem DecimalLiteral.ne_nil {cs : List Char} (h : DecimalLiteral cs) : cs ≠ [] := by
  cases h with
  | whole _ hne _ => simp [hne]
  | point _ _ _ => simp

/-! ## Integers -/

/-- The text of an integer is its digits, after a sign if it is negative. -/
theorem toList_intText (i : Int64) : ∃ sign n, (intText i).toList = sign ++ Nat.toDigits 10 n ∧
    (sign = [] ∧ i.toInt = n ∨ sign = ['-'] ∧ i.toInt = -n) := by
  unfold intText
  cases hi : i.toInt with
  | ofNat n => exact ⟨[], n, toList_toString n, .inl ⟨rfl, rfl⟩⟩
  | negSucc n =>
    exact ⟨['-'], n + 1, Json.toList_toString_negSucc n, .inr ⟨rfl, Int.negSucc_eq n⟩⟩

theorem readInt64?_intText (i : Int64) : readInt64? (intText i).toList = some i := by
  have hword : toInt64? i.toInt = some i := by
    rw [toInt64?, if_pos ⟨Int64.le_toInt i, Int64.toInt_lt i⟩, Int64.ofInt_toInt]
  have hread : readInt? (intText i).toList = some i.toInt := by
    obtain ⟨sign, n, htext, hsign⟩ := toList_intText i
    have hmem : sign ∈ [[], ['-'], ['+']] := by
      rcases hsign with ⟨rfl, -⟩ | ⟨rfl, -⟩ <;> simp
    have hbody : ∀ c ∈ (Nat.toDigits 10 n).head?, c ≠ '-' ∧ c ≠ '+' := fun c hc =>
      ne_sign_of_isDigit (Json.isDigit_toDigits n c (List.mem_of_mem_head? hc))
    simp only [htext, readInt?, takeSign_append hmem hbody, readNat?_toDigits, Option.map_some]
    rcases hsign with ⟨rfl, hvalue⟩ | ⟨rfl, hvalue⟩
    · exact congrArg some hvalue.symm
    · exact congrArg some hvalue.symm
  rw [readInt64?, hread]
  exact hword

theorem isBlank_of_mem_intText (i : Int64) : ∀ c ∈ (intText i).toList, isBlank c = false := by
  obtain ⟨sign, n, htext, hsign⟩ := toList_intText i
  have hdigits : ∀ c ∈ Nat.toDigits 10 n, isBlank c = false := fun c hc =>
    isBlank_of_isDigit (Json.isDigit_toDigits n c hc)
  rw [htext]
  rcases hsign with ⟨rfl, -⟩ | ⟨rfl, -⟩
  · exact hdigits
  · exact List.forall_mem_cons.mpr ⟨rfl, hdigits⟩

/-! ## Bringing scalars back from their texts -/

/-- The scalars of a kind. Decimals are literals, without white space around them. -/
def OfKind (k : Kind) : Value → Prop
  | int _ => k = .int
  | bool _ => k = .bool
  | decimal s => k = .decimal ∧ DecimalLiteral s.toList
  | text _ => k = .text ∨ k = .clob
  | bytes _ => k = .bytes ∨ k = .blob
  | timestamp _ => k = .timestamp
  | _ => False

/-- A timestamp is settled, and every other value is as it is. -/
def settled : Value → Value
  | timestamp t => timestamp t.settled
  | v => v

/-- A value that is no timestamp, or a timestamp with no long second but a leap second. -/
def Settled : Value → Prop
  | timestamp t => t.val.Settled
  | _ => True

theorem settled_eq_self_iff (v : Value) : v.settled = v ↔ v.Settled := by
  cases v with
  | timestamp t => exact (timestamp.injEq _ _).to_iff.trans t.settled_eq_self_iff
  | _ => exact iff_of_true rfl trivial

theorem trim_eq_self {s : String} (h : ∀ c ∈ s.toList, isBlank c = false) : trim s = s := by
  rw [trim, strip_eq_self h, String.ofList_toList]

/-- There is no white space in the text of a scalar, unless it is a text itself. -/
theorem OfKind.isBlank {k : Kind} {v : Value} (h : v.OfKind k) {s : String}
    (hs : v.scalarText = .ok s) (htext : ∀ s, v ≠ text s) : ∀ c ∈ s.toList, isBlank c = false := by
  cases v with
  | int i => cases hs; exact isBlank_of_mem_intText i
  | bool b => cases hs; cases b <;> simp [Text.isBlank]
  | decimal s => cases hs; exact h.2.isBlank
  | text s => exact absurd rfl (htext s)
  | bytes b =>
    cases hs
    rw [String.toList_ofList]
    exact Base64.isBlank_of_mem_encode
  | timestamp t =>
    cases hs
    rw [Timestamp.text, String.toList_ofList]
    exact Timestamp.isBlank_of_mem_chars t
  | _ => cases h

/-- **A scalar is brought back from its text**, settled. -/
theorem OfKind.coerce?_scalarText {k : Kind} {v : Value} (h : v.OfKind k) {s : String}
    (hs : v.scalarText = .ok s) : coerce? k (text s) = some v.settled := by
  have hblank := h.isBlank hs
  cases v with
  | int i =>
    cases h
    cases hs
    rw [coerce?, trim_eq_self (hblank (by simp)), readInt64?_intText]
    rfl
  | bool b =>
    cases h
    cases hs
    cases b <;> rfl
  | decimal s =>
    cases hs
    obtain ⟨rfl, hliteral⟩ := h
    rw [coerce?, trim_eq_self hliteral.isBlank, if_pos hliteral.isDecimalText]
    rfl
  | text s =>
    cases hs
    rcases h with rfl | rfl <;> rfl
  | bytes b =>
    cases hs
    have hread : (Base64.decode? (trim (String.ofList (Base64.encode b))).toList).map bytes =
        some (bytes b) := by
      rw [trim_eq_self (hblank (by simp)), String.toList_ofList, Base64.decode?_encode]
      rfl
    rcases h with rfl | rfl <;> exact hread
  | timestamp t =>
    cases h
    cases hs
    rw [coerce?, Timestamp.read?_text]
    rfl
  | _ => cases h

/-! ## Documents -/

/-- The scalars that a format tells: markup has no empty text, and no white space at the ends of
one. -/
def Shown (format : BlobFormat) : Value → Prop
  | text s => format = .xml → Trimmed s.toList
  | bytes b => format = .xml → b ≠ []
  | _ => True

/-- The element of a scalar has nothing but its text. -/
theorem OfKind.exists_scalarText {k : Kind} {v : Value} (h : v.OfKind k) :
    ∃ s, v.scalarText = .ok s ∧ ∀ name,
      v.element name = .ok (openTag name ++ escape s.toList ++ closeTag name) := by
  cases v with
  | int | bool | decimal | text | bytes | timestamp => exact ⟨_, rfl, fun _ => rfl⟩
  | _ => cases h

/-- Read back as an integer or a logical value, or as the text of the scalar. -/
theorem OfKind.exists_toJson {k : Kind} {v : Value} (h : v.OfKind k) :
    ∃ j, v.toJson = .ok j ∧ j.Exact Json.maxDepth ∧ coerce? k (ofJson j) = some v.settled := by
  cases v with
  | int i =>
    cases h
    refine ⟨_, rfl, .int (fitsWord_toInt i), ?_⟩
    rw [ofJson, ofNum_toInt]
    rfl
  | bool b =>
    cases h
    exact ⟨_, rfl, .bool, rfl⟩
  | decimal | text | bytes | timestamp => exact ⟨_, rfl, .string, h.coerce?_scalarText rfl⟩
  | _ => cases h

theorem trimmed_of_forall {cs : List Char} (hne : cs ≠ []) (h : ∀ c ∈ cs, isBlank c = false) :
    Trimmed cs where
  ne_nil := hne
  head c hc := isSpace_of_isBlank (h c (List.mem_of_mem_head? hc))
  last c hc := isSpace_of_isBlank (h c (List.mem_of_mem_getLast? hc))

/-- The text of a scalar that markup tells has no white space at its ends. -/
theorem OfKind.trimmed {k : Kind} {v : Value} (h : v.OfKind k) (hshown : Shown .xml v) {s : String}
    (hs : v.scalarText = .ok s) : Trimmed s.toList := by
  have hblank := h.isBlank hs
  cases v with
  | int i =>
    cases hs
    refine trimmed_of_forall ?_ (hblank (by simp))
    obtain ⟨sign, n, htext, -⟩ := toList_intText i
    rw [htext]
    exact List.append_ne_nil_of_right_ne_nil sign Nat.toDigits_ne_nil
  | bool b => cases hs; cases b <;> decide
  | decimal s => cases hs; exact trimmed_of_forall h.2.ne_nil (hblank (by simp))
  | text s => cases hs; exact hshown rfl
  | bytes b =>
    cases hs
    refine trimmed_of_forall ?_ (hblank (by simp))
    rw [String.toList_ofList]
    exact Base64.encode_ne_nil (hshown rfl)
  | timestamp t =>
    cases hs
    refine trimmed_of_forall ?_ (hblank (by simp))
    simp [Timestamp.text, Timestamp.chars]
  | _ => cases h

/-- **Scalars survive documents**: a scalar that was written to a document of either format, read
and brought into its kind is the scalar, settled. So it is the scalar itself, unless it is a
timestamp with a billion nanoseconds in another second than 59. -/
theorem coerce_decode_encode {k : Kind} {v : Value} {format : BlobFormat} (hkind : v.OfKind k)
    (hshown : Shown format v) (path : String) :
    ∃ s w, v.encode format = .ok s ∧ decode s format = .ok w ∧
      w.coerce k path = .ok v.settled ∧ (w.coerce k path = .ok v ↔ v.Settled) := by
  have hcoerce : ∀ w, coerce? k w = some v.settled →
      w.coerce k path = .ok v.settled ∧ (w.coerce k path = .ok v ↔ v.Settled) := by
    intro w hw
    rw [coerce, hw, ← settled_eq_self_iff]
    exact ⟨rfl, (Except.ok.injEq _ _).to_iff⟩
  cases format with
  | json =>
    obtain ⟨j, hj, hexact, hvalue⟩ := hkind.exists_toJson
    obtain ⟨s, hencode, hdecode⟩ := decode_encode_of_toJson hj hexact
    exact ⟨s, _, hencode, hdecode, hcoerce _ hvalue⟩
  | xml =>
    obtain ⟨text, htext, helement⟩ := hkind.exists_scalarText
    obtain ⟨s, hencode, hdecode⟩ :=
      (writtenAs_text (by decide) (helement rootName) (hkind.trimmed hshown htext)).decode_encode
    exact ⟨s, _, hencode, hdecode, hcoerce _ (hkind.coerce?_scalarText htext)⟩

/-- The first leap second of all. -/
def firstLeapSecond : Value := timestamp ⟨⟨-262143, 1, 1, 23, 59, 59, 1000000001⟩, by decide⟩

/-- A leap second and a text that needs references in one format, a decimal without a digit before
its point in the other. -/
theorem oddScalars_coerce_decode_encode :
    (∃ s w, firstLeapSecond.encode .xml = .ok s ∧ decode s .xml = .ok w ∧
      w.coerce .timestamp "p" = .ok firstLeapSecond) ∧
    (∃ s w, (text "a < b").encode .xml = .ok s ∧ decode s .xml = .ok w ∧
      w.coerce .clob "p" = .ok (text "a < b")) ∧
    ∃ s w, (decimal "-.50").encode .json = .ok s ∧ decode s .json = .ok w ∧
      w.coerce .decimal "p" = .ok (decimal "-.50") := by
  have hdecimal : DecimalLiteral ['-', '.', '5', '0'] :=
    @DecimalLiteral.point ['-'] [] ['5', '0'] (by simp) (by simp) (by simp)
  have htext : Trimmed ['a', ' ', '<', ' ', 'b'] := by decide
  have hleap : firstLeapSecond.Settled := fun _ => rfl
  obtain ⟨s₁, w₁, hencode₁, hdecode₁, -, hback₁⟩ := @coerce_decode_encode .timestamp
    firstLeapSecond .xml (by simp [firstLeapSecond, OfKind]) (by simp [firstLeapSecond, Shown]) "p"
  obtain ⟨s₂, w₂, hencode₂, hdecode₂, -, hback₂⟩ := @coerce_decode_encode .clob (text "a < b") .xml
    (by simp [OfKind]) (by simp [Shown, htext]) "p"
  obtain ⟨s₃, w₃, hencode₃, hdecode₃, -, hback₃⟩ := @coerce_decode_encode .decimal
    (decimal "-.50") .json (by simp [OfKind, hdecimal]) (by simp [Shown]) "p"
  exact ⟨⟨s₁, w₁, hencode₁, hdecode₁, hback₁.mpr hleap⟩, ⟨s₂, w₂, hencode₂, hdecode₂,
    hback₂.mpr trivial⟩, s₃, w₃, hencode₃, hdecode₃, hback₃.mpr trivial⟩

/-- A third of a second past the end of second 4. -/
def longSecond : Value := timestamp ⟨⟨2024, 1, 1, 23, 56, 4, 1333333333⟩, by decide⟩

/-- A long second that is no leap second does not come back. -/
theorem longSecond_does_not_survive : longSecond.OfKind .timestamp ∧ Shown .json longSecond ∧
    longSecond.scalarText = .ok "2024-01-01T23:56:05.333333333" ∧
    ¬ ∃ s w, longSecond.encode .json = .ok s ∧ decode s .json = .ok w ∧
      w.coerce .timestamp "p" = .ok longSecond := by
  have hkind : longSecond.OfKind .timestamp := by simp [longSecond, OfKind]
  refine ⟨hkind, trivial, by decide +kernel, ?_⟩
  rintro ⟨s, w, hs, hw, hback⟩
  obtain ⟨j, hj, hexact, hvalue⟩ := hkind.exists_toJson
  obtain ⟨s', hs', hw'⟩ := decode_encode_of_toJson hj hexact
  cases hs.symm.trans hs'
  cases hw.symm.trans hw'
  rw [coerce, hvalue] at hback
  have hsame : longSecond.settled = longSecond := Except.ok.inj hback
  exact absurd ((settled_eq_self_iff _).mp hsame (by decide)) (by decide)

end StoredCall.Value
