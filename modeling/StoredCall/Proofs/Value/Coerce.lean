import StoredCall.Call.Response
import StoredCall.Proofs.Value.Wire

/-!
# Coercion gives the scalars of a kind, and leaves them alone

A scalar is brought into the kind of its slot on the way into a call, and once more on the way out.
Whatever it was at first, the second time changes nothing: each kind has its own scalars, coercion
gives nothing else but null, and it keeps them as they are. For decimals this means that every text
that coercion makes of a number is one that it takes, with no white space left to trim.

* `Value.decimalLiteral_of_isDecimalText`, `Value.decimalLiteral_intText`,
  `Value.decimalLiteral_floatText`: the texts that decimals are made of are literals.
* `Value.Represents` are the scalars of a kind, those in files among them.
* `Value.Represents.coerce?_eq`, `Value.represents_of_coerce?`: they are kept, and nothing else is
  given.
* **`Value.coerce_typed_stable`**: both, and what follows for an output that a call left alone.
-/

namespace StoredCall.Value

open Number Text

/-! ## Decimal literals -/

/-- A text is a sign, if it has one, and what is left when that is taken off. -/
theorem exists_sign (cs : List Char) :
    ∃ sign, sign ∈ [[], ['-'], ['+']] ∧ cs = sign ++ (takeSign cs).2 := by
  unfold takeSign
  split
  · exact ⟨['-'], by simp, rfl⟩
  · exact ⟨['+'], by simp, rfl⟩
  · exact ⟨[], by simp, rfl⟩

/-- A text that passes for a decimal is a literal. -/
theorem decimalLiteral_of_isDecimalText {cs : List Char} (h : isDecimalText cs = true) :
    DecimalLiteral cs := by
  obtain ⟨sign, hsign, hcs⟩ := exists_sign cs
  rcases htake : takeSign cs with ⟨negative, body⟩
  rw [htake] at hcs
  rw [hcs]
  by_cases hpoint : '.' ∈ body
  · obtain ⟨before, after, rfl, hbefore⟩ := List.eq_append_cons_of_mem hpoint
    simp only [isDecimalText, htake, cutAt?_append_sep hbefore, Option.getD_some,
      Bool.and_eq_true, List.all_eq_true] at h
    refine .point hsign ?_ (List.forall_mem_append.mpr ⟨h.1.2, h.2⟩)
    intro hempty
    simp [List.append_eq_nil_iff.mp hempty] at h
  · simp only [isDecimalText, htake, cutAt?_eq_none hpoint, Option.getD_none,
      Bool.and_eq_true, List.all_eq_true] at h
    refine .whole hsign ?_ h.1.2
    rintro rfl
    simp at h

theorem decimalLiteral_intText (i : Int64) : DecimalLiteral (intText i).toList := by
  obtain ⟨sign, n, htext, hsign⟩ := toList_intText i
  have hmem : sign ∈ [[], ['-'], ['+']] := by
    rcases hsign with ⟨rfl, -⟩ | ⟨rfl, -⟩ <;> simp
  rw [htext]
  exact .whole hmem Nat.toDigits_ne_nil (Json.isDigit_toDigits n)

/-- Digits that are written without an exponent mark, after a sign. -/
theorem decimalLiteral_plain {sign : List Char} (hsign : sign ∈ [[], ['-'], ['+']]) (d : Decimal) :
    DecimalLiteral (sign ++ d.plain false) := by
  have hdigits : ∀ c ∈ Number.digitsOf d.digits, c.isDigit = true := Json.isDigit_toDigits d.digits
  have hne : Number.digitsOf d.digits ≠ [] := Nat.toDigits_ne_nil
  have hzeros : ∀ n, ∀ c ∈ List.replicate n '0', c.isDigit = true := by
    intro n c hc
    rw [List.eq_of_mem_replicate hc]
    rfl
  unfold Decimal.plain
  simp only
  split
  · -- A whole number: zeros after the digits.
    simp only [Bool.false_eq_true, if_false, List.append_nil]
    exact .whole hsign (List.append_ne_nil_of_left_ne_nil hne _)
      (List.forall_mem_append.mpr ⟨hdigits, hzeros _⟩)
  · split
    · -- The point stands among the digits.
      refine .point hsign ?_ ?_
      · rwa [List.take_append_drop]
      · rwa [List.take_append_drop]
    · -- All digits stand after the point.
      refine @DecimalLiteral.point sign ['0'] _ hsign (by simp) ?_
      exact List.forall_mem_append.mpr ⟨by simp, List.forall_mem_append.mpr ⟨hzeros _, hdigits⟩⟩

/-- The text of a finite number is a sign if it is negative, digits, and a fraction if there is
one. -/
theorem decimalLiteral_floatText {x : Binary64} (h : x.isFinite = true) :
    DecimalLiteral (floatText x).toList := by
  have hnan : ¬ x.isNaN = true := by
    simp only [Binary64.isFinite, Binary64.isNaN, decide_eq_true_eq] at h ⊢
    omega
  have hplain : ∀ d : Decimal, plainLayout.isPlain d.leading = true := fun _ => rfl
  rw [floatText, if_neg hnan, if_pos h, Layout.write, String.toList_ofList]
  simp only [hplain, if_true]
  split
  · exact @decimalLiteral_plain ['-'] (by simp) _
  · exact @decimalLiteral_plain [] (by simp) _

/-! ## The forms of kinds -/

/-- The scalars of a kind. Large objects may be in a file. -/
inductive Represents : Kind → Value → Prop where
  | int (i : Int64) : Represents .int (int i)
  | decimal {s : String} (h : DecimalLiteral s.toList) : Represents .decimal (decimal s)
  | float (x : Binary64) : Represents .float (float x)
  | bool (b : Bool) : Represents .bool (bool b)
  | text (s : String) : Represents .text (text s)
  | bytes (b : List UInt8) : Represents .bytes (bytes b)
  | timestamp (t : Timestamp) : Represents .timestamp (timestamp t)
  | clob (s : String) : Represents .clob (Value.text s)
  | clobFile (lob : Spilled) : Represents .clob (spilled lob)
  | blob (b : List UInt8) : Represents .blob (Value.bytes b)
  | blobFile (lob : Spilled) : Represents .blob (spilled lob)

theorem coerce?_null (k : Kind) : coerce? k null = some null := by
  cases k <;> rfl

/-- The scalars of a kind are kept. -/
theorem Represents.coerce?_eq {k : Kind} {v : Value} (h : Represents k v) :
    coerce? k v = some v := by
  cases h with
  | decimal h => rw [coerce?, trim_eq_self h.isBlank, if_pos h.isDecimalText]
  | _ => rfl

/-- Whatever is made a decimal, its text is a literal. -/
theorem represents_decimal {v w : Value} (hv : v ≠ null) (h : coerce? .decimal v = some w) :
    Represents .decimal w := by
  cases v with
  | null => exact absurd rfl hv
  | int i =>
    cases h
    exact .decimal (decimalLiteral_intText i)
  | float x =>
    rw [coerce?, Option.ite_none_right_eq_some] at h
    obtain ⟨hfinite, h⟩ := h
    cases h
    exact .decimal (decimalLiteral_floatText hfinite)
  | decimal s | text s =>
    rw [coerce?, Option.ite_none_right_eq_some] at h
    obtain ⟨hliteral, h⟩ := h
    cases h
    exact .decimal (decimalLiteral_of_isDecimalText hliteral)
  | _ => cases h

theorem exists_text_of_coerce? {v w : Value} (hv : v ≠ null) (h : coerce? .text v = some w) :
    ∃ s, w = text s := by
  cases v with
  | null => exact absurd rfl hv
  | text s | decimal s | int i | float x =>
    cases h
    exact ⟨_, rfl⟩
  | bytes b =>
    rw [coerce?, Option.map_eq_some_iff] at h
    obtain ⟨s, -, rfl⟩ := h
    exact ⟨s, rfl⟩
  | _ => cases h

theorem exists_bytes_of_coerce? {v w : Value} (hv : v ≠ null) (h : coerce? .bytes v = some w) :
    ∃ b, w = bytes b := by
  cases v with
  | null => exact absurd rfl hv
  | bytes b =>
    cases h
    exact ⟨b, rfl⟩
  | text s =>
    rw [coerce?, Option.map_eq_some_iff] at h
    obtain ⟨b, -, rfl⟩ := h
    exact ⟨b, rfl⟩
  | _ => cases h

/-- A large text is made as a text is, unless it is in a file. -/
theorem coerce?_clob {v : Value} (h : ∀ lob, v ≠ spilled lob) :
    coerce? .clob v = coerce? .text v := by
  cases v with
  | spilled lob => exact absurd rfl (h lob)
  | _ => rfl

/-- Large bytes are made as bytes are, unless they are in a file. -/
theorem coerce?_blob {v : Value} (h : ∀ lob, v ≠ spilled lob) :
    coerce? .blob v = coerce? .bytes v := by
  cases v with
  | spilled lob => exact absurd rfl (h lob)
  | _ => rfl

/-- **Coercion gives null or a scalar of the kind.** -/
theorem represents_of_coerce? {k : Kind} {v w : Value} (h : coerce? k v = some w) :
    w = null ∨ Represents k w := by
  by_cases hv : v = null
  · rw [hv, coerce?_null] at h
    exact .inl (Option.some.inj h).symm
  refine .inr ?_
  cases k with
  | int =>
    cases v with
    | null => exact absurd rfl hv
    | int i => cases h; exact .int i
    | bool b => cases h; exact .int _
    | float x | decimal s | text s =>
      rw [coerce?, Option.map_eq_some_iff] at h
      obtain ⟨i, -, rfl⟩ := h
      exact .int i
    | _ => cases h
  | decimal => exact represents_decimal hv h
  | float =>
    cases v with
    | null => exact absurd rfl hv
    | float x => cases h; exact .float x
    | int i => cases h; exact .float _
    | decimal s | text s =>
      rw [coerce?, Option.map_eq_some_iff] at h
      obtain ⟨x, -, rfl⟩ := h
      exact .float x
    | _ => cases h
  | bool =>
    cases v with
    | null => exact absurd rfl hv
    | bool b => cases h; exact .bool b
    | int i =>
      rw [coerce?] at h
      split_ifs at h <;> cases h <;> exact .bool _
    | text s =>
      rw [coerce?] at h
      split at h <;> cases h <;> exact .bool _
    | _ => cases h
  | text =>
    obtain ⟨s, rfl⟩ := exists_text_of_coerce? hv h
    exact .text s
  | bytes =>
    obtain ⟨b, rfl⟩ := exists_bytes_of_coerce? hv h
    exact .bytes b
  | clob =>
    by_cases hfile : ∃ lob, v = spilled lob
    · obtain ⟨lob, rfl⟩ := hfile
      cases h
      exact .clobFile lob
    · rw [coerce?_clob (not_exists.mp hfile)] at h
      obtain ⟨s, rfl⟩ := exists_text_of_coerce? hv h
      exact .clob s
  | blob =>
    by_cases hfile : ∃ lob, v = spilled lob
    · obtain ⟨lob, rfl⟩ := hfile
      cases h
      exact .blobFile lob
    · rw [coerce?_blob (not_exists.mp hfile)] at h
      obtain ⟨b, rfl⟩ := exists_bytes_of_coerce? hv h
      exact .blob b
  | timestamp =>
    cases v with
    | null => exact absurd rfl hv
    | timestamp t => cases h; exact .timestamp t
    | text s =>
      rw [coerce?, Option.map_eq_some_iff] at h
      obtain ⟨t, -, rfl⟩ := h
      exact .timestamp t
    | _ => cases h

theorem coerce_eq_ok_iff {k : Kind} {v w : Value} {path : String} :
    v.coerce k path = .ok w ↔ coerce? k v = some w := by
  unfold coerce
  cases coerce? k v with
  | none => simp
  | some u => simp

/-- **Coercion is typed and made once**: what it gives is null or a scalar of the kind, and is given
again by a second coercion, at any path. So an output that still holds what a first coercion gave
goes into the response as it is. -/
theorem coerce_typed_stable {v w : Value} {k : Kind} {path : String} (h : v.coerce k path = .ok w) :
    (w = null ∨ Represents k w) ∧
    (∀ path', w.coerce k path' = .ok w) ∧
    ∀ {σ : Type} (r : Response σ) (bind : Bind σ) (path' : String), bind.value = w →
      r.collectScalar bind path' k = r.put path' w := by
  have htyped : w = null ∨ Represents k w := represents_of_coerce? (coerce_eq_ok_iff.mp h)
  have hagain : ∀ path', w.coerce k path' = .ok w := by
    intro path'
    rw [coerce_eq_ok_iff]
    rcases htyped with rfl | hkind
    · exact coerce?_null k
    · exact hkind.coerce?_eq
  refine ⟨htyped, hagain, fun r bind path' hbind => ?_⟩
  rw [Response.collectScalar, hbind, hagain]
  rfl

/-- Minus one tenth, which is no binary fraction. -/
def minusTenth : Binary64 := .ofRatio true 1 10

/-- A number is written with its shortest digits, and these are taken as they are. -/
theorem minusTenth_coerce_typed_stable :
    (float minusTenth).coerce .decimal "p" = .ok (decimal "-0.1") ∧
    Represents .decimal (decimal "-0.1") ∧
    (decimal "-0.1").coerce .decimal "p" = .ok (decimal "-0.1") := by
  have hfinite : minusTenth.isFinite = true := by decide +kernel
  have htext : floatText minusTenth = "-0.1" := by decide +kernel
  have hgiven : (float minusTenth).coerce .decimal "p" = .ok (decimal "-0.1") := by
    rw [coerce_eq_ok_iff, coerce?, if_pos hfinite, htext]
  have h := coerce_typed_stable hgiven
  exact ⟨hgiven, h.1.resolve_left (by simp), h.2.1 "p"⟩

end StoredCall.Value
