import StoredCall.Proofs.Assoc
import StoredCall.Proofs.Text.Utf8
import StoredCall.Snapshot.Binary

/-!
# Snapshots come back from their binary form

The binary form has no marks between its parts: where a part ends is known only from what was read
so far. So each part is read back from its bytes with any bytes after it, and the parts are put
together from the left.

* `Snapshot.Reads take bytes a`: at the front of any bytes, `bytes` are taken for `a`.
* `Snapshot.lengths`: the lengths and counts that stand in the binary form. All of them are words,
  as those of any text or list in a memory.
* `reads_varint`, `reads_text`, `reads_scalar` and so on: one lemma for each part of the form.
* **`Snapshot.ofBinary?_toBinary`**: a snapshot is read back from its binary form, with its types in
  their order.
-/

namespace StoredCall.Snapshot

open Number Text

variable {α β : Type}

/-- At the front of any bytes, `bytes` are taken for `a`. -/
def Reads (take : Take α) (bytes : List UInt8) (a : α) : Prop :=
  ∀ rest, take (bytes ++ rest) = some (a, rest)

/-! ## Lengths -/

/-- The lengths in the binary form of a text. -/
def textLengths (s : String) : List Nat := [(utf8 s).length]

/-- The lengths in the binary form of a scalar. -/
def scalarLengths (s : Scalar) : List Nat :=
  textLengths s.name ++ s.typeName.toList.flatMap textLengths

/-- The lengths in the binary form of a reference. -/
def refLengths : TypeRef → List Nat
  | .scalar s => scalarLengths s
  | .named key => textLengths key

/-- The lengths in the binary form of a field. -/
def fieldLengths (f : Field) : List Nat := textLengths f.name ++ refLengths f.type

/-- The lengths in the binary form of a definition. -/
def defLengths : TypeDef → List Nat
  | .scalar s => scalarLengths s
  | .record fields => fields.length :: fields.flatMap fieldLengths
  | .collection elem _ => refLengths elem

/-- The lengths in the binary form of a key and its definition. -/
def typeLengths (t : String × TypeDef) : List Nat := textLengths t.1 ++ defLengths t.2

/-- The lengths in the binary form of a snapshot. -/
def lengths (s : Snapshot) : List Nat := s.types.length :: s.types.flatMap typeLengths

/-- Lengths that a word can hold. -/
def Words (ns : List Nat) : Prop := ∀ n ∈ ns, n < pow2 64

namespace Words

variable {ms ns : List Nat}

theorem left (h : Words (ms ++ ns)) : Words ms := (List.forall_mem_append.mp h).1

theorem right (h : Words (ms ++ ns)) : Words ns := (List.forall_mem_append.mp h).2

theorem head {n : Nat} (h : Words (n :: ns)) : n < pow2 64 := h n List.mem_cons_self

theorem tail {n : Nat} (h : Words (n :: ns)) : Words ns := (List.forall_mem_cons.mp h).2

theorem of_mem {f : α → List Nat} {as : List α} (h : Words (as.flatMap f)) {a : α} (ha : a ∈ as) :
    Words (f a) := fun n hn => h n (List.mem_flatMap.mpr ⟨a, ha, hn⟩)

end Words

/-! ## Numbers -/

theorem toNat_ofNat {n : Nat} (h : n < 256) : (UInt8.ofNat n).toNat = n :=
  UInt8.toNat_ofNat_of_lt' h

theorem ofNat_lt_iff {n : Nat} (h : n < 256) : UInt8.ofNat n < 128 ↔ n < 128 := by
  rw [UInt8.lt_iff_toNat_lt, toNat_ofNat h]
  rfl

/-- A number below 128 is one group, in which the high bit is not set. -/
theorem takeGroups_small {n : Nat} (h : n < 128) (groups : Nat) (rest : List UInt8) :
    takeGroups (groups + 1) (varint n ++ rest) = some (n, rest) := by
  have hbyte : n < 256 := by omega
  rw [varint, if_pos h, List.singleton_append, takeGroups, if_pos ((ofNat_lt_iff hbyte).mpr h),
    toNat_ofNat hbyte]

/-- A number is read back if there are groups enough for it. -/
theorem reads_groups {groups n : Nat} (h : n < 128 ^ (groups + 1)) :
    Reads (takeGroups (groups + 1)) (varint n) n := by
  intro rest
  induction groups generalizing n with
  | zero => exact takeGroups_small (by simpa using h) 0 rest
  | succ groups ih =>
    by_cases hsmall : n < 128
    · exact takeGroups_small hsmall (groups + 1) rest
    · have hmore : n / 128 < 128 ^ (groups + 1) := by
        rw [Nat.div_lt_iff_lt_mul (by decide), ← Nat.pow_succ]
        exact h
      have hbyte : n % 128 + 128 < 256 := by omega
      have hhigh : ¬ UInt8.ofNat (n % 128 + 128) < 128 := by
        rw [ofNat_lt_iff hbyte]
        omega
      rw [varint, if_neg hsmall, List.cons_append, takeGroups, if_neg hhigh, ih hmore,
        toNat_ofNat hbyte]
      simp only [Option.map_some, Option.some.injEq, Prod.mk.injEq, and_true]
      omega

theorem reads_varint (bits : Nat) {n : Nat} (h : n < pow2 (bits + 1)) :
    Reads (takeVarint (bits + 1)) (varint n) n := by
  intro rest
  have hgroups : (bits + 1 + 6) / 7 = bits / 7 + 1 := by omega
  have hroom : n < 128 ^ (bits / 7 + 1) := by
    refine Nat.lt_of_lt_of_le h ?_
    calc pow2 (bits + 1) ≤ 2 ^ (7 * (bits / 7 + 1)) := Nat.pow_le_pow_right (by decide) (by omega)
      _ = 128 ^ (bits / 7 + 1) := Nat.pow_mul 2 7 _
  rw [takeVarint, hgroups, reads_groups hroom rest]
  exact if_pos h

theorem reads_byte (b : UInt8) : Reads takeByte [b] b := fun _ => rfl

/-! ## Optional values, texts and lists -/

theorem reads_option {take : Take β} {f : α → List UInt8} {g : α → β} {o : Option α}
    (h : ∀ a, o = some a → Reads take (f a) (g a)) :
    Reads (takeOption take) (optionBytes f o) (o.map g) := by
  intro rest
  cases o with
  | none => rfl
  | some a =>
    rw [optionBytes, List.cons_append, takeOption, h a rfl rest]
    rfl

theorem reads_text {s : String} (h : Words (textLengths s)) :
    Reads takeText (textBytes s) s := by
  intro rest
  have hread := reads_varint 63 h.head (utf8 s ++ rest)
  have hlong : ¬ (utf8 s ++ rest).length < (utf8 s).length := by
    rw [List.length_append]
    omega
  rw [takeText, textBytes, List.append_assoc]
  simp only [hread, Option.bind_eq_bind, Option.bind_some, if_neg hlong, List.take_left,
    List.drop_left, utf8?_utf8]
  rfl

theorem reads_many (take : Take α) {f : α → List UInt8} {as : List α}
    (h : ∀ a ∈ as, Reads take (f a) a) :
    Reads (takeMany take as.length) (as.flatMap f) as := by
  intro rest
  induction as with
  | nil => rfl
  | cons a as ih =>
    rw [List.forall_mem_cons] at h
    rw [List.flatMap_cons, List.append_assoc, List.length_cons, takeMany]
    simp only [h.1 (as.flatMap f ++ rest), ih h.2, Option.bind_eq_bind, Option.bind_some]
    rfl

/-! ## Definitions -/

theorem reads_scalar {s : Scalar} (h : Words (scalarLengths s)) :
    Reads takeScalar (scalarBytes s) s := by
  have hname := reads_text h.left
  have hlength : Reads (takeOption (takeVarint 32)) (optionBytes (fun n => varint n.toNat) s.length)
      (s.length.map UInt32.toNat) :=
    reads_option fun n _ => reads_varint 31 n.toNat_lt
  have hprecision : Reads (takeOption takeByte) (optionBytes (fun n => [n]) s.precision)
      (s.precision.map id) := reads_option fun n _ => reads_byte n
  have hscale : Reads (takeOption takeByte) (optionBytes (fun n => [n.toUInt8]) s.scale)
      (s.scale.map Int8.toUInt8) := reads_option fun n _ => reads_byte n.toUInt8
  have htype : Reads (takeOption takeText) (optionBytes textBytes s.typeName) (s.typeName.map id) :=
    reads_option fun t ht => reads_text (h.right.of_mem (Option.mem_toList.mpr ht))
  intro rest
  rw [takeScalar, scalarBytes]
  simp only [List.append_assoc, hname _, hlength _, hprecision _, hscale _, htype _,
    Option.bind_eq_bind, Option.bind_some, Option.map_map, Option.map_id_fun, id_eq]
  have hword : Nat.toUInt32 ∘ UInt32.toNat = id := funext fun n => UInt32.ofNat_toNat
  have hsmall : UInt8.toInt8 ∘ Int8.toUInt8 = id := funext fun n => Int8.toInt8_toUInt8 n
  rw [hword, hsmall, Option.map_id_fun, Option.map_id_fun]
  rfl

theorem reads_ref {t : TypeRef} (h : Words (refLengths t)) : Reads takeRef (refBytes t) t := by
  intro rest
  cases t with
  | scalar s =>
    have htag := reads_varint 31 (n := 0) (by decide) (scalarBytes s ++ rest)
    rw [takeRef, refBytes, List.append_assoc, htag]
    simp only [Option.bind_eq_bind, Option.bind_some, reads_scalar h rest, Option.map_some]
  | named key =>
    have htag := reads_varint 31 (n := 1) (by decide) (textBytes key ++ rest)
    rw [takeRef, refBytes, List.append_assoc, htag]
    simp only [Option.bind_eq_bind, Option.bind_some, reads_text h rest, Option.map_some]

theorem reads_field {f : Field} (h : Words (fieldLengths f)) :
    Reads takeField (fieldBytes f) f := by
  intro rest
  rw [takeField, fieldBytes, List.append_assoc]
  simp only [reads_text h.left _, reads_ref h.right rest, Option.bind_eq_bind, Option.bind_some]
  rfl

theorem reads_index (i : IndexBy) : Reads takeIndex (indexBytes i) i := by
  intro rest
  cases i
  rw [takeIndex, indexBytes, reads_varint 31 (n := 0) (by decide) rest]
  rfl

theorem reads_def {d : TypeDef} (h : Words (defLengths d)) : Reads takeDef (defBytes d) d := by
  intro rest
  cases d with
  | scalar s =>
    have htag := reads_varint 31 (n := 0) (by decide) (scalarBytes s ++ rest)
    rw [takeDef, defBytes, List.append_assoc, htag]
    simp only [Option.bind_eq_bind, Option.bind_some, reads_scalar h rest, Option.map_some]
  | record fields =>
    have htag := reads_varint 31 (n := 1) (by decide)
      (varint fields.length ++ (fields.flatMap fieldBytes ++ rest))
    have hfields := reads_many takeField fun f hf => reads_field (h.tail.of_mem hf)
    rw [takeDef, defBytes, List.append_assoc, List.append_assoc, htag]
    simp only [Option.bind_eq_bind, Option.bind_some, reads_varint 63 h.head _,
      hfields rest, Option.map_some]
  | collection elem indexBy =>
    have htag := reads_varint 31 (n := 2) (by decide)
      (refBytes elem ++ (optionBytes indexBytes indexBy ++ rest))
    have hindex : Reads (takeOption takeIndex) (optionBytes indexBytes indexBy) (indexBy.map id) :=
      reads_option fun i _ => reads_index i
    rw [takeDef, defBytes, List.append_assoc, List.append_assoc, htag]
    simp only [Option.bind_eq_bind, Option.bind_some, reads_ref h _, hindex rest,
      Option.map_id_fun, id_eq]
    rfl

/-! ## Snapshots -/

/-- The bytes of a key and its definition. -/
def typeBytes (t : String × TypeDef) : List UInt8 := textBytes t.1 ++ defBytes t.2

theorem reads_type {t : String × TypeDef} (h : Words (typeLengths t)) :
    Reads takeType (typeBytes t) t := by
  intro rest
  rw [takeType, typeBytes, List.append_assoc]
  simp only [reads_text h.left _, reads_def h.right rest, Option.bind_eq_bind, Option.bind_some]
  rfl

theorem toBinary_eq (s : Snapshot) :
    s.toBinary = varint s.types.length ++ s.types.flatMap typeBytes := rfl

theorem ofBinary?_toBinary_append {s : Snapshot} (hkeyed : Assoc.Keyed s.types)
    (hwords : Words s.lengths) (rest : List UInt8) : ofBinary? (s.toBinary ++ rest) = some s := by
  have htypes := reads_many takeType fun t ht => reads_type (hwords.tail.of_mem ht)
  rw [ofBinary?, toBinary_eq, List.append_assoc]
  simp only [reads_varint 63 hwords.head _, htypes rest, Option.bind_eq_bind,
    Option.bind_some]
  exact congrArg (fun types => some (Snapshot.mk types)) (Assoc.foldl_put_of_keyed hkeyed)

/-- **A snapshot is read back from its binary form**, with its types in their order. -/
theorem ofBinary?_toBinary {s : Snapshot} (hkeyed : Assoc.Keyed s.types)
    (hwords : Words s.lengths) : ofBinary? s.toBinary = some s := by
  have hread := ofBinary?_toBinary_append hkeyed hwords []
  rwa [List.append_nil] at hread

/-- Readings of gauges, which refer to the readings before them. One length takes five groups of
bits and one two, a scale is negative, a key has letters of two bytes, and a key and a type name are
empty. -/
def gauges : Snapshot where
  types := [
    ("S.READINGS_T", .collection (.named "S.READING_T") (some .integer)),
    ("S.READING_T", .record [
      ⟨"LEVEL", .scalar { name := "NUMBER", precision := some 255, scale := some (-127) }⟩,
      ⟨"NOTE", .scalar { name := "VARCHAR2", length := some 4294967295 }⟩,
      ⟨"BEFORE", .named "S.READINGS_T"⟩, ⟨"", .named "S.Größe_T"⟩]),
    ("S.NOTES_T", .collection (.scalar { name := "CLOB" }) none),
    ("", .record []),
    ("S.Größe_T", .scalar { name := "OPAQUE", length := some 128, typeName := some "" })]

theorem gauges_ofBinary?_toBinary : Assoc.Keyed gauges.types ∧ Words gauges.lengths ∧
    ofBinary? gauges.toBinary = some gauges := by
  have hkeyed : Assoc.Keyed gauges.types := by
    unfold Assoc.Keyed
    decide
  have hwords : Words gauges.lengths := by
    unfold Words
    decide +kernel
  exact ⟨hkeyed, hwords, ofBinary?_toBinary hkeyed hwords⟩

end StoredCall.Snapshot
