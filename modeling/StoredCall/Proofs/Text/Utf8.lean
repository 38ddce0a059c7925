import StoredCall.Text.Utf8
import Mathlib

/-!
# Texts and their bytes

A text is read back from its bytes. Texts are ordered by their characters, and that is the order of
their bytes: the bytes of a greater character are greater where they first differ, and no
character's bytes begin another's.

* `utf8?_utf8`: the text of the bytes of a text; `utf8?_eq_some_iff`: bytes are read as no other.
* `utf8EncodeChar_lt`: the bytes of two characters, whatever stands after them.
* `utf8_lt_utf8` and `utf8_le_utf8`: the bytes of two texts.
-/

namespace StoredCall.Text

theorem utf8_eq_flatMap (s : String) : utf8 s = s.toList.flatMap String.utf8EncodeChar := by
  have h : s.toUTF8 = s.toList.utf8Encode := by
    rw [String.toUTF8_eq_toByteArray, ← String.toByteArray_ofList, String.ofList_toList]
  unfold utf8
  rw [h]
  exact List.toList_data_toByteArray

theorem utf8?_utf8 (s : String) : utf8? (utf8 s) = some s := dif_pos s.isValidUTF8

/-- Bytes are read as the text that they are the bytes of, and as no other. -/
theorem utf8?_eq_some_iff {bytes : List UInt8} {s : String} :
    utf8? bytes = some s ↔ utf8 s = bytes := by
  refine ⟨fun h => ?_, fun h => h ▸ utf8?_utf8 s⟩
  unfold utf8? String.fromUTF8? at h
  split at h
  · rw [← Option.some.inj h]
    rfl
  · cases h

/-- The bytes of a smaller character are smaller, whatever stands after either. -/
theorem utf8EncodeChar_lt {c d : Char} (h : c < d) (xs ys : List UInt8) :
    String.utf8EncodeChar c ++ xs < String.utf8EncodeChar d ++ ys := by
  have hlt : c.val.toNat < d.val.toNat := h
  have hd : d.val.toNat < 0x110000 := by
    have hvalid := d.valid
    unfold UInt32.isValidChar Nat.isValidChar at hvalid
    omega
  unfold String.utf8EncodeChar
  simp only
  generalize c.val.toNat = v at *
  generalize d.val.toNat = w at *
  -- The groups of six bits that four bytes hold; shorter forms are told apart by their first byte.
  have hgroups : ∀ n < 0x110000, n = 262144 * (n / 262144 % 8) + 4096 * (n / 4096 % 64)
      + 64 * (n / 64 % 64) + n % 64 := fun n hn => by omega
  have hv := hgroups v (by omega)
  have hw := hgroups w hd
  split_ifs <;> simp (disch := omega) only [List.cons_append, List.nil_append,
    List.cons_lt_cons_iff, UInt8.lt_iff_toNat_lt, ← UInt8.toNat_inj, UInt8.toNat_ofNat',
    Nat.mod_eq_of_lt] <;> omega

theorem flatMap_utf8EncodeChar_lt {cs ds : List Char} (h : cs < ds) :
    cs.flatMap String.utf8EncodeChar < ds.flatMap String.utf8EncodeChar := by
  induction cs generalizing ds with
  | nil =>
    cases ds with
    | nil => exact absurd h (List.lt_irrefl _)
    | cons d ds =>
      rw [List.flatMap_cons, List.flatMap_nil]
      obtain ⟨b, bs, hb⟩ := List.exists_cons_of_ne_nil (@String.utf8EncodeChar_ne_nil d)
      rw [hb]
      exact List.nil_lt_cons _ _
  | cons c cs ih =>
    cases ds with
    | nil => exact absurd h (List.not_lt_nil _)
    | cons d ds =>
      rw [List.flatMap_cons, List.flatMap_cons]
      rcases List.cons_lt_cons_iff.mp h with hlt | ⟨rfl, hlt⟩
      · exact utf8EncodeChar_lt hlt _ _
      · exact List.append_left_lt (ih hlt)

/-- **Texts are ordered as their bytes.** -/
theorem utf8_lt_utf8 {s t : String} : utf8 s < utf8 t ↔ s < t := by
  rw [utf8_eq_flatMap, utf8_eq_flatMap, String.lt_iff_toList_lt]
  refine ⟨fun h => ?_, flatMap_utf8EncodeChar_lt⟩
  rcases lt_trichotomy s.toList t.toList with hlt | heq | hgt
  · exact hlt
  · rw [heq] at h
    exact absurd h (List.lt_irrefl _)
  · exact absurd h (List.lt_asymm (flatMap_utf8EncodeChar_lt hgt))

theorem utf8_le_utf8 {s t : String} : utf8 s ≤ utf8 t ↔ s ≤ t := by
  rw [← List.not_lt, utf8_lt_utf8, not_lt]

end StoredCall.Text
