/-!
# Texts as bytes

* `Text.utf8` is the bytes of a text, and `Text.utf8?` the text of bytes that are one.
-/

namespace StoredCall.Text

/-- The text of a byte string, if it is one. -/
def utf8? (bytes : List UInt8) : Option String :=
  String.fromUTF8? ⟨bytes.toArray⟩

/-- The bytes of a text. -/
def utf8 (s : String) : List UInt8 :=
  s.toUTF8.data.toList

end StoredCall.Text
