-- SUMMARY: Text as bytes, and bytes as text.

/-!
# UTF-8

Input and output are bytes. Output that comes from text is its UTF-8 form; input
is text where it is the UTF-8 form of some text.
-/

namespace Abacus.Text

/-- The UTF-8 form of a text. -/
def utf8 (text : String) : List UInt8 :=
  text.toUTF8.data.toList

/-- The text whose UTF-8 form is given, if it is one. -/
def ofUtf8? (bytes : List UInt8) : Option String :=
  String.fromUTF8? ⟨bytes.toArray⟩

theorem ofUtf8?_utf8 (text : String) : ofUtf8? (utf8 text) = some text := by
  have h : String.fromUTF8? text.toUTF8 = some text := by
    simp only [String.fromUTF8?, String.toUTF8_eq_toByteArray, text.isValidUTF8, dite_true]
    rfl
  simpa [ofUtf8?, utf8] using h

end Abacus.Text
