import DocComment.Text.Blank

/-!
# UTF-8

The bytes of a text and the text of bytes.
-/

namespace DocComment
namespace Text

/-- The UTF-8 form of a text. -/
def encodeUtf8 (text : Text) : ByteArray :=
  (String.ofList text).toUTF8

/-- The text whose UTF-8 form the bytes are, if there is one. -/
def decodeUtf8? (bytes : ByteArray) : Option Text :=
  bytes.utf8Decode?.map Array.toList

/-- Decoding the UTF-8 form of a text gives the text. -/
@[simp]
theorem decodeUtf8?_encodeUtf8 (text : Text) : decodeUtf8? (encodeUtf8 text) = some text := by
  have hbytes : encodeUtf8 text = text.utf8Encode := rfl
  rw [decodeUtf8?, hbytes, List.utf8Decode?_utf8Encode]
  rfl

end Text
end DocComment
