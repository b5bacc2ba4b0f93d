/-!
# Texts as bytes
-/
namespace CfiSlack.Text

def toBytes (s : String) : List UInt8 := s.toUTF8.data.toList

/-- The text of some bytes, if they are well-formed UTF-8. -/
def ofBytes? (bytes : List UInt8) : Option String := String.fromUTF8? ⟨bytes.toArray⟩

end CfiSlack.Text
