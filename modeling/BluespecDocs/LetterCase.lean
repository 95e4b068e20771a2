/-!
Letter case, as far as it decides which names are the same. Names of settings, formats and truth values are
made of the letters from `a` to `z`.
-/

namespace BluespecDocs

namespace Text

/-- A character in lower case, as far as that is a letter from `a` to `z`. The Kelvin sign is the only
character besides the capitals from `A` to `Z` of which that holds. -/
def lowerChar (c : Char) : Char := if c.toNat = 0x212a then 'k' else c.toLower

/-- A text in lower case, character by character. -/
def lower (text : String) : String := String.ofList (text.toList.map lowerChar)

end Text

end BluespecDocs
