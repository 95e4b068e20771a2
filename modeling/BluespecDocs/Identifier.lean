/-!
Identifiers. The first character decides whether an identifier counts as capitalized, which types,
packages and classes must be, or as lower case, which values, functions and type variables must be.
-/

namespace BluespecDocs

/-- Whether an identifier starts with a capital letter, or with a small one or an underscore. -/
inductive LetterCase where
  | capitalized | lowercase
deriving DecidableEq, Repr

namespace LetterCase

/-- The case of a name, if its first character can start an identifier. -/
def ofName? (name : String) : Option LetterCase :=
  match name.toList with
  | c :: _ =>
    if c.isUpper then some capitalized
    else if c.isLower || c == '_' then some lowercase
    else none
  | [] => none

end LetterCase

/-- A name with its case. -/
structure Identifier where
  name : String
  letterCase : LetterCase
deriving DecidableEq, Repr

namespace Identifier

/-- The identifier of a name. Only the first character of the name is looked at. -/
def ofName? (name : String) : Option Identifier := (LetterCase.ofName? name).map (⟨name, ·⟩)

def isCapitalized (ident : Identifier) : Bool := ident.letterCase == .capitalized

end Identifier

end BluespecDocs
