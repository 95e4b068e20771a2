import BluespecDocs.Typedef

/-!
The grammar of types and type definitions. A tree is one way to write something down: its constructors and
fields are the productions, and its leaves are the tokens. `tokens` lists the leaves from left to right and
`value` is what the tree stands for. Nothing here says how a tree is found, or which of two is tried first.
-/

namespace BluespecDocs

variable {α τ : Type}

/-- A token that `read` makes something of, with what it makes of it. -/
structure Leaf (read : Token → Option α) where
  token : Token
  value : α
  reads : read token = some value

/-- The word `name`. -/
abbrev WordLeaf (name : String) := Leaf fun t => if t.isWord name then some () else none

/-- A punctuation mark. -/
abbrev MarkLeaf (m : Mark) := Leaf fun t => if t.isMark m then some () else none

/-- An identifier of the given case. -/
abbrev NameLeaf (wanted : LetterCase) := Leaf fun t => (Identifier.ofTokenIn wanted t).toOption

/-- An identifier of either case. -/
abbrev AnyNameLeaf := Leaf fun t => (Identifier.ofToken t).toOption

/-- An identifier other than the word `function`. -/
abbrev TypeNameLeaf := Leaf fun t => (Identifier.ofToken t).toOption.filter (·.name ≠ "function")

/-- An integer literal. -/
abbrev LiteralLeaf := Leaf fun t => (IntLiteral.ofToken t).toOption

/-- The tokens of a part that may be missing. -/
def optionalTokens (tokens : τ → List Token) : Option τ → List Token
  | some part => tokens part
  | none => []

/-- One or more items with commas between them. -/
inductive Separated (τ : Type) where
  | last (item : τ)
  | more (item : τ) (comma : MarkLeaf .comma) (rest : Separated τ)

namespace Separated

/-- The tokens of the items and of the commas between them. -/
def tokens (itemTokens : τ → List Token) : Separated τ → List Token
  | last item => itemTokens item
  | more item comma rest => itemTokens item ++ comma.token :: tokens itemTokens rest

/-- The values of the items. -/
def values (itemValue : τ → α) : Separated τ → List α
  | last item => [itemValue item]
  | more item _ rest => itemValue item :: values itemValue rest

end Separated

/-- `Package ::` -/
structure QualifierTree where
  package : AnyNameLeaf
  colons : MarkLeaf .doubleColon

namespace QualifierTree

def tokens (tree : QualifierTree) : List Token := [tree.package.token, tree.colons.token]

def value (tree : QualifierTree) : Identifier := tree.package.value

end QualifierTree

mutual

/-- A type: `function T name(T name, …)`, `Package :: Name` or `Name`, either of these followed by
`#(T, …)`, or a literal. -/
inductive TypeTree where
  | function (word : WordLeaf "function") (result : TypeTree) (name : NameLeaf .lowercase)
      (opening : MarkLeaf .leftParen) (params : Separated ParamTree) (closing : MarkLeaf .rightParen)
  | named (package : Option QualifierTree) (name : TypeNameLeaf)
  | applied (package : Option QualifierTree) (name : TypeNameLeaf) (hash : MarkLeaf .hash)
      (opening : MarkLeaf .leftParen) (args : Separated TypeTree) (closing : MarkLeaf .rightParen)
  | numeric (literal : LiteralLeaf)

/-- `T name`, a parameter of a function type. -/
inductive ParamTree where
  | mk (type : TypeTree) (name : NameLeaf .lowercase)

end

namespace TypeTree

mutual

def tokens : TypeTree → List Token
  | function word result name opening params closing =>
    word.token :: (tokens result ++ name.token :: opening.token :: (paramsTokens params ++ [closing.token]))
  | named package name => optionalTokens QualifierTree.tokens package ++ [name.token]
  | applied package name hash opening args closing =>
    optionalTokens QualifierTree.tokens package ++
      name.token :: hash.token :: opening.token :: (argsTokens args ++ [closing.token])
  | numeric literal => [literal.token]

def paramTokens : ParamTree → List Token
  | .mk type name => tokens type ++ [name.token]

def argsTokens : Separated TypeTree → List Token
  | .last item => tokens item
  | .more item comma rest => tokens item ++ comma.token :: argsTokens rest

def paramsTokens : Separated ParamTree → List Token
  | .last item => paramTokens item
  | .more item comma rest => paramTokens item ++ comma.token :: paramsTokens rest

end

mutual

def value : TypeTree → TypeExpr
  | function _ result name _ params _ => .function (value result) name.value (paramsValues params)
  | named package name => .named (package.map QualifierTree.value) name.value []
  | applied package name _ _ args _ => .named (package.map QualifierTree.value) name.value (argsValues args)
  | numeric literal => .numeric literal.value

def paramValue : ParamTree → TypeExpr
  | .mk type _ => value type

def argsValues : Separated TypeTree → List TypeExpr
  | .last item => [value item]
  | .more item _ rest => value item :: argsValues rest

def paramsValues : Separated ParamTree → List TypeExpr
  | .last item => [paramValue item]
  | .more item _ rest => paramValue item :: paramsValues rest

end

theorem argsTokens_eq (args : Separated TypeTree) : argsTokens args = args.tokens tokens := by
  induction args with
  | last item => rw [argsTokens, Separated.tokens]
  | more item comma rest ih => rw [argsTokens, Separated.tokens, ih]

theorem paramsTokens_eq (params : Separated ParamTree) : paramsTokens params = params.tokens paramTokens := by
  induction params with
  | last item => rw [paramsTokens, Separated.tokens]
  | more item comma rest ih => rw [paramsTokens, Separated.tokens, ih]

theorem argsValues_eq (args : Separated TypeTree) : argsValues args = args.values value := by
  induction args with
  | last item => rw [argsValues, Separated.values]
  | more item comma rest ih => rw [argsValues, Separated.values, ih]

theorem paramsValues_eq (params : Separated ParamTree) : paramsValues params = params.values paramValue := by
  induction params with
  | last item => rw [paramsValues, Separated.values]
  | more item comma rest ih => rw [paramsValues, Separated.values, ih]

end TypeTree

/-- `type name` or `numeric type name`. -/
structure FormalTree where
  numeric : Option (WordLeaf "numeric")
  word : WordLeaf "type"
  name : NameLeaf .lowercase

namespace FormalTree

def tokens (tree : FormalTree) : List Token :=
  optionalTokens (fun word => [word.token]) tree.numeric ++ [tree.word.token, tree.name.token]

def value (tree : FormalTree) : TypeFormal := ⟨tree.numeric.isSome, tree.name.value⟩

end FormalTree

/-- `#(formal, …)` -/
structure FormalsTree where
  hash : MarkLeaf .hash
  opening : MarkLeaf .leftParen
  items : Separated FormalTree
  closing : MarkLeaf .rightParen

namespace FormalsTree

def tokens (tree : FormalsTree) : List Token :=
  tree.hash.token :: tree.opening.token :: (tree.items.tokens FormalTree.tokens ++ [tree.closing.token])

def value (tree : FormalsTree) : List TypeFormal := tree.items.values FormalTree.value

end FormalsTree

/-- The defined name with its formals: `Name` or `Name #(formal, …)`. -/
structure TargetTree where
  name : NameLeaf .capitalized
  formals : Option FormalsTree

namespace TargetTree

def tokens (tree : TargetTree) : List Token :=
  tree.name.token :: optionalTokens FormalsTree.tokens tree.formals

def value (tree : TargetTree) : Identifier × Option (List TypeFormal) :=
  (tree.name.value, tree.formals.map FormalsTree.value)

end TargetTree

/-- `deriving(Class, …)` -/
structure DerivingTree where
  word : WordLeaf "deriving"
  opening : MarkLeaf .leftParen
  classes : Separated (NameLeaf .capitalized)
  closing : MarkLeaf .rightParen

namespace DerivingTree

def tokens (tree : DerivingTree) : List Token :=
  tree.word.token :: tree.opening.token ::
    (tree.classes.tokens (fun name => [name.token]) ++ [tree.closing.token])

def value (tree : DerivingTree) : List Identifier := tree.classes.values Leaf.value

end DerivingTree

/-- `Name` or `Name = literal`. -/
inductive ElementTree where
  | plain (name : NameLeaf .capitalized)
  | assigned (name : NameLeaf .capitalized) (equals : MarkLeaf .equals) (literal : LiteralLeaf)

namespace ElementTree

def tokens : ElementTree → List Token
  | plain name => [name.token]
  | assigned name equals literal => [name.token, equals.token, literal.token]

def value : ElementTree → EnumElement
  | plain name => ⟨name.value, none⟩
  | assigned name _ literal => ⟨name.value, some literal.value⟩

end ElementTree

mutual

/-- A member whose name, if it is a field, has the given case: `T name ;` or a block. -/
inductive MemberTree : LetterCase → Type where
  | field {wanted : LetterCase} (type : TypeTree) (name : NameLeaf wanted) (semicolon : MarkLeaf .semicolon) :
      MemberTree wanted
  | block {wanted : LetterCase} (inner : BlockTree) : MemberTree wanted

/-- A member that is not a field: one or more members of a structure as `struct { member … } Tag ;`, or of a
tagged union as `union tagged { member … } Tag ;`. -/
inductive BlockTree : Type where
  | struct (word : WordLeaf "struct") (opening : MarkLeaf .leftBrace) (first : MemberTree .lowercase)
      (others : List (MemberTree .lowercase)) (closing : MarkLeaf .rightBrace) (tag : NameLeaf .capitalized)
      (semicolon : MarkLeaf .semicolon)
  | union (word : WordLeaf "union") (tagged : WordLeaf "tagged") (opening : MarkLeaf .leftBrace)
      (first : MemberTree .capitalized) (others : List (MemberTree .capitalized))
      (closing : MarkLeaf .rightBrace) (tag : NameLeaf .capitalized) (semicolon : MarkLeaf .semicolon)

end

namespace MemberTree

mutual

def tokens {wanted : LetterCase} : MemberTree wanted → List Token
  | field type name semicolon => type.tokens ++ [name.token, semicolon.token]
  | block inner => blockTokens inner

def blockTokens : BlockTree → List Token
  | .struct word opening first others closing tag semicolon =>
    word.token :: opening.token ::
      (tokens first ++ (fieldsTokens others ++ [closing.token, tag.token, semicolon.token]))
  | .union word tagged opening first others closing tag semicolon =>
    word.token :: tagged.token :: opening.token ::
      (tokens first ++ (casesTokens others ++ [closing.token, tag.token, semicolon.token]))

def fieldsTokens : List (MemberTree .lowercase) → List Token
  | [] => []
  | member :: members => tokens member ++ fieldsTokens members

def casesTokens : List (MemberTree .capitalized) → List Token
  | [] => []
  | member :: members => tokens member ++ casesTokens members

end

mutual

def value {wanted : LetterCase} : MemberTree wanted → Member
  | field type name _ => .field type.value name.value
  | block inner => blockValue inner

def blockValue : BlockTree → Member
  | .struct _ _ first others _ tag _ => .struct (value first :: fieldsValues others) tag.value
  | .union _ _ _ first others _ tag _ => .union (value first :: casesValues others) tag.value

def fieldsValues : List (MemberTree .lowercase) → List Member
  | [] => []
  | member :: members => value member :: fieldsValues members

def casesValues : List (MemberTree .capitalized) → List Member
  | [] => []
  | member :: members => value member :: casesValues members

end

theorem fieldsTokens_eq (members : List (MemberTree .lowercase)) :
    fieldsTokens members = members.flatMap tokens := by
  induction members with
  | nil => rw [fieldsTokens, List.flatMap_nil]
  | cons member members ih => rw [fieldsTokens, List.flatMap_cons, ih]

theorem casesTokens_eq (members : List (MemberTree .capitalized)) :
    casesTokens members = members.flatMap tokens := by
  induction members with
  | nil => rw [casesTokens, List.flatMap_nil]
  | cons member members ih => rw [casesTokens, List.flatMap_cons, ih]

theorem fieldsValues_eq (members : List (MemberTree .lowercase)) :
    fieldsValues members = members.map value := by
  induction members with
  | nil => rw [fieldsValues, List.map_nil]
  | cons member members ih => rw [fieldsValues, List.map_cons, ih]

theorem casesValues_eq (members : List (MemberTree .capitalized)) :
    casesValues members = members.map value := by
  induction members with
  | nil => rw [casesValues, List.map_nil]
  | cons member members ih => rw [casesValues, List.map_cons, ih]

end MemberTree

/-- What ends a definition that is not an alias: the target, the classes it derives, and a semicolon. -/
structure EndingTree where
  target : TargetTree
  classes : Option DerivingTree
  semicolon : MarkLeaf .semicolon

namespace EndingTree

def tokens (tree : EndingTree) : List Token :=
  tree.target.tokens ++ (optionalTokens DerivingTree.tokens tree.classes ++ [tree.semicolon.token])

/-- The definition of a body that stands in front of the ending. -/
def value (body : TypedefBody) (tree : EndingTree) : Typedef :=
  ⟨tree.target.value.1, tree.target.value.2, body, tree.classes.elim [] DerivingTree.value⟩

end EndingTree

/-- A type definition: an alias `typedef T Target ;`, an enumeration `typedef enum { element, … }`, a
structure `typedef struct { member … }` or a tagged union `typedef union tagged { member … }`, each of the
last three followed by `Target deriving(…) ;`. -/
inductive TypedefTree where
  | synonym (word : WordLeaf "typedef") (type : TypeTree) (target : TargetTree) (semicolon : MarkLeaf .semicolon)
  | enum (word : WordLeaf "typedef") (kind : WordLeaf "enum") (opening : MarkLeaf .leftBrace)
      (elements : Separated ElementTree) (closing : MarkLeaf .rightBrace) (ending : EndingTree)
  | struct (word : WordLeaf "typedef") (kind : WordLeaf "struct") (opening : MarkLeaf .leftBrace)
      (first : MemberTree .lowercase) (others : List (MemberTree .lowercase)) (closing : MarkLeaf .rightBrace)
      (ending : EndingTree)
  | union (word : WordLeaf "typedef") (kind : WordLeaf "union") (tagged : WordLeaf "tagged")
      (opening : MarkLeaf .leftBrace) (first : MemberTree .capitalized)
      (others : List (MemberTree .capitalized)) (closing : MarkLeaf .rightBrace) (ending : EndingTree)

namespace TypedefTree

def tokens : TypedefTree → List Token
  | synonym word type target semicolon =>
    word.token :: (type.tokens ++ (target.tokens ++ [semicolon.token]))
  | enum word kind opening elements closing ending =>
    word.token :: kind.token :: opening.token ::
      (elements.tokens ElementTree.tokens ++ closing.token :: ending.tokens)
  | struct word kind opening first others closing ending =>
    word.token :: kind.token :: opening.token ::
      (first.tokens ++ (others.flatMap MemberTree.tokens ++ closing.token :: ending.tokens))
  | union word kind tagged opening first others closing ending =>
    word.token :: kind.token :: tagged.token :: opening.token ::
      (first.tokens ++ (others.flatMap MemberTree.tokens ++ closing.token :: ending.tokens))

def value : TypedefTree → Typedef
  | synonym _ type target _ => ⟨target.value.1, target.value.2, .synonym type.value, []⟩
  | enum _ _ _ elements _ ending => ending.value (.enum (elements.values ElementTree.value))
  | struct _ _ _ first others _ ending => ending.value (.struct (first.value :: others.map MemberTree.value))
  | union _ _ _ _ first others _ ending =>
    ending.value (.taggedUnion (first.value :: others.map MemberTree.value))

end TypedefTree

end BluespecDocs
