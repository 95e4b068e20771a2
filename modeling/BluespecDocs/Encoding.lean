import BluespecDocs.Document
import BluespecDocs.Json

/-!
The JSON form of declarations and their parts. Alternatives are told apart by a first field, `kind` for
constructs and `form` elsewhere. Where only the fields of a form are given, a larger form takes them in.
-/

namespace BluespecDocs

open Json (listOf orNull)

namespace Span

def toJson (span : Span) : Json := .object [("start", .nat span.start), ("end", .nat span.stop)]

end Span

namespace LetterCase

def toJson : LetterCase → Json
  | capitalized => .str "capitalized"
  | lowercase => .str "lowercase"

end LetterCase

namespace Identifier

def toJson (ident : Identifier) : Json :=
  .object [("name", .str ident.name), ("case", ident.letterCase.toJson)]

end Identifier

namespace Base

def toJson : Base → Json
  | decimal => .str "decimal"
  | hex => .str "hex"
  | octal => .str "octal"
  | binary => .str "binary"

end Base

namespace IntLiteral

def toJson : IntLiteral → Json
  | plain digits => .object [("form", .str "plain"), ("digits", .str digits)]
  | based width base digits =>
    .object [("form", .str "based"), ("width", orNull .nat width), ("base", base.toJson),
      ("digits", .str digits)]
  | fill ones => .object [("form", .str "fill"), ("ones", .bool ones)]

end IntLiteral

namespace TypeExpr

mutual

def toJson : TypeExpr → Json
  | named package name args =>
    .object [("form", .str "named"), ("package", orNull Identifier.toJson package), ("name", name.toJson),
      ("type_args", .list (toJsons args))]
  | function result name params =>
    .object [("form", .str "function"), ("return_type", toJson result), ("name", name.toJson),
      ("params", .list (toJsons params))]
  | numeric literal => .object [("form", .str "numeric"), ("literal", literal.toJson)]

def toJsons : List TypeExpr → List Json
  | [] => []
  | t :: ts => toJson t :: toJsons ts

end

end TypeExpr

namespace TypeFormal

def toJson (formal : TypeFormal) : Json :=
  .object [("numeric", .bool formal.numeric), ("name", formal.name.toJson)]

end TypeFormal

namespace TypeDependency

def toJson (dependency : TypeDependency) : Json :=
  .object [("determining", listOf Identifier.toJson dependency.determining),
    ("determined", listOf Identifier.toJson dependency.determined)]

end TypeDependency

namespace EnumElement

def toJson (element : EnumElement) : Json :=
  .object [("name", element.name.toJson), ("value", orNull IntLiteral.toJson element.value)]

end EnumElement

namespace Member

mutual

def toJson : Member → Json
  | field type name => .object [("form", .str "field"), ("ty", type.toJson), ("name", name.toJson)]
  | struct members tag =>
    .object [("form", .str "struct"), ("members", .list (toJsons members)), ("tag", tag.toJson)]
  | union members tag =>
    .object [("form", .str "union"), ("members", .list (toJsons members)), ("tag", tag.toJson)]

def toJsons : List Member → List Json
  | [] => []
  | m :: ms => toJson m :: toJsons ms

end

end Member

namespace TypedefBody

def toJson : TypedefBody → Json
  | synonym type => .object [("form", .str "alias"), ("ty", type.toJson)]
  | enum elements => .object [("form", .str "enum"), ("elements", listOf EnumElement.toJson elements)]
  | struct members => .object [("form", .str "struct"), ("members", listOf Member.toJson members)]
  | taggedUnion members => .object [("form", .str "tagged_union"), ("members", listOf Member.toJson members)]

end TypedefBody

namespace Package

def fields (p : Package) : List (String × Json) := [("name", p.name.toJson)]

end Package

namespace Typedef

def fields (t : Typedef) : List (String × Json) :=
  [("name", t.name.toJson), ("formals", orNull (listOf TypeFormal.toJson) t.formals), ("body", t.body.toJson),
   ("deriving", listOf Identifier.toJson t.derived)]

end Typedef

namespace Interface

def fields (i : Interface) : List (String × Json) :=
  [("name", i.name.toJson), ("formals", orNull (listOf TypeFormal.toJson) i.formals)]

end Interface

namespace Typeclass

def fields (t : Typeclass) : List (String × Json) :=
  [("name", t.name.toJson), ("formals", listOf TypeFormal.toJson t.formals),
   ("provisos", listOf TypeExpr.toJson t.provisos),
   ("dependencies", listOf TypeDependency.toJson t.dependencies)]

end Typeclass

namespace Instance

def fields (i : Instance) : List (String × Json) :=
  [("name", i.name.toJson), ("type_args", listOf TypeExpr.toJson i.args),
   ("provisos", listOf TypeExpr.toJson i.provisos)]

end Instance

namespace Module

def fields (m : Module) : List (String × Json) :=
  [("name", m.name.toJson), ("context", orNull TypeExpr.toJson m.context)]

end Module

namespace FunctionHeader

/-- A parameter as a list of its type and its name. -/
def paramToJson (param : TypeExpr × Option Identifier) : Json :=
  .list [param.1.toJson, orNull Identifier.toJson param.2]

def fields (h : FunctionHeader) : List (String × Json) :=
  [("name", h.name.toJson), ("return_type", orNull TypeExpr.toJson h.result),
   ("params", listOf paramToJson h.params), ("provisos", listOf TypeExpr.toJson h.provisos)]

end FunctionHeader

namespace Function

mutual

def fields : Function → List (String × Json)
  | ⟨header, span, nested⟩ => header.fields ++ [("span", span.toJson), ("nested", .list (toJsons nested))]

def toJsons : List Function → List Json
  | [] => []
  | f :: fs => .object (fields f) :: toJsons fs

end

end Function

namespace Construct

/-- The fields of a construct without its kind. -/
def fields : Construct → List (String × Json)
  | ofPackage p => p.fields
  | ofTypedef t => t.fields
  | ofInterface i => i.fields
  | ofTypeclass t => t.fields
  | ofInstance i => i.fields
  | ofModule m => m.fields
  | ofFunction f => f.fields

/-- The form of a construct: its kind, which is its keyword, and its fields. -/
def toJson (construct : Construct) : Json :=
  .object (("kind", .str construct.keyword) :: construct.fields)

end Construct

namespace Export

def toJson (statement : Export) : Json :=
  .object [("name", .str statement.name.name), ("with_members", .bool statement.withMembers)]

end Export

namespace Declaration

/-- Documentation as it is shown: without newlines around it, and left out when it is blank. -/
def shownDoc (doc : Option String) : Option String :=
  (doc.map fun text => Text.trimNewlines text.toList).bind fun cs =>
    if cs.all Text.isWhitespace then none else some (String.ofList cs)

/-- The form of a declaration, with the piece of the source that it spans. -/
def toJson? (source : String) (d : Declaration) : Option Json := do
  let piece ← d.span.slice? source
  let nested := d.construct.nestedFunctions.map fun f => Json.str f.name.name
  return .object <|
    [("kind", .str d.construct.keyword), ("name", .str d.construct.name.name), ("line", .nat d.line),
     ("span", d.span.toJson), ("has_parameters", .bool d.hasParameters),
     ("doc", orNull .str (shownDoc d.doc)), ("source", .str piece)] ++
    (if nested.isEmpty then [] else [("nested", .list nested)]) ++
    [("detail", d.construct.toJson)]

end Declaration

namespace Document

/-- The form of a document. There is none when a declaration spans no piece of the source. -/
def toJson? (source : String) (doc : Document) : Option Json := do
  let declarations ← doc.declarations.mapM (Declaration.toJson? source)
  return .object
    [("path", .str doc.path), ("package", orNull (fun p => .str p.name) doc.package),
     ("imports", .list (doc.imports.map fun i => .str i.package.name)),
     ("exports", listOf Export.toJson doc.exports), ("declarations", .list declarations)]

end Document

end BluespecDocs
