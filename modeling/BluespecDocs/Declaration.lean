import BluespecDocs.Function
import BluespecDocs.Package
import BluespecDocs.Typedef

/-!
Declarations: the seven constructs that can carry documentation, with their place in the source.
-/

namespace BluespecDocs

inductive Construct where
  | ofPackage (construct : Package)
  | ofTypedef (construct : Typedef)
  | ofInterface (construct : Interface)
  | ofTypeclass (construct : Typeclass)
  | ofInstance (construct : Instance)
  | ofModule (construct : Module)
  | ofFunction (construct : Function)
deriving Repr

namespace Construct

/-- The word that introduces a construct. -/
def keyword : Construct → String
  | ofPackage _ => "package"
  | ofTypedef _ => "typedef"
  | ofInterface _ => "interface"
  | ofTypeclass _ => "typeclass"
  | ofInstance _ => "instance"
  | ofModule _ => "module"
  | ofFunction _ => "function"

def keywords : List String :=
  ["package", "typedef", "interface", "typeclass", "instance", "module", "function"]

def name : Construct → Identifier
  | ofPackage p => p.name
  | ofTypedef t => t.name
  | ofInterface i => i.name
  | ofTypeclass t => t.name
  | ofInstance i => i.name
  | ofModule m => m.name
  | ofFunction f => f.name

/-- Whether a construct is parameterized: type classes and instances always, type definitions and
interfaces if they have formals, and the others never. -/
def hasParameters : Construct → Bool
  | ofTypeclass _ | ofInstance _ => true
  | ofTypedef t => t.formals.isSome
  | ofInterface i => i.formals.isSome
  | ofPackage _ | ofModule _ | ofFunction _ => false

/-- The functions directly inside a construct. -/
def nestedFunctions : Construct → List Function
  | ofFunction f => f.nested
  | _ => []

def rule : Rule Construct :=
  (do return ofPackage (← Package.rule)) <|>
  (do return ofTypedef (← Typedef.rule)) <|>
  (do return ofInterface (← Interface.rule)) <|>
  (do return ofTypeclass (← Typeclass.rule)) <|>
  (do return ofInstance (← Instance.rule)) <|>
  (do return ofModule (← Module.rule)) <|>
  (do return ofFunction (← Function.rule))

end Construct

/-- A declaration found in a source text: its construct, its place, whether it is parameterized, and the documentation
in front of it. -/
structure Declaration where
  construct : Construct
  span : Span
  line : Nat
  hasParameters : Bool
  doc : Option String
deriving Repr

namespace Declaration

def ofConstruct (construct : Construct) (span : Span) (line : Nat) (doc : Option String) : Declaration :=
  ⟨construct, span, line, construct.hasParameters, doc⟩

end Declaration

end BluespecDocs
