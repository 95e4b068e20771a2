import BluespecDocs.Document
import BluespecDocs.Quoted

/-!
Expectations on a document. An expectation that is not met is reported with the declaration it concerns
and with the actual and the expected value.
-/

namespace BluespecDocs

inductive DeclarationExpectation where
  | keyword (value : String)
  | name (value : String)
  | line (value : Nat)
  | hasParameters (value : Bool)
  | noDoc
  | doc (value : String)
  | docContains (value : String)
  | text (value : String)
  | nested (names : List String)
deriving DecidableEq, Repr

inductive Expectation where
  | declarationCount (value : Nat)
  | package (value : String)
  | imports (names : List String)
  | exports (names : List String)
  | declaration (index : Nat) (expectations : List DeclarationExpectation)
deriving Repr

/-- How an expectation is not met: two values differ, or a condition fails. -/
inductive Discrepancy where
  | differs (subject actual expected : String)
  | fails (condition : String)
deriving DecidableEq, Repr

namespace Discrepancy

def message : Discrepancy → String
  | differs subject actual expected =>
    s!"assertion `left == right` failed: {subject}\n  left: {actual}\n right: {expected}"
  | fails condition => condition

end Discrepancy

namespace Declaration

/-- Keyword and name of a declaration. -/
def summary (d : Declaration) : String := d.construct.keyword ++ " " ++ d.construct.name.name

end Declaration

namespace Document

/-- Keywords and names of all declarations. -/
def summary (doc : Document) : String := ", ".intercalate (doc.declarations.map Declaration.summary)

end Document

namespace Expectation

/-- Two values that should be equal, with how they are shown. -/
def same [DecidableEq α] (shown : α → String) (subject : String) (actual expected : α) :
    Except Discrepancy Unit :=
  if actual = expected then .ok () else .error (.differs subject (shown actual) (shown expected))

/-- A condition that should hold, with what to say when it does not. -/
def holds (condition : Bool) (otherwise : String) : Except Discrepancy Unit :=
  if condition then .ok () else .error (.fails otherwise)

def contains (text part : List Char) : Bool := part.isPrefixOf text ||
  match text with
  | [] => false
  | _ :: rest => contains rest part

end Expectation

namespace DeclarationExpectation

open Expectation (same holds)

def shownBool (b : Bool) : String := if b then "true" else "false"

/-- Checks an expectation on a declaration of a source text. `context` tells which declaration it is. -/
def check (source context : String) (d : Declaration) : DeclarationExpectation → Except Discrepancy Unit
  | keyword value => same Quoted.string (context ++ ": kind") d.construct.keyword value
  | name value => same Quoted.string (context ++ ": name") d.construct.name.name value
  | line value => same toString (context ++ ": line") d.line value
  | hasParameters value => same shownBool (context ++ ": has_parameters") d.hasParameters value
  | noDoc => holds d.doc.isNone s!"{context}: expected no doc, got {Quoted.stringOrNone d.doc}"
  | doc value =>
    let trimmed := d.doc.map fun text => String.ofList (Text.trimNewlines text.toList)
    same Quoted.stringOrNone (context ++ ": doc") trimmed (some value)
  | docContains value =>
    holds (d.doc.any fun text => Expectation.contains text.toList value.toList)
      s!"{context}: expected doc to contain '{value}', got {Quoted.stringOrNone d.doc}"
  | text value => same Quoted.string (context ++ ": text") ((d.span.slice? source).getD "") value
  | nested names =>
    match d.construct with
    | .ofFunction f =>
      same Quoted.strings (context ++ ": nested functions") (f.nested.map fun inner => inner.name.name) names
    | other => .error (.fails s!"{context}: expected a function, found {other.keyword}")

end DeclarationExpectation

namespace Expectation

/-- Checks an expectation on the document of a source text. Expectations on a declaration are checked in
order, up to the first that is not met. -/
def check (source : String) (doc : Document) : Expectation → Except Discrepancy Unit
  | declarationCount value =>
    let count := doc.declarations.length
    same toString s!"Expected {value} declarations, found {count}: [{doc.summary}]" count value
  | package value =>
    same Quoted.stringOrNone "package name" (doc.package.map Identifier.name) (some value)
  | imports names => same Quoted.strings "imports" (doc.imports.map fun i => i.package.name) names
  | exports names => same Quoted.strings "exports" (doc.exports.map fun e => e.name.name) names
  | declaration index expectations =>
    match doc.declarations[index]? with
    | some d =>
      let context := s!"declarations[{index}] ({d.summary})"
      expectations.forM (DeclarationExpectation.check source context d)
    | none =>
      let count := doc.declarations.length
      .error (.fails s!"Declaration index {index} out of bounds (document has {count}: [{doc.summary}])")

end Expectation

end BluespecDocs
