import BluespecDocs.Comment
import BluespecDocs.Declaration
import BluespecDocs.Lexeme
import BluespecDocs.LineTable

/-!
Documents. A source text is searched from its start for declarations and statements; what matches
neither is passed over token by token, and the search goes on behind what does. Documentation comments
between declarations go to the next declaration.
-/

namespace BluespecDocs

/-- What is found in a source text: the declarations, imports and exports, each in the order of the
source. -/
structure Contents where
  declarations : List Declaration := []
  imports : List Import := []
  exports : List Export := []
deriving Repr

/-- The contents of a source text with the path it came from and the package it belongs to. -/
structure Document extends Contents where
  path : String
  package : Option Identifier
deriving Repr

namespace Statement

/-- The words that introduce a statement. -/
def keywords : List String := ["import", "export"]

end Statement

namespace Construct

def packageName? : Construct → Option Identifier
  | ofPackage p => some p.name
  | _ => none

end Construct

namespace Contents

def addDeclaration (found : Declaration) (contents : Contents) : Contents :=
  { contents with declarations := found :: contents.declarations }

def addStatement (found : Statement) (contents : Contents) : Contents :=
  match found with
  | .ofImport statement => { contents with imports := statement :: contents.imports }
  | .ofExport statement => { contents with exports := statement :: contents.exports }

/-- The name of the first package header. -/
def package? (contents : Contents) : Option Identifier :=
  contents.declarations.findSome? fun d => d.construct.packageName?

end Contents

namespace Document

def isOneOf (words : List String) (t : Token) : Bool := words.any fun word => t.isWord word

def behind (span : Span) (tokens : List Token) : List Token := tokens.dropWhile (·.span.stop ≤ span.stop)

theorem length_behind_le (span : Span) (tokens : List Token) :
    (behind span tokens).length ≤ tokens.length :=
  (List.dropWhile_sublist _).length_le

/-- Searches tokens from the front, while `pending` waits for a declaration. Gives the contents and what
waits at the end. -/
def search (table : LineTable) (pending : PendingDoc) : List Token → Contents × PendingDoc
  | [] => ({}, pending)
  | t :: rest =>
    match t.commentKind? with
    | some kind => search table (pending.observe kind t.text) rest
    | none =>
      if isOneOf Construct.keywords t then
        match Rule.spanned Construct.rule (t :: rest) with
        | some ((construct, span), _) =>
          let found := Declaration.ofConstruct construct span (table.lineOf span.start) pending.taken?
          let (contents, left) := search table pending.clear (behind span rest)
          (contents.addDeclaration found, left)
        -- a construct that is not complete is no reason to drop what waits
        | none => search table pending rest
      else if isOneOf Statement.keywords t then
        match Rule.spanned Statement.rule (t :: rest) with
        | some ((found, span), _) =>
          -- a statement has no documentation, so what waits goes on waiting
          let (contents, left) := search table pending (behind span rest)
          (contents.addStatement found, left)
        | none => search table pending rest
      else search table pending rest
termination_by tokens => tokens.length
decreasing_by
  all_goals
    have := length_behind_le
    simp_all +arith

end Document

/-- Searches source texts one after the other. It keeps the documentation that waited at the end of the
last text. -/
structure Extractor where
  pending : PendingDoc := .empty
deriving DecidableEq, Repr

namespace Extractor

/-- The document of a source text. Documentation left over from an earlier text is dropped first. -/
def scan (before : Extractor) (source path : String) : Document × Extractor :=
  let (contents, left) :=
    Document.search (LineTable.ofSource source) before.pending.clear (Token.lex source)
  ({ contents with path, package := contents.package? }, ⟨left⟩)

end Extractor

namespace Document

/-- The document of a source text on its own. -/
def ofSource (source path : String) : Document := (({} : Extractor).scan source path).1

end Document

end BluespecDocs
