import BluespecDocs.Declaration
import BluespecDocs.Lexeme
import BluespecDocs.Sink

/-!
The built-in check of the grammar: texts that a rule must accept as a whole, and texts that it must
reject.
-/

namespace BluespecDocs

inductive CheckedRule where
  | lineComment | docLineComment | capitalized | lowercase | anyIdentifier | decimalLiteral | intLiteral
  | keyword (word : String)
  | typeExpr | typedef | interface | typeclass | instanceOf | moduleOf | function | importOf | exportOf
deriving DecidableEq, Repr

namespace CheckedRule

def title : CheckedRule → String
  | lineComment => "one line comment"
  | docLineComment => "doc one line comment"
  | capitalized => "Identifier"
  | lowercase => "identifier"
  | anyIdentifier => "any identifier"
  | decimalLiteral => "decimal literal"
  | intLiteral => "integer literal"
  | keyword word => s!"keyword `{word}`"
  | typeExpr => "type"
  | typedef => "typedef"
  | interface => "interface"
  | typeclass => "typeclass"
  | instanceOf => "instance"
  | moduleOf => "module"
  | function => "function"
  | importOf => "import"
  | exportOf => "export"

/-- Whether some tokens are one comment of a kind. -/
def isComment (kind : CommentKind) : List Token → Bool
  | [t] => t.commentKind? == some kind
  | _ => false

/-- Reads a keyword and one more token. -/
def keywordAndOne (word : String) : Rule Unit := do
  Rule.keyword word
  Rule.tokenThat fun _ => true

/-- Whether a rule makes something of a whole text. -/
def accepts (rule : CheckedRule) (text : String) : Bool :=
  let tokens := Token.lex text
  match rule with
  | lineComment => isComment .line tokens
  | docLineComment => isComment .docLine tokens
  | capitalized => (Identifier.capitalized.complete? tokens).isSome
  | lowercase => (Identifier.lowercase.complete? tokens).isSome
  | anyIdentifier => (Identifier.any.complete? tokens).isSome
  | decimalLiteral => ((TokenReader.rule IntLiteral.decimalOfToken).complete? tokens).isSome
  | intLiteral => (IntLiteral.rule.complete? tokens).isSome
  | keyword word => ((keywordAndOne word).complete? tokens).isSome
  | typeExpr => (TypeExpr.rule.complete? tokens).isSome
  | typedef => (Typedef.rule.complete? tokens).isSome
  | interface => (Interface.rule.complete? tokens).isSome
  | typeclass => (Typeclass.rule.complete? tokens).isSome
  | instanceOf => (Instance.rule.complete? tokens).isSome
  | moduleOf => (Module.rule.complete? tokens).isSome
  | function => (Function.rule.complete? tokens).isSome
  | importOf => (Import.rule.complete? tokens).isSome
  | exportOf => (Export.rule.complete? tokens).isSome

end CheckedRule

/-- A rule with texts it must accept and texts it must reject. -/
structure CheckCase where
  rule : CheckedRule
  accepted : List String
  rejected : List String
deriving DecidableEq, Repr

structure CheckOutcome where
  rule : CheckedRule
  input : String
  expected : Bool
  matched : Bool
deriving DecidableEq, Repr

namespace CheckOutcome

/-- Whether a text was not treated as it must be. -/
def isMismatch (outcome : CheckOutcome) : Bool := outcome.expected != outcome.matched

def report (outcome : CheckOutcome) : String :=
  (if outcome.isMismatch then "ERROR: " else "") ++ outcome.input ++ " -> " ++
  (if outcome.matched then "match" else "no match") ++ " (" ++ outcome.rule.title ++ ")"

end CheckOutcome

namespace CheckCase

/-- The outcomes of a case: first the texts to accept, then those to reject. -/
def outcomes (c : CheckCase) : List CheckOutcome :=
  c.accepted.map (fun input => ⟨c.rule, input, true, c.rule.accepts input⟩) ++
  c.rejected.map (fun input => ⟨c.rule, input, false, c.rule.accepts input⟩)

def builtIn : List CheckCase :=
  [⟨.lineComment,
    ["//", "//Hello, World!", "// Hello, World!", "////Hello, World!", "//// Hello, World!"],
    ["///", "///Hello, World!", "/// Hello, World!"]⟩,
   ⟨.docLineComment,
    ["///", "///Hello, World!", "/// Hello, World!"],
    ["//", "//Hello, World!", "// Hello, World!", "////Hello, World!", "//// Hello, World!"]⟩,
   ⟨.capitalized,
    ["Hello", "World", "A", "ALL_CAPS", "About_$3_50"],
    ["$display", "a", "_TEST", "`Riscv", ""]⟩,
   ⟨.lowercase,
    ["hello", "world", "a", "aLMOST_ALL_CAPS", "about_$3_50", "_TEST_", "_abc"],
    ["$display", "A", "`Riscv", ""]⟩,
   ⟨.anyIdentifier, ["hello", "Hello", "HELLO", "world"], [""]⟩,
   ⟨.decimalLiteral, ["0", "1", "2", "42"], ["1a", "hello", "world"]⟩,
   ⟨.intLiteral,
    ["0", "1", "'1", "'0", "20152", "'hf0A", "201'hfff", "'b10110", "8'b11111111"],
    ["'b00101001012"]⟩,
   ⟨.keyword "module", ["module;", "module ;"], ["modules", "module_", "module2"]⟩,
   ⟨.typeExpr,
    ["a", "WriteReq", "Bool", "function Bit#(1) f(Bit#(1) x)", "void", "Bit#(2)", "List::List#(t)",
     "Vector#(2, Reg#(Bit#(32)))"],
    ["Vector#(2 Reg#(Bit#(5)))", "A#(B#(C#(a))"]⟩,
   ⟨.typedef,
    ["typedef a MyA;",
     "typedef Bit#(n) Word#(numeric type n);",
     "typedef enum \x7b Idle, Busy = 2 \x7d State deriving (Bits, Eq);",
     "typedef struct \x7b Bit#(32) addr; Bool write; \x7d Req deriving (Bits);",
     "typedef union tagged \x7b void Invalid; t Valid; \x7d Maybe#(type t) deriving (Eq);",
     "typedef struct \x7b union tagged \x7b void None; Bit#(4) Some; \x7d Opt; Bool b; \x7d Nest;"],
    ["typedef x y;", "typedef enum \x7b idle \x7d State;", "typedef struct \x7b \x7d Empty;"]⟩,
   ⟨.interface,
    ["interface Put#(type t); method Action put(t x); endinterface",
     "interface Empty2; endinterface : Empty2"],
    ["interface put; endinterface"]⟩,
   ⟨.typeclass,
    ["typeclass Arith#(type data_t) provisos (Literal#(data_t)); endtypeclass"],
    ["typeclass Arith; endtypeclass"]⟩,
   ⟨.instanceOf,
    ["instance Eq#(Foo); function Bool \\== (Foo a, Foo b) = True; endinstance"],
    ["instance Eq; endinstance"]⟩,
   ⟨.moduleOf,
    ["module[m] mkTest(); endmodule : mkTest", "module mkTop(Empty); endmodule"],
    ["module MkTop; endmodule"]⟩,
   ⟨.function,
    ["function Bool f(); endfunction",
     "function f(x); return x; endfunction : f",
     "function Bool outer(); function Bool inner(); endfunction endfunction"],
    ["function Bool F(); endfunction", "function Bool f();"]⟩,
   ⟨.importOf, ["import FIFO::*;", "import Vector :: * ;"], ["import fifo::*;", "import FIFO;"]⟩,
   ⟨.exportOf, ["export mkFifo;", "export Fifo(..);"], ["export Fifo(.);", "export;"]⟩]

end CheckCase

namespace SelfCheck

def outcomes (cases : List CheckCase) : List CheckOutcome := cases.flatMap CheckCase.outcomes

/-- The reports of the built-in cases, a line each. -/
def reports : List String := (outcomes CheckCase.builtIn).map fun outcome => outcome.report ++ "\n"

/-- How many texts of the built-in cases are not treated as they must be. -/
def mismatches : Nat := (outcomes CheckCase.builtIn).countP CheckOutcome.isMismatch

/-- Reports the built-in cases and counts the mismatches. -/
def run (sink : Sink) : Sink × Except WriteError Nat :=
  let (sink, result) := sink.writeEach reports
  (sink, result.map fun _ => mismatches)

end SelfCheck

end BluespecDocs
