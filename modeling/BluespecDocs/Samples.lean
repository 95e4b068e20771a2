import BluespecDocs.Quoted

/-!
Sample sources, to try the extractor on.
-/

namespace BluespecDocs

structure Sample where
  name : String
  text : String
deriving DecidableEq, Repr

namespace Sample

/-- A package with an interface, a function and a module. -/
def counter : Sample :=
  ⟨"counter.bsv", String.join [
    "package Counter;\n",
    "\n",
    "import FIFO::*;\n",
    "import Vector::*;\n",
    "\n",
    "export Counter(..);\n",
    "export mkCounter;\n",
    "\n",
    "/// A saturating up-counter.\n",
    "///\n",
    "/// `inc` is ignored once the counter reaches its maximum.\n",
    "interface Counter#(numeric type n);\n",
    "    method Action inc;\n",
    "    method Bit#(n) read;\n",
    "endinterface\n",
    "\n",
    "// Internal helper, not part of the documented API\n",
    "/// Largest value representable in `n` bits\n",
    "function Bit#(n) maxValue();\n",
    "    return '1;\n",
    "endfunction\n",
    "\n",
    "/**\n",
    " * Counter implementation.\n",
    " *\n",
    " * Resets to zero.\n",
    " */\n",
    "module mkCounter(Counter#(n));\n",
    "    Reg#(Bit#(n)) count <- mkReg(0);\n",
    "\n",
    "    // endmodule inside a comment does not end the module\n",
    "    method Action inc;\n",
    "        if (count != maxValue) count <= count + 1;\n",
    "    endmethod\n",
    "\n",
    "    method Bit#(n) read = count;\n",
    "endmodule : mkCounter\n",
    "\n",
    "endpackage\n"]⟩

/-- A package with type definitions of all forms. -/
def typedefs : Sample :=
  ⟨"typedefs.bsv", String.join [
    "package Types;\n",
    "\n",
    "/// Machine word\n",
    "typedef Bit#(32) Word;\n",
    "\n",
    "/// Pipeline stage\n",
    "typedef enum \x7b\n",
    "    Fetch,\n",
    "    Decode,\n",
    "    Execute = 4\n",
    "\x7d Stage deriving (Bits, Eq);\n",
    "\n",
    "/* A plain block comment discards nothing but itself */\n",
    "/** Memory request */\n",
    "typedef struct \x7b\n",
    "    Word addr;\n",
    "    Bool write;\n",
    "    union tagged \x7b\n",
    "        void Idle;\n",
    "        Word Data;\n",
    "    \x7d Payload;\n",
    "\x7d MemReq deriving (Bits);\n",
    "\n",
    "/// Optional value\n",
    "typedef union tagged \x7b\n",
    "    void Invalid;\n",
    "    t Valid;\n",
    "\x7d Option#(type t) deriving (Eq, Bits);\n",
    "\n",
    "endpackage\n"]⟩

/-- Functions, one of them inside another. -/
def nestedFunctions : Sample :=
  ⟨"nested_functions.bsv", String.join [
    "/// Apply `f` twice\n",
    "function t twice(function t f(t x), t v);\n",
    "    /// Not attached: nested functions belong to their parent\n",
    "    function t once(t y);\n",
    "        return f(y);\n",
    "    endfunction\n",
    "    return once(once(v));\n",
    "endfunction\n",
    "\n",
    "function Bool isZero(Bit#(8) x) provisos (Add#(8, 0, 8));\n",
    "    return x == 0;\n",
    "endfunction : isZero\n"]⟩

/-- A package with a type class, an instance and a module. -/
def typeclasses : Sample :=
  ⟨"typeclasses.bsv", String.join [
    "package Classes;\n",
    "\n",
    "/// Conversion between two representations\n",
    "typeclass Convert#(type a, type b)\n",
    "    dependencies (a determines b);\n",
    "    function b convert(a x);\n",
    "endtypeclass\n",
    "\n",
    "/// Bytes convert to unsigned integers\n",
    "instance Convert#(Bit#(8), UInt#(8));\n",
    "    function convert = unpack;\n",
    "endinstance\n",
    "\n",
    "module [Module] mkTb(Empty);\n",
    "    rule go;\n",
    "        $display(\"endmodule\");\n",
    "        $finish;\n",
    "    endrule\n",
    "endmodule\n",
    "\n",
    "endpackage\n"]⟩

def all : List Sample := [counter, typedefs, nestedFunctions, typeclasses]

/-- The text of the sample of a name. -/
def text? (name : String) : Option String := (all.find? fun s => s.name == name).map Sample.text

def unavailableMessage (name : String) : String :=
  s!"Sample '{name}' not available. Available: " ++ Quoted.strings (all.map Sample.name)

end Sample

end BluespecDocs
