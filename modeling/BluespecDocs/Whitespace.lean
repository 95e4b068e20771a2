/-!
White space, as the Unicode property `White_Space` has it, and trimming by it.
-/

namespace BluespecDocs

namespace Text

/-- Whether a character has the Unicode property `White_Space`. -/
def isWhitespace (c : Char) : Bool :=
  let n := c.toNat
  (0x09 ≤ n && n ≤ 0x0d) || n == 0x20 || n == 0x85 || n == 0xa0 || n == 0x1680 ||
  (0x2000 ≤ n && n ≤ 0x200a) || n == 0x2028 || n == 0x2029 || n == 0x202f || n == 0x205f || n == 0x3000

/-- A text without the characters at its end that pass a test. -/
def dropEndWhile (test : Char → Bool) (cs : List Char) : List Char := (cs.reverse.dropWhile test).reverse

def trimEnd (cs : List Char) : List Char := dropEndWhile isWhitespace cs

def trimNewlines (cs : List Char) : List Char := dropEndWhile (· == '\n') (cs.dropWhile (· == '\n'))

end Text

end BluespecDocs
