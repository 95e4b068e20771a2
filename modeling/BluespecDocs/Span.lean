/-!
Positions in a source text are byte offsets into its UTF-8 form, and a span is a half-open range of
such positions. A span cuts a text only where both of its ends fall between two characters; otherwise
there is no slice.
-/

namespace BluespecDocs

namespace Text

/-- The number of bytes a text takes in UTF-8. -/
def byteSize : List Char → Nat
  | [] => 0
  | c :: cs => c.utf8Size + byteSize cs

/-- The text before and after a byte position, if the position falls between two characters. -/
def splitAtByte? : List Char → Nat → Option (List Char × List Char)
  | cs, 0 => some ([], cs)
  | [], _ + 1 => none
  | c :: cs, n + 1 =>
    if c.utf8Size ≤ n + 1 then
      (splitAtByte? cs (n + 1 - c.utf8Size)).map fun (before, after) => (c :: before, after)
    else none

end Text

/-- The bytes from `start` up to but not including `stop`. -/
structure Span where
  start : Nat
  stop : Nat
deriving DecidableEq, Repr

namespace Span

def length (span : Span) : Nat := span.stop - span.start

def isEmpty (span : Span) : Bool := span.start == span.stop

/-- The written form of a span, its two ends around two dots. -/
def display (span : Span) : String := s!"{span.start}..{span.stop}"

/-- The piece of a source text that a span covers. There is none when the span runs backwards, leaves
the text or splits a character. -/
def slice? (span : Span) (source : String) : Option String :=
  if span.start ≤ span.stop then do
    let (_, tail) ← Text.splitAtByte? source.toList span.start
    let (piece, _) ← Text.splitAtByte? tail span.length
    some (String.ofList piece)
  else none

end Span

end BluespecDocs
