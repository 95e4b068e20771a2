/-!
Line numbers. The table of a text holds the byte offset at which each of its lines starts; the line of
a position is found by halving the table, and is one more than the number of newlines before it.
-/

namespace BluespecDocs

/-- The byte offsets at which the lines of a text start, in increasing order. -/
structure LineTable where
  starts : Array Nat

namespace LineTable

/-- The offsets right after each newline of a text that itself starts at offset `pos`. -/
def startsAfter (pos : Nat) : List Char → List Nat
  | [] => []
  | c :: cs =>
    let next := pos + c.utf8Size
    if c = '\n' then next :: startsAfter next cs else startsAfter next cs

/-- The table of a source text; its first line starts at offset 0. -/
def ofSource (source : String) : LineTable := ⟨(0 :: startsAfter 0 source.toList).toArray⟩

def lineCount (table : LineTable) : Nat := table.starts.size

/-- The number of entries that do not exceed `offset`, when the entries below index `low` do not and
those from index `high` on do. -/
def countUpTo (table : LineTable) (offset low high : Nat) : Nat :=
  if low < high then
    let middle := (low + high) / 2
    if table.starts.getD middle 0 ≤ offset then table.countUpTo offset (middle + 1) high
    else table.countUpTo offset low middle
  else low
termination_by high - low

/-- The line, counted from 1, that holds a byte offset; offsets past the end belong to the last line. -/
def lineOf (table : LineTable) (offset : Nat) : Nat := table.countUpTo offset 0 table.starts.size

end LineTable

end BluespecDocs
