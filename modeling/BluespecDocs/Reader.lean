/-!
Reading from the front of a list. A reader hands back a value with the part of the list that it leaves, or does
not apply. Choice is ordered: the second alternative is tried, from the same place, only where the first does not
apply. A repetition reads as often as it can and is not tried shorter.
-/

namespace BluespecDocs

abbrev Reader (σ α : Type) := StateT (List σ) Option α

namespace Reader

variable {σ α : Type}

/-- Reads one element, if `read` makes something of it. -/
def element (read : σ → Option α) : Reader σ α
  | first :: rest => (read first).map (·, rest)
  | [] => none

def elementThat (test : σ → Bool) : Reader σ σ := element fun a => if test a then some a else none

/-- Reads the given elements. -/
def exactly [DecidableEq σ] : List σ → Reader σ Unit
  | [] => pure ()
  | a :: rest => do
    let _ ← elementThat (· = a)
    exactly rest

/-- Reads all elements up to the first that fails a test. -/
def takeWhile (test : σ → Bool) : Reader σ (List σ) := fun as => some (as.takeWhile test, as.dropWhile test)

/-- Reads nothing, where `item` would apply. -/
def ahead (item : Reader σ α) : Reader σ Unit := fun as => (item as).map fun _ => ((), as)

/-- Reads nothing, where nothing is left. -/
def atEnd : Reader σ Unit := fun as => if as.isEmpty then some ((), as) else none

/-- Goes on only if a condition holds. -/
def require (condition : Bool) : Reader σ Unit := if condition then pure () else failure

/-- Reads what `item` reads up to `n` times, stopping early where it does not apply. -/
def upTo (item : Reader σ α) : Nat → Reader σ (List α)
  | 0 => pure []
  | n + 1 => (do
      let first ← item
      let others ← upTo item n
      return first :: others) <|> pure []

/-- Reads what `item` reads as often as it applies. An item that reads at least one element applies at most
once per element, so the length of the list is bound enough. -/
def many (item : Reader σ α) : Reader σ (List α) := fun as => upTo item as.length as

/-- Reads one or more items with a separator between neighbours. A separator without an item after it is left
unread. -/
def separated (separator : Reader σ Unit) (item : Reader σ α) : Reader σ (List α) := do
  let first ← item
  let others ← many do
    separator
    item
  return first :: others

/-- Reads a list where there is one, and the empty list where there is none. -/
def orEmpty (items : Reader σ (List α)) : Reader σ (List α) := items <|> pure []

end Reader

end BluespecDocs
