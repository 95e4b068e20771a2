import BluespecDocs.Binary64
import BluespecDocs.DateTime
import BluespecDocs.IntLiteral
import BluespecDocs.Lines
import BluespecDocs.SettingValue

/-!
Settings files in TOML. A file is read line by line, where a string in triple quotes and an array may go over several
lines. A line opens a table, opens one more table of an array, or gives a key its value. No table is opened twice and
no key is given twice. Dates and times are settings in their written form. A table that starts with a certain key
stands for a date and time as well.
-/

namespace BluespecDocs

namespace Toml

open Reader (elementThat exactly takeWhile ahead atEnd require upTo many separated orEmpty)

/-- Whether a character may stand in a string or comment: no control character but the tab. -/
def isPrintable (c : Char) : Bool := c == '\t' || (0x20 ≤ c.toNat && c.toNat != 0x7f)

def isBlank (c : Char) : Bool := c == ' ' || c == '\t'

/-- Whether a character may stand in a key without quotes. -/
def isKeyChar (c : Char) : Bool := c.isAlphanum || c == '_' || c == '-'

def blanks : Reader Char Unit := do let _ ← takeWhile isBlank

def newline : Reader Char Unit := exactly ['\n'] <|> exactly ['\r', '\n']

def comment : Reader Char Unit := do
  exactly ['#']
  let _ ← takeWhile isPrintable

def endOfLine : Reader Char Unit := do
  blanks
  let _ ← optional comment
  newline <|> atEnd

/-- Reads blanks, comments and newlines. -/
def gap : Reader Char Unit := do
  let _ ← many ((do let _ ← elementThat isBlank) <|> (do let _ ← optional comment; newline))

/-! Strings -/

/-- The character that a backslash with a letter stands for. -/
def escaped? : Char → Option Char
  | 'b' => some '\x08'
  | 't' => some '\t'
  | 'n' => some '\n'
  | 'f' => some '\x0c'
  | 'r' => some '\r'
  | '"' => some '"'
  | '\\' => some '\\'
  | _ => none

/-- The character with the number that hexadecimal digits give. -/
def codePoint? (digits : List Char) : Option Char := do
  let n ← Base.hex.positional? digits
  if h : n.isValidChar then some (Char.ofNatAux n h) else none

/-- Reads what follows a backslash. -/
def escape : Reader Char Char
  | 'u' :: a :: b :: c :: d :: cs => (codePoint? [a, b, c, d]).map (·, cs)
  | 'U' :: a :: b :: c :: d :: e :: f :: g :: h :: cs => (codePoint? [a, b, c, d, e, f, g, h]).map (·, cs)
  | c :: cs => (escaped? c).map (·, cs)
  | [] => none

/-- Reads a character of a string with escapes. -/
def basicChar : Reader Char Char :=
  elementThat (fun c => isPrintable c && c != '"' && c != '\\') <|> (do exactly ['\\']; escape)

def basicString : Reader Char (List Char) := do
  exactly ['"']
  let text ← many basicChar
  exactly ['"']
  return text

/-- Reads a character of a string without escapes. -/
def literalChar : Reader Char Char := elementThat fun c => isPrintable c && c != '\x27'

def literalString : Reader Char (List Char) := do
  exactly ['\x27']
  let text ← many literalChar
  exactly ['\x27']
  return text

/-- Reads a backslash at the end of a line, and all blanks and newlines behind it. -/
def continuation : Reader Char Unit := do
  exactly ['\\']
  blanks
  newline
  let _ ← many ((do let _ ← elementThat isBlank) <|> newline)

/-- Reads a string between triple quotes. A newline right behind the opening ones does not count, and up to two of the
quotes in front of the closing ones belong to the string. -/
def tripleQuoted (quote : Char) (piece : Reader Char (List Char)) : Reader Char (List Char) := do
  let marks := List.replicate 3 quote
  -- A quote belongs to the string if it does not start the closing ones.
  let single : Reader Char Char := fun cs => if marks.isPrefixOf cs then none else elementThat (· == quote) cs
  exactly marks
  let _ ← optional newline
  let text ← many ((do newline; return ['\n']) <|> piece <|> (do return [← single]))
  let quotes ← upTo (do let c ← elementThat (· == quote); ahead (exactly marks); return c) 2
  exactly marks
  return text.flatten ++ quotes

def string : Reader Char String := do
  let text ← tripleQuoted '"' ((do continuation; return []) <|> (do return [← basicChar])) <|> basicString <|>
    tripleQuoted '\x27' (do return [← literalChar]) <|> literalString
  return String.ofList text

/-! Keys -/

/-- Reads a key in quotes or without. -/
def key : Reader Char String := do
  let bare : Reader Char (List Char) := do
    let word ← takeWhile isKeyChar
    require !word.isEmpty
    return word
  return String.ofList (← basicString <|> literalString <|> bare)

/-- Reads a path of fewer than eighty keys with dots between them. -/
def keyPath : Reader Char (List String) := do
  let path ← separated (exactly ['.']) do
    blanks
    let name ← key
    blanks
    return name
  require (path.length < 80)
  return path

/-! Numbers -/

/-- Reads digits of a base, with underscores allowed between two digits. -/
def digits (base : Base) : Reader Char (List Char) := do
  let word ← takeWhile base.admits
  require !(Text.segments '_' word).contains []
  return word.filter (· ≠ '_')

/-- Reads digits of base ten. A leading zero is alone. -/
def wholePart : Reader Char (List Char) := do
  let word ← digits .decimal
  require (word.head? != some '0' || word.length == 1)
  return word

/-- Reads a sign, if there is one, and tells whether it is a minus. -/
def isNegative : Reader Char Bool := do
  return (← optional (elementThat ['+', '-'].contains)) == some '-'

def signed (negative : Bool) (n : Nat) : Int := if negative then -Int.ofNat n else Int.ofNat n

/-- Reads an integer of 64 bits: in base ten, possibly with a sign, or in another base after a mark. -/
def integer : Reader Char Int := do
  let marked (letter : Char) (base : Base) : Reader Char Int := do
    exactly ['0', letter]
    return Int.ofNat (← base.positional? (← digits base))
  let decimal : Reader Char Int := do
    let negative ← isNegative
    return signed negative (← Base.decimal.positional? (← wholePart))
  let n ← marked 'x' .hex <|> marked 'o' .octal <|> marked 'b' .binary <|> decimal
  let bound := Int.ofNat (Nat.pow 2 63)
  require (-bound ≤ n && n < bound)
  return n

/-- Reads a power of ten behind a number. -/
def exponent : Reader Char Int := do
  let _ ← elementThat ['e', 'E'].contains
  let negative ← isNegative
  return signed negative (← Base.decimal.positional? (← digits .decimal))

/-- Reads a number with a fraction or an exponent, which is not too great. -/
def decimalFloat : Reader Char Binary64 := do
  let negative ← isNegative
  let whole ← wholePart
  let fraction ← optional do
    exactly ['.']
    digits .decimal
  let power ← optional exponent
  require (fraction.isSome || power.isSome)
  let places := fraction.getD []
  let units ← Base.decimal.positional? (whole ++ places)
  let value := Binary64.ofDecimal negative units (power.getD 0 - Int.ofNat places.length)
  require (value != .infinite false)
  return value

def float : Reader Char Binary64 :=
  decimalFloat <|> do
    let negative ← isNegative
    (do exactly "inf".toList; return .infinite negative) <|> (do exactly "nan".toList; return .nan)

def boolean : Reader Char Bool :=
  (do exactly "true".toList; return true) <|> (do exactly "false".toList; return false)

/-! Values and tables -/

/-- How a table came about: opened by a line of its own, on the way to such a table, by a dotted key, or in braces. -/
inductive Origin where
  | opened | passed | dotted | braced
deriving DecidableEq, Repr

/-- A file as far as it is read: values and tables by key. The tables of an array are opened one by one or stand in
brackets. -/
inductive Node where
  | value (value : SettingValue)
  | dateTime (value : DateTime)
  | table (origin : Origin) (entries : List (String × Node))
  | array (opened : Bool) (items : List Node)
deriving Repr

/-- Changes the entries at the end of a path of keys, where missing tables come about. What is in braces or brackets is
not changed, and of an array of opened tables the last one is. Dotted keys do not enter opened tables but the last one
of an array, and they end only in a table of dotted keys. -/
def changeAt (dotted : Bool) (change : List (String × Node) → Option (List (String × Node))) :
    List String → List (String × Node) → Option (List (String × Node))
  | [], entries => change entries
  | key :: path, entries =>
    match entries.lookup key with
    | none => do
      let inner ← changeAt dotted change path []
      return SettingTable.put key (.table (if dotted then .dotted else .passed) inner) entries
    | some (.table origin inner) =>
      if origin = .braced ∨ (dotted ∧ (origin = .opened ∨ (path = [] ∧ origin ≠ .dotted))) then none
      else do
        let inner ← changeAt dotted change path inner
        return SettingTable.put key (.table origin inner) entries
    | some (.array true items) =>
      match items.getLast? with
      | some (.table origin inner) =>
        if dotted ∧ path = [] then none
        else do
          let inner ← changeAt dotted change path inner
          return SettingTable.put key (.array true (items.dropLast ++ [.table origin inner])) entries
      | _ => none
    | some _ => none

/-- Opens a table among some entries, and puts it after them. A table passed on the way to another one may
still be opened. -/
def openTable (key : String) (entries : List (String × Node)) : Option (List (String × Node)) :=
  let others := entries.filter fun (k, _) => k ≠ key
  match entries.lookup key with
  | none => some (others ++ [(key, .table .opened [])])
  | some (.table .passed inner) => some (others ++ [(key, .table .opened inner)])
  | some _ => none

/-- Opens one more table of an array. -/
def openItem (key : String) (entries : List (String × Node)) : Option (List (String × Node)) :=
  match entries.lookup key with
  | none => some (SettingTable.put key (.array true [.table .opened []]) entries)
  | some (.array true items) => some (SettingTable.put key (.array true (items ++ [.table .opened []])) entries)
  | some _ => none

/-- Gives a key its value, if it has none. -/
def giveValue (key : String) (value : Node) (entries : List (String × Node)) : Option (List (String × Node)) :=
  match entries.lookup key with
  | none => some (SettingTable.put key value entries)
  | some _ => none

/-- Gives the value at the end of a path of dotted keys. -/
def giveAt (path : List String) (value : Node) : List (String × Node) → Option (List (String × Node)) :=
  changeAt true (giveValue (path.getLastD "") value) path.dropLast

def scalar : Reader Char Node :=
  (do return .value (.str (← string))) <|> (do return .dateTime (← DateTime.read false)) <|>
  (do return .value (.float (← float))) <|> (do return .value (.int (← integer))) <|>
  (do return .value (.bool (← boolean)))

/-- Reads values in brackets, which a comma may follow. -/
def array (item : Reader Char Node) : Reader Char Node := do
  exactly ['[']
  let items ← orEmpty do
    let items ← separated (exactly [',']) (do gap; let value ← item; gap; return value)
    let _ ← optional (exactly [','])
    return items
  gap
  exactly [']']
  return .array false items

/-- Reads a key with its value. -/
def keyValue (item : Reader Char Node) : Reader Char (List String × Node) := do
  let path ← keyPath
  exactly ['=']
  blanks
  return (path, ← item)

/-- Reads keys with their values in braces. -/
def inlineTable (item : Reader Char Node) : Reader Char Node := do
  exactly ['\x7b']
  let pairs ← orEmpty (separated (exactly [',']) (do let pair ← keyValue item; blanks; return pair))
  blanks
  exactly ['\x7d']
  return .table .braced (← pairs.foldlM (fun entries (path, value) => giveAt path value entries) [])

/-- Reads a value in which brackets and braces stand at most `n` deep. -/
def valueTo : Nat → Reader Char Node
  | 0 => scalar
  | n + 1 => array (valueTo n) <|> inlineTable (valueTo n) <|> scalar

def value : Reader Char Node := valueTo 79

/-! Lines -/

inductive Line where
  | empty
  | table (path : List String)
  | item (path : List String)
  | entry (path : List String) (value : Node)
deriving Repr

def line : Reader Char Line := do
  blanks
  (do newline; return .empty) <|> (do
    let found ← (do comment; return .empty) <|>
      (do exactly ['[', '[']; let path ← keyPath; exactly [']', ']']; return .item path) <|>
      (do exactly ['[']; let path ← keyPath; exactly [']']; return .table path) <|>
      (do let (path, value) ← keyValue value; return .entry path value)
    endOfLine
    return found)

/-- The table that is open, by its path, and all that is read so far. -/
structure State where
  current : List String := []
  entries : List (String × Node) := []
deriving Repr

def State.step (state : State) : Line → Option State
  | .empty => some state
  | .table path => do
    return ⟨path, ← changeAt false (openTable (path.getLastD "")) path.dropLast state.entries⟩
  | .item path => do
    return ⟨path, ← changeAt false (openItem (path.getLastD "")) path.dropLast state.entries⟩
  | .entry path value => do
    return ⟨state.current, ← changeAt false (giveAt path value) state.current state.entries⟩

/-- The key that a table starts with if it stands for a date and time. -/
def dateTimeKey : String := "$__toml_private_datetime"

/-- The written form of the date and time that a node gives as a text. -/
def dateTime? : Node → Option SettingValue
  | .value (.str text) => (DateTime.ofText? text).map fun dateTime => .str dateTime.display
  | _ => none

mutual

/-- A node without the note how it came about. A table that stands for a date and time is its written form,
whatever else it holds. -/
def Node.toValue? : Node → Option SettingValue
  | .value v => some v
  | .dateTime v => some (.str v.display)
  | .table _ entries =>
    match entries.head?.filter fun (key, _) => key == dateTimeKey with
    | some (_, node) => dateTime? node
    | none => (toTable? entries).map .table
  | .array _ items => (toItems? 0 items).map (.list items.length)

/-- Nodes without the notes how they came about. -/
def toTable? : List (String × Node) → Option SettingTable
  | [] => some []
  | (key, node) :: rest => do return (key, ← node.toValue?) :: (← toTable? rest)

/-- The items of a list, counted from `n` on. -/
def toItems? (n : Nat) : List Node → Option (List (Nat × SettingValue))
  | [] => some []
  | node :: rest => do return (n, ← node.toValue?) :: (← toItems? (n + 1) rest)

end

/-- A text without the byte order mark that may stand in front. -/
def dropMark : List Char → List Char
  | '\ufeff' :: cs => cs
  | cs => cs

/-- The settings of a file, if it is well-formed. -/
def read? (source : String) : Option SettingTable := do
  let (lines, rest) ← many line (dropMark source.toList)
  if rest.all isBlank then
    let state ← lines.foldlM State.step {}
    match ← Node.toValue? (.table .opened state.entries) with
    | .table entries => some entries
    | _ => none
  else none

end Toml

end BluespecDocs
