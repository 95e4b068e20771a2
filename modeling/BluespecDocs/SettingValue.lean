import BluespecDocs.Binary64
import BluespecDocs.LetterCase
import BluespecDocs.SettingPath

/-!
Raw settings: values as they are written, in tables and lists that may hold others. A table laid over another
one changes only what it mentions. Keys are the same in any letter case, and a table that others were laid
over has them in lower case.
-/

namespace BluespecDocs

/-- A setting as written. A list has a size and the items that were given; the others are missing. -/
inductive SettingValue where
  | missing
  | str (value : String)
  | int (value : Int)
  | float (value : Binary64)
  | bool (value : Bool)
  | table (entries : List (String × SettingValue))
  | list (size : Nat) (items : List (Nat × SettingValue))
deriving Repr

/-- Settings by key. Each key occurs once. -/
abbrev SettingTable := List (String × SettingValue)

namespace SettingTable

/-- Values by key with the value of one key set. -/
def put [DecidableEq κ] (key : κ) (value : α) : List (κ × α) → List (κ × α)
  | [] => [(key, value)]
  | (k, old) :: rest => if k = key then (k, value) :: rest else (k, old) :: put key value rest

end SettingTable

namespace SettingValue

/-- The entries of a table; a value that is no table has none. -/
def entries : SettingValue → SettingTable
  | table entries => entries
  | _ => []

/-- The size of a list; a value that is no list has no items. -/
def size : SettingValue → Nat
  | list size _ => size
  | _ => 0

/-- The items that were given of a list. -/
def items : SettingValue → List (Nat × SettingValue)
  | list _ items => items
  | _ => []

mutual

/-- A value laid over what stands in its place. A table changes only the keys it mentions, so a table
without keys changes nothing; any other value takes the place. -/
def laidOver (old : Option SettingValue) : SettingValue → SettingValue
  | table [] => old.getD (table [])
  | table (first :: others) => table (layAll ((old.map entries).getD []) (first :: others))
  | value => value

/-- A table with further entries laid over it one by one. -/
def layAll (base : SettingTable) : SettingTable → SettingTable
  | [] => base
  | (key, value) :: rest =>
    layAll (SettingTable.put (Text.lower key) (laidOver (base.lookup (Text.lower key)) value) base) rest

end

/-- The position that an index means in a list of some size. A negative index counts from the end, and
there has to be an item that it means. -/
def position? (size : Nat) : Int → Option Nat
  | .ofNat n => if n < Nat.pow 2 56 then some n else none
  | .negSucc n => if n < size then some (size - (n + 1)) else none

/-- What stands in some place after a value is laid over what the steps of a path lead to from there. What
is no table or no list becomes one where a step needs it, and a list grows up to the item of a step. A
last step to an item replaces it. There is no result if an index has no position. -/
def layAt (value : SettingValue) : List PathStep → Option SettingValue → Option SettingValue
  | [], old => some (laidOver old value)
  | .key name :: steps, old => do
    let base := (old.map entries).getD []
    let inner ← layAt value steps (base.lookup (Text.lower name))
    return table (SettingTable.put (Text.lower name) inner base)
  | .item index :: steps, old => do
    let base := old.getD missing
    let n ← position? base.size index
    let inner ← if steps = [] then some value else layAt value steps (base.items.lookup n)
    return list (Nat.max base.size (n + 1)) (SettingTable.put n inner base.items)

end SettingValue

end BluespecDocs
