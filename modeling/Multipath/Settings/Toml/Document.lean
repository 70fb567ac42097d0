import Multipath.Settings.Value

/-!
TOML documents while they are read. Headers open tables and pairs fill them; a key is defined at
most once. How a table came to be decides what may still be added to it: one that is only implied
by the header of an inner table may be opened later, one made by dotted keys takes more of these.
-/

namespace Multipath.Settings.Toml

inductive Origin where
  | implied
  | opened
  | dotted
deriving DecidableEq

inductive Item where
  | value (v : Value)
  | table (origin : Origin) (entries : List (String × Item))
  /-- An array of tables, the newest first. -/
  | tables (elements : List (List (String × Item)))

abbrev Entries := Table String Item

mutual

def Item.toValue : Item → Value
  | .value v => v
  | .table _ es => .table (entryValues es)
  | .tables elements => .list (elementValues elements)

def entryValues : List (String × Item) → List (String × Value)
  | [] => []
  | (key, item) :: es => (key, item.toValue) :: entryValues es

def elementValues : List (List (String × Item)) → List Value
  | [] => []
  | es :: rest => elementValues rest ++ [.table (entryValues es)]

end

namespace Entries

def toValue (es : Entries) : Value := .table (entryValues es.entries)

/-- Changes the table at a path of keys; the newest element stands for an array of tables. -/
def within (change : Entries → Option Entries) : List String → Entries → Option Entries
  | [], es => change es
  | key :: keys, es =>
    match es.get? key with
    | none => do return es.insert key (.table .implied (← within change keys .empty).entries)
    | some (.table origin inner) => do
      return es.insert key (.table origin (← within change keys ⟨inner⟩).entries)
    | some (.tables (newest :: older)) => do
      return es.insert key (.tables ((← within change keys ⟨newest⟩).entries :: older))
    | some _ => none

/-- Opens the table that a header names. -/
def openTable (key : String) (es : Entries) : Option Entries :=
  match es.get? key with
  | none => some (es.insert key (.table .opened []))
  | some (.table .implied inner) => some (es.insert key (.table .opened inner))
  | some _ => none

/-- Adds an element to the array of tables that a header names. -/
def openElement (key : String) (es : Entries) : Option Entries :=
  match es.get? key with
  | none => some (es.insert key (.tables [[]]))
  | some (.tables elements) => some (es.insert key (.tables ([] :: elements)))
  | some _ => none

/-- Defines a dotted key; the innermost table must be one that dotted keys made. -/
def define (v : Value) : List String → (mayAdd : Bool) → Entries → Option Entries
  | [], _, _ => none
  | [key], mayAdd, es =>
    if !mayAdd || es.contains key then none else some (es.insert key (.value v))
  | key :: keys, _, es =>
    match es.get? key with
    | none => do return es.insert key (.table .dotted (← define v keys true .empty).entries)
    | some (.table .opened _) => none
    | some (.table origin inner) => do
      return es.insert key (.table origin (← define v keys (origin = .dotted) ⟨inner⟩).entries)
    | some (.tables (newest :: older)) => do
      return es.insert key (.tables ((← define v keys false ⟨newest⟩).entries :: older))
    | some _ => none

end Entries

structure Document where
  entries : Entries := .empty
  /-- The table that the last header opened. -/
  current : List String := []

namespace Document

/-- Follows a header that names a table, or one more element of an array of tables. -/
def header (d : Document) (element : Bool) (keys : List String) : Option Document := do
  let key ← keys.getLast?
  let change := if element then Entries.openElement key else Entries.openTable key
  return { entries := ← d.entries.within change keys.dropLast, current := keys }

def define (d : Document) (keys : List String) (v : Value) : Option Document := do
  return { d with entries := ← d.entries.within (Entries.define v keys true) d.current }

end Document
end Multipath.Settings.Toml
