import Multipath.Settings.Toml.Document
import Multipath.Settings.Toml.Literal

/-!
Reading TOML: tables, arrays, strings, integers, booleans and comments.
-/

namespace Multipath.Settings.Toml

namespace Reader

/-- Blanks, line breaks and comments between the elements of an array. -/
private def fillWithin : Nat → Reader Unit
  | 0 => return
  | fuel + 1 => do
    blanks
    comment
    if ← lineBreak then fillWithin fuel

def fill : Reader Unit := do fillWithin ((← get).length + 1)

mutual

/-- A value, `depth` more levels of arrays and inline tables being allowed. -/
private def valueWithin (depth : Nat) : Nat → Reader Value
  | 0 => failure
  | fuel + 1 => do
    match ← peek with
    | some '"' => return .text (← quoted '"')
    | some '\'' => return .text (← quoted '\'')
    | some '[' =>
      let _ ← next
      guard (0 < depth)
      return .list (← elementsWithin (depth - 1) fuel)
    | some '{' =>
      let _ ← next
      guard (0 < depth)
      blanks
      if ← accept "\x7d" then return .table []
      return (← pairsWithin (depth - 1) fuel .empty).toValue
    | _ =>
      if ← accept "true" then return .boolean true
      if ← accept "false" then return .boolean false
      return .integer (← integer)

private def elementsWithin (depth : Nat) : Nat → Reader (List Value)
  | 0 => failure
  | fuel + 1 => do
    fill
    if ← accept "]" then return []
    let v ← valueWithin depth fuel
    fill
    if ← accept "," then return v :: (← elementsWithin depth fuel)
    expect "]"
    return [v]

private def pairsWithin (depth : Nat) : Nat → Entries → Reader Entries
  | 0, _ => failure
  | fuel + 1, es => do
    let ks ← keys
    expect "="
    blanks
    let es ← liftM (es.define (← valueWithin depth fuel) ks true)
    blanks
    if ← accept "," then return ← pairsWithin depth fuel es
    expect "\x7d"
    return es

end

def value : Reader Value := do valueWithin nestingLimit ((← get).length + 1)

/-- One line: a header, a pair or nothing, and a comment if there is one. -/
def row (d : Document) : Reader Document := do
  blanks
  let d ← match ← peek with
    | none | some '#' | some '\n' | some '\r' => pure d
    | some '[' => do
      let element ← accept "[["
      if !element then expect "["
      let ks ← keys
      expect (if element then "]]" else "]")
      liftM (d.header element ks)
    | some _ => do
      let ks ← keys
      expect "="
      blanks
      liftM (d.define ks (← value))
  blanks
  comment
  if !(← get).isEmpty then guard (← lineBreak)
  return d

private def rowsWithin : Nat → Document → Reader Document
  | 0, d => return d
  | fuel + 1, d => do
    if (← get).isEmpty then return d
    rowsWithin fuel (← row d)

def rows : Reader Document := do
  let _ ← accept "\uFEFF"
  rowsWithin ((← get).length + 1) {}

end Reader

/-- The top-level pairs of a document. -/
def read? (text : String) : Option (List (String × Value)) :=
  (Reader.rows.run text.toList).map fun (d, _) => entryValues d.entries.entries

end Multipath.Settings.Toml
