import Multipath.Table

/-!
Values of settings, and how layers of them combine: tables are merged key by key, whatever the
case of the keys' letters, and any other value is replaced by the newer one. A path leads to a
place inside a value; on the way there, values of another shape give way to tables and lists.
-/

namespace Multipath.Settings

inductive Value where
  | absent
  | integer (n : Int)
  | boolean (b : Bool)
  | text (s : String)
  | list (elements : List Value)
  | table (entries : List (String × Value))
deriving Inhabited

namespace Value

def entries : Value → Table String Value
  | .table es => ⟨es⟩
  | _ => .empty

def elements : Value → List Value
  | .list vs => vs
  | _ => []

def get? (v : Value) (key : String) : Option Value := v.entries.get? key.toLower

def put (v : Value) (key : String) (new : Value) : Value :=
  .table (v.entries.insert key.toLower new).entries

@[simp] theorem get?_put (v : Value) (key key' : String) (new : Value) :
    (v.put key new).get? key' = if key'.toLower = key.toLower then some new else v.get? key' :=
  Table.get?_insert ..

/-- A field of a structure: a table has it under its key and a list at its place. -/
def field? (v : Value) (place : Nat) (key : String) : Option Value :=
  match v with
  | .list vs => vs[place]?
  | v => v.get? key

mutual

/-- What stands where `old` stood once a newer value is laid over it. -/
def merge (old : Option Value) : Value → Value
  | .table es => mergeAll (old.getD (.table [])) es
  | v => v

def mergeAll (old : Value) : List (String × Value) → Value
  | [] => old
  | (key, v) :: es => mergeAll (old.put key (merge (old.get? key) v)) es

end

end Value

inductive Step where
  | key (name : String)
  /-- An index below zero counts from the end of the list. -/
  | element (index : Int)
deriving DecidableEq

abbrev Path := List Step

namespace Path

/-- Letters, digits, spaces, underscores and hyphens make up the keys of a written path. -/
def isKeyChar (c : Char) : Bool := c.isAlphanum || c = ' ' || c = '_' || c = '-'

/-- Reads an index of at most 64 bits with its sign and the blanks around it. -/
private def index? (cs : List Char) : Option (Int × List Char) := do
  let cs := cs.dropWhile isBlank
  let isNegative := cs.head? = some '-'
  let cs := if isNegative then cs.tail else cs
  let n ← (String.ofList (cs.takeWhile Char.isDigit)).toNat?
  let index : Int := if isNegative then -n else n
  if -9223372036854775808 ≤ index && index ≤ 9223372036854775807 then
    some (index, (cs.dropWhile Char.isDigit).dropWhile isBlank)
  else none
where
  isBlank (c : Char) : Bool := c = ' ' || c = '\t'

/-- Reads what follows the first key of a path: a dot and a key, or an index in brackets. -/
private def steps? : Nat → List Char → Option Path
  | _, [] => some []
  | 0, _ => none
  | fuel + 1, '.' :: cs =>
    let key := cs.takeWhile isKeyChar
    if key.isEmpty then none
    else (.key (String.ofList key) :: ·) <$> steps? fuel (cs.dropWhile isKeyChar)
  | fuel + 1, '[' :: cs =>
    match index? cs with
    | some (index, ']' :: cs) => (.element index :: ·) <$> steps? fuel cs
    | _ => none
  | _, _ => none

/-- Reads a path such as `grammar.features[0]`. -/
def ofText? (s : String) : Option Path := steps? (s.length + 1) ('.' :: s.toList)

end Path

namespace Value

/-- The place that an index means in a list, or beyond its end. Nothing lies before the start,
and a list has room for 67108864 values. -/
def place? (vs : List Value) (index : Int) : Option Nat :=
  let place := if index < 0 then vs.length + index else index
  if 0 ≤ place && place < 67108864 then some place.toNat else none

/-- Lays a value over the one at a path. -/
def set? (old : Value) : Path → Value → Option Value
  | [], v => some v
  | [.key k], v => some (old.put k (merge (old.get? k) v))
  | .key k :: path, v => do
    return old.put k (← set? ((old.get? k).getD .absent) path v)
  | .element index :: path, v => do
    let place ← place? old.elements index
    let vs := old.elements ++ List.replicate (place + 1 - old.elements.length) .absent
    return .list (vs.set place (← set? (vs.getD place .absent) path v))

/-- The switch that a word stands for. -/
def switch? (s : String) : Option Bool :=
  let word := s.toLower
  if word = "true" || word = "on" || word = "yes" then some true
  else if word = "false" || word = "off" || word = "no" then some false
  else none

/-- A number of at most 64 bits, with or without a plus sign. -/
def unsigned? (s : String) : Option Nat :=
  let digits := match s.toList with
    | '+' :: cs => cs
    | cs => cs
  if digits.all Char.isDigit then
    (String.ofList digits).toNat?.filter (· ≤ 18446744073709551615)
  else none

def natural? : Value → Option Nat
  | .integer n => if 0 ≤ n then some n.toNat else none
  | .boolean b => some b.toNat
  | .text s => ((switch? s).map Bool.toNat).or (unsigned? s)
  | _ => none

def boolean? : Value → Option Bool
  | .integer n => some (n ≠ 0)
  | .boolean b => some b
  | .text s => if s = "1" then some true else if s = "0" then some false else switch? s
  | _ => none

def text? : Value → Option String
  | .integer n => some (toString n)
  | .boolean b => some (if b then "true" else "false")
  | .text s => some s
  | _ => none

def texts? : Value → Option (List String)
  | .list vs => vs.mapM text?
  | _ => none

/-- A name is a text or a table with one key, which it is. -/
def name? : Value → Option String
  | .text s => some s
  | .table [(key, _)] => some key
  | _ => none

end Value
end Multipath.Settings
