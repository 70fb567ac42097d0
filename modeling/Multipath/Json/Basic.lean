/-!
JSON documents as far as trees need them, with their two written forms: compact, and with one
member or element on a line and two spaces for each level.
-/

namespace Multipath.Json

inductive Value where
  | string (text : String)
  | number (n : Nat)
  | array (elements : List Value)
  | object (members : List (String × Value))

/-- Short escapes where JSON has them; any other control character by its code. -/
def escape (c : Char) : List Char :=
  match c with
  | '"' => ['\\', '"']
  | '\\' => ['\\', '\\']
  | '\x08' => ['\\', 'b']
  | '\x0c' => ['\\', 'f']
  | '\n' => ['\\', 'n']
  | '\r' => ['\\', 'r']
  | '\t' => ['\\', 't']
  | c =>
    if c.toNat < 0x20 then
      ['\\', 'u', '0', '0', Nat.digitChar (c.toNat / 16), Nat.digitChar (c.toNat % 16)]
    else [c]

def quote (s : String) : String :=
  String.ofList ('"' :: s.toList.flatMap escape ++ ['"'])

namespace Value

mutual

/-- The value without any member of that name, at any depth. -/
def without (key : String) : Value → Value
  | .string text => .string text
  | .number n => .number n
  | .array elements => .array (withoutAll key elements)
  | .object members => .object (withoutMembers key members)

def withoutAll (key : String) : List Value → List Value
  | [] => []
  | v :: vs => without key v :: withoutAll key vs

def withoutMembers (key : String) : List (String × Value) → List (String × Value)
  | [] => []
  | (k, v) :: ms =>
    if k = key then withoutMembers key ms else (k, without key v) :: withoutMembers key ms

end

mutual

def compact : Value → String
  | .string text => quote text
  | .number n => toString n
  | .array elements => "[" ++ ",".intercalate (compactAll elements) ++ "]"
  | .object members => "\x7b" ++ ",".intercalate (compactMembers members) ++ "\x7d"

def compactAll : List Value → List String
  | [] => []
  | v :: vs => compact v :: compactAll vs

def compactMembers : List (String × Value) → List String
  | [] => []
  | (k, v) :: ms => (quote k ++ ":" ++ compact v) :: compactMembers ms

end

/-- The rows between two brackets, one level further in. -/
def block (opening closing indent : String) : List String → String
  | [] => opening ++ closing
  | rows =>
    opening ++ "\n" ++ ",\n".intercalate (rows.map fun row => indent ++ "  " ++ row) ++ "\n" ++
      indent ++ closing

mutual

def pretty (indent : String) : Value → String
  | .string text => quote text
  | .number n => toString n
  | .array elements => block "[" "]" indent (prettyAll (indent ++ "  ") elements)
  | .object members => block "\x7b" "\x7d" indent (prettyMembers (indent ++ "  ") members)

def prettyAll (indent : String) : List Value → List String
  | [] => []
  | v :: vs => pretty indent v :: prettyAll indent vs

def prettyMembers (indent : String) : List (String × Value) → List String
  | [] => []
  | (k, v) :: ms => (quote k ++ ": " ++ pretty indent v) :: prettyMembers indent ms

end

end Value
end Multipath.Json
