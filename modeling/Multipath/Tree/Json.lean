import Multipath.Json.Basic
import Multipath.Tree.Basic

/-!
Trees as JSON documents. Members stand in alphabetical order, and a child says whether it is a
branch or a leaf; spans can be left out.
-/

namespace Multipath

open Json

def Position.json (p : Position) : Value :=
  .object [("column", .number p.column), ("index", .number p.index), ("line", .number p.line)]

def Span.json (s : Span) : Value := .object [("end", s.stop.json), ("start", s.start.json)]

namespace Tree

mutual

def json : Tree → Value
  | .leaf l => .object
      [("kind", .string "leaf"), ("span", l.span.json), ("tags", .array (l.tags.map .string)),
       ("text", .string l.text)]
  | .branch rule span children => .object
      [("children", .array (jsonAll children)), ("kind", .string "branch"),
       ("rule", .string rule), ("span", span.json)]

def jsonAll : List Tree → List Value
  | [] => []
  | t :: ts => json t :: jsonAll ts

end

end Tree

/-- The document of a whole tree. -/
def Branch.json (b : Branch) (spans : Bool) : Value :=
  let document := Value.object
    [("root", .object
      [("children", .array (Tree.jsonAll b.children)), ("rule", .string b.rule),
       ("span", b.span.json)])]
  if spans then document else document.without "span"

end Multipath
