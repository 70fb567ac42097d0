import Multipath.Text.Quoted
import Multipath.Tree.Basic

/-!
Trees drawn with one node on a line. Lines from a branch to its children show the nesting; a
branch shows its rule and a leaf its tags and quoted text, of which 30 characters are shown.
-/

namespace Multipath

namespace Tree

def truncate (limit : Nat) (s : String) : String :=
  if limit < s.length then String.ofList (s.toList.take limit) ++ "..." else s

def branchLabel (rule : String) : String := "§ " ++ rule

def leafLabel (l : Leaf) : String :=
  "◦ " ++ "|".intercalate l.tags ++ " " ++ Text.quote (truncate 30 l.text)

def spanSuffix (spans : Bool) (span : Span) : String := if spans then " @" ++ span.text else ""

mutual

/-- The lines of a node that stands behind `indent`, as the last child or not. -/
def rows (spans : Bool) (indent : String) (last : Bool) : Tree → List String
  | .leaf l => [indent ++ (if last then "└─ " else "├─ ") ++ leafLabel l ++ spanSuffix spans l.span]
  | .branch rule span children =>
    (indent ++ (if last then "└─ " else "├─ ") ++ branchLabel rule ++ spanSuffix spans span) ::
      rowsAll spans (indent ++ if last then "  " else "│ ") children

def rowsAll (spans : Bool) (indent : String) : List Tree → List String
  | [] => []
  | t :: ts => rows spans indent ts.isEmpty t ++ rowsAll spans indent ts

end

end Tree

namespace Branch

def rows (b : Branch) (spans : Bool) : List String :=
  (Tree.branchLabel b.rule ++ Tree.spanSuffix spans b.span) :: Tree.rowsAll spans "" b.children

def treeviz (b : Branch) (spans : Bool) : String := String.join (b.rows spans |>.map (· ++ "\n"))

end Branch
end Multipath
