import Multipath.Position

/-!
Why a text has no parse: no derivation survived, none spans the whole text, the conditions in
force leave no start rule or several, or rules nest too deeply.
-/

namespace Multipath

inductive ParseError where
  | noPath (rule : String) (position : Position)
  | incomplete (rule : String) (position : Position)
  | noStart
  | multipleStart (rules : List String)
  | depthLimit (rule : String) (position : Position) (limit : Nat)
deriving DecidableEq

namespace ParseError

def rule? : ParseError → Option String
  | noPath rule _ | incomplete rule _ | depthLimit rule _ _ => some rule
  | noStart | multipleStart _ => none

def position? : ParseError → Option Position
  | noPath _ p | incomplete _ p | depthLimit _ p _ => some p
  | noStart | multipleStart _ => none

private def located (file rule : String) (p : Position) (what : String) : String :=
  file ++ ":" ++ p.text ++ ": Syntax Error: In " ++ rule ++ ": " ++ what

def message (file : String) : ParseError → String
  | noPath rule p => located file rule p "Could not find a parsing path."
  | incomplete rule p => located file rule p "Expected end of input."
  | noStart => "<conditions>:0:0: Syntax Error: " ++
      "Could not match any starting symbol from given conditions."
  | multipleStart rules => "<conditions>:0:0: Syntax Error: " ++
      "Matched multiple starting symbols from given conditions (" ++ ", ".intercalate rules ++ ")."
  | depthLimit rule p limit => located file rule p
      ("Exceeded the maximum rule nesting depth of " ++ toString limit ++ ".")

end ParseError
end Multipath
