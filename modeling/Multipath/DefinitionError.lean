/-!
What can be wrong with a lexicon or a grammar while it is being put together.
-/

namespace Multipath

inductive DefinitionError where
  | undefinedRule (name : String)
  | duplicateRule (name : String)
  | unknownRule (id : Nat)
  | duplicateTag (name : String)
  | undefinedTag (name : String)
  | unknownTag (id : Nat)
  | acceptAsStart (tag : String)
  | noStartRules
deriving DecidableEq

namespace DefinitionError

def message : DefinitionError → String
  | undefinedRule name => "Rule `" ++ name ++ "` is referenced but never defined"
  | duplicateRule name => "Rule `" ++ name ++ "` is defined more than once"
  | unknownRule id => "Rule id " ++ toString id ++ " does not belong to this grammar"
  | duplicateTag name => "Tag `" ++ name ++ "` is declared more than once"
  | undefinedTag name => "Tag `" ++ name ++ "` is not declared in the lexicon"
  | unknownTag id => "Tag id " ++ toString id ++ " does not belong to this lexicon"
  | acceptAsStart tag => "Tag `" ++ tag ++ "` uses the accept marker as a start state"
  | noStartRules => "Grammar declares no start rule"

end DefinitionError
end Multipath
