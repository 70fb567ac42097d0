import Multipath.Lexicon.Basic
import Multipath.ParseError
import Multipath.Rule.Basic

/-!
Grammars: named rules over a lexicon, the gated start rules among them, and the features they
were built with. A rule is known by its place in the list, so that rules may refer to each other
freely.
-/

namespace Multipath

namespace Grammar

structure Definition where
  name : String
  body : Rule

/-- A rule to start from while the gate holds. -/
structure Start where
  rule : RuleId
  gate : Gate

end Grammar

structure Grammar where
  lexicon : Lexicon
  rules : List Grammar.Definition
  starts : List Grammar.Start
  features : Features

namespace Grammar

def rule? (g : Grammar) (id : RuleId) : Option Definition := g.rules[id]?

def find? (g : Grammar) (name : String) : Option RuleId := g.rules.findIdx? (·.name == name)

/-- The name of a rule, and `"?"` for an id of no rule. -/
def name (g : Grammar) (id : RuleId) : String := ((g.rule? id).map (·.name)).getD "?"

def isEnabled (g : Grammar) (feature : String) : Bool := feature ∈ g.features

def openStarts (g : Grammar) (conditions : Conditions) : List RuleId :=
  (g.starts.filter (·.gate.holds conditions)).map (·.rule)

/-- The only start rule that the conditions open. -/
def selectStart (g : Grammar) (conditions : Conditions) : Except ParseError RuleId :=
  match g.openStarts conditions with
  | [] => .error .noStart
  | [rule] => .ok rule
  | rules => .error (.multipleStart (rules.map g.name))

def names (g : Grammar) : Rule.Names := ⟨g.lexicon.name, g.name⟩

/-- One line `Name: body;` for each rule. -/
def describe (g : Grammar) : String :=
  String.join (g.rules.map fun d => d.name ++ ": " ++ d.body.text g.names ++ ";\n")

end Grammar
end Multipath
