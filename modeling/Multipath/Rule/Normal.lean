import Multipath.Rule.Basic

/-!
Normalisation of rules for a choice of features: switches are resolved, nested sequences and
alternations flattened, empty items dropped, groups of one unwrapped, and nested optional and
repeated parts merged. An alternation without choices stays, since it never matches.
-/

namespace Multipath.Rule

/-- The items that a rule contributes to a sequence around it. -/
def sequenceItems : Rule → List Rule
  | .sequence items => items
  | r => [r]

/-- The choices that a rule contributes to an alternation around it. -/
def alternationChoices : Rule → List Rule
  | .alternation choices => choices
  | r => [r]

def sequenceOf : List Rule → Rule
  | [r] => r
  | rs => .sequence rs

def alternationOf : List Rule → Rule
  | [r] => r
  | rs => .alternation rs

def optionalOf : Rule → Rule
  | .sequence [] => .sequence []
  | .optional body => .optional body
  | .repetition body => .repetition body
  | r => .optional r

def repetitionOf : Rule → Rule
  | .sequence [] => .sequence []
  | .optional body => .repetition body
  | .repetition body => .repetition body
  | r => .repetition r

mutual

def normalize (features : Features) : Rule → Rule
  | .sequence items => sequenceOf ((normalizeAll features items).flatMap sequenceItems)
  | .alternation choices =>
    alternationOf ((normalizeAll features choices).flatMap alternationChoices)
  | .optional body => optionalOf (normalize features body)
  | .repetition body => repetitionOf (normalize features body)
  | .switch feature body => if feature ∈ features then normalize features body else .empty
  | .terminal tag => .terminal tag
  | .nonterminal rule => .nonterminal rule

def normalizeAll (features : Features) : List Rule → List Rule
  | [] => []
  | r :: rs => normalize features r :: normalizeAll features rs

end

theorem normalizeAll_eq (features : Features) (rs : List Rule) :
    normalizeAll features rs = rs.map (normalize features) := by
  induction rs with
  | nil => rfl
  | cons r rs ih => simp [normalizeAll, ih]

end Multipath.Rule
