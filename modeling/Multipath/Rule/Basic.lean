import Multipath.Automaton.Basic

/-!
Rules: the combinators of which the bodies of a grammar's definitions are built, with their
written form and the list of their parts. A switch stands for its body in grammars that have the
feature and for nothing in all others.
-/

namespace Multipath

abbrev RuleId := Nat
abbrev Features := SortedSet String

inductive Rule where
  | sequence (items : List Rule)
  | optional (body : Rule)
  | repetition (body : Rule)
  | alternation (choices : List Rule)
  | terminal (tag : TagId)
  | nonterminal (rule : RuleId)
  | switch (feature : String) (body : Rule)

namespace Rule

/-- Matches without consuming anything. -/
def empty : Rule := .sequence []

instance : Inhabited Rule := ⟨empty⟩

def isEmpty : Rule → Bool
  | .sequence [] => true
  | _ => false

mutual

/-- The rule and everything in it, outer rules first. -/
def parts : Rule → List Rule
  | .sequence items => .sequence items :: partsAll items
  | .alternation choices => .alternation choices :: partsAll choices
  | .optional body => .optional body :: parts body
  | .repetition body => .repetition body :: parts body
  | .switch feature body => .switch feature body :: parts body
  | .terminal tag => [.terminal tag]
  | .nonterminal rule => [.nonterminal rule]

def partsAll : List Rule → List Rule
  | [] => []
  | r :: rs => parts r ++ partsAll rs

end

theorem mem_partsAll_iff {part : Rule} {rules : List Rule} :
    part ∈ partsAll rules ↔ ∃ r ∈ rules, part ∈ r.parts := by
  induction rules with
  | nil => simp [partsAll]
  | cons r rules ih => simp [partsAll, ih]

/-- What tags and rules are called where a rule is written out. -/
structure Names where
  tag : TagId → String
  rule : RuleId → String

mutual

/-- Items stand side by side, choices between bars in parentheses, optional parts in square
brackets and repeated ones in curly brackets. -/
def text (names : Names) : Rule → String
  | .sequence [] => "()"
  | .sequence (item :: items) => " ".intercalate (text names item :: texts names items)
  | .alternation choices => "(" ++ " | ".intercalate (texts names choices) ++ ")"
  | .optional body => "[" ++ text names body ++ "]"
  | .repetition body => "\x7b" ++ text names body ++ "\x7d"
  | .switch feature body => "@" ++ feature ++ "(" ++ text names body ++ ")"
  | .terminal tag => names.tag tag
  | .nonterminal rule => names.rule rule

def texts (names : Names) : List Rule → List String
  | [] => []
  | r :: rs => text names r :: texts names rs

end

mutual

def same : Rule → Rule → Bool
  | .sequence rs, .sequence ss => sameAll rs ss
  | .alternation rs, .alternation ss => sameAll rs ss
  | .optional r, .optional s => same r s
  | .repetition r, .repetition s => same r s
  | .switch f r, .switch g s => f == g && same r s
  | .terminal t, .terminal u => t == u
  | .nonterminal i, .nonterminal j => i == j
  | _, _ => false

def sameAll : List Rule → List Rule → Bool
  | [], [] => true
  | r :: rs, s :: ss => same r s && sameAll rs ss
  | _, _ => false

end

mutual

theorem same_iff : ∀ r s : Rule, same r s = true ↔ r = s
  | .sequence rs, s => by cases s <;> simp [same, sameAll_iff rs]
  | .alternation rs, s => by cases s <;> simp [same, sameAll_iff rs]
  | .optional r, s => by cases s <;> simp [same, same_iff r]
  | .repetition r, s => by cases s <;> simp [same, same_iff r]
  | .switch _ r, s => by cases s <;> simp [same, same_iff r]
  | .terminal _, s => by cases s <;> simp [same]
  | .nonterminal _, s => by cases s <;> simp [same]

theorem sameAll_iff : ∀ rs ss : List Rule, sameAll rs ss = true ↔ rs = ss
  | [], ss => by cases ss <;> simp [sameAll]
  | r :: rs, ss => by cases ss <;> simp [sameAll, same_iff r, sameAll_iff rs]

end

instance : DecidableEq Rule := fun r s => decidable_of_iff _ (same_iff r s)

end Rule
end Multipath
