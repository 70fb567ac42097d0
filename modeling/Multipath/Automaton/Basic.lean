import Multipath.SortedSet
import Multipath.Automaton.CharClass

/-!
Tagging automata. A step takes one character and the set of active states to the tags that the
fired transitions assert, less those that any of them retracts, and to the set of states active
next. State `accept` marks an acceptable end of a match; no transition leaves it.
-/

namespace Multipath

abbrev TagId := Nat
abbrev TagSet := SortedSet TagId

namespace Automaton

abbrev StateId := Nat
abbrev StateSet := SortedSet StateId

def accept : StateId := 0

structure Transition where
  source : StateId
  label : CharClass
  targets : List StateId
  asserts : List TagId := []
  retracts : List TagId := []

structure Step where
  tags : TagSet
  next : StateSet

end Automaton

structure Automaton where
  transitions : List Automaton.Transition

namespace Automaton

/-- The transitions that `c` fires from the active states. -/
def fired (a : Automaton) (c : Char) (active : StateSet) : List Transition :=
  a.transitions.filter fun t => t.source ≠ accept && t.source ∈ active && t.label.accepts c

def step (a : Automaton) (c : Char) (active : StateSet) : Step :=
  let fired := a.fired c active
  { tags := .ofList (fired.flatMap (·.asserts)) \ .ofList (fired.flatMap (·.retracts))
    next := .ofList (fired.flatMap (·.targets)) }

theorem mem_step_tags {a : Automaton} {c : Char} {active : StateSet} {tag : TagId} :
    tag ∈ (a.step c active).tags ↔
      (∃ t ∈ a.fired c active, tag ∈ t.asserts) ∧ ∀ t ∈ a.fired c active, tag ∉ t.retracts := by
  simp [step]

theorem mem_step_next {a : Automaton} {c : Char} {active : StateSet} {s : StateId} :
    s ∈ (a.step c active).next ↔ ∃ t ∈ a.fired c active, s ∈ t.targets := by
  simp [step]

end Automaton
end Multipath
