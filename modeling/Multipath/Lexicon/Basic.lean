import Multipath.Automaton.Basic
import Multipath.Gate

/-!
Lexicons: the tags of a language with the automaton that recognises them. A tag opens groups of
start states, each under a gate; a tag is known by its place in the list. Ignored tags are
recognised like any other and never shown.
-/

namespace Multipath

open Automaton (StateId StateSet)

namespace Lexicon

/-- Start states that are open while the gate holds. -/
structure Opening where
  gate : Gate
  states : List StateId

structure Tag where
  name : String
  openings : List Opening := []
  ignored : Bool := false

def Tag.startStates (tag : Tag) (conditions : Conditions) : List StateId :=
  (tag.openings.filter (·.gate.holds conditions)).flatMap (·.states)

end Lexicon

structure Lexicon where
  tags : List Lexicon.Tag
  automaton : Automaton

namespace Lexicon

def tag? (l : Lexicon) (id : TagId) : Option Tag := l.tags[id]?

def find? (l : Lexicon) (name : String) : Option TagId := l.tags.findIdx? (·.name == name)

/-- The name of a tag, and `"?"` for an id of no tag. -/
def name (l : Lexicon) (id : TagId) : String := ((l.tag? id).map (·.name)).getD "?"

def names (l : Lexicon) (tags : TagSet) : List String := tags.toList.map l.name

def startStates (l : Lexicon) (conditions : Conditions) : StateSet :=
  .ofList (l.tags.flatMap (·.startStates conditions))

def ignored (l : Lexicon) : TagSet :=
  .ofList ((List.range l.tags.length).filter fun id =>
    ((l.tag? id).map (·.ignored)).getD false)

theorem mem_ignored {l : Lexicon} {id : TagId} :
    id ∈ l.ignored ↔ ∃ tag, l.tag? id = some tag ∧ tag.ignored = true := by
  simp only [ignored, SortedSet.mem_ofList, List.mem_filter, List.mem_range]
  constructor
  · rintro ⟨h, hi⟩
    refine ⟨l.tags[id], by simp [tag?, h], ?_⟩
    simpa [tag?, h] using hi
  · rintro ⟨tag, h, hi⟩
    refine ⟨?_, by simp [h, hi]⟩
    exact (List.getElem?_eq_some_iff.1 h).1

end Lexicon
end Multipath
