import Multipath.Automaton.Basic
import Multipath.Position

/-!
Longest match. The automaton is fed from a position on until no state is left alive or the text
ends; the last acceptable end with the tags of that step is the match. A match covers at least
one character and stays inside the text.
-/

namespace Multipath

open Automaton (StateSet accept)

structure Match where
  tags : TagSet
  stop : Position

structure Scan where
  accepted : Option Match
  /-- States were still alive where the text ended. -/
  exhausted : Bool

namespace Scan

/-- Feeds `cs`, which starts at `p`, to the states, `accepted` being the longest match so far. -/
def feed (a : Automaton) : List Char → Position → StateSet → Option Match → Scan
  | [], _, states, accepted => ⟨accepted, !states.isEmpty⟩
  | c :: cs, p, states, accepted =>
    if states.isEmpty then ⟨accepted, false⟩
    else
      let step := a.step c states
      feed a cs (p.advance c) (step.next.erase accept)
        (if accept ∈ step.next then some ⟨step.tags, p.advance c⟩ else accepted)

theorem feed_accepted {a : Automaton} {m : Match} : ∀ {cs : List Char} {p : Position}
    {states : StateSet} {accepted : Option Match},
    (feed a cs p states accepted).accepted = some m →
      accepted = some m ∨ p.index < m.stop.index ∧ m.stop.index ≤ p.index + cs.length
  | [], p, states, accepted, h => .inl h
  | c :: cs, p, states, accepted, h => by
    unfold feed at h
    split at h
    · exact .inl h
    · rcases feed_accepted h with e | ⟨h₁, h₂⟩
      · split at e
        · cases e
          simp only [Position.index_advance, List.length_cons]
          omega
        · exact .inl e
      · simp only [Position.index_advance, List.length_cons] at h₁ h₂ ⊢
        omega

end Scan
end Multipath
