import Multipath.Automaton.Basic
import Multipath.Position

/-!
Tokens, and the two ways in which none can be read: the text ends inside one, or no start state
leads anywhere.
-/

namespace Multipath

structure Token where
  tags : TagSet
  span : Span
  text : String
deriving DecidableEq

def Token.hasTag (t : Token) (tag : TagId) : Bool := tag ∈ t.tags

inductive LexicalError where
  | endOfInput (position : Position)
  | noToken (position : Position)
deriving DecidableEq

namespace LexicalError

def position : LexicalError → Position
  | endOfInput p | noToken p => p

def isEndOfInput : LexicalError → Bool
  | endOfInput _ => true
  | noToken _ => false

/-- Where and what, in the form `file:line:column: …`. -/
def message (file : String) (e : LexicalError) : String :=
  file ++ ":" ++ e.position.text ++ ": Lexical Error: " ++
    match e with
    | endOfInput _ => "Unexpected end of input."
    | noToken _ => "Could not match any token."

end LexicalError
end Multipath
