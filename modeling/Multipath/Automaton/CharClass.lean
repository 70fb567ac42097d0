/-!
Character classes, the labels of automaton transitions. Ranges include both ends and are empty
when reversed; letters and digits are the ASCII ones.
-/

namespace Multipath

inductive CharClass where
  | char (c : Char)
  | range (low high : Char)
  | oneOf (chars : List Char)
  | any
  | not (inner : CharClass)
  | union (classes : List CharClass)
deriving Inhabited

namespace CharClass

mutual

def accepts (c : Char) : CharClass → Bool
  | .char d => d == c
  | .range low high => low ≤ c && c ≤ high
  | .oneOf chars => chars.contains c
  | .any => true
  | .not inner => !accepts c inner
  | .union classes => acceptsAny c classes

def acceptsAny (c : Char) : List CharClass → Bool
  | [] => false
  | k :: ks => accepts c k || acceptsAny c ks

end

theorem acceptsAny_eq (c : Char) (ks : List CharClass) : acceptsAny c ks = ks.any (accepts c) := by
  induction ks with
  | nil => rfl
  | cons k ks ih => simp [acceptsAny, ih]

def digit : CharClass := .range '0' '9'

def wordStart : CharClass := .union [.range 'A' 'Z', .char '_', .range 'a' 'z']

def wordContinue : CharClass := .union [digit, wordStart]

/-- Space, tab and line feed. -/
def blank : CharClass := .oneOf [' ', '\t', '\n']

end CharClass
end Multipath
