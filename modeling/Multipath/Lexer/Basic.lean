import Multipath.Lexer.Source
import Std.Data.TreeMap

/-!
A reader of tokens that can be moved to any position. What was read at an index is remembered,
tokens and errors alike, since the same places are read again and again. A failed reading leaves
the position where it was.
-/

namespace Multipath

structure Lexer where
  position : Position := .start
  cache : Std.TreeMap Nat (Except LexicalError Token) := ∅

namespace Lexer

def restore (l : Lexer) (p : Position) : Lexer := { l with position := p }

/-- What is to be read at the lexer's position, remembered from now on. -/
def lookup (s : Source) (l : Lexer) : Except LexicalError Token × Lexer :=
  match l.cache[l.position.index]? with
  | some result => (result, l)
  | none =>
    let result := s.token l.position
    (result, { l with cache := l.cache.insert l.position.index result })

def next (s : Source) (l : Lexer) : Except LexicalError Token × Lexer :=
  match l.lookup s with
  | (.ok t, l) => (.ok t, l.restore t.span.stop)
  | (.error e, l) => (.error e, l)

/-- At most `n` tokens, and the error that ends them unless the text is used up there. -/
def collect (s : Source) : Nat → Lexer → Except LexicalError (List Token) × Lexer
  | 0, l => (.ok [], l)
  | n + 1, l =>
    match l.next s with
    | (.ok t, l) =>
      let (rest, l) := collect s n l
      (rest.map (t :: ·), l)
    | (.error e, l) => (if e.isEndOfInput && s.atEnd l.position then .ok [] else .error e, l)

/-- All tokens from the lexer's position on. Each one covers a character, which bounds their
number. -/
def tokens (s : Source) (l : Lexer) : Except LexicalError (List Token) × Lexer :=
  l.collect s (s.length + 1)

end Lexer
end Multipath
