import Multipath.Derivation.Run
import Multipath.Grammar.Builder
import Multipath.Lexicon.Builder

/-!
Small languages whose behaviour is easy to follow by hand: an optional token, a choice that only
the whole text decides, sums with parentheses, a keyword among identifiers, and lists of items.
-/

namespace Multipath.Samples

open Lexicon.Builder Grammar.Builder

private def letters : Except DefinitionError Lexicon := Lexicon.assemble do
  ignore (← literal "Space" " " .always)
  discard <| literal "A" "a" .always
  discard <| literal "B" "b" .always
  discard <| literal "C" "c" .always

private def a : Rule := .terminal 1

private def b : Rule := .terminal 2

/-- The grammar `Root: A [B];`. -/
def optionalGrammar : Except DefinitionError Grammar := do
  Grammar.assemble (← letters) do
    let root ← rule "Root" (.sequence [a, .optional b])
    start root .always

/-- The grammar `Root: (A | A A);`. -/
def choiceGrammar : Except DefinitionError Grammar := do
  Grammar.assemble (← letters) do
    let root ← rule "Root" (.alternation [a, .sequence [a, a]])
    start root .always

private def sumLexicon : Except DefinitionError Lexicon := Lexicon.assemble do
  ignore (← word "Whitespace" .blank .blank .always)
  discard <| word "Number" .digit .digit .always
  discard <| word "Identifier" .wordStart .wordContinue .always
  discard <| literal "Plus" "+" .always
  discard <| literal "LeftParenthesis" "(" .always
  discard <| literal "RightParenthesis" ")" .always

/-- The grammar of sums: terms joined by plus signs, a term being a number, an identifier or a
sum in parentheses. -/
def sumGrammar : Except DefinitionError Grammar := do
  Grammar.assemble (← sumLexicon) do
    let sum ← declare "Sum"
    let term ← declare "Term"
    define sum (.sequence
      [.nonterminal term, .repetition (.sequence [.terminal 3, .nonterminal term])])
    define term (.alternation
      [.terminal 1, .terminal 2, .sequence [.terminal 4, .nonterminal sum, .terminal 5]])
    start sum .always

def keywordLexicon : Except DefinitionError Lexicon := Lexicon.assemble do
  ignore (← word "Whitespace" .blank .blank .always)
  let identifier ← word "Identifier" .wordStart .wordContinue .always
  discard <| keyword "Start" "start" .always [identifier]
  discard <| literal "Solidus" "/" (.active "syntactic")

/-- The grammar `List: Item {Comma Item}; Item: A;`, given as it stands. -/
def lists : Grammar where
  lexicon :=
    { tags := [{ name := "A", openings := [⟨.always, [1]⟩] },
        { name := "Comma", openings := [⟨.always, [2]⟩] }]
      automaton := ⟨[⟨1, .char 'a', [0], [0], []⟩, ⟨2, .char ',', [0], [1], []⟩]⟩ }
  rules := [⟨"List", .sequence
      [.nonterminal 1, .repetition (.sequence [.terminal 1, .nonterminal 1])]⟩,
    ⟨"Item", .terminal 0⟩]
  starts := [⟨0, .always⟩]
  features := ∅

def listSession (text : String) : Session := .ofText lists ∅ text none 8

end Multipath.Samples
