import Multipath.Lexicon.Builder

/-!
The tokens of Aether, a language for describing grammars. One automaton serves its two parts: the
lexical one, in which productions describe tokens by regular expressions, and the syntactic one,
in which they describe rules. Tokens of one part only are gated by its condition.
-/

namespace Multipath.Aether

open Automaton (accept)
open Lexicon.Builder

def lexical : Gate := .active "lexical"

def syntactic : Gate := .active "syntactic"

namespace Tag

def whitespace : TagId := 0
def identifier : TagId := 1
def colon : TagId := 2
def semicolon : TagId := 3
def commercialAt : TagId := 4
def leftParenthesis : TagId := 5
def rightParenthesis : TagId := 6
def greaterThan : TagId := 7
def verticalLine : TagId := 8
def solidus : TagId := 9
def doubleVerticalLine : TagId := 10
def comma : TagId := 11
def doubleAmpersand : TagId := 12
def ignore : TagId := 13
def optional : TagId := 14
def start : TagId := 15
def asterisk : TagId := 16
def plusSign : TagId := 17
def questionMark : TagId := 18
def expressionRange : TagId := 19
def leftCurly : TagId := 20
def leftCurlySolidus : TagId := 21
def rightCurly : TagId := 22
def ordChar : TagId := 23
def quotedChar : TagId := 24
def fullStop : TagId := 25
def bracketExpression : TagId := 26
def exclamationMark : TagId := 27
def leftSquare : TagId := 28
def leftSquareSolidus : TagId := 29
def rightSquare : TagId := 30

end Tag

def control : CharClass := .union [.range '\x00' '\x1f', .char '\x7f']

/-- Characters that never stand for themselves in a lexical production. -/
def special : List Char :=
  [' ', '$', '(', ')', '*', '+', '.', ';', '?', '[', '\\', '^', '\x7b', '|']

def blank : CharClass := .oneOf [' ', '\t', '\r', '\n']

/-- A count of repetitions: `{n}`, `{n,}` or `{n,m}`. -/
def expressionRange : StateM Lexicon.Builder Unit := do
  let tag ← addTag "ExpressionRange"
  let opening ← freshState
  let first ← freshState
  let low ← freshState
  let comma ← freshState
  let high ← freshState
  openStates tag lexical [opening]
  addTransition { source := opening, label := .char '\x7b', targets := [first] }
  addTransition { source := first, label := .digit, targets := [low] }
  addTransition { source := low, label := .digit, targets := [low] }
  addTransition { source := low, label := .char ',', targets := [comma] }
  addTransition { source := comma, label := .digit, targets := [high] }
  addTransition { source := high, label := .digit, targets := [high] }
  for source in [low, comma, high] do
    addTransition { source, label := .char '\x7d', targets := [accept], asserts := [tag] }

/-- One visible character without a special meaning. Punctuation has its own tag besides. -/
def ordChar : StateM Lexicon.Builder Unit := do
  let tag ← addTag "OrdChar"
  let source ← freshState
  openStates tag lexical [source]
  addTransition
    { source, label := .not (.union [control, .oneOf special]), targets := [accept],
      asserts := [tag] }

def quotedChar : StateM Lexicon.Builder Unit := do
  let tag ← addTag "QuotedChar"
  let escape ← freshState
  let escaped ← freshState
  openStates tag lexical [escape]
  addTransition { source := escape, label := .char '\\', targets := [escaped] }
  addTransition
    { source := escaped, label := .not control, targets := [accept], asserts := [tag] }

/-- A set of characters in square brackets, after `^` its complement. A closing bracket that
comes first is a member. -/
def bracketExpression : StateM Lexicon.Builder Unit := do
  let tag ← addTag "BracketExpression"
  let opening ← freshState
  let negated ← freshState
  let first ← freshState
  let members ← freshState
  openStates tag lexical [opening]
  addTransition { source := opening, label := .char '[', targets := [negated, first] }
  addTransition { source := negated, label := .char '^', targets := [first] }
  addTransition { source := first, label := .any, targets := [members] }
  addTransition { source := members, label := .not (.char ']'), targets := [members] }
  addTransition
    { source := members, label := .char ']', targets := [accept], asserts := [tag] }

def declarations : StateM Lexicon.Builder Unit := do
  ignore (← word "Whitespace" blank blank .always)
  discard <| word "Identifier" .wordStart .wordContinue .always
  discard <| literal "Colon" ":" .always
  discard <| literal "Semicolon" ";" .always
  discard <| literal "CommercialAt" "@" .always
  discard <| literal "LeftParenthesis" "(" .always
  discard <| literal "RightParenthesis" ")" .always
  discard <| literal "GreaterThanSign" ">" lexical
  discard <| literal "VerticalLine" "|" .always
  discard <| literal "Solidus" "/" syntactic
  discard <| literal "DoubleVerticalLine" "||" .always
  discard <| literal "Comma" "," .always
  discard <| literal "DoubleAmpersand" "&&" .always
  discard <| keyword "Ignore" "ignore" lexical [Tag.identifier]
  discard <| keyword "Optional" "optional" lexical [Tag.identifier]
  discard <| keyword "Start" "start" syntactic [Tag.identifier]
  discard <| literal "Asterisk" "*" lexical
  discard <| literal "PlusSign" "+" lexical
  discard <| literal "QuestionMark" "?" lexical
  expressionRange
  discard <| literal "LeftCurlyBracket" "\x7b" syntactic
  discard <| literal "LeftCurlyBracketSolidus" "\x7b/" syntactic
  discard <| literal "RightCurlyBracket" "\x7d" syntactic
  ordChar
  quotedChar
  discard <| literal "FullStop" "." lexical
  bracketExpression
  discard <| literal "ExclamationMark" "!" .always
  discard <| literal "LeftSquareBracket" "[" syntactic
  discard <| literal "LeftSquareBracketSolidus" "[/" syntactic
  discard <| literal "RightSquareBracket" "]" syntactic

def lexicon : Except DefinitionError Lexicon := Lexicon.assemble declarations

end Multipath.Aether
