import Multipath.Aether.Lexicon
import Multipath.Grammar.Builder

/-!
The grammar of Aether: a list of productions, each with a header and a body. Both parts of the
language share the header, conditions, grouping and selection. The feature `precedences` adds a
clause to the header.
-/

namespace Multipath.Aether

def precedences : String := "precedences"

inductive Production where
  | grammar | production | header | body | condition | specifiers | precedences | selection
  | disjunction | specifierList | precedenceList | sequence | conjunction | specifier | precedence
  | iteration | primary | negation | optional | primitive
deriving DecidableEq

namespace Production

def all : List Production :=
  [grammar, production, header, body, condition, specifiers, precedences, selection, disjunction,
   specifierList, precedenceList, sequence, conjunction, specifier, precedence, iteration, primary,
   negation, optional, primitive]

/-- The place of a production in `all`. -/
def id (p : Production) : RuleId := p.ctorIdx

def name : Production → String
  | grammar => "Grammar"
  | production => "Production"
  | header => "ProductionHeader"
  | body => "ProductionBody"
  | condition => "Condition"
  | specifiers => "ProductionSpecifiers"
  | precedences => "ProductionPrecedences"
  | selection => "SelectionExpression"
  | disjunction => "DisjunctionCondition"
  | specifierList => "ProductionSpecifierList"
  | precedenceList => "ProductionPrecedenceList"
  | sequence => "SequenceExpression"
  | conjunction => "ConjunctionCondition"
  | specifier => "ProductionSpecifier"
  | precedence => "ProductionPrecedence"
  | iteration => "IterationExpression"
  | primary => "PrimaryExpression"
  | negation => "NegationCondition"
  | optional => "OptionalExpression"
  | primitive => "PrimitiveCondition"

end Production

private def t (tag : TagId) : Rule := .terminal tag

private def n (p : Production) : Rule := .nonterminal p.id

/-- One or more of `item`, with `separator` between them. -/
def separated (item separator : Rule) : Rule :=
  .sequence [item, .repetition (.sequence [separator, item])]

def Production.rule : Production → Rule
  | grammar => .sequence [n production, .repetition (n production)]
  | production => .sequence [n header, n body]
  | header => .sequence
      [t Tag.identifier, .optional (n condition), .optional (n specifiers),
       .switch Aether.precedences (.optional (n precedences)), t Tag.colon]
  | body => .sequence [n selection, t Tag.semicolon]
  | condition => .sequence [t Tag.commercialAt, n disjunction]
  | specifiers => .sequence [t Tag.leftParenthesis, n specifierList, t Tag.rightParenthesis]
  | precedences => .sequence [t Tag.greaterThan, n precedenceList]
  | selection =>
    separated (n sequence) (.alternation [t Tag.verticalLine, t Tag.solidus])
  | disjunction => separated (n conjunction) (t Tag.doubleVerticalLine)
  | specifierList => separated (n specifier) (t Tag.comma)
  | precedenceList => separated (n precedence) (t Tag.comma)
  | sequence => .sequence [n iteration, .repetition (n iteration)]
  | conjunction => separated (n negation) (t Tag.doubleAmpersand)
  | specifier => .alternation
      [t Tag.identifier,
       .sequence [.alternation [t Tag.ignore, t Tag.optional, t Tag.start],
         .optional (n condition)]]
  | precedence => t Tag.identifier
  | iteration => .alternation
      [.sequence [n primary, .optional (.alternation
         [t Tag.asterisk, t Tag.plusSign, t Tag.questionMark, t Tag.expressionRange])],
       .sequence [.alternation [t Tag.leftCurly, t Tag.leftCurlySolidus], n selection,
         t Tag.rightCurly]]
  | primary => .alternation
      [.sequence [t Tag.identifier, .optional (n condition)],
       t Tag.ordChar, t Tag.quotedChar, t Tag.fullStop, t Tag.bracketExpression,
       .sequence [t Tag.leftParenthesis, n selection, t Tag.rightParenthesis,
         .optional (n condition)],
       .sequence [n optional, .optional (n condition)]]
  | negation => .sequence [.repetition (t Tag.exclamationMark), n primitive]
  | optional => .sequence
      [.alternation [t Tag.leftSquare, t Tag.leftSquareSolidus], n selection, t Tag.rightSquare]
  | primitive => .alternation
      [t Tag.identifier,
       .sequence [t Tag.leftParenthesis, n disjunction, t Tag.rightParenthesis]]

def productions (features : Features) : StateM Grammar.Builder Unit := do
  for p in Production.all do
    discard <| Grammar.Builder.declare p.name
  for p in Production.all do
    Grammar.Builder.define p.id p.rule
  Grammar.Builder.start Production.grammar.id .always
  Grammar.Builder.enableAll features.toList

def grammar (features : Features) : Except DefinitionError Grammar := do
  Grammar.assemble (← lexicon) (productions features)

end Multipath.Aether
