import Multipath.Derivation.Run

/-!
Evaluation of rules on path sets. Every rule takes the paths before it to the paths behind it:
a terminal moves each path over one token, a sequence threads the set through its items, and an
alternation joins the results of its choices. Nothing is decided between derivations.

A reference to another rule is answered from the memo table or by deriving the rule once at that
position. A rule that reaches itself there, without a token in between, fails at the inner
reference. `Session.evaluate` is open in how references are answered; `Session.derive` closes it,
by recursion on the depth that is left.
-/

namespace Multipath

open Search (attempt noPath outcome outputOf readToken)

/-- How a reference to a rule at a position is answered. -/
abbrev Resolver := RuleId → Position → Search PathSet

namespace Session

/-- Moves one path over the next token if that has the tag. -/
def advance (s : Session) (tag : TagId) (output : PathSet) (p : Position) : Search PathSet := do
  match ← readToken s.source p with
  | .ok token =>
    if token.hasTag tag then pure (output.insert token.span.stop)
    else
      modify (·.noteFailure token.span.start)
      pure output
  | .error e =>
    modify (·.noteFailure e.position)
    pure output

def terminal (s : Session) (tag : TagId) (input : PathSet) : Search PathSet := do
  let output ← input.toList.foldlM (s.advance tag) ∅
  if output.isEmpty then noPath input else pure output

/-- The paths of all searches that find some, and the last failure if none does. -/
def unite (input : PathSet) : List (Search PathSet) → PathSet → Option Failure → Search PathSet
  | [], output, cause =>
    if output.isEmpty then
      match cause with
      | some failure => throw failure
      | none => noPath input
    else pure output
  | x :: xs, output, cause => do
    match ← attempt x with
    | .ok paths => unite input xs (output ∪ paths) cause
    | .error failure => unite input xs output (some failure)

/-- Adds to `result` what `body` leads to from `frontier`, then from what is new, at most `n`
times. -/
def saturate (body : PathSet → Search PathSet) : Nat → PathSet → PathSet → Search PathSet
  | 0, _, result => pure result
  | n + 1, frontier, result => do
    match ← attempt (body frontier) with
    | .error _ => pure result
    | .ok output =>
      let fresh := output \ result
      if fresh.isEmpty then pure result
      else saturate body n fresh (result ∪ fresh)

/-- More than the paths that a repetition can add: each one ends a token, of which one starts at
an index, or stands in the output of a node. -/
def pathBound (s : Session) (run : Run) : Nat := s.source.length + run.arena.pathCount + 1

mutual

def evaluate (s : Session) (resolve : Resolver) : Rule → PathSet → Search PathSet
  | .terminal tag, input => s.terminal tag input
  | .nonterminal rule, input => unite input (input.toList.map (resolve rule)) ∅ none
  | .sequence items, input => evaluateItems s resolve items input
  | .optional body, input => do
    match ← attempt (evaluate s resolve body input) with
    | .ok output => pure (input ∪ output)
    | .error _ => pure input
  | .repetition body, input => do
    saturate (evaluate s resolve body) (s.pathBound (← get)) input input
  | .alternation choices, input => unite input (evaluateChoices s resolve choices input) ∅ none
  | .switch feature body, input =>
    if s.grammar.isEnabled feature then evaluate s resolve body input else pure input

def evaluateItems (s : Session) (resolve : Resolver) : List Rule → PathSet → Search PathSet
  | [], paths => pure paths
  | item :: items, paths => do
    evaluateItems s resolve items (← evaluate s resolve item paths)

def evaluateChoices (s : Session) (resolve : Resolver) :
    List Rule → PathSet → List (Search PathSet)
  | [], _ => []
  | choice :: choices, input =>
    evaluate s resolve choice input :: evaluateChoices s resolve choices input

end

/-- The finding about a rule at a position, or else what `fresh` makes of it. -/
def consult (rule : RuleId) (p : Position) (fresh : Search NodeId) : Search NodeId := do
  match (← get).memo.find? p rule with
  | some (.succeeded node) =>
    modify (·.countMemoHit)
    pure node
  | some (.failed failure) =>
    modify (·.countMemoHit)
    throw failure
  | some .inProgress =>
    modify (·.countLeftRecursion)
    throw (.noPath (some rule) p)
  | none => fresh

/-- Evaluates the body of a rule at a position and records what came of it. -/
def deriveFresh (s : Session) (resolve : Resolver) (rule : RuleId) (p : Position) :
    Search NodeId := do
  match s.grammar.rule? rule with
  | none => throw (.noPath (some rule) p)
  | some definition =>
    modify (·.enter rule p)
    match ← outcome (s.evaluate resolve definition.body {p}) with
    | .ok output => modifyGet (·.succeed rule p output)
    | .error failure =>
      modify (·.fail rule p failure)
      throw failure

/-- Derives a rule with `depth` levels of nesting left. -/
def deriveWithin (s : Session) : Nat → RuleId → Position → Search NodeId
  | 0, rule, p => consult rule p (throw (.depthLimit rule p))
  | depth + 1, rule, p =>
    consult rule p (s.deriveFresh (fun r q => deriveWithin s depth r q >>= outputOf) rule p)

def depthLeft (s : Session) : Search Nat := do
  pure (s.maxDepth - (← get).frames.length)

/-- The node of a rule at a position, derived now unless that was settled before. -/
def derive (s : Session) (rule : RuleId) (p : Position) : Search NodeId := do
  s.deriveWithin (← s.depthLeft) rule p

/-- The paths behind a rule from the paths before it. -/
def follow (s : Session) (rule : Rule) (input : PathSet) : Search PathSet := do
  let depth ← s.depthLeft
  s.evaluate (fun r q => s.deriveWithin depth r q >>= outputOf) rule input

end Session
end Multipath
