import Multipath.Derivation.Memo
import Multipath.Grammar.Basic
import Multipath.Lexer.Basic

/-!
Sessions and runs. A session is what stays fixed while a text is read by a grammar; a run is what
changes: the lexer, the findings and nodes so far, the rules being derived, the counters and the
furthest place where an expected token was missing. A search is a computation on a run that may
fail; what it did to the run stays done when it fails.
-/

namespace Multipath

structure Session where
  grammar : Grammar
  source : Source
  lexicon_eq : source.lexicon = grammar.lexicon
  /-- How deep derivations of rules may nest. -/
  maxDepth : Nat

def Session.ofText (g : Grammar) (conditions : Conditions) (text : String)
    (filename : Option String) (maxDepth : Nat) : Session where
  grammar := g
  source := .ofText g.lexicon conditions text (filename.getD "<stdin>")
  lexicon_eq := rfl
  maxDepth

structure Stats where
  evaluations : Nat := 0
  memoHits : Nat := 0
  leftRecursionHits : Nat := 0
  maxDepth : Nat := 0
deriving DecidableEq

/-- A rule being derived, with the instances derived below it so far, the newest first. -/
structure Frame where
  rule : RuleId
  children : List NodeId := []

structure Run where
  lexer : Lexer := {}
  memo : Memo := ∅
  arena : Arena := {}
  /-- Innermost first. -/
  frames : List Frame := []
  stats : Stats := {}
  furthest : Option Position := none

namespace Run

def setOutput (run : Run) (id : NodeId) (output : PathSet) : Run :=
  { run with arena := run.arena.setOutput id output }

def countMemoHit (run : Run) : Run :=
  { run with stats := { run.stats with memoHits := run.stats.memoHits + 1 } }

def countLeftRecursion (run : Run) : Run :=
  { run with stats := { run.stats with leftRecursionHits := run.stats.leftRecursionHits + 1 } }

def noteFailure (run : Run) (p : Position) : Run :=
  { run with furthest := some ((run.furthest.map fun q => max q p).getD p) }

/-- Opens a frame for a rule at a position. -/
def enter (run : Run) (rule : RuleId) (p : Position) : Run :=
  { run with
    memo := run.memo.record p rule .inProgress
    frames := ⟨rule, []⟩ :: run.frames
    stats :=
      { run.stats with
        evaluations := run.stats.evaluations + 1
        maxDepth := max run.stats.maxDepth (run.frames.length + 1) } }

/-- Notes an instance as found below the innermost rule being derived. -/
def attach (node : NodeId) : List Frame → List Frame
  | [] => []
  | frame :: frames => { frame with children := node :: frame.children } :: frames

/-- Closes the innermost frame with a node for the rule at that position. -/
def succeed (run : Run) (rule : RuleId) (p : Position) (output : PathSet) : NodeId × Run :=
  let children := ((run.frames.head?.map (·.children)).getD []).reverse
  let (node, arena) := run.arena.alloc { rule, start := p, output, children }
  (node,
    { run with
      arena
      memo := run.memo.record p rule (.succeeded node)
      frames := attach node run.frames.tail })

/-- Closes the innermost frame, the rule having failed at that position. -/
def fail (run : Run) (rule : RuleId) (p : Position) (failure : Failure) : Run :=
  { run with
    memo := run.memo.record p rule (.failed failure)
    frames := run.frames.tail }

end Run

abbrev Search (α : Type) := ExceptT Failure (StateM Run) α

namespace Search

/-- The result of a search, failures included. -/
def outcome {α : Type} (x : Search α) : Search (Except Failure α) := ExceptT.lift x.run

/-- The result of a search, unless it ran into the nesting bound. -/
def attempt {α : Type} (x : Search α) : Search (Except Failure α) := do
  match ← outcome x with
  | .ok a => pure (.ok a)
  | .error failure => if failure.isAbsorbable then pure (.error failure) else throw failure

/-- No path from `input`, in the rule being derived. -/
def noPath {α : Type} (input : PathSet) : Search α := do
  let rule := (← get).frames.head?.map (·.rule)
  throw (.noPath rule (input.min?.getD .start))

def outputOf (node : NodeId) : Search PathSet := do
  pure ((← get).arena.output node)

def readToken (source : Source) (p : Position) : Search (Except LexicalError Token) :=
  modifyGet fun run =>
    let (result, lexer) := (run.lexer.restore p).next source
    (result, { run with lexer })

end Search
end Multipath
