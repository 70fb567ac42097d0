import Multipath.Text.Quoted
import Multipath.Tree.Basic

/-!
Expectations on trees. Checks run in order and the first that fails is reported, with the way to
the node it was made on; a check on a child counts once for itself after those made inside.
-/

namespace Multipath

namespace Expectation

inductive LeafCheck where
  | tag (name : String)
  | tags (names : List String)
  | text (text : String)
  | startsAt (line column : Nat)

inductive BranchCheck where
  | rule (name : String)
  | childCount (count : Nat)
  | tokens (texts : List String)
  | text (text : String)
  | containsRule (name : String) (count : Nat)
  | covers (start stop : Nat)
  | isEmpty
  | childLeaf (index : Nat) (checks : List LeafCheck)
  | childBranch (index : Nat) (checks : List BranchCheck)
deriving Inhabited

/-- A check that failed, after so many that passed. -/
structure Violation where
  message : String
  passed : Nat

def summary : Tree → String
  | .leaf l => "Leaf(" ++ "|".intercalate l.tags ++ " " ++ Text.quote l.text ++ ")"
  | .branch rule _ _ => "Branch(" ++ rule ++ ")"

def summaries (ts : List Tree) : String := ", ".intercalate (ts.map summary)

/-- What a check on a leaf complains about, if anything. -/
def LeafCheck.complaint? (l : Leaf) : LeafCheck → Option String
  | .tag name =>
    if l.hasTag name then none
    else some ("Expected tag '" ++ name ++ "', found [" ++ ", ".intercalate l.tags ++ "]")
  | .tags names => if l.tags = names then none else some "Tags differ"
  | .text expected =>
    if l.text = expected then none
    else some ("Expected text " ++ Text.quote expected ++ ", found " ++ Text.quote l.text)
  | .startsAt line column =>
    let start := l.span.start
    if start.line = line && start.column = column then none
    else some ("Expected token to start at " ++ toString line ++ ":" ++ toString column ++
      ", found " ++ start.text)

/-- What a check on the branch itself complains about, if anything. -/
def BranchCheck.complaint? (b : Branch) : BranchCheck → Option String
  | .rule name =>
    if b.rule = name then none
    else some ("Expected rule '" ++ name ++ "', found '" ++ b.rule ++ "'")
  | .childCount count =>
    if b.children.length = count then none
    else some ("Expected " ++ toString count ++ " children, found " ++
      toString b.children.length ++ ": [" ++ summaries b.children ++ "]")
  | .tokens texts => if b.tokens.map (·.text) = texts then none else some "Token texts differ"
  | .text expected => if b.text = expected then none else some "Text differs"
  | .containsRule name count =>
    let found := (b.findAll name).length
    if found = count then none
    else some ("Expected " ++ toString count ++ " '" ++ name ++ "' branches, found " ++
      toString found)
  | .covers start stop =>
    if b.span.start.index = start && b.span.stop.index = stop then none
    else some ("Expected span " ++ toString start ++ ".." ++ toString stop ++ ", found " ++
      b.span.text)
  | .isEmpty =>
    if b.children.isEmpty then none
    else some ("Expected an empty branch, found [" ++ summaries b.children ++ "]")
  | .childLeaf index _ | .childBranch index _ =>
    if index < b.children.length then none
    else some ("Child index " ++ toString index ++ " out of bounds (branch has " ++
      toString b.children.length ++ " children: [" ++ summaries b.children ++ "])")

def settle (context : String) (passed : Nat) : Option String → Except Violation Nat
  | none => .ok (passed + 1)
  | some complaint => .error ⟨context ++ ": " ++ complaint, passed⟩

def childContext (context : String) (index : Nat) : String :=
  context ++ ".children[" ++ toString index ++ "]"

/-- Checks on a leaf, after `passed` others. -/
def checkLeaf (context : String) (l : Leaf) : List LeafCheck → Nat → Except Violation Nat
  | [], passed => .ok passed
  | check :: checks, passed => do
    checkLeaf context l checks (← settle context passed (check.complaint? l))

mutual

/-- Checks on a branch, after `passed` others. -/
def checkBranch (context : String) (b : Branch) :
    List BranchCheck → Nat → Except Violation Nat
  | [], passed => .ok passed
  | check :: checks, passed => do
    checkBranch context b checks (← checkOne context b check passed)

def checkOne (context : String) (b : Branch) :
    BranchCheck → Nat → Except Violation Nat
  | .childLeaf index checks, passed =>
    match b.children[index]? with
    | none => settle context passed ((BranchCheck.childLeaf index checks).complaint? b)
    | some (.leaf l) => do
      pure ((← checkLeaf (childContext context index) l checks passed) + 1)
    | some t => settle (childContext context index) passed ("Expected leaf, found " ++ summary t)
  | .childBranch index checks, passed =>
    match b.children[index]? with
    | none => settle context passed ((BranchCheck.childBranch index checks).complaint? b)
    | some (.branch rule span children) => do
      pure ((← checkBranch (childContext context index) ⟨rule, span, children⟩ checks passed) + 1)
    | some t => settle (childContext context index) passed ("Expected branch, found " ++ summary t)
  | check, passed => settle context passed (check.complaint? b)

end

end Expectation

/-- Checks a tree from its root on and counts the checks. -/
def Branch.check (b : Branch) (checks : List Expectation.BranchCheck) :
    Except Expectation.Violation Nat :=
  Expectation.checkBranch "root" b checks 0

end Multipath
