import Multipath.Tree.Extraction

/-!
Parsing a whole text. The start rule that the conditions open is derived at the start, and of the
paths behind it the last one that uses up the text is taken; this is the only place where
derivations compete. The root's output is narrowed to that path and a derivation ending there is
extracted.
-/

namespace Multipath

structure ParseOptions where
  /-- How deep derivations of rules may nest. -/
  maxDepth : Nat := 256
  /-- Whether ignored text may follow the last token. -/
  trailingIgnorable : Bool := true
deriving DecidableEq

structure Parse where
  tree : Branch
  root : NodeId
  nodes : Arena
  stats : Stats

namespace Session

/-- The error that a failure of the start rule is reported as. The position is the furthest one
where an expected token was missing. -/
def report (s : Session) (run : Run) (start : RuleId) : Failure → ParseError
  | .noPath rule p =>
    .noPath (s.grammar.name (rule.getD start)) ((run.furthest.map fun q => max q p).getD p)
  | .depthLimit rule p => .depthLimit (s.grammar.name rule) p s.maxDepth

def usesUp (s : Session) (trailingIgnorable : Bool) (p : Position) : Bool :=
  if trailingIgnorable then s.source.atEnd p else p.index == s.source.length

/-- The furthest path that uses up the text. -/
def winner? (s : Session) (trailingIgnorable : Bool) (paths : PathSet) : Option Position :=
  (paths.filter (s.usesUp trailingIgnorable)).max?

/-- Reads the text from `start` on to its end. -/
def parse (s : Session) (trailingIgnorable : Bool) (start : Position) :
    Except ParseError Parse := do
  let rule ← s.grammar.selectStart s.source.conditions
  match (s.derive rule start).run.run {} with
  | (.error failure, run) => throw (s.report run rule failure)
  | (.ok root, run) =>
    let paths := run.arena.output root
    match s.winner? trailingIgnorable paths with
    | none =>
      throw (.incomplete (s.grammar.name rule)
        (s.source.skipIgnored (paths.max?.getD start)))
    | some stop =>
      let run := run.setOutput root {stop}
      match (s.branch rule start stop).run.run { run } with
      | (.error failure, e) => throw (s.report e.run rule failure)
      | (.ok none, e) => throw (s.report e.run rule (.noPath (some rule) start))
      | (.ok (some tree), e) => pure { tree, root, nodes := e.run.arena, stats := e.run.stats }

end Session

/-- Parses a text under conditions, in the name of a file if one is given. -/
def Grammar.parse (g : Grammar) (options : ParseOptions) (conditions : Conditions) (text : String)
    (filename : Option String) : Except ParseError Parse :=
  let s := Session.ofText g conditions text filename options.maxDepth
  s.parse options.trailingIgnorable .start

end Multipath
