import Multipath.Derivation.Evaluation
import Multipath.Tree.Basic
import Std.Data.TreeSet

/-!
Extraction of one derivation. Path sets say where a rule can end and not how; here the bodies are
gone through once more, between a start and a stop, against what the run has found. Of several
derivations the one taken prefers longer matches, earlier choices, and optional or repeated parts
taken to skipped ones. A rule that comes back to the same stretch inside itself is refused there,
since that leads to no finite tree.
-/

namespace Multipath

open Search (attempt outputOf readToken)

/-- A rule between two positions. -/
structure Stretch where
  rule : RuleId
  start : Position
  stop : Position
deriving DecidableEq

namespace Stretch

instance : Ord Stretch where
  compare := compareLex (compareOn (·.start)) (compareLex (compareOn (·.stop)) (compareOn (·.rule)))

instance : Std.TransOrd Stretch :=
  inferInstanceAs (Std.TransCmp (compareLex (compareOn start)
    (compareLex (compareOn stop) (compareOn rule))))

instance : Std.LawfulEqOrd Stretch where
  eq_of_compare {s t} h := by
    obtain ⟨hp, h⟩ := compareLex_eq_eq.1 h
    obtain ⟨hq, hr⟩ := compareLex_eq_eq.1 h
    cases s
    cases t
    simp only [mk.injEq]
    exact ⟨Nat.compare_eq_eq.1 hr, Std.LawfulEqOrd.eq_of_compare hp,
      Std.LawfulEqOrd.eq_of_compare hq⟩

end Stretch

structure Extraction where
  run : Run
  /-- Stretches under way. -/
  active : Std.TreeSet Stretch := ∅
  built : Std.TreeMap Stretch Branch := ∅

abbrev Extract (α : Type) := ExceptT Failure (StateM Extraction) α

namespace Extract

variable {α : Type}

def ofSearch (x : Search α) : Extract α := do
  let result ← modifyGet fun (e : Extraction) =>
    let (result, run) := x.run.run e.run
    (result, { e with run })
  match result with
  | .ok a => pure a
  | .error failure => throw failure

def outcome (x : Extract α) : Extract (Except Failure α) := ExceptT.lift x.run

end Extract

open Extract (ofSearch)

/-- A part of a rule: where it leads to from some paths without passing a limit, and what it
matched between two positions. -/
structure Fragment where
  reach : PathSet → Position → Extract PathSet
  build : Position → Position → Extract (Option (List Tree))

namespace Fragment

/-- What was matched from `p` to the first candidate that works, with that candidate. -/
def firstBuilt (f : Fragment) (p : Position) :
    List Position → Extract (Option (Position × List Tree))
  | [] => pure none
  | stop :: stops => do
    match ← f.build p stop with
    | some nodes => pure (some (stop, nodes))
    | none => firstBuilt f p stops

/-- The paths in front of each fragment, unless the fragments cannot be passed. -/
def layers (stop : Position) :
    List Fragment → PathSet → Extract (Option (List (Fragment × PathSet)))
  | [], _ => pure (some [])
  | f :: fs, paths => do
    let next ← f.reach paths stop
    if next.isEmpty then pure none
    else pure ((← layers stop fs next).map ((f, paths) :: ·))

/-- Those of `layer` from which the fragment leads to one of `after`. -/
def keepViable (f : Fragment) (stop : Position) (after layer : PathSet) : Extract PathSet :=
  layer.toList.foldlM (fun keep p => do
    let stops ← f.reach {p} stop
    pure (if stops.toList.any (· ∈ after) then keep.insert p else keep)) ∅

/-- The paths in front from which `stop` is still in reach, and those behind each fragment. -/
def prune (stop : Position) :
    List (Fragment × PathSet) → Extract (PathSet × List (Fragment × PathSet))
  | [] => pure ({stop}, [])
  | (f, layer) :: rest => do
    let (after, steps) ← prune stop rest
    pure (← f.keepViable stop after layer, (f, after) :: steps)

/-- Takes each fragment to its furthest viable stop. -/
def choose (stop : Position) :
    List (Fragment × PathSet) → Position → Extract (Option (List Tree))
  | [], _ => pure (some [])
  | (f, after) :: rest, p => do
    let stops ← f.reach {p} stop
    match ← f.firstBuilt p (stops.toList.reverse.filter (· ∈ after)) with
    | none => pure none
    | some (q, nodes) => pure ((← choose stop rest q).map (nodes ++ ·))

def inSequence (fs : List Fragment) (start stop : Position) : Extract (Option (List Tree)) := do
  match ← layers stop fs {start} with
  | none => pure none
  | some before =>
    let (viable, after) ← prune stop before
    if start ∈ viable then choose stop after start else pure none

/-- Where one more iteration leads from each position. -/
abbrev Steps := Std.TreeMap Position (List Position)

/-- The iterations that consume something, from the pending positions on, at most `n` of them. -/
def explore (f : Fragment) (stop : Position) : Nat → List Position → Steps → Extract Steps
  | 0, _, steps => pure steps
  | n + 1, pending, steps =>
    match pending.dropWhile steps.contains with
    | [] => pure steps
    | p :: pending => do
      let stops ← f.reach {p} stop
      let next := stops.toList.filter (p < ·)
      explore f stop n (next.reverse ++ pending) (steps.insert p next)

/-- The positions from which iterations lead to `stop`, the later ones being settled first. -/
def viable (stop : Position) (steps : Steps) : Std.TreeSet Position :=
  steps.foldr (fun p next later =>
    if p = stop || next.any later.contains then later.insert p else later) ∅

/-- Takes each iteration to its furthest viable stop, in at most `n` iterations. -/
def iterate (f : Fragment) (stop : Position) (steps : Steps) (viable : Std.TreeSet Position) :
    Nat → Position → Extract (Option (List Tree))
  | 0, p => pure (if p = stop then some [] else none)
  | n + 1, p => do
    if p = stop then pure (some [])
    else
      match ← f.firstBuilt p ((steps.getD p []).reverse.filter viable.contains) with
      | none => pure none
      | some (q, nodes) => pure ((← iterate f stop steps viable n q).map (nodes ++ ·))

def inRepetition (f : Fragment) (bound : Nat) (start stop : Position) :
    Extract (Option (List Tree)) := do
  if start = stop then pure (some [])
  else
    let steps ← f.explore stop bound [start] ∅
    let viable := viable stop steps
    if start ∈ viable then f.iterate stop steps viable steps.size start else pure none

end Fragment

namespace Session

def reach (s : Session) (rule : Rule) (paths : PathSet) (stop : Position) : Extract PathSet := do
  match ← ofSearch (attempt (s.follow rule paths)) with
  | .ok stops => pure (stops.filter (· ≤ stop))
  | .error _ => pure ∅

def buildTerminal (s : Session) (tag : TagId) (start stop : Position) :
    Extract (Option (List Tree)) := do
  match ← ofSearch (readToken s.source start) with
  | .ok token =>
    if token.hasTag tag && token.span.stop = stop then
      pure (some [.leaf ⟨s.grammar.lexicon.names token.tags, token.text, token.span⟩])
    else pure none
  | .error _ => pure none

/-- How the branch of a rule between two positions is built, if there is one. -/
abbrev BranchBuilder := RuleId → Position → Position → Extract (Option Branch)

def buildNonterminal (s : Session) (branch : BranchBuilder) (rule : RuleId)
    (start stop : Position) : Extract (Option (List Tree)) := do
  match ← ofSearch (attempt (s.derive rule start)) with
  | .error _ => pure none
  | .ok node =>
    if stop ∈ (← ofSearch (outputOf node)) then
      pure ((← branch rule start stop).map fun b => [b.tree])
    else pure none

/-- Nothing reaches back. -/
def forward (start stop : Position) (x : Extract (Option (List Tree))) :
    Extract (Option (List Tree)) :=
  if stop < start then pure none else x

def nothing (start stop : Position) : Option (List Tree) := if start = stop then some [] else none

mutual

/-- What a rule matched between two positions, in the derivation preferred. -/
def build (s : Session) (branch : BranchBuilder) :
    Rule → Position → Position → Extract (Option (List Tree))
  | .terminal tag, start, stop => forward start stop (s.buildTerminal tag start stop)
  | .nonterminal rule, start, stop => forward start stop (s.buildNonterminal branch rule start stop)
  | .sequence items, start, stop =>
    forward start stop (Fragment.inSequence (fragments s branch items) start stop)
  | .optional body, start, stop => forward start stop do
    match ← build s branch body start stop with
    | some nodes => pure (some nodes)
    | none => pure (nothing start stop)
  | .repetition body, start, stop => forward start stop do
    Fragment.inRepetition ⟨s.reach body, build s branch body⟩ (s.pathBound (← get).run) start stop
  | .alternation choices, start, stop =>
    forward start stop (buildFirst s branch choices start stop)
  | .switch feature body, start, stop => forward start stop do
    if s.grammar.isEnabled feature then build s branch body start stop
    else pure (nothing start stop)

def buildFirst (s : Session) (branch : BranchBuilder) :
    List Rule → Position → Position → Extract (Option (List Tree))
  | [], _, _ => pure none
  | choice :: choices, start, stop => do
    match ← build s branch choice start stop with
    | some nodes => pure (some nodes)
    | none => buildFirst s branch choices start stop

def fragments (s : Session) (branch : BranchBuilder) : List Rule → List Fragment
  | [] => []
  | item :: items => ⟨s.reach item, build s branch item⟩ :: fragments s branch items

end

/-- The branch already built for a stretch, none inside that stretch, or else a fresh one. -/
def reuse (stretch : Stretch) (fresh : Extract (Option Branch)) : Extract (Option Branch) := do
  let e ← get
  match e.built[stretch]? with
  | some b => pure (some b)
  | none => if e.active.contains stretch then pure none else fresh

/-- Builds the branch of a stretch, which is active meanwhile. -/
def branchFresh (s : Session) (branch : BranchBuilder) (stretch : Stretch) :
    Extract (Option Branch) := do
  modify fun e => { e with active := e.active.insert stretch }
  let derived ← Extract.outcome <|
    match s.grammar.rule? stretch.rule with
    | some definition => s.build branch definition.body stretch.start stretch.stop
    | none => pure none
  modify fun e => { e with active := e.active.erase stretch }
  match derived with
  | .error failure => throw failure
  | .ok none => pure none
  | .ok (some children) =>
    let b : Branch := ⟨s.grammar.name stretch.rule, ⟨stretch.start, stretch.stop⟩, children⟩
    modify fun e => { e with built := e.built.insert stretch b }
    pure (some b)

/-- Branches nest as rules do, so they share the bound on nesting. -/
def branchWithin (s : Session) : Nat → BranchBuilder
  | 0, rule, start, stop => reuse ⟨rule, start, stop⟩ (throw (.depthLimit rule start))
  | depth + 1, rule, start, stop =>
    reuse ⟨rule, start, stop⟩
      (s.branchFresh (fun r p q => branchWithin s depth r p q) ⟨rule, start, stop⟩)

/-- The branch of a rule between two positions, if the rule matches there. -/
def branch (s : Session) (rule : RuleId) (start stop : Position) : Extract (Option Branch) := do
  s.branchWithin (s.maxDepth - (← get).active.size) rule start stop

end Session
end Multipath
