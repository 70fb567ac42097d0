import Multipath.Tree.Extraction

/-!
Evaluation, derivation and extraction with no bound on their loops. A repetition goes on for as
long as it finds new paths, an exploration for as long as positions are pending, and rules nest as
deep as they may: up to a limit, or without one. Nothing here says that any of it comes to an end,
so these are computations that may go on forever. That none of them does is what is to be shown.
-/

namespace Multipath

/-- Computations on a state that may go on forever. -/
abbrev Endless (σ : Type) := StateT σ Option

namespace Endless

/-- A computation that comes to an end by its form. -/
def ofTotal {σ α : Type} (x : ExceptT Failure (StateM σ) α) : Endless σ (Except Failure α) :=
  fun st => some (x.run.run st)

/-- A search inside an extraction. -/
def ofSearch {α : Type} (x : Endless Run α) : Endless Extraction α := fun e => do
  let (result, run) ← x e.run
  pure (result, { e with run })

/-- The result of a search inside an extraction, unless it ran into the nesting limit. -/
def attempt {α : Type} (x : Endless Run (Except Failure α)) :
    ExceptT Failure (Endless Extraction) (Except Failure α) := ExceptT.mk do
  match ← ofSearch x with
  | .ok a => pure (.ok (.ok a))
  | .error failure =>
    if failure.isAbsorbable then pure (.ok (.error failure)) else pure (.error failure)

end Endless

/-- How deep rules may nest, if there is a limit to it. -/
abbrev Limit := Option Nat

namespace Limit

/-- No further rule may nest inside that many. -/
def isFull (limit : Limit) (depth : Nat) : Bool := limit.any (· ≤ depth)

mutual

def evaluate (s : Session) (limit : Limit) (rule : Rule) (input : PathSet) :
    Endless Run (Except Failure PathSet) :=
  match rule with
  | .terminal tag => .ofTotal (s.terminal tag input)
  | .nonterminal rule => limit |>.references s rule input input.toList ∅ none
  | .sequence items => limit |>.sequence s items input
  | .optional body => do
    match ← limit |>.evaluate s body input with
    | .ok output => pure (.ok (input ∪ output))
    | .error failure => pure (if failure.isAbsorbable then .ok input else .error failure)
  | .repetition body => limit |>.repetition s body input input
  | .alternation choices => limit |>.alternation s input choices ∅ none
  | .switch feature body =>
    if s.grammar.isEnabled feature then limit |>.evaluate s body input else pure (.ok input)
partial_fixpoint

def sequence (s : Session) (limit : Limit) (items : List Rule) (paths : PathSet) :
    Endless Run (Except Failure PathSet) :=
  match items with
  | [] => pure (.ok paths)
  | item :: items => do
    match ← limit |>.evaluate s item paths with
    | .ok paths => limit |>.sequence s items paths
    | .error failure => pure (.error failure)
partial_fixpoint

/-- Derives a rule at one position after the other. -/
def references (s : Session) (limit : Limit) (rule : RuleId) (input : PathSet)
    (ps : List Position) (output : PathSet) (cause : Option Failure) :
    Endless Run (Except Failure PathSet) :=
  match ps with
  | [] => .ofTotal (Session.unite input [] output cause)
  | p :: ps => do
    match ← limit |>.derive s rule p with
    | .ok node => limit |>.references s rule input ps (output ∪ (← get).arena.output node) cause
    | .error failure =>
      if failure.isAbsorbable then limit |>.references s rule input ps output (some failure)
      else pure (.error failure)
partial_fixpoint

def alternation (s : Session) (limit : Limit) (input : PathSet) (choices : List Rule)
    (output : PathSet) (cause : Option Failure) : Endless Run (Except Failure PathSet) :=
  match choices with
  | [] => .ofTotal (Session.unite input [] output cause)
  | choice :: choices => do
    match ← limit |>.evaluate s choice input with
    | .ok paths => limit |>.alternation s input choices (output ∪ paths) cause
    | .error failure =>
      if failure.isAbsorbable then limit |>.alternation s input choices output (some failure)
      else pure (.error failure)
partial_fixpoint

/-- Goes on from the paths that are new until there are none. -/
def repetition (s : Session) (limit : Limit) (body : Rule) (frontier result : PathSet) :
    Endless Run (Except Failure PathSet) := do
  match ← limit |>.evaluate s body frontier with
  | .ok output =>
    let fresh := output \ result
    if fresh.isEmpty then pure (.ok result)
    else limit |>.repetition s body fresh (result ∪ fresh)
  | .error failure => pure (if failure.isAbsorbable then .ok result else .error failure)
partial_fixpoint

def derive (s : Session) (limit : Limit) (rule : RuleId) (p : Position) :
    Endless Run (Except Failure NodeId) := do
  match (← get).memo.find? p rule with
  | some (.succeeded node) =>
    modify (·.countMemoHit)
    pure (.ok node)
  | some (.failed failure) =>
    modify (·.countMemoHit)
    pure (.error failure)
  | some .inProgress =>
    modify (·.countLeftRecursion)
    pure (.error (.noPath (some rule) p))
  | none =>
    if limit.isFull (← get).frames.length then pure (.error (.depthLimit rule p))
    else
      match s.grammar.rule? rule with
      | none => pure (.error (.noPath (some rule) p))
      | some definition =>
        modify (·.enter rule p)
        match ← limit |>.evaluate s definition.body {p} with
        | .ok output =>
          let node ← modifyGet (·.succeed rule p output)
          pure (.ok node)
        | .error failure =>
          modify (·.fail rule p failure)
          pure (.error failure)
partial_fixpoint

end

open Endless (attempt)
open Fragment (Steps)

def reach (s : Session) (limit : Limit) (rule : Rule) (paths : PathSet) (stop : Position) :
    ExceptT Failure (Endless Extraction) PathSet := do
  match ← attempt (limit |>.evaluate s rule paths) with
  | .ok stops => pure (stops.filter (· ≤ stop))
  | .error _ => pure ∅

/-- The paths in front of each item, unless the items cannot be passed. -/
def layers (s : Session) (limit : Limit) (stop : Position) (items : List Rule)
    (paths : PathSet) : ExceptT Failure (Endless Extraction) (Option (List PathSet)) :=
  match items with
  | [] => pure (some [])
  | item :: items => do
    let next ← limit |>.reach s item paths stop
    if next.isEmpty then pure none
    else do
      let rest ← limit |>.layers s stop items next
      pure (rest.map (paths :: ·))
partial_fixpoint

def keepViable (s : Session) (limit : Limit) (item : Rule) (stop : Position)
    (after layer : PathSet) : ExceptT Failure (Endless Extraction) PathSet :=
  layer.toList.foldlM (fun keep p => do
    let stops ← limit |>.reach s item {p} stop
    pure (if stops.toList.any (· ∈ after) then keep.insert p else keep)) ∅

/-- The paths in front from which `stop` is still in reach, and those behind each item. -/
def prune (s : Session) (limit : Limit) (stop : Position) (items : List Rule)
    (layers : List PathSet) : ExceptT Failure (Endless Extraction) (PathSet × List PathSet) :=
  match items, layers with
  | item :: items, layer :: layers => do
    let (after, afters) ← limit |>.prune s stop items layers
    pure (← limit |>.keepViable s item stop after layer, after :: afters)
  | _, _ => pure ({stop}, [])
partial_fixpoint

/-- Explores for as long as positions are pending. -/
def explore (s : Session) (limit : Limit) (body : Rule) (stop : Position)
    (pending : List Position) (steps : Steps) : ExceptT Failure (Endless Extraction) Steps :=
  match pending.dropWhile steps.contains with
  | [] => pure steps
  | p :: pending => do
    let stops ← limit |>.reach s body {p} stop
    let next := stops.toList.filter (p < ·)
    limit |>.explore s body stop (next.reverse ++ pending) (steps.insert p next)
partial_fixpoint

mutual

def build (s : Session) (limit : Limit) (rule : Rule) (start stop : Position) :
    ExceptT Failure (Endless Extraction) (Option (List Tree)) :=
  if stop < start then pure none
  else
    match rule with
    | .terminal tag => Endless.ofTotal (s.buildTerminal tag start stop)
    | .nonterminal rule => do
      match ← attempt (limit |>.derive s rule start) with
      | .error _ => pure none
      | .ok node =>
        if stop ∈ (← get).run.arena.output node then do
          let found ← (limit |>.branch s rule start stop :
            ExceptT Failure (Endless Extraction) (Option Branch))
          pure (found.map fun b => [b.tree])
        else pure none
    | .sequence items => do
      match ← limit |>.layers s stop items {start} with
      | none => pure none
      | some before =>
        let (viable, afters) ← limit |>.prune s stop items before
        if start ∈ viable then limit |>.choose s stop items afters start else pure none
    | .optional body => do
      match ← limit |>.build s body start stop with
      | some nodes => pure (some nodes)
      | none => pure (Session.nothing start stop)
    | .repetition body =>
      if start = stop then pure (some [])
      else do
        let steps ← limit |>.explore s body stop [start] ∅
        let viable := Fragment.viable stop steps
        if start ∈ viable then limit |>.iterate s body stop steps viable start else pure none
    | .alternation choices => limit |>.buildFirst s choices start stop
    | .switch feature body =>
      if s.grammar.isEnabled feature then limit |>.build s body start stop
      else pure (Session.nothing start stop)
partial_fixpoint

def buildFirst (s : Session) (limit : Limit) (choices : List Rule) (start stop : Position) :
    ExceptT Failure (Endless Extraction) (Option (List Tree)) :=
  match choices with
  | [] => pure none
  | choice :: choices => do
    match ← limit |>.build s choice start stop with
    | some nodes => pure (some nodes)
    | none => limit |>.buildFirst s choices start stop
partial_fixpoint

def firstBuilt (s : Session) (limit : Limit) (rule : Rule) (p : Position)
    (stops : List Position) :
    ExceptT Failure (Endless Extraction) (Option (Position × List Tree)) :=
  match stops with
  | [] => pure none
  | stop :: stops => do
    match ← limit |>.build s rule p stop with
    | some nodes => pure (some (stop, nodes))
    | none => limit |>.firstBuilt s rule p stops
partial_fixpoint

def choose (s : Session) (limit : Limit) (stop : Position) (items : List Rule)
    (afters : List PathSet) (p : Position) :
    ExceptT Failure (Endless Extraction) (Option (List Tree)) :=
  match items, afters with
  | item :: items, after :: afters => do
    let stops ← limit |>.reach s item {p} stop
    match ← limit |>.firstBuilt s item p (stops.toList.reverse.filter (· ∈ after)) with
    | none => pure none
    | some (q, nodes) => do
      let found ← limit |>.choose s stop items afters q
      pure (found.map (nodes ++ ·))
  | _, _ => pure (some [])
partial_fixpoint

/-- Iterates for as long as the stop is not reached. -/
def iterate (s : Session) (limit : Limit) (body : Rule) (stop : Position) (steps : Steps)
    (viable : Std.TreeSet Position) (p : Position) :
    ExceptT Failure (Endless Extraction) (Option (List Tree)) :=
  if p = stop then pure (some [])
  else do
    match ← limit |>.firstBuilt s body p ((steps.getD p []).reverse.filter viable.contains) with
    | none => pure none
    | some (q, nodes) => do
      let found ← limit |>.iterate s body stop steps viable q
      pure (found.map (nodes ++ ·))
partial_fixpoint

def branch (s : Session) (limit : Limit) (rule : RuleId) (start stop : Position) :
    Endless Extraction (Except Failure (Option Branch)) := do
  let stretch : Stretch := ⟨rule, start, stop⟩
  let e ← get
  match e.built[stretch]? with
  | some b => pure (.ok (some b))
  | none =>
    if e.active.contains stretch then pure (.ok none)
    else if limit.isFull e.active.size then pure (.error (.depthLimit rule start))
    else
      modify fun e => { e with active := e.active.insert stretch }
      let derived ← (match s.grammar.rule? rule with
        | some definition => (limit |>.build s definition.body start stop).run
        | none => pure (.ok none))
      modify fun e => { e with active := e.active.erase stretch }
      match derived with
      | .error failure => pure (.error failure)
      | .ok none => pure (.ok none)
      | .ok (some children) =>
        let b : Branch := ⟨s.grammar.name rule, ⟨start, stop⟩, children⟩
        modify fun e => { e with built := e.built.insert stretch b }
        pure (.ok (some b))
partial_fixpoint

end
end Limit
end Multipath
