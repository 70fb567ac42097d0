import Multipath.DefinitionError
import Multipath.Lexicon.Basic

/-!
Putting a lexicon together. A builder hands out tags and states in order and knows the usual
shapes: a fixed text, a keyword that takes its own spelling away from wider tags, and a word with
a first class and a class for the rest. Faults are kept until `build`, which reports the first.
-/

namespace Multipath.Lexicon

open Automaton (StateId Transition accept)

structure Builder where
  tags : List Tag := []
  transitions : List Transition := []
  nextState : StateId := accept + 1
  faults : List DefinitionError := []

namespace Builder

def fault (e : DefinitionError) : StateM Builder Unit :=
  modify fun b => { b with faults := b.faults ++ [e] }

/-- Declares a tag that nothing opens yet. -/
def addTag (name : String) : StateM Builder TagId :=
  modifyGet fun b => (b.tags.length, { b with tags := b.tags ++ [{ name }] })

def freshState : StateM Builder StateId :=
  modifyGet fun b => (b.nextState, { b with nextState := b.nextState + 1 })

def modifyTag (id : TagId) (change : Tag → Tag) : StateM Builder Unit :=
  modify fun b => { b with tags := b.tags.modify id change }

def ignore (id : TagId) : StateM Builder Unit := do
  match (← get).tags[id]? with
  | some _ => modifyTag id fun tag => { tag with ignored := true }
  | none => fault (.unknownTag id)

/-- Opens `states` for a tag whenever the gate holds; the accept marker cannot be a start. -/
def openStates (id : TagId) (gate : Gate) (states : List StateId) : StateM Builder Unit := do
  match (← get).tags[id]? with
  | some tag =>
    if accept ∈ states then fault (.acceptAsStart tag.name)
    else modifyTag id fun tag => { tag with openings := tag.openings ++ [⟨gate, states⟩] }
  | none => fault (.unknownTag id)

def addTransition (t : Transition) : StateM Builder Unit :=
  modify fun b => { b with transitions := b.transitions ++ [t] }

/-- From state `s`, one state per character and an accepting transition on the last one. -/
def chain (id : TagId) (overrides : List TagId) : StateId → List Char → StateM Builder Unit
  | _, [] => pure ()
  | s, [c] => addTransition
      { source := s, label := .char c, targets := [accept], asserts := [id], retracts := overrides }
  | s, c :: c' :: cs => do
    let next ← freshState
    addTransition { source := s, label := .char c, targets := [next] }
    chain id overrides next (c' :: cs)

/-- A tag for exactly `text`, which retracts `overrides` at its last character. -/
def keyword (name text : String) (gate : Gate) (overrides : List TagId) : StateM Builder TagId := do
  let id ← addTag name
  match text.toList with
  | [] => pure id
  | cs =>
    let head ← freshState
    openStates id gate [head]
    chain id overrides head cs
    pure id

def literal (name text : String) (gate : Gate) : StateM Builder TagId := keyword name text gate []

/-- A tag for one character of class `first` and any number of class `rest`. -/
def word (name : String) (first rest : CharClass) (gate : Gate) : StateM Builder TagId := do
  let id ← addTag name
  let head ← freshState
  let tail ← freshState
  openStates id gate [head]
  addTransition { source := head, label := first, targets := [tail, accept], asserts := [id] }
  addTransition { source := tail, label := rest, targets := [tail, accept], asserts := [id] }
  pure id

def repeated? : List String → List String → Option String
  | _, [] => none
  | seen, name :: names => if name ∈ seen then some name else repeated? (name :: seen) names

def foreignTag? (b : Builder) : Option TagId :=
  (b.transitions.flatMap fun t => t.asserts ++ t.retracts).find? (b.tags.length ≤ ·)

def build (b : Builder) : Except DefinitionError Lexicon :=
  match b.faults, repeated? [] (b.tags.map (·.name)), b.foreignTag? with
  | e :: _, _, _ => .error e
  | [], some name, _ => .error (.duplicateTag name)
  | [], none, some id => .error (.unknownTag id)
  | [], none, none => .ok { tags := b.tags, automaton := ⟨b.transitions⟩ }

end Builder

def assemble (steps : StateM Builder Unit) : Except DefinitionError Lexicon :=
  (steps.run {}).2.build

end Multipath.Lexicon
