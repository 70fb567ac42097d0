import Multipath.DefinitionError
import Multipath.Grammar.Basic
import Multipath.Rule.Normal

/-!
Putting a grammar together. Names are declared and given bodies in any order; `build` checks that
every declared name has one body, that all references lead somewhere, also under switches that
stay off, and normalises the bodies for the features enabled by then.
-/

namespace Multipath.Grammar

structure Builder where
  lexicon : Lexicon
  entries : List (String × Option Rule) := []
  starts : List Start := []
  features : Features := ∅
  faults : List DefinitionError := []

namespace Builder

def fault (e : DefinitionError) : StateM Builder Unit :=
  modify fun b => { b with faults := b.faults ++ [e] }

/-- The id of `name`, which is new if the name is. -/
def declare (name : String) : StateM Builder RuleId :=
  modifyGet fun b =>
    match b.entries.findIdx? (·.1 == name) with
    | some id => (id, b)
    | none => (b.entries.length, { b with entries := b.entries ++ [(name, none)] })

def define (id : RuleId) (body : Rule) : StateM Builder Unit := do
  match (← get).entries[id]? with
  | some (name, none) =>
    modify fun b => { b with entries := b.entries.set id (name, some body) }
  | some (name, some _) => fault (.duplicateRule name)
  | none => fault (.unknownRule id)

def rule (name : String) (body : Rule) : StateM Builder RuleId := do
  let id ← declare name
  define id body
  pure id

def start (rule : RuleId) (gate : Gate) : StateM Builder Unit :=
  modify fun b => { b with starts := b.starts ++ [⟨rule, gate⟩] }

def enable (feature : String) : StateM Builder Unit :=
  modify fun b => { b with features := b.features.insert feature }

def enableAll (features : List String) : StateM Builder Unit :=
  modify fun b => { b with features := b.features.insertMany features }

/-- The rule for one token with the tag of that name. -/
def terminal (b : Builder) (name : String) : Except DefinitionError Rule :=
  match b.lexicon.find? name with
  | some tag => .ok (.terminal tag)
  | none => .error (.undefinedTag name)

/-- The first reference in a body that leads to none of `rules` rules and `tags` tags. -/
def foreignReference? (rules tags : Nat) (body : Rule) : Option DefinitionError :=
  body.parts.findSome? fun
    | .nonterminal id => if rules ≤ id then some (.unknownRule id) else none
    | .terminal tag => if tags ≤ tag then some (.unknownTag tag) else none
    | _ => none

def definition (b : Builder) (entry : String × Option Rule) : Except DefinitionError Definition :=
  match entry with
  | (name, none) => .error (.undefinedRule name)
  | (name, some body) =>
    match foreignReference? b.entries.length b.lexicon.tags.length body with
    | some e => .error e
    | none => .ok ⟨name, body.normalize b.features⟩

def foreignStart? (b : Builder) : Option RuleId :=
  (b.starts.map (·.rule)).find? (b.entries.length ≤ ·)

def build (b : Builder) : Except DefinitionError Grammar :=
  match b.faults, b.starts, b.foreignStart? with
  | e :: _, _, _ => .error e
  | [], [], _ => .error .noStartRules
  | [], _ :: _, some id => .error (.unknownRule id)
  | [], starts@(_ :: _), none => do
    let rules ← b.entries.mapM b.definition
    pure { lexicon := b.lexicon, rules, starts, features := b.features }

end Builder

def assemble (lexicon : Lexicon) (steps : StateM Builder Unit) : Except DefinitionError Grammar :=
  (steps.run { lexicon }).2.build

end Multipath.Grammar
