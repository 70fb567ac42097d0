/-!
Arguments of a command line, scanned by rules for the options: a value stands behind its option
or is attached to it, an option is given once unless it is repeatable, and what follows `--` are
operands.
-/

namespace Multipath.Command

inductive Arity where
  | once
  | repeatable
  /-- An option without a value. -/
  | switch
  /-- An option that is answered at once, whatever follows. -/
  | request
deriving DecidableEq

structure OptionRule where
  name : String
  letter : Option Char := none
  arity : Arity

inductive Interruption where
  | misuse
  | requested (name : String)

structure Arguments where
  /-- The options with their values, in order. -/
  options : List (String × String) := []
  operands : List String := []

namespace Arguments

def values (a : Arguments) (name : String) : List String :=
  a.options.filterMap fun (n, value) => if n = name then some value else none

def has (a : Arguments) (name : String) : Bool := !(a.values name).isEmpty

def addOption (a : Arguments) (rule : OptionRule) (value : String) :
    Except Interruption Arguments :=
  if rule.arity ≠ .repeatable && a.has rule.name then .error .misuse
  else .ok { a with options := a.options ++ [(rule.name, value)] }

/-- How one argument names an option, with the value attached to it. -/
inductive Spelling where
  | operand
  | long (name : String) (attached : Option String)
  | short (letter : Char) (attached : Option String)

def spelling (arg : String) : Spelling :=
  match arg.toList with
  | '-' :: '-' :: cs =>
    let attached := match cs.dropWhile (· ≠ '=') with
      | [] => none
      | _ :: value => some (String.ofList value)
    .long (String.ofList (cs.takeWhile (· ≠ '='))) attached
  | '-' :: c :: cs =>
    let attached := match cs with
      | [] => none
      | '=' :: value => some (String.ofList value)
      | value => some (String.ofList value)
    .short c attached
  | _ => .operand

def Spelling.isOperand : Spelling → Bool
  | .operand => true
  | _ => false

/-- The rule for a spelling and the attached value. A request by letter needs no value. -/
def Spelling.rule? (rules : List OptionRule) : Spelling → Option (OptionRule × Option String)
  | .operand => none
  | .long name attached => (rules.find? (·.name = name)).map (·, attached)
  | .short letter attached => (rules.find? (·.letter = some letter)).map fun rule =>
      (rule, if rule.arity = .request then none else attached)

/-- Scans arguments behind those in `a`. With `stop`, the first operand ends the scan and is
handed on with all that follows. -/
def scan (rules : List OptionRule) (stop : Bool) :
    List String → Arguments → Except Interruption Arguments
  | [], a => .ok a
  | arg :: rest, a =>
    if arg = "--" then
      if stop then .error .misuse else .ok { a with operands := a.operands ++ rest }
    else if (spelling arg).isOperand then
      if stop then .ok { a with operands := arg :: rest }
      else scan rules stop rest { a with operands := a.operands ++ [arg] }
    else match (spelling arg).rule? rules with
      | none => .error .misuse
      | some (rule, attached) =>
        match rule.arity, attached with
        | .request, none => .error (.requested rule.name)
        | .switch, none => do scan rules stop rest (← a.addOption rule "")
        | .request, some _ | .switch, some _ => .error .misuse
        | _, some value => do scan rules stop rest (← a.addOption rule value)
        | _, none =>
          match rest with
          | [] => .error .misuse
          | value :: rest =>
            if (spelling value).isOperand then do scan rules stop rest (← a.addOption rule value)
            else .error .misuse

end Arguments
end Multipath.Command
