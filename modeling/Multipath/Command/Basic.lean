import Multipath.Command.Arguments

/-!
Commands: drawing the tree of a file, listing its tokens, and printing the grammar.
-/

namespace Multipath

structure ParseRequest where
  path : String
  format : Option String := none
  conditions : List String := []
  features : List String := []
  /-- A file of settings. -/
  settings : Option String := none
  spans : Bool := false

inductive Command where
  | parse (request : ParseRequest)
  | tokens (path : String) (conditions : List String)
  | grammar (features : List String)
  | version
  | help

namespace Command

private def logLevel : OptionRule := { name := "log-level", arity := .once }
private def helpRequest : OptionRule := { name := "help", letter := some 'h', arity := .request }
private def condition : OptionRule := { name := "condition", arity := .repeatable }
private def feature : OptionRule := { name := "feature", arity := .repeatable }

def topRules : List OptionRule :=
  [logLevel, helpRequest, { name := "version", letter := some 'V', arity := .request }]

def parseRules : List OptionRule :=
  [logLevel, helpRequest, condition, feature,
    { name := "format", letter := some 'f', arity := .once },
    { name := "config", letter := some 'c', arity := .once },
    { name := "spans", arity := .switch }]

def tokensRules : List OptionRule := [logLevel, helpRequest, condition]

def grammarRules : List OptionRule := [logLevel, helpRequest, feature]

def names : List String := ["parse", "tokens", "grammar", "help"]

/-- The command that is meant by its name and arguments. Help is for one command or for all. -/
def ofName (name : String) (args : List String) : Except Interruption Command :=
  match name with
  | "parse" => do
    let a ← Arguments.scan parseRules false args {}
    let [path] := a.operands | throw .misuse
    let request : ParseRequest :=
      { path
        format := (a.values "format").head?
        conditions := a.values "condition"
        features := a.values "feature"
        settings := (a.values "config").head?
        spans := a.has "spans" }
    return .parse request
  | "tokens" => do
    let a ← Arguments.scan tokensRules false args {}
    let [path] := a.operands | throw .misuse
    return .tokens path (a.values "condition")
  | "grammar" => do
    let a ← Arguments.scan grammarRules false args {}
    if a.operands.isEmpty then return .grammar (a.values "feature") else throw .misuse
  | "help" => throw (if args.length ≤ 1 && args.all (· ∈ names) then .requested "help" else .misuse)
  | _ => throw .misuse

/-- The command that a command line gives, if it is well-formed. -/
def ofArguments (args : List String) : Option Command :=
  let command : Except Interruption Command := do
    let name :: args := (← Arguments.scan topRules true args {}).operands | throw .misuse
    ofName name args
  match command with
  | .ok command => some command
  | .error (.requested "version") => some .version
  | .error (.requested _) => some .help
  | .error .misuse => none

end Command
end Multipath
