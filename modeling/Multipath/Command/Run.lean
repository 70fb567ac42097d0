import Multipath.Aether.Grammar
import Multipath.Command.Basic
import Multipath.Error

/-!
Carrying out commands. Access to files is passed in, so that a run is a function of the arguments
and of what the files answer.
-/

namespace Multipath

/-- What a run leaves behind: an exit code and the texts of both output streams. -/
structure Outcome where
  code : Nat
  out : String := ""
  err : String := ""
deriving DecidableEq

/-- The options of a request over settings. -/
def ParseRequest.settle (request : ParseRequest) (s : Settings) : Except FormatError Settings := do
  let format ← match request.format with
    | none => pure s.format
    | some name =>
      match OutputFormat.ofName? name with
      | some format => pure format
      | none => throw (.notFound name)
  return { s with
    format
    conditions := if request.conditions.isEmpty then s.conditions else request.conditions
    features := s.features ++ request.features
    spans := s.spans || request.spans }

namespace Command

def versionText : String := "transmuter 0.1.0\n"

def usageText : String :=
  "Usage: [--log-level FILTER] COMMAND\n\n" ++
  "  parse PATH [-f|--format NAME] [--condition NAME]... [--feature NAME]...\n" ++
  "        [-c|--config FILE] [--spans]\n" ++
  "  tokens PATH [--condition NAME]...\n" ++
  "  grammar [--feature NAME]...\n"

/-- The text without blanks at its end. -/
def trimEnd (s : String) : String :=
  String.ofList (s.toList.reverse.dropWhile Char.isWhitespace).reverse

def aetherGrammar (features : Features) : Except Error Grammar :=
  (Aether.grammar features).mapError .definition

/-- Draws the tree of a text in the format of the settings. -/
def drawTree (s : Settings) (path text : String) : Except Error String := do
  let grammar ← aetherGrammar s.featureSet
  let parse ← (grammar.parse s.parser s.conditionSet text path).mapError (.parse path)
  let params : Format.Params :=
    Table.empty.insert "show-spans" (if s.spans then "true" else "false")
  let output ← (Format.Registry.withDefaults.serialize parse.tree s.format.name params).mapError
    .format
  return trimEnd output ++ "\n"

/-- One line for each token: its span, its tags and its quoted text. -/
def listTokens (conditions : Conditions) (path text : String) : Except Error String := do
  let lexicon ← Aether.lexicon.mapError .definition
  let source := Source.ofText lexicon conditions text path
  let tokens ← (Lexer.tokens source {}).1.mapError (.lexical path)
  let row (t : Token) : String :=
    t.span.text ++ " " ++ "|".intercalate (lexicon.names t.tags) ++ " " ++ Text.quote t.text
  return String.join (tokens.map fun t => row t ++ "\n")

section Files
variable {m : Type → Type} [Monad m] (files : Files m)

def readText (path : String) : m (Except FileError String) := do
  return (← files.read path).bind fun bytes =>
    match String.fromUTF8? bytes with
    | some text => .ok text
    | none => .error .undecodable

/-- The path with `.toml` behind its last name. -/
def withSuffix? (path : String) : Option String :=
  match (path.splitOn "/").reverse.dropWhile fun name => name = "" || name = "." with
  | [] | ".." :: _ => none
  | names => some ("/".intercalate names.reverse ++ ".toml")

/-- A file of settings is looked for under its path, then with `.toml` behind the last name. -/
def readSettings (path : String) : m (Except SettingsError Settings) := do
  let path ← if ← files.isFile path then pure path else pure ((withSuffix? path).getD path)
  if ← files.isFile path then
    return match ← readText files path with
      | .ok text => Settings.load [.file (some text) true]
      | .error _ => .error .malformed
  else return .error .missingFile

/-- The file of settings is read first, then the options are looked at, then the text is read. -/
def runParse (request : ParseRequest) : m (Except Error String) := do
  let settings ← match request.settings with
    | some path => readSettings files path
    | none => pure (.ok Settings.defaults)
  match settings.mapError Error.settings |>.bind fun s =>
      (request.settle s).mapError Error.format with
  | .error e => return .error e
  | .ok settings =>
    let text ← readText files request.path
    return (text.mapError Error.file).bind (drawTree settings request.path)

def runTokens (path : String) (conditions : List String) : m (Except Error String) := do
  let conditions := if conditions.isEmpty then Settings.defaults.conditions else conditions
  let text ← readText files path
  return (text.mapError Error.file).bind (listTokens (.ofList conditions) path)

def run : Command → m (Except Error String)
  | .parse request => runParse files request
  | .tokens path conditions => runTokens files path conditions
  | .grammar features => return (aetherGrammar (.ofList features)).map Grammar.describe
  | .version => return .ok versionText
  | .help => return .ok usageText

/-- Runs a command line. A misused one ends with code 2 and any other error with code 1. -/
def runArguments (args : List String) : m Outcome := do
  match ofArguments args with
  | none => return { code := 2, err := usageText }
  | some command =>
    return match ← run files command with
      | .ok out => { code := 0, out }
      | .error e => { code := 1, err := e.message ++ "\n" }

end Files
end Command
end Multipath
