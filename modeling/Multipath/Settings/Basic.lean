import Multipath.Gate
import Multipath.Parse
import Multipath.Settings.Toml.Reader

/-!
Settings. Layers of values are laid over the defaults: files in their order, then single values in
theirs. Keys that mean nothing are ignored, and a value of the wrong shape is an error.
-/

namespace Multipath

inductive SettingsError where
  | missingFile
  | malformed
  | badKey (key : String)
  | badValue (key : String)
deriving DecidableEq

def SettingsError.message : SettingsError → String
  | missingFile => "file not found"
  | malformed => "not a TOML document"
  | badKey key => "'" ++ key ++ "' is no key"
  | badValue key => "'" ++ key ++ "' is missing or has a wrong value"

inductive OutputFormat where
  | treeviz
  | json
deriving DecidableEq

namespace OutputFormat

def name : OutputFormat → String
  | treeviz => "treeviz"
  | json => "json"

def ofName? (name : String) : Option OutputFormat :=
  if name = "treeviz" then some treeviz else if name = "json" then some json else none

end OutputFormat

structure Settings where
  parser : ParseOptions := {}
  features : List String := []
  conditions : List String := ["syntactic"]
  format : OutputFormat := .treeviz
  spans : Bool := false

namespace Settings

def defaults : Settings := {}

def toValue (s : Settings) : Value :=
  .table
    [("parser", .table
      [("max_depth", .integer s.parser.maxDepth),
       ("trailing_ignorable", .boolean s.parser.trailingIgnorable)]),
     ("grammar", .table
      [("features", .list (s.features.map .text)), ("conditions", .list (s.conditions.map .text))]),
     ("output", .table [("format", .text s.format.name), ("spans", .boolean s.spans)])]

/-- A field of a group of settings, as `read?` takes it. -/
private def field (v : Value) (group : String) (place : Nat) (key : String)
    (read? : Value → Option α) : Except SettingsError α :=
  match (v.get? group).bind (·.field? place key) |>.bind read? with
  | some a => .ok a
  | none => .error (.badValue (group ++ "." ++ key))

/-- A list of names in the group `grammar`, which may be left out. -/
private def namesField (v : Value) (place : Nat) (key : String) :
    Except SettingsError (List String) :=
  match v.get? "grammar" with
  | some g@(.table _) | some g@(.list _) =>
    if (g.field? place key).isSome then field v "grammar" place key Value.texts? else .ok []
  | _ => .error (.badValue "grammar")

def ofValue (v : Value) : Except SettingsError Settings := do
  return {
    parser :=
      { maxDepth := ← field v "parser" 0 "max_depth" Value.natural?
        trailingIgnorable := ← field v "parser" 1 "trailing_ignorable" Value.boolean? }
    features := ← namesField v 0 "features"
    conditions := ← namesField v 1 "conditions"
    format := ← field v "output" 0 "format" fun v =>
      v.name?.bind fun name => OutputFormat.ofName? name.toLower
    spans := ← field v "output" 1 "spans" Value.boolean? }

def featureSet (s : Settings) : Features := .ofList s.features

def conditionSet (s : Settings) : Conditions := .ofList s.conditions

/-- A layer: the text of a file, if it is there, or a single value. -/
inductive Layer where
  | file (content : Option String) (required : Bool)
  | single (key : String) (value : Value)

/-- Lays a single value over values, at a path whose text is `key`. -/
def laySingle (v : Value) (path : Path) (key : String) (new : Value) :
    Except SettingsError Value :=
  match v.set? path new with
  | some v => .ok v
  | none => .error (.badKey key)

/-- Lays a file over values. Its top-level keys may be paths. -/
def layFile (v : Value) (content : String) : Except SettingsError Value :=
  match Toml.read? content with
  | none => .error .malformed
  | some pairs => pairs.foldlM (fun v (key, new) =>
      laySingle v ((Path.ofText? key).getD [.key key]) key new) v

def layFiles (v : Value) : List Layer → Except SettingsError Value
  | [] => .ok v
  | .file (some content) _ :: layers => do layFiles (← layFile v content) layers
  | .file none required :: layers =>
    if required then .error .missingFile else layFiles v layers
  | .single .. :: layers => layFiles v layers

def laySingles (v : Value) : List Layer → Except SettingsError Value
  | [] => .ok v
  | .single key new :: layers =>
    match Path.ofText? key with
    | some path => do laySingles (← laySingle v path key new) layers
    | none => .error (.badKey key)
  | .file .. :: layers => laySingles v layers

def load (layers : List Layer) : Except SettingsError Settings := do
  ofValue (← laySingles (← layFiles defaults.toValue layers) layers)

end Settings
end Multipath
