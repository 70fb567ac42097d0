import Multipath.SortedSet
import Multipath.Table
import Multipath.Tree.Json
import Multipath.Tree.Treeviz

/-!
Output formats by name. A registry holds one format for each name; the newest one counts.
-/

namespace Multipath

inductive FormatError where
  | notFound (name : String)
  | serialization (reason : String)
deriving DecidableEq

def FormatError.message : FormatError → String
  | notFound name => "Format '" ++ name ++ "' not found"
  | serialization reason => "Serialization error: " ++ reason

namespace Format

abbrev Params := Table String String

/-- Spans are shown where the parameter `show-spans` is given and not `false`. -/
def Params.showSpans (params : Params) : Bool := (params.get? "show-spans").any (· ≠ "false")

end Format

structure Format where
  name : String
  description : String := ""
  render : Branch → Format.Params → Except FormatError String

namespace Format

def treeviz : Format where
  name := "treeviz"
  description := "Indented tree with one node per line"
  render tree params := .ok (tree.treeviz params.showSpans)

def json : Format where
  name := "json"
  description := "Pretty-printed JSON tree"
  render tree params := .ok ((tree.json params.showSpans).pretty "")

structure Registry where
  formats : Table String Format := .empty

namespace Registry

def register (r : Registry) (f : Format) : Registry := ⟨r.formats.insert f.name f⟩

def withDefaults : Registry := Registry.register (Registry.register {} treeviz) json

def get? (r : Registry) (name : String) : Option Format := r.formats.get? name

def has (r : Registry) (name : String) : Bool := r.formats.contains name

def names (r : Registry) : SortedSet String := .ofList (r.formats.entries.map (·.1))

def serialize (r : Registry) (tree : Branch) (name : String) (params : Params) :
    Except FormatError String :=
  match r.get? name with
  | some f => f.render tree params
  | none => .error (.notFound name)

end Registry
end Format
end Multipath
