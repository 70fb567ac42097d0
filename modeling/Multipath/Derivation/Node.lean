import Multipath.PathSet
import Multipath.Rule.Basic

/-!
Rule instances. An arena keeps one node for each instance that was derived, known by its place.
A node lists the instances first derived below it; those point back at it as their parent.
-/

namespace Multipath

abbrev NodeId := Nat

structure Node where
  rule : RuleId
  start : Position
  /-- Every position at which the instance can end. -/
  output : PathSet
  /-- Absent for a root and below a parent that failed. -/
  parent : Option NodeId := none
  children : List NodeId := []
deriving DecidableEq

structure Arena where
  nodes : Array Node := #[]

namespace Arena

def size (a : Arena) : Nat := a.nodes.size

def isEmpty (a : Arena) : Bool := a.nodes.isEmpty

def node? (a : Arena) (id : NodeId) : Option Node := a.nodes[id]?

/-- Points a node at its parent. -/
def adopt (parent : NodeId) (nodes : Array Node) (id : NodeId) : Array Node :=
  nodes.modify id fun n => { n with parent := some parent }

/-- Adds a node and points its children back at it. -/
def alloc (a : Arena) (node : Node) : NodeId × Arena :=
  let parent := a.size
  (parent, ⟨(node.children.foldl (adopt parent) a.nodes).push node⟩)

def setOutput (a : Arena) (id : NodeId) (output : PathSet) : Arena :=
  ⟨a.nodes.modify id fun n => { n with output }⟩

/-- The output of a node, and nothing for an id of no node. -/
def output (a : Arena) (id : NodeId) : PathSet := ((a.node? id).map (·.output)).getD ∅

/-- How many paths the nodes' outputs hold together. -/
def pathCount (a : Arena) : Nat :=
  a.nodes.foldr (fun node count => node.output.size + count) 0

def ancestorsWithin (a : Arena) : Nat → NodeId → List NodeId
  | 0, _ => []
  | n + 1, id =>
    match (a.node? id).bind (·.parent) with
    | some parent => parent :: ancestorsWithin a n parent
    | none => []

/-- The parents from a node up to its root. Links that lead upwards meet no node twice, so the
size of the arena bounds their number. -/
def ancestors (a : Arena) (id : NodeId) : List NodeId := a.ancestorsWithin a.size id

theorem size_adopt (parent : NodeId) (ids : List NodeId) (nodes : Array Node) :
    (ids.foldl (adopt parent) nodes).size = nodes.size := by
  induction ids generalizing nodes with
  | nil => rfl
  | cons id ids ih => simp [ih, adopt]

@[simp] theorem size_alloc (a : Arena) (node : Node) : (a.alloc node).2.size = a.size + 1 := by
  simp [alloc, size, size_adopt]

@[simp] theorem size_setOutput (a : Arena) (id : NodeId) (output : PathSet) :
    (a.setOutput id output).size = a.size := by
  simp [setOutput, size]

end Arena
end Multipath
