import Multipath.Derivation.Node

/-!
The links between the nodes of an arena. A node is adopted by the first instance that is completed
above it, once and for good; until then it waits among the children of a frame. What is said here
of an arena and the nodes that wait (`Arena.Linked`) makes the nodes a forest in which every link
leads to a node completed later.
-/

namespace Multipath
namespace Arena

/-- A node with another parent. -/
def under (parent : Option NodeId) (n : Node) : Node := { n with parent }

theorem getElem?_adopt (parent : NodeId) (ids : List NodeId) (nodes : Array Node) (id : NodeId) :
    (ids.foldl (adopt parent) nodes)[id]? =
      nodes[id]?.map fun n => if id ∈ ids then under (some parent) n else n := by
  induction ids generalizing nodes with
  | nil => simp
  | cons child ids ih =>
      simp only [List.foldl_cons, ih, adopt, Array.getElem?_modify, List.mem_cons]
      by_cases heq : child = id
      · simp [heq, Option.map_map, Function.comp_def, under]
      · simp [heq, Ne.symm heq]

theorem node?_alloc (a : Arena) (node : Node) (id : NodeId) :
    (a.alloc node).2.node? id = if id = a.size then some node else
      (a.node? id).map fun n => if id ∈ node.children then under (some a.size) n else n := by
  have hsize : (node.children.foldl (adopt a.size) a.nodes).size = a.size := size_adopt _ _ _
  simp only [alloc, node?, Array.getElem?_push, hsize, getElem?_adopt]

theorem lt_size_of_node? {a : Arena} {id : NodeId} {n : Node} (h : a.node? id = some n) :
    id < a.size := (Array.getElem?_eq_some_iff.mp h).1

/-- What a node says of itself and the nodes below it never changes, only its parent may. -/
theorem node?_alloc_of_node? {a : Arena} {id : NodeId} {n : Node} (h : a.node? id = some n)
    (node : Node) : ∃ parent, (a.alloc node).2.node? id = some (under parent n) := by
  rw [node?_alloc, if_neg (Nat.ne_of_lt (lt_size_of_node? h)), h]
  by_cases hmem : id ∈ node.children
  · exact ⟨some a.size, by simp [hmem]⟩
  · exact ⟨n.parent, by simp [hmem, under]⟩

/-- A node is the new one, or it was there and may have been adopted. -/
theorem node?_alloc_cases {a : Arena} {node n : Node} {id : NodeId}
    (h : (a.alloc node).2.node? id = some n) : id = a.size ∧ n = node ∨
      ∃ n', a.node? id = some n' ∧ n.children = n'.children ∧
        n.parent = if id ∈ node.children then some a.size else n'.parent := by
  rw [node?_alloc] at h
  split at h
  · next heq =>
      cases h
      exact .inl ⟨heq, rfl⟩
  · obtain ⟨n', hn', rfl⟩ := Option.map_eq_some_iff.mp h
    refine .inr ⟨n', hn', ?_, ?_⟩ <;> split <;> rfl

theorem mem_children_alloc {a : Arena} {node : Node} {parent id : NodeId} :
    (∃ m, (a.alloc node).2.node? parent = some m ∧ id ∈ m.children) ↔
      parent = a.size ∧ id ∈ node.children ∨
        ∃ m, a.node? parent = some m ∧ id ∈ m.children := by
  constructor
  · intro h
    obtain ⟨m, hm, hid⟩ := h
    obtain ⟨heq, rfl⟩ | ⟨m', hm', hchildren, -⟩ := node?_alloc_cases hm
    · exact .inl ⟨heq, hid⟩
    · exact .inr ⟨m', hm', hchildren ▸ hid⟩
  · intro h
    obtain ⟨rfl, hid⟩ | ⟨m, hm, hid⟩ := h
    · exact ⟨node, by rw [node?_alloc, if_pos rfl], hid⟩
    · obtain ⟨p, hp⟩ := node?_alloc_of_node? hm node
      exact ⟨_, hp, hid⟩

/-- Parents and children agree, every link leads to a node completed later, and the nodes in
`waiting` have no parent yet. -/
structure Linked (a : Arena) (waiting : List NodeId) : Prop where
  children_lt : ∀ id n, a.node? id = some n → ∀ child ∈ n.children, child < id
  nodup : ∀ id n, a.node? id = some n → n.children.Nodup
  parent_iff : ∀ id n, a.node? id = some n → ∀ parent, n.parent = some parent ↔
    ∃ m, a.node? parent = some m ∧ id ∈ m.children
  orphan : ∀ id ∈ waiting, ∃ n, a.node? id = some n ∧ n.parent = none
  nodup_waiting : waiting.Nodup

namespace Linked

variable {a : Arena} {waiting waiting' : List NodeId}

theorem empty : Linked {} [] where
  children_lt id n h := by simp [node?] at h
  nodup id n h := by simp [node?] at h
  parent_iff id n h := by simp [node?] at h
  orphan id h := absurd h List.not_mem_nil
  nodup_waiting := List.nodup_nil

theorem sublist (h : a.Linked waiting) (hsub : waiting'.Sublist waiting) : a.Linked waiting' :=
  ⟨h.children_lt, h.nodup, h.parent_iff, fun id hid => h.orphan id (hsub.subset hid),
    h.nodup_waiting.sublist hsub⟩

/-- A node is nobody's child before it is completed. -/
theorem not_child_of_orphan (h : a.Linked waiting) {id : NodeId} (hid : id ∈ waiting)
    {parent : NodeId} {m : Node} (hm : a.node? parent = some m) : id ∉ m.children := by
  intro hchild
  obtain ⟨n, hn, hnone⟩ := h.orphan id hid
  rw [(h.parent_iff id n hn parent).mpr ⟨m, hm, hchild⟩] at hnone
  cases hnone

theorem lt_size_of_waiting (h : a.Linked waiting) {id : NodeId} (hid : id ∈ waiting) :
    id < a.size := by
  obtain ⟨n, hn, -⟩ := h.orphan id hid
  exact lt_size_of_node? hn

/-- Nobody has a node for a child that is not there yet. -/
theorem not_child_of_size (h : a.Linked waiting) {parent : NodeId} {m : Node}
    (hm : a.node? parent = some m) : a.size ∉ m.children := fun hmem =>
  Nat.lt_irrefl _ (Nat.lt_trans (h.children_lt parent m hm _ hmem) (lt_size_of_node? hm))

section Alloc
variable {children rest : List NodeId} (h : a.Linked (children ++ rest)) (rule : RuleId)
  (start : Position) (output : PathSet)
include h

theorem parent_iff_alloc {id : NodeId} {n : Node}
    (hn : (a.alloc { rule, start, output, children := children.reverse }).2.node? id = some n)
    (parent : NodeId) : n.parent = some parent ↔
      ∃ m, (a.alloc { rule, start, output, children := children.reverse }).2.node? parent = some m ∧
        id ∈ m.children := by
  rw [mem_children_alloc, List.mem_reverse]
  obtain ⟨rfl, rfl⟩ | ⟨n', hn', -, hparent⟩ := node?_alloc_cases hn
  · refine ⟨nofun, fun hmem => ?_⟩
    obtain ⟨-, hmem⟩ | ⟨m, hm, hmem⟩ := hmem
    · exact absurd (h.lt_size_of_waiting (List.mem_append_left rest hmem)) (Nat.lt_irrefl _)
    · exact absurd hmem (h.not_child_of_size hm)
  · simp only [hparent, List.mem_reverse]
    by_cases hmem : id ∈ children
    · have hnone : ¬∃ m, a.node? parent = some m ∧ id ∈ m.children :=
        fun ⟨m, hm, hchild⟩ => h.not_child_of_orphan (List.mem_append_left rest hmem) hm hchild
      simp [hmem, hnone, @eq_comm _ a.size]
    · simp [hmem, h.parent_iff id n' hn' parent]

/-- Completing an instance: the nodes that waited below it get it for a parent, and it waits itself
among those that waited elsewhere. -/
theorem alloc :
    (a.alloc { rule, start, output, children := children.reverse }).2.Linked (a.size :: rest) := by
  obtain ⟨hchildren, hrest, hapart⟩ := List.nodup_append.mp h.nodup_waiting
  refine ⟨?_, ?_, fun id n hn => h.parent_iff_alloc rule start output hn, ?_, ?_⟩
  · intro id n hn child hchild
    obtain ⟨rfl, rfl⟩ | ⟨n', hn', heq, -⟩ := node?_alloc_cases hn
    · exact h.lt_size_of_waiting (List.mem_append_left rest (List.mem_reverse.mp hchild))
    · exact h.children_lt id n' hn' child (heq ▸ hchild)
  · intro id n hn
    obtain ⟨rfl, rfl⟩ | ⟨n', hn', heq, -⟩ := node?_alloc_cases hn
    · exact (List.reverse_perm children).symm.nodup hchildren
    · exact heq ▸ h.nodup id n' hn'
  · intro id hid
    obtain rfl | hid := List.mem_cons.mp hid
    · exact ⟨_, by rw [node?_alloc, if_pos rfl], rfl⟩
    · obtain ⟨n, hn, hnone⟩ := h.orphan id (List.mem_append_right children hid)
      refine ⟨n, ?_, hnone⟩
      rw [node?_alloc, if_neg (Nat.ne_of_lt (lt_size_of_node? hn)), hn, Option.map_some, if_neg]
      exact fun hmem => hapart id (List.mem_reverse.mp hmem) id hid rfl
  · refine List.nodup_cons.mpr ⟨fun hmem => ?_, hrest⟩
    exact Nat.lt_irrefl _ (h.lt_size_of_waiting (List.mem_append_right children hmem))

end Alloc

theorem parent_unique (h : a.Linked waiting) {id parent parent' : NodeId} {m m' : Node}
    (hm : a.node? parent = some m) (hm' : a.node? parent' = some m') (hid : id ∈ m.children)
    (hid' : id ∈ m'.children) : parent = parent' := by
  have hlt : id < a.size := Nat.lt_trans (h.children_lt parent m hm id hid) (lt_size_of_node? hm)
  have hn : a.node? id = some a.nodes[id] := Array.getElem?_eq_getElem hlt
  have hparent := (h.parent_iff id _ hn parent).mpr ⟨m, hm, hid⟩
  rw [(h.parent_iff id _ hn parent').mpr ⟨m', hm', hid'⟩] at hparent
  exact (Option.some.inj hparent).symm

theorem lt_parent (h : a.Linked waiting) {id parent : Nat}
    (hparent : (a.node? id).bind (·.parent) = some parent) : id < parent ∧ parent < a.size := by
  obtain ⟨n, hn, hp⟩ := Option.bind_eq_some_iff.mp hparent
  obtain ⟨m, hm, hid⟩ := (h.parent_iff id n hn parent).mp hp
  exact ⟨h.children_lt parent m hm id hid, lt_size_of_node? hm⟩

theorem ancestorsWithin_of_root {id : NodeId} (hroot : (a.node? id).bind (·.parent) = none)
    (n : Nat) : a.ancestorsWithin n id = [] := by
  cases n with
  | zero => rfl
  | succ n => rw [ancestorsWithin, hroot]

/-- Links lead upwards, so a bound that leaves room for the nodes above does not show. -/
theorem ancestorsWithin_eq (h : a.Linked waiting) (n m : Nat) (id : Nat)
    (hn : a.size ≤ n + (id + 1)) (hm : a.size ≤ m + (id + 1)) :
    a.ancestorsWithin n id = a.ancestorsWithin m id := by
  induction n generalizing m id with
  | zero =>
      cases hparent : (a.node? id).bind (·.parent) with
      | none => rw [ancestorsWithin_of_root hparent, ancestorsWithin_of_root hparent]
      | some parent =>
          have habove := h.lt_parent hparent
          omega
  | succ n ih =>
      cases hparent : (a.node? id).bind (·.parent) with
      | none => rw [ancestorsWithin_of_root hparent, ancestorsWithin_of_root hparent]
      | some parent =>
          have habove := h.lt_parent hparent
          obtain ⟨m, rfl⟩ : ∃ m', m = m' + 1 := ⟨m - 1, by omega⟩
          rw [ancestorsWithin, ancestorsWithin, hparent]
          exact congrArg (parent :: ·) (ih m parent (by omega) (by omega))

/-- The ancestors of a node are its parent and the ancestors of that. -/
theorem ancestors_eq (h : a.Linked waiting) (id : NodeId) : a.ancestors id =
    match (a.node? id).bind (·.parent) with
    | some parent => parent :: a.ancestors parent
    | none => [] := by
  have hmore : a.ancestors id = a.ancestorsWithin (a.size + 1) id :=
    h.ancestorsWithin_eq _ _ id (by omega) (by omega)
  rw [hmore, ancestorsWithin]
  rfl

theorem ancestors_increasing (h : a.Linked waiting) (id : NodeId) :
    (id :: a.ancestors id).Pairwise (· < ·) := by
  unfold ancestors
  generalize a.size = n
  induction n generalizing id with
  | zero => exact List.pairwise_singleton _ _
  | succ n ih =>
      rw [ancestorsWithin]
      cases hparent : (a.node? id).bind (·.parent) with
      | none => exact List.pairwise_singleton _ _
      | some parent =>
          have hlt := (h.lt_parent hparent).1
          refine List.pairwise_cons.mpr ⟨fun other hother => ?_, ih parent⟩
          obtain rfl | hother := List.mem_cons.mp hother
          · exact hlt
          · exact Nat.lt_trans hlt (List.rel_of_pairwise_cons (ih parent) hother)

end Linked
end Arena
end Multipath
