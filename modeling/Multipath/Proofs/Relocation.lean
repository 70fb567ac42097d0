import Multipath.Derivation.Run
import Multipath.Parse
import Multipath.Tree.Extraction

/-!
Moving positions. A relocation takes the positions of one text to positions of another, a fixed
number of characters further on, and keeps their order; lines and columns may change otherwise.
Whatever has positions in it is relocated by moving them all. Sets of positions keep their order
when they are relocated, so all that is read off a set in order is relocated with it.
-/

namespace Multipath

/-- A map of positions that keeps their order and moves all indices by the same offset. -/
structure Relocation where
  move : Position → Position
  offset : Nat
  index_move : ∀ p, (move p).index = p.index + offset
  compare_move : ∀ p q, compare (move p) (move q) = compare p q

namespace Relocation

/-- Nothing is moved. -/
def refl : Relocation := ⟨fun p => p, 0, fun _ => rfl, fun _ _ => rfl⟩

variable {σ : Relocation} {p q : Position}

@[simp] theorem move_refl (p : Position) : refl.move p = p := rfl

theorem move_inj : σ.move p = σ.move q ↔ p = q := by
  simp only [← Std.LawfulEqOrd.compare_eq_iff_eq, σ.compare_move]

theorem move_lt : σ.move p < σ.move q ↔ p < q := by
  rw [← Position.compare_eq_lt, ← Position.compare_eq_lt, σ.compare_move]

theorem move_le : σ.move p ≤ σ.move q ↔ p ≤ q := by
  rw [Position.le_def, Position.le_def, move_lt]

theorem move_max : σ.move (max p q) = max (σ.move p) (σ.move q) := by
  change σ.move (if p ≤ q then q else p) = if σ.move p ≤ σ.move q then σ.move q else σ.move p
  simp only [move_le]
  split <;> rfl

end Relocation

section Data
variable (σ : Relocation)

def Span.relocate (s : Span) : Span := ⟨σ.move s.start, σ.move s.stop⟩

def Token.relocate (t : Token) : Token := { t with span := t.span.relocate σ }

def LexicalError.relocate : LexicalError → LexicalError
  | .endOfInput p => .endOfInput (σ.move p)
  | .noToken p => .noToken (σ.move p)

/-- What reading a token ended in. -/
def relocateRead : Except LexicalError Token → Except LexicalError Token
  | .ok t => .ok (t.relocate σ)
  | .error e => .error (e.relocate σ)

def PathSet.relocate (s : PathSet) : PathSet := .ofList (s.toList.map σ.move)

def Failure.relocate : Failure → Failure
  | .noPath rule p => .noPath rule (σ.move p)
  | .depthLimit rule p => .depthLimit rule (σ.move p)

def Finding.relocate : Finding → Finding
  | .inProgress => .inProgress
  | .succeeded node => .succeeded node
  | .failed f => .failed (f.relocate σ)

def Node.relocate (n : Node) : Node :=
  { n with start := σ.move n.start, output := n.output.relocate σ }

def Arena.relocate (a : Arena) : Arena := ⟨a.nodes.map (·.relocate σ)⟩

def Stretch.relocate (x : Stretch) : Stretch := ⟨x.rule, σ.move x.start, σ.move x.stop⟩

def Leaf.relocate (l : Leaf) : Leaf := { l with span := l.span.relocate σ }

mutual

def Tree.relocate : Tree → Tree
  | .leaf l => .leaf (l.relocate σ)
  | .branch rule span children => .branch rule (span.relocate σ) (relocateAll children)

def Tree.relocateAll : List Tree → List Tree
  | [] => []
  | t :: ts => Tree.relocate t :: relocateAll ts

end

def Branch.relocate (b : Branch) : Branch :=
  ⟨b.rule, b.span.relocate σ, b.children.map (·.relocate σ)⟩

def ParseError.relocate : ParseError → ParseError
  | .noPath rule p => .noPath rule (σ.move p)
  | .incomplete rule p => .incomplete rule (σ.move p)
  | .noStart => .noStart
  | .multipleStart rules => .multipleStart rules
  | .depthLimit rule p limit => .depthLimit rule (σ.move p) limit

def Parse.relocate (r : Parse) : Parse :=
  { r with tree := r.tree.relocate σ, nodes := r.nodes.relocate σ }

/-- What a parse ended in. -/
def relocateOutcome : Except ParseError Parse → Except ParseError Parse
  | .ok r => .ok (r.relocate σ)
  | .error e => .error (e.relocate σ)

end Data

section Ordered
variable {α β : Type} [Ord α] [Std.TransOrd α]

/-- Lists with strictly increasing keys that have the same members are equal. -/
theorem List.eq_of_ordered (key : β → α) {xs ys : List β}
    (hx : xs.Pairwise fun a b => compare (key a) (key b) = .lt)
    (hy : ys.Pairwise fun a b => compare (key a) (key b) = .lt) (h : ∀ a, a ∈ xs ↔ a ∈ ys) :
    xs = ys := by
  have hnodup {zs : List β} (hz : zs.Pairwise fun a b => compare (key a) (key b) = .lt) :
      zs.Nodup :=
    hz.imp fun hlt heq => by
      rw [heq, Std.ReflOrd.compare_self] at hlt
      cases hlt
  refine List.Perm.eq_of_pairwise (fun a b _ _ hab hba => ?_) hx hy
    ((List.perm_ext_iff_of_nodup (hnodup hx) (hnodup hy)).mpr h)
  rw [Std.OrientedOrd.eq_swap, hba] at hab
  cases hab

end Ordered

namespace PathSet

variable {σ : Relocation} {s t : PathSet} {p q : Position}

theorem mem_relocate : q ∈ s.relocate σ ↔ ∃ p ∈ s, σ.move p = q := by
  simp [relocate]

@[simp] theorem move_mem_relocate : σ.move p ∈ s.relocate σ ↔ p ∈ s := by
  simp [mem_relocate, Relocation.move_inj]

theorem toList_relocate (σ : Relocation) (s : PathSet) :
    (s.relocate σ).toList = s.toList.map σ.move := by
  refine List.eq_of_ordered (fun p => p) Std.ExtTreeSet.ordered_toList ?_ fun q => ?_
  · rw [List.pairwise_map]
    simpa only [σ.compare_move] using Std.ExtTreeSet.ordered_toList
  · simp [mem_relocate]

@[simp] theorem relocate_empty : (∅ : PathSet).relocate σ = ∅ :=
  Std.ExtTreeSet.ext_mem fun q => by simp [mem_relocate]

@[simp] theorem relocate_singleton : ({p} : PathSet).relocate σ = {σ.move p} := by
  refine Std.ExtTreeSet.ext_mem fun q => ?_
  simp only [mem_relocate, SortedSet.mem_singleton, exists_eq_left]
  exact eq_comm

theorem relocate_insert : relocate σ (s.insert p) = (s.relocate σ).insert (σ.move p) := by
  refine Std.ExtTreeSet.ext_mem fun q => ?_
  simp only [mem_relocate, SortedSet.mem_insert, or_and_right, exists_or, exists_eq_left,
    @eq_comm _ q]

theorem relocate_union : (s ∪ t).relocate σ = s.relocate σ ∪ t.relocate σ :=
  Std.ExtTreeSet.ext_mem fun q => by
    simp only [mem_relocate, Std.ExtTreeSet.mem_union_iff, or_and_right, exists_or]

theorem relocate_diff : (s \ t).relocate σ = s.relocate σ \ t.relocate σ := by
  refine Std.ExtTreeSet.ext_mem fun q => ?_
  simp only [mem_relocate, Std.ExtTreeSet.mem_diff_iff]
  constructor
  · rintro ⟨p, ⟨hs, ht⟩, rfl⟩
    exact ⟨⟨p, hs, rfl⟩, fun ⟨p', hp', heq⟩ => ht (Relocation.move_inj.mp heq ▸ hp')⟩
  · rintro ⟨⟨p, hs, rfl⟩, ht⟩
    exact ⟨p, ⟨hs, fun hp => ht ⟨p, hp, rfl⟩⟩, rfl⟩

theorem relocate_filter {keep keep' : Position → Bool}
    (h : ∀ p ∈ s, keep' (σ.move p) = keep p) :
    relocate σ (s.filter keep) = (s.relocate σ).filter keep' := by
  refine Std.ExtTreeSet.ext_mem fun q => ?_
  simp only [mem_relocate, SortedSet.mem_filter]
  constructor
  · rintro ⟨p, ⟨hs, hp⟩, rfl⟩
    exact ⟨⟨p, hs, rfl⟩, (h p hs).trans hp⟩
  · rintro ⟨⟨p, hs, rfl⟩, hp⟩
    exact ⟨p, ⟨hs, (h p hs).symm.trans hp⟩, rfl⟩

@[simp] theorem size_relocate : (s.relocate σ).size = s.size := by
  rw [← Std.ExtTreeSet.length_toList, toList_relocate, List.length_map,
    Std.ExtTreeSet.length_toList]

@[simp] theorem isEmpty_relocate : (s.relocate σ).isEmpty = s.isEmpty := by
  rw [Std.ExtTreeSet.isEmpty_eq_size_beq_zero, Std.ExtTreeSet.isEmpty_eq_size_beq_zero,
    size_relocate]

theorem min?_relocate : (s.relocate σ).min? = s.min?.map σ.move := by
  rw [Std.ExtTreeSet.min?_eq_head?_toList, Std.ExtTreeSet.min?_eq_head?_toList, toList_relocate,
    List.head?_map]

theorem max?_relocate : (s.relocate σ).max? = s.max?.map σ.move := by
  cases hmax : s.max? with
  | none =>
      obtain rfl := Std.ExtTreeSet.max?_eq_none_iff.mp hmax
      rw [relocate_empty, Std.ExtTreeSet.max?_empty]
      rfl
  | some m =>
      obtain ⟨hm, hall⟩ := Std.ExtTreeSet.max?_eq_some_iff_mem_and_forall.mp hmax
      refine Std.ExtTreeSet.max?_eq_some_iff_mem_and_forall.mpr
        ⟨move_mem_relocate.mpr hm, fun q hq => ?_⟩
      obtain ⟨p, hp, rfl⟩ := mem_relocate.mp hq
      rw [σ.compare_move]
      exact hall p hp

/-- The first path of some paths, wherever one would start without any. -/
theorem min?_getD_relocate (h : s ≠ ∅) (p q : Position) :
    (s.relocate σ).min?.getD q = σ.move (s.min?.getD p) := by
  rw [min?_relocate]
  cases hmin : s.min? with
  | none => exact absurd (Std.ExtTreeSet.min?_eq_none_iff.mp hmin) h
  | some m => rfl

@[simp] theorem relocate_refl : s.relocate .refl = s :=
  Std.ExtTreeSet.ext_mem fun q => by simp [mem_relocate]

end PathSet

section Failures
variable {σ : Relocation}

@[simp] theorem Failure.isAbsorbable_relocate (f : Failure) :
    (f.relocate σ).isAbsorbable = f.isAbsorbable := by
  cases f <;> rfl

@[simp] theorem Failure.relocate_refl (f : Failure) : f.relocate .refl = f := by
  cases f <;> rfl

@[simp] theorem LexicalError.position_relocate (e : LexicalError) :
    (e.relocate σ).position = σ.move e.position := by
  cases e <;> rfl

@[simp] theorem relocateRead_refl (r : Except LexicalError Token) : relocateRead .refl r = r := by
  obtain (_ | _) | _ := r <;> rfl

end Failures

namespace Arena

variable {σ : Relocation} {a : Arena}

@[simp] theorem size_relocate : (a.relocate σ).size = a.size := by
  simp [relocate, size]

theorem node?_relocate (id : NodeId) :
    (a.relocate σ).node? id = (a.node? id).map (·.relocate σ) := by
  simp [relocate, node?]

theorem output_relocate (id : NodeId) : (a.relocate σ).output id = (a.output id).relocate σ := by
  rw [output, output, node?_relocate]
  cases a.node? id with
  | none => exact PathSet.relocate_empty.symm
  | some n => rfl

private theorem adopt_relocate (parent : NodeId) (nodes : Array Node) (id : NodeId) :
    adopt parent (nodes.map (·.relocate σ)) id = (adopt parent nodes id).map (·.relocate σ) := by
  refine Array.ext_getElem? fun i => ?_
  simp only [adopt, Array.getElem?_modify, Array.getElem?_map]
  split
  · cases nodes[i]? <;> rfl
  · rfl

theorem alloc_relocate (n : Node) :
    ((a.relocate σ).alloc (n.relocate σ)) = ((a.alloc n).1, (a.alloc n).2.relocate σ) := by
  have hadopt (parent : NodeId) (ids : List NodeId) (nodes : Array Node) :
      ids.foldl (adopt parent) (nodes.map (·.relocate σ)) =
        (ids.foldl (adopt parent) nodes).map (·.relocate σ) := by
    induction ids generalizing nodes with
    | nil => rfl
    | cons id ids ih => rw [List.foldl_cons, adopt_relocate, ih, List.foldl_cons]
  simp only [alloc, size_relocate, Node.relocate]
  simp only [relocate, hadopt, Array.map_push]
  rfl

theorem setOutput_relocate (id : NodeId) (output : PathSet) :
    (a.relocate σ).setOutput id (output.relocate σ) = (a.setOutput id output).relocate σ := by
  simp only [setOutput, relocate, mk.injEq]
  refine Array.ext_getElem? fun i => ?_
  simp only [Array.getElem?_modify, Array.getElem?_map]
  split
  · cases a.nodes[i]? <;> rfl
  · rfl

end Arena

section Trees
variable {σ : Relocation}

theorem Tree.relocateAll_eq (ts : List Tree) : relocateAll σ ts = ts.map (·.relocate σ) := by
  induction ts with
  | nil => rw [relocateAll, List.map_nil]
  | cons t ts ih => rw [relocateAll, ih, List.map_cons]

theorem Branch.tree_relocate (b : Branch) : (b.relocate σ).tree = b.tree.relocate σ := by
  rw [Branch.tree, Branch.tree, Tree.relocate, Tree.relocateAll_eq]
  rfl

mutual

theorem Tree.relocate_refl : ∀ t : Tree, t.relocate .refl = t
  | .leaf l => by
      rw [Tree.relocate]
      rfl
  | .branch rule span children => by
      rw [Tree.relocate, relocateAll_refl children]
      rfl

theorem Tree.relocateAll_refl : ∀ ts : List Tree, Tree.relocateAll .refl ts = ts
  | [] => by rw [Tree.relocateAll]
  | t :: ts => by rw [Tree.relocateAll, relocate_refl t, relocateAll_refl ts]

end

theorem Branch.relocate_refl (b : Branch) : b.relocate .refl = b := by
  rw [Branch.relocate, ← Tree.relocateAll_eq, Tree.relocateAll_refl]
  rfl

end Trees

namespace Stretch

variable {σ : Relocation} {x y : Stretch}

theorem relocate_inj : x.relocate σ = y.relocate σ ↔ x = y := by
  obtain ⟨r, p, q⟩ := x
  obtain ⟨r', p', q'⟩ := y
  simp only [relocate, mk.injEq, Relocation.move_inj]

end Stretch
end Multipath
