import Std.Data.ExtTreeSet

/-!
Finite sets whose members are listed in order. A set is its members: two sets with the same ones
are equal (`Std.ExtTreeSet.ext_mem`), and `toList` shows each once, in increasing order
(`Std.ExtTreeSet.ordered_toList`). The membership of each operation is one lemma.
-/

namespace Multipath

abbrev SortedSet (α : Type) [Ord α] := Std.ExtTreeSet α

namespace SortedSet

variable {α : Type} [Ord α] [Std.TransOrd α]

def isSubset (s t : SortedSet α) : Bool := s.toList.all t.contains

variable [Std.LawfulEqOrd α]

theorem isSubset_iff {s t : SortedSet α} : s.isSubset t = true ↔ ∀ a ∈ s, a ∈ t := by
  simp [isSubset]

@[simp] theorem mem_ofList {xs : List α} {a : α} : a ∈ (.ofList xs : SortedSet α) ↔ a ∈ xs := by
  classical
  let _ : BEq α := instBEqOfDecidableEq
  have : Std.LawfulBEqOrd α := ⟨by simp⟩
  simp [Std.ExtTreeSet.mem_ofList]

@[simp] theorem mem_singleton {a b : α} : b ∈ ({a} : SortedSet α) ↔ b = a := by
  simp [Singleton.singleton, Std.ExtTreeSet.mem_insert, @eq_comm _ a]

@[simp] theorem mem_insert {s : SortedSet α} {a b : α} : b ∈ s.insert a ↔ b = a ∨ b ∈ s := by
  simp [Std.ExtTreeSet.mem_insert, @eq_comm _ a]

@[simp] theorem mem_erase {s : SortedSet α} {a b : α} : b ∈ s.erase a ↔ b ∈ s ∧ b ≠ a := by
  simp [Std.ExtTreeSet.mem_erase, and_comm, @eq_comm _ a]

@[simp] theorem mem_filter {p : α → Bool} {s : SortedSet α} {a : α} :
    a ∈ s.filter p ↔ a ∈ s ∧ p a = true := by
  simp [← Std.ExtTreeSet.mem_toList, Std.ExtTreeSet.toList_filter]

theorem ne_empty_iff {s : SortedSet α} : s ≠ ∅ ↔ ∃ a, a ∈ s := by
  constructor
  · intro h
    cases hs : s.toList with
    | nil => exact absurd (Std.ExtTreeSet.toList_eq_nil_iff.mp hs) h
    | cons a as => exact ⟨a, Std.ExtTreeSet.mem_toList.mp (by simp [hs])⟩
  · rintro ⟨a, ha⟩ rfl
    exact Std.ExtTreeSet.not_mem_empty ha

omit [Std.LawfulEqOrd α] in
/-- What is new in a set adds to the size of a union. -/
theorem size_lt_size_union_diff {s t : SortedSet α} (h : ¬(t \ s).isEmpty = true) :
    s.size < (s ∪ (t \ s)).size := by
  have hpos : (t \ s).size ≠ 0 := by simpa [Std.ExtTreeSet.isEmpty_eq_size_beq_zero] using h
  have hsum : (s ∪ (t \ s)).size = s.size + (t \ s).size :=
    Std.ExtTreeSet.size_union_of_not_mem fun a ha hd => (Std.ExtTreeSet.mem_diff_iff.mp hd).2 ha
  omega

end SortedSet
end Multipath
