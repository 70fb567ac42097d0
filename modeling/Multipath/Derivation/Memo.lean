import Multipath.Derivation.Node

/-!
What is known about a rule at a position: it is being derived, it was derived as a node, or it
failed for a reason that every later reference repeats.
-/

namespace Multipath

/-- Why a rule has no paths: no derivation survived, which an enclosing rule may bear, or rules
nest too deeply, which none may. -/
inductive Failure where
  | noPath (rule : Option RuleId) (position : Position)
  | depthLimit (rule : RuleId) (position : Position)
deriving DecidableEq

namespace Failure

def isAbsorbable : Failure → Bool
  | noPath .. => true
  | depthLimit .. => false

def position : Failure → Position
  | noPath _ p | depthLimit _ p => p

end Failure

inductive Finding where
  | inProgress
  | succeeded (node : NodeId)
  | failed (failure : Failure)
deriving DecidableEq

namespace Finding

def isSuccess : Finding → Bool
  | succeeded _ => true
  | _ => false

def isFailure : Finding → Bool
  | failed _ => true
  | _ => false

end Finding

/-- A rule at a position. -/
structure Reference where
  position : Position
  rule : RuleId
deriving DecidableEq

namespace Reference

instance : Ord Reference where
  compare := compareLex (compareOn (·.position)) (compareOn (·.rule))

instance : Std.TransOrd Reference :=
  inferInstanceAs (Std.TransCmp (compareLex (compareOn position) (compareOn rule)))

instance : Std.LawfulEqOrd Reference where
  eq_of_compare {r s} h := by
    obtain ⟨hp, hr⟩ := compareLex_eq_eq.1 h
    cases r
    cases s
    simp only [mk.injEq]
    exact ⟨Std.LawfulEqOrd.eq_of_compare hp, Nat.compare_eq_eq.1 hr⟩

end Reference

abbrev Memo := Std.TreeMap Reference Finding

namespace Memo

def find? (m : Memo) (p : Position) (rule : RuleId) : Option Finding := m[Reference.mk p rule]?

def record (m : Memo) (p : Position) (rule : RuleId) (finding : Finding) : Memo :=
  m.insert ⟨p, rule⟩ finding

def successes (m : Memo) : Nat := m.toList.countP (·.2.isSuccess)

def failures (m : Memo) : Nat := m.toList.countP (·.2.isFailure)

theorem find?_record (m : Memo) (p q : Position) (r s : RuleId) (finding : Finding) :
    (m.record p r finding).find? q s =
      if q = p ∧ s = r then some finding else m.find? q s := by
  simp only [find?, record, Std.TreeMap.getElem?_insert, Std.LawfulEqOrd.compare_eq_iff_eq,
    Reference.mk.injEq]
  grind

end Memo
end Multipath
