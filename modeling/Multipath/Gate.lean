import Multipath.SortedSet

/-!
Gates: boolean expressions over named conditions. The conditions in force are fixed for a whole
reading of a text and decide which automaton states, tags and start rules are open.
-/

namespace Multipath

abbrev Conditions := SortedSet String

inductive Gate where
  | always
  | active (name : String)
  | not (gate : Gate)
  | all (gates : List Gate)
  | any (gates : List Gate)

namespace Gate

instance : Inhabited Gate := ⟨always⟩

/-- A double negation collapses. -/
def negate : Gate → Gate
  | .not g => g
  | g => .not g

def inactive (name : String) : Gate := (active name).negate

mutual

def holds (conditions : Conditions) : Gate → Bool
  | .always => true
  | .active name => name ∈ conditions
  | .not g => !holds conditions g
  | .all gs => allHold conditions gs
  | .any gs => anyHolds conditions gs

def allHold (conditions : Conditions) : List Gate → Bool
  | [] => true
  | g :: gs => holds conditions g && allHold conditions gs

def anyHolds (conditions : Conditions) : List Gate → Bool
  | [] => false
  | g :: gs => holds conditions g || anyHolds conditions gs

end

theorem allHold_eq (conditions : Conditions) (gs : List Gate) :
    allHold conditions gs = gs.all (holds conditions) := by
  induction gs with
  | nil => rfl
  | cons g gs ih => simp [allHold, ih]

theorem anyHolds_eq (conditions : Conditions) (gs : List Gate) :
    anyHolds conditions gs = gs.any (holds conditions) := by
  induction gs with
  | nil => rfl
  | cons g gs ih => simp [anyHolds, ih]

@[simp] theorem holds_negate (conditions : Conditions) (g : Gate) :
    g.negate.holds conditions = !g.holds conditions := by
  cases g <;> simp [negate, holds]

mutual

def text : Gate → String
  | .always => "*"
  | .active name => name
  | .not g => "!" ++ text g
  | .all gs => "(" ++ " && ".intercalate (texts gs) ++ ")"
  | .any gs => "(" ++ " || ".intercalate (texts gs) ++ ")"

def texts : List Gate → List String
  | [] => []
  | g :: gs => text g :: texts gs

end

mutual

def same : Gate → Gate → Bool
  | .always, .always => true
  | .active c, .active d => c == d
  | .not g, .not h => same g h
  | .all gs, .all hs => sameAll gs hs
  | .any gs, .any hs => sameAll gs hs
  | _, _ => false

def sameAll : List Gate → List Gate → Bool
  | [], [] => true
  | g :: gs, h :: hs => same g h && sameAll gs hs
  | _, _ => false

end

mutual

theorem same_iff : ∀ g h : Gate, same g h = true ↔ g = h
  | .always, h => by cases h <;> simp [same]
  | .active _, h => by cases h <;> simp [same]
  | .not g, h => by cases h <;> simp [same, same_iff g]
  | .all gs, h => by cases h <;> simp [same, sameAll_iff gs]
  | .any gs, h => by cases h <;> simp [same, sameAll_iff gs]

theorem sameAll_iff : ∀ gs hs : List Gate, sameAll gs hs = true ↔ gs = hs
  | [], hs => by cases hs <;> simp [sameAll]
  | g :: gs, hs => by cases hs <;> simp [sameAll, same_iff g, sameAll_iff gs]

end

instance : DecidableEq Gate := fun g h => decidable_of_iff _ (same_iff g h)

end Gate
end Multipath
