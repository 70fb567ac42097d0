import Std.Data.TreeMap

/-!
Places in a text. A position carries the number of characters before it together with its line
and column, both counted from one, and moves over one character at a time. Positions are ordered
by index first, then line, then column.
-/

namespace Multipath

structure Position where
  index : Nat
  line : Nat
  column : Nat
deriving DecidableEq

namespace Position

def start : Position := ⟨0, 1, 1⟩

instance : Inhabited Position := ⟨start⟩

/-- The position right after the character `c` that stands at `p`. -/
def advance (p : Position) (c : Char) : Position :=
  if c = '\n' then ⟨p.index + 1, p.line + 1, 1⟩ else ⟨p.index + 1, p.line, p.column + 1⟩

def advanceAll (p : Position) (cs : List Char) : Position := cs.foldl advance p

instance : LT Position where
  lt p q := p.index < q.index ∨
    p.index = q.index ∧ (p.line < q.line ∨ p.line = q.line ∧ p.column < q.column)

instance : LE Position where
  le p q := ¬q < p

theorem lt_def {p q : Position} : p < q ↔ p.index < q.index ∨
    p.index = q.index ∧ (p.line < q.line ∨ p.line = q.line ∧ p.column < q.column) := Iff.rfl

theorem le_def {p q : Position} : p ≤ q ↔ ¬q < p := Iff.rfl

instance : DecidableLT Position := fun p q =>
  inferInstanceAs (Decidable (p.index < q.index ∨
    p.index = q.index ∧ (p.line < q.line ∨ p.line = q.line ∧ p.column < q.column)))

instance : DecidableLE Position := fun p q => inferInstanceAs (Decidable (¬q < p))

/-- The same order as a comparison, for sets and tables of positions. -/
instance : Ord Position where
  compare p q := (compare p.index q.index).then <|
    (compare p.line q.line).then (compare p.column q.column)

theorem compare_def {p q : Position} : compare p q = (compare p.index q.index).then
    ((compare p.line q.line).then (compare p.column q.column)) := rfl

instance : Std.TransOrd Position :=
  inferInstanceAs (Std.TransCmp (compareLex (compareOn Position.index)
    (compareLex (compareOn Position.line) (compareOn Position.column))))

instance : Std.LawfulEqOrd Position where
  eq_of_compare {p q} h := by
    simp only [compare_def, Ordering.then_eq_eq, Nat.compare_eq_eq] at h
    cases p
    cases q
    simpa using h

theorem compare_eq_lt {p q : Position} : compare p q = .lt ↔ p < q := by
  simp only [compare_def, Ordering.then_eq_lt, Nat.compare_eq_lt, Nat.compare_eq_eq, lt_def]

instance : Min Position := minOfLe
instance : Max Position := maxOfLe

def text (p : Position) : String := s!"{p.line}:{p.column}"

@[simp] theorem index_advance (p : Position) (c : Char) : (p.advance c).index = p.index + 1 := by
  unfold advance
  split <;> rfl

@[simp] theorem index_advanceAll (p : Position) (cs : List Char) :
    (p.advanceAll cs).index = p.index + cs.length := by
  induction cs generalizing p with
  | nil => rfl
  | cons c cs ih =>
    have := ih (p.advance c)
    simp only [advanceAll, List.foldl_cons, index_advance, List.length_cons] at this ⊢
    omega

end Position

/-- A stretch of text, from `start` up to and without `stop`. -/
structure Span where
  start : Position
  stop : Position
deriving DecidableEq

namespace Span

instance : Inhabited Span := ⟨⟨.start, .start⟩⟩

def empty (p : Position) : Span := ⟨p, p⟩

def length (s : Span) : Nat := s.stop.index - s.start.index

def isEmpty (s : Span) : Bool := s.length == 0

def contains (s : Span) (p : Position) : Bool := s.start.index ≤ p.index && p.index < s.stop.index

/-- The least span over both. -/
def cover (s t : Span) : Span := ⟨min s.start t.start, max s.stop t.stop⟩

def text (s : Span) : String := s.start.text ++ ".." ++ s.stop.text

end Span
end Multipath
