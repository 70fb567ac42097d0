import Multipath.Lexer.Scan
import Multipath.Lexer.Token
import Multipath.Lexicon.Basic

/-!
A text as a lexicon reads it under fixed conditions. Everything here is a function of the source
and a position: the match that starts there, the next visible token, the place behind all that
is ignored, and whether only such is left.
-/

namespace Multipath

/-- The list from each of its places on, the end included. -/
def Source.suffixes : List Char → List (List Char)
  | [] => [[]]
  | c :: cs => (c :: cs) :: suffixes cs

structure Source where
  lexicon : Lexicon
  conditions : Conditions
  input : List Char
  filename : String
  starts : Automaton.StateSet := lexicon.startStates conditions
  starts_eq : starts = lexicon.startStates conditions := by rfl
  ignored : TagSet := lexicon.ignored
  ignored_eq : ignored = lexicon.ignored := by rfl
  /-- The input from each index on, so that every place is at hand. -/
  tails : Array (List Char) := (Source.suffixes input).toArray
  tails_eq : tails = (Source.suffixes input).toArray := by rfl

namespace Source

def ofText (lexicon : Lexicon) (conditions : Conditions) (text filename : String) : Source :=
  { lexicon, conditions, input := text.toList, filename }

def length (s : Source) : Nat := s.tails.size - 1

/-- The input from an index on. -/
def rest (s : Source) (i : Nat) : List Char := s.tails[i]?.getD []

theorem length_suffixes (cs : List Char) : (suffixes cs).length = cs.length + 1 := by
  induction cs with
  | nil => rfl
  | cons c cs ih => simp [suffixes, ih]

theorem getElem?_suffixes (cs : List Char) (i : Nat) :
    (suffixes cs)[i]?.getD [] = cs.drop i := by
  induction cs generalizing i with
  | nil => cases i <;> simp [suffixes]
  | cons c cs ih =>
    cases i with
    | zero => rfl
    | succ i => simpa [suffixes] using ih i

theorem length_eq (s : Source) : s.length = s.input.length := by
  simp [length, s.tails_eq, length_suffixes]

theorem rest_eq (s : Source) (i : Nat) : s.rest i = s.input.drop i := by
  simp [rest, s.tails_eq, getElem?_suffixes]

/-- The text of a span, as far as the input reaches. -/
def text (s : Source) (span : Span) : String :=
  String.ofList ((s.rest span.start.index).take (span.stop.index - span.start.index))

def scan (s : Source) (p : Position) : Scan :=
  .feed s.lexicon.automaton (s.rest p.index) p s.starts none

theorem scan_accepted {s : Source} {p : Position} {m : Match} (h : (s.scan p).accepted = some m) :
    p.index < m.stop.index ∧ m.stop.index ≤ s.length := by
  rcases Scan.feed_accepted h with e | ⟨h₁, h₂⟩
  · cases e
  · rw [rest_eq, List.length_drop, ← length_eq] at h₂
    exact ⟨h₁, by omega⟩

/-- The first match from `p` on that has a visible tag, without its ignored tags. -/
def token (s : Source) (p : Position) : Except LexicalError Token :=
  match _h : (s.scan p).accepted with
  | some m =>
    let visible := m.tags \ s.ignored
    if visible.isEmpty then s.token m.stop
    else .ok ⟨visible, ⟨p, m.stop⟩, s.text ⟨p, m.stop⟩⟩
  | none =>
    if (s.scan p).exhausted || s.length ≤ p.index then
      .error (.endOfInput (p.advanceAll (s.rest p.index)))
    else .error (.noToken p)
termination_by s.length - p.index
decreasing_by have := scan_accepted _h; omega

/-- The position behind the matches from `p` on that have ignored tags only. -/
def skipIgnored (s : Source) (p : Position) : Position :=
  match _h : (s.scan p).accepted with
  | some m => if m.tags.isSubset s.ignored then s.skipIgnored m.stop else p
  | none => p
termination_by s.length - p.index
decreasing_by have := scan_accepted _h; omega

def atEnd (s : Source) (p : Position) : Bool := s.length ≤ (s.skipIgnored p).index

theorem token_stop {s : Source} {p : Position} {t : Token} (h : s.token p = .ok t) :
    p.index < t.span.stop.index ∧ t.span.stop.index ≤ s.length := by
  fun_induction s.token p with
  | case1 p m hm visible _ ih =>
    have := scan_accepted hm
    have := ih h
    omega
  | case2 p m hm visible _ =>
    cases h
    exact scan_accepted hm
  | case3 => cases h
  | case4 => cases h

end Source
end Multipath
