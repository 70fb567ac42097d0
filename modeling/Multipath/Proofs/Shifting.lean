import Mathlib.Data.List.Induction
import Multipath.Proofs.CounterpartTrees

/-!
Reading a text behind another one. What stands in front of where a parse starts is never looked at:
it only shifts positions. Indices and lines are shifted everywhere, columns in the first line only,
and still the order of any two positions stays as it is. Tokens are shifted, so the session behind
the other text goes along with the one that has no such text, and the outcomes of their parses are
the same up to the shift (`Session.parse_behind`).
-/

namespace Multipath

namespace Position

/-- The number of characters behind the last newline. -/
def lastLine (cs : List Char) : Nat := (cs.reverse.takeWhile (· ≠ '\n')).length

theorem compare_add (a b n : Nat) : compare (a + n) (b + n) = compare a b := by
  rw [Nat.compare_eq_ite_lt, Nat.compare_eq_ite_lt]
  simp only [Nat.add_lt_add_iff_right]

end Position

open Position in
/-- The positions of a text where another one stands in front of it. -/
def Relocation.shift (u : List Char) : Relocation where
  move p := ⟨p.index + u.length, p.line + u.count '\n',
    if p.line = 1 then p.column + lastLine u else p.column⟩
  offset := u.length
  index_move _ := rfl
  compare_move p q := by
    simp only [compare_def, compare_add]
    by_cases hline : p.line = q.line
    · rw [hline]
      split
      · rw [compare_add]
      · rfl
    · have hne : compare p.line q.line ≠ .eq := fun heq => hline (Nat.compare_eq_eq.mp heq)
      cases hcompare : compare p.line q.line with
      | eq => exact absurd hcompare hne
      | lt => rfl
      | gt => rfl

namespace Position

variable {u : List Char} {p : Position}

theorem le_line_advance (p : Position) (c : Char) : p.line ≤ (p.advance c).line := by
  unfold advance
  split
  · exact Nat.le_succ _
  · exact Nat.le_refl _

theorem le_line_advanceAll (p : Position) (cs : List Char) : p.line ≤ (p.advanceAll cs).line := by
  induction cs generalizing p with
  | nil => exact Nat.le_refl _
  | cons c cs ih => exact Nat.le_trans (le_line_advance p c) (ih (p.advance c))

/-- Whether one moves first or shifts first makes no difference. -/
theorem shift_advance (hline : 1 ≤ p.line) (c : Char) :
    (Relocation.shift u).move (p.advance c) = ((Relocation.shift u).move p).advance c := by
  unfold advance Relocation.shift
  dsimp only
  by_cases hc : c = '\n'
  · have hnext : ¬p.line + 1 = 1 := by omega
    simp only [hc, if_true, if_neg hnext, mk.injEq, and_true]
    omega
  · simp only [hc, if_false, mk.injEq, true_and]
    refine ⟨by omega, ?_⟩
    split <;> omega

theorem shift_advanceAll (hline : 1 ≤ p.line) (cs : List Char) :
    (Relocation.shift u).move (p.advanceAll cs) = ((Relocation.shift u).move p).advanceAll cs := by
  induction cs generalizing p with
  | nil => rfl
  | cons c cs ih =>
      have hnext := ih (Nat.le_trans hline (le_line_advance p c))
      rw [shift_advance hline] at hnext
      exact hnext

/-- The start is shifted to the end of what is in front. -/
theorem shift_start (u : List Char) :
    (Relocation.shift u).move .start = Position.start.advanceAll u := by
  induction u using List.reverseRecOn with
  | nil => rfl
  | append_singleton u c ih =>
      rw [advanceAll_append, ← ih]
      change _ = ((Relocation.shift u).move .start).advance c
      unfold advance Relocation.shift
      by_cases hc : c = '\n'
      · simp [hc, start, lastLine]
        omega
      · simp [hc, start, lastLine]
        omega

end Position

/-- A match, with its end moved. -/
def Match.relocate (σ : Relocation) (m : Match) : Match := ⟨m.tags, σ.move m.stop⟩

def Scan.relocate (σ : Relocation) (x : Scan) : Scan :=
  ⟨x.accepted.map (Match.relocate σ), x.exhausted⟩

theorem Scan.feed_shift (a : Automaton) (u cs : List Char) (p : Position)
    (states : Automaton.StateSet) (accepted : Option Match) (hline : 1 ≤ p.line) :
    feed a cs ((Relocation.shift u).move p) states (accepted.map (Match.relocate (.shift u))) =
      (feed a cs p states accepted).relocate (.shift u) := by
  induction cs generalizing p states accepted with
  | nil => rfl
  | cons c cs ih =>
      unfold feed
      split
      · rfl
      · rw [← ih _ _ _ (Nat.le_trans hline (Position.le_line_advance p c)),
          ← Position.shift_advance hline]
        dsimp only
        split <;> rfl

/-- The second text is the first one with something in front. -/
structure Source.Prepends (u : List Char) (src src' : Source) : Prop where
  lexicon : src'.lexicon = src.lexicon
  conditions : src'.conditions = src.conditions
  input : src'.input = u ++ src.input

namespace Source

variable {u : List Char} {src src' : Source} {p : Position}

theorem IsPlace.one_le_line (hp : src.IsPlace p) : 1 ≤ p.line := by
  obtain ⟨before, -, rfl⟩ := hp
  exact Position.le_line_advanceAll .start before

namespace Prepends

variable (h : Prepends u src src')
include h

theorem starts : src'.starts = src.starts := by
  rw [src'.starts_eq, src.starts_eq, h.lexicon, h.conditions]

theorem ignored : src'.ignored = src.ignored := by
  rw [src'.ignored_eq, src.ignored_eq, h.lexicon]

theorem length : src'.length = src.length + u.length := by
  rw [length_eq, length_eq, h.input, List.length_append, Nat.add_comm]

theorem rest (i : Nat) : src'.rest (i + u.length) = src.rest i := by
  rw [rest_eq, rest_eq, h.input, Nat.add_comm, ← List.drop_drop, List.drop_left]

theorem isPlace (hp : src.IsPlace p) : src'.IsPlace ((Relocation.shift u).move p) := by
  obtain ⟨before, hbefore, rfl⟩ := hp
  refine ⟨u ++ before, ?_, ?_⟩
  · rw [h.input]
    exact (List.prefix_append_right_inj u).mpr hbefore
  · rw [Position.shift_advanceAll (Nat.le_refl 1), Position.shift_start,
      Position.advanceAll_append]

theorem scan (hp : src.IsPlace p) :
    src'.scan ((Relocation.shift u).move p) = (src.scan p).relocate (.shift u) := by
  unfold Source.scan
  rw [show ((Relocation.shift u).move p).index = p.index + u.length from rfl, h.rest, h.starts,
    h.lexicon]
  exact Scan.feed_shift _ u _ p _ none hp.one_le_line

theorem text (p q : Position) :
    src'.text ⟨(Relocation.shift u).move p, (Relocation.shift u).move q⟩ = src.text ⟨p, q⟩ := by
  have hlength : q.index + u.length - (p.index + u.length) = q.index - p.index := by omega
  unfold Source.text
  dsimp only [Relocation.shift]
  rw [h.rest, hlength]

theorem accepted (hp : src.IsPlace p) {m : Match} (hm : (src.scan p).accepted = some m) :
    (src'.scan ((Relocation.shift u).move p)).accepted = some (m.relocate (.shift u)) := by
  rw [h.scan hp, Scan.relocate, hm]
  rfl

theorem not_accepted (hp : src.IsPlace p) (hm : (src.scan p).accepted = none) :
    (src'.scan ((Relocation.shift u).move p)).accepted = none := by
  rw [h.scan hp, Scan.relocate, hm]
  rfl

theorem ended (hp : src.IsPlace p) :
    ((src'.scan ((Relocation.shift u).move p)).exhausted ||
        src'.length ≤ ((Relocation.shift u).move p).index) =
      ((src.scan p).exhausted || src.length ≤ p.index) := by
  rw [h.scan hp, h.length, show ((Relocation.shift u).move p).index = p.index + u.length from rfl]
  simp only [Scan.relocate, Nat.add_le_add_iff_right]

/-- The tokens are those of the text behind, shifted. -/
theorem token (hp : src.IsPlace p) :
    src'.token ((Relocation.shift u).move p) = relocateRead (.shift u) (src.token p) := by
  fun_induction src.token p with
  | case1 p m hm visible hnone ih =>
      rw [token_of_accepted (h.accepted hp hm), h.ignored]
      exact (if_pos hnone).trans (ih (hp.of_scan hm))
  | case2 p m hm visible hsome =>
      rw [token_of_accepted (h.accepted hp hm), h.ignored]
      refine (if_neg hsome).trans ?_
      rw [Match.relocate, h.text]
      rfl
  | case3 p hm hend =>
      have hrest := h.rest p.index
      rw [token_of_not_accepted (h.not_accepted hp hm), h.ended hp, if_pos hend,
        show ((Relocation.shift u).move p).index = p.index + u.length from rfl, hrest,
        ← Position.shift_advanceAll hp.one_le_line]
      rfl
  | case4 p hm hend =>
      rw [token_of_not_accepted (h.not_accepted hp hm), h.ended hp, if_neg hend]
      rfl

theorem skipIgnored (hp : src.IsPlace p) :
    src'.skipIgnored ((Relocation.shift u).move p) =
      (Relocation.shift u).move (src.skipIgnored p) := by
  fun_induction src.skipIgnored p with
  | case1 p m hm hsub ih =>
      rw [skipIgnored_of_accepted (h.accepted hp hm), h.ignored]
      exact (if_pos hsub).trans (ih (hp.of_scan hm))
  | case2 p m hm hsub =>
      rw [skipIgnored_of_accepted (h.accepted hp hm), h.ignored]
      exact if_neg hsub
  | case3 p hm => rw [skipIgnored_of_not_accepted (h.not_accepted hp hm)]

end Prepends
end Source

namespace Session

variable (g : Grammar) (conditions : Conditions) (u v : String) (filename filename' : Option String)
  (maxDepth : Nat)

theorem prepends :
    Source.Prepends u.toList (ofText g conditions v filename maxDepth).source
      (ofText g conditions (u ++ v) filename' maxDepth).source :=
  ⟨rfl, rfl, String.toList_append⟩

/-- The session on a text that stands behind another one goes along with the session on that text
alone. -/
def behind : Counterpart (ofText g conditions v filename maxDepth)
    (ofText g conditions (u ++ v) filename' maxDepth) where
  σ := .shift u.toList
  hidden _ := False
  answered _ _ _ := True
  maxDepth_eq := rfl
  lexicon_eq := rfl
  name_eq _ := rfl
  length_eq := (prepends g conditions u v filename filename' maxDepth).length
  place hp := (prepends g conditions u v filename filename' maxDepth).isPlace hp
  token hp := (prepends g conditions u v filename filename' maxDepth).token hp
  skip hp := (prepends g conditions u v filename filename' maxDepth).skipIgnored hp
  visible _ := id
  deeper _ _ := trivial
  body {n r p} _ _ := by
    change g.rule? r = none ∧ g.rule? r = none ∨
      ∃ d d', g.rule? r = some d ∧ g.rule? r = some d' ∧ _
    cases hdef : g.rule? r with
    | none => exact .inl ⟨rfl, rfl⟩
    | some d => exact .inr ⟨d, d, rfl, rfl, .same (.refl g d.body) fun _ _ _ => trivial⟩

/-- Parsing never looks behind the position where it starts. Behind a text `u`, a text `v` is parsed
as it is alone: to the same tree, the same root and counters and the same nodes, with every position
shifted by `u`, or to the same error, shifted likewise. -/
theorem parse_behind (trailing : Bool) :
    (ofText g conditions (u ++ v) filename' maxDepth).parse trailing
        (Position.start.advanceAll u.toList) =
      relocateOutcome (.shift u.toList)
        ((ofText g conditions v filename maxDepth).parse trailing .start) := by
  rw [← Position.shift_start]
  have hparses := (behind g conditions u v filename filename' maxDepth).parse_alike trailing
    (Source.isPlace_start _) rfl fun _ _ => trivial
  exact hparses.eq fun _ => id

end Session
end Multipath
