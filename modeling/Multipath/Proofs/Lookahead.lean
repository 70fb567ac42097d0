import Multipath.Proofs.Ensures
import Multipath.Proofs.Places
import Multipath.Samples

/-!
Looking ahead. What is ignored is skipped by two loops: one looks for the place behind it, the other
for the token there. They cut the text into the same pieces and stop at the same position, so that
where the one leads tells what the other finds: a token that starts just there, an error just there,
or nothing but the end of the text (`Lexer.next_foreseen`). Neither goes on forever, since no
lexicon has matches that cover nothing.
-/

namespace Multipath

theorem Source.IsPlace.advanceAll_rest {src : Source} {p : Position} (hp : src.IsPlace p) :
    p.advanceAll (src.rest p.index) = Position.start.advanceAll src.input := by
  obtain ⟨before, ⟨behind, hinput⟩, rfl⟩ := hp
  rw [rest_eq, index_start_advanceAll, ← hinput, List.drop_left, Position.advanceAll_append]

/-- A match together with where it starts. -/
structure Piece where
  span : Span
  tags : TagSet

namespace Source

/-- The text between two positions is cut into longest matches, each of which starts where the one
before stops. -/
inductive Pieces (src : Source) : Position → List Piece → Position → Prop
  | nil {p} : Pieces src p [] p
  | cons {p m xs q} : (src.scan p).accepted = some m → Pieces src m.stop xs q →
      Pieces src p (⟨⟨p, m.stop⟩, m.tags⟩ :: xs) q

/-- All tags of the piece are ignored. -/
def Hides (src : Source) (x : Piece) : Prop := ∀ tag ∈ x.tags, tag ∈ src.ignored

variable {src : Source} {p q : Position} {m : Match} {xs : List Piece}

/-- Every piece covers a character. -/
theorem Pieces.index_add_length_le (h : src.Pieces p xs q) : p.index + xs.length ≤ q.index := by
  induction h with
  | nil => exact Nat.le_refl _
  | cons hm _ ih =>
      have := scan_accepted hm
      simp only [List.length_cons]
      omega

theorem Pieces.isPlace (h : src.Pieces p xs q) (hp : src.IsPlace p) : src.IsPlace q := by
  induction h with
  | nil => exact hp
  | cons hm _ ih => exact ih (hp.of_scan hm)

/-- No text has infinitely many matches one behind the other. -/
theorem matches_wellFounded (src : Source) :
    WellFounded fun q p => ∃ m, (src.scan p).accepted = some m ∧ m.stop = q := by
  refine Subrelation.wf ?_ (measure fun p : Position => src.length - p.index).wf
  rintro _ p ⟨m, hm, rfl⟩
  have := scan_accepted hm
  change src.length - m.stop.index < src.length - p.index
  omega

/-- What is skipped are whole matches without a visible tag. -/
theorem skipIgnored_pieces (src : Source) (p : Position) :
    ∃ xs, src.Pieces p xs (src.skipIgnored p) ∧ ∀ x ∈ xs, src.Hides x := by
  fun_induction src.skipIgnored p with
  | case1 p m hm hsub ih =>
      obtain ⟨xs, hxs, hhides⟩ := ih
      exact ⟨_, .cons hm hxs, List.forall_mem_cons.mpr ⟨SortedSet.isSubset_iff.mp hsub, hhides⟩⟩
  | case2 | case3 => exact ⟨[], .nil, List.forall_mem_nil _⟩

/-- No match without a visible tag is left behind what is skipped. -/
theorem visible_of_skipped (hm : (src.scan (src.skipIgnored p)).accepted = some m) :
    ¬m.tags.isSubset src.ignored = true := by
  fun_induction src.skipIgnored p with
  | case1 p m' hm' hsub ih => exact ih hm
  | case2 p m' hm' hsub =>
      obtain rfl := Option.some.inj (hm.symm.trans hm')
      exact hsub
  | case3 p hm' => cases hm.symm.trans hm'

theorem skipIgnored_skipIgnored (src : Source) (p : Position) :
    src.skipIgnored (src.skipIgnored p) = src.skipIgnored p := by
  cases hm : (src.scan (src.skipIgnored p)).accepted with
  | none => exact skipIgnored_of_not_accepted hm
  | some m => rw [skipIgnored_of_accepted hm, if_neg (visible_of_skipped hm)]

/-- Reading skips just what skipping skips. -/
theorem token_skipIgnored (src : Source) (p : Position) :
    src.token (src.skipIgnored p) = src.token p := by
  fun_induction src.skipIgnored p with
  | case1 p m hm hsub ih =>
      rw [ih, token_of_accepted hm, if_pos ((isEmpty_visible_iff _ _).mpr hsub)]
  | case2 | case3 => rfl

/-- What a reading from a position should come to, told by where skipping leads from there. -/
def Foresees (src : Source) (p : Position) : Except LexicalError Token → Prop
  | .ok t => t.span.start = src.skipIgnored p ∧ src.atEnd p = false
  | .error (.noToken q) =>
      q = src.skipIgnored p ∧ q.index < src.input.length ∧ src.atEnd p = false
  | .error (.endOfInput q) => q = Position.start.advanceAll src.input ∧
      ((src.skipIgnored p).index = src.input.length ∧ src.atEnd p = true ∨
        (src.skipIgnored p).index < src.input.length ∧ src.atEnd p = false ∧
          (src.scan (src.skipIgnored p)).accepted = none ∧
          (src.scan (src.skipIgnored p)).exhausted = true)

theorem token_foreseen (hp : src.IsPlace p) : src.Foresees p (src.token p) := by
  obtain ⟨xs, hxs, -⟩ := src.skipIgnored_pieces p
  have hplace : src.IsPlace (src.skipIgnored p) := hxs.isPlace hp
  have hle := hplace.index_le
  rw [← token_skipIgnored]
  cases hm : (src.scan (src.skipIgnored p)).accepted with
  | some m =>
      have hvisible := mt (isEmpty_visible_iff _ _).mp (visible_of_skipped hm)
      rw [token_of_accepted hm, if_neg hvisible]
      have := scan_accepted hm
      exact ⟨rfl, decide_eq_false (by omega)⟩
  | none =>
      rw [token_of_not_accepted hm, hplace.advanceAll_rest]
      split
      · next hend =>
          refine ⟨rfl, ?_⟩
          by_cases hlen : src.length ≤ (src.skipIgnored p).index
          · exact .inl ⟨by rw [← length_eq]; omega, decide_eq_true hlen⟩
          · refine .inr ⟨by rw [← length_eq]; omega, decide_eq_false hlen, hm, ?_⟩
            simpa [hlen] using hend
      · next hend =>
          simp only [Bool.or_eq_true, decide_eq_true_eq, not_or] at hend
          exact ⟨rfl, by rw [← length_eq]; omega, decide_eq_false hend.2⟩

end Source

/-- The helpers that look ahead agree with reading. They skip finitely many whole matches, at most
one for each character, and skip no more when asked again from there. A token that is read starts
behind them; an error lies there, before the end of the text; and if the text ends, it does so
there, or the automaton was alive to its end and had accepted nothing. -/
theorem Lexer.next_foreseen {src : Source} {l : Lexer} (hl : l.ReadFrom src src.IsPlace)
    {p : Position} (hp : src.IsPlace p) :
    src.skipIgnored (src.skipIgnored p) = src.skipIgnored p ∧
      src.Foresees p ((l.restore p).next src).1 ∧
      (∃ xs, src.Pieces p xs (src.skipIgnored p) ∧ (∀ x ∈ xs, src.Hides x) ∧
        p.index + xs.length ≤ (src.skipIgnored p).index) ∧
      WellFounded fun q p => ∃ m, (src.scan p).accepted = some m ∧ m.stop = q := by
  obtain ⟨xs, hxs, hhides⟩ := src.skipIgnored_pieces p
  refine ⟨src.skipIgnored_skipIgnored p, ?_, ⟨xs, hxs, hhides, hxs.index_add_length_le⟩,
    src.matches_wellFounded⟩
  have hread : ((l.restore p).next src).1 = src.token p := next_eq_token (l := l.restore p) hl hp
  rw [hread]
  exact Source.token_foreseen hp

/-- Arrows between ignored spaces. -/
def Samples.arrows (text : String) : Source :=
  .ofText
    { tags := [{ name := "Space", openings := [⟨.always, [1]⟩], ignored := true },
        { name := "Arrow", openings := [⟨.always, [2]⟩] }]
      automaton := ⟨[⟨1, .char ' ', [0], [0], []⟩, ⟨2, .char '-', [3], [], []⟩,
        ⟨3, .char '>', [0], [1], []⟩]⟩ } ∅ text ""

/-- Behind the first arrow the text ends in the middle of another one. -/
theorem Lexer.next_foreseen_arrows : (Samples.arrows " ->  -").IsPlace ⟨3, 1, 4⟩ ∧
    ((Lexer.restore {} ⟨3, 1, 4⟩).next (Samples.arrows " ->  -")).1 =
      .error (.endOfInput ⟨6, 1, 7⟩) ∧
    (Samples.arrows " ->  -").Foresees ⟨3, 1, 4⟩ (.error (.endOfInput ⟨6, 1, 7⟩)) := by
  have hp : (Samples.arrows " ->  -").IsPlace ⟨3, 1, 4⟩ := ⟨[' ', '-', '>'], by decide, by decide⟩
  have hread : ((Lexer.restore {} ⟨3, 1, 4⟩).next (Samples.arrows " ->  -")).1 =
      .error (.endOfInput ⟨6, 1, 7⟩) := error_of_failure? (by decide +kernel)
  obtain ⟨-, hforeseen, -⟩ := next_foreseen (l := {}) readFrom_empty hp
  rw [hread] at hforeseen
  exact ⟨hp, hread, hforeseen⟩

end Multipath
