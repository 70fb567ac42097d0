import Multipath.Proofs.Places
import Multipath.Samples

/-!
What a lexer remembers cannot be told from its answers. A reader without memory has nothing but a
position and works every token out again; it is asked the same as the lexer. As long as the lexer
is only moved to positions it came by itself, the two give the same answers and stand at the same
position after each of them (`Lexer.transcript_eq_afresh`).
-/

namespace Multipath

namespace Lexer

/-- What a lexer can be asked for. -/
inductive Request where
  | next
  | tokens
  | skipIgnored (p : Position)
  | atEnd (p : Position)
  | restore (p : Position)

inductive Answer where
  | token (result : Except LexicalError Token)
  | tokens (result : Except LexicalError (List Token))
  | skipped (p : Position)
  | atEnd (holds : Bool)
  | restored

/-- The answer of a lexer, and the lexer after it. -/
def perform (src : Source) : Request → Lexer → Answer × Lexer
  | .next, l => (.token (l.next src).1, (l.next src).2)
  | .tokens, l => (.tokens (l.tokens src).1, (l.tokens src).2)
  | .skipIgnored p, l => (.skipped (src.skipIgnored p), l)
  | .atEnd p, l => (.atEnd (src.atEnd p), l)
  | .restore p, l => (.restored, l.restore p)

/-- All answers, each with the position at which the lexer stands after it. -/
def transcript (src : Source) : Lexer → List Request → List (Answer × Position)
  | _, [] => []
  | l, request :: requests =>
    let (answer, l) := l.perform src request
    (answer, l.position) :: transcript src l requests

/-- A lexer is only ever moved to positions that were produced before. -/
def Request.Allowed (known : Position → Prop) : Request → Prop
  | .restore p => known p
  | _ => True

/-- The positions that an answer tells: ends of tokens, and where skipping leads to from positions
that were produced before. -/
def Request.Tells (known : Position → Prop) : Request → Answer → Position → Prop
  | .next, .token (.ok t), q => q = t.span.stop
  | .tokens, .tokens (.ok ts), q => ∃ t ∈ ts, q = t.span.stop
  | .skipIgnored p, .skipped p', q => known p ∧ q = p'
  | _, _, _ => False

/-- What has been produced once a request is answered. -/
def KnownAfter (src : Source) (known : Position → Prop) (l : Lexer) (request : Request)
    (q : Position) : Prop :=
  known q ∨ q = (l.perform src request).2.position ∨
    request.Tells known (l.perform src request).1 q

/-- Each request is allowed by what was produced when it is made. -/
def Admissible (src : Source) : (Position → Prop) → Lexer → List Request → Prop
  | _, _, [] => True
  | known, l, request :: requests =>
    request.Allowed known ∧
      Admissible src (KnownAfter src known l request) (l.perform src request).2 requests

end Lexer

namespace Source

/-- The token at a position and where a reader stands then. -/
def readOne (src : Source) (p : Position) : Except LexicalError Token × Position :=
  match src.token p with
  | .ok t => (.ok t, t.span.stop)
  | .error e => (.error e, p)

/-- All tokens from a position on, without a bound on their number. -/
def readAll (src : Source) (p : Position) : Except LexicalError (List Token) × Position :=
  match _h : src.token p with
  | .ok t =>
    let (rest, q) := src.readAll t.span.stop
    (rest.map (t :: ·), q)
  | .error e => (if e.isEndOfInput && src.atEnd p then .ok [] else .error e, p)
termination_by src.length - p.index
decreasing_by have := token_stop _h; omega

/-- The answer of a reader without memory, and where it stands after it. -/
def performAfresh (src : Source) : Lexer.Request → Position → Lexer.Answer × Position
  | .next, p => (.token (src.readOne p).1, (src.readOne p).2)
  | .tokens, p => (.tokens (src.readAll p).1, (src.readAll p).2)
  | .skipIgnored q, p => (.skipped (src.skipIgnored q), p)
  | .atEnd q, p => (.atEnd (src.atEnd q), p)
  | .restore q, _ => (.restored, q)

def transcriptAfresh (src : Source) :
    Position → List Lexer.Request → List (Lexer.Answer × Position)
  | _, [] => []
  | p, request :: requests =>
    let (answer, p) := src.performAfresh request p
    (answer, p) :: transcriptAfresh src p requests

variable {src : Source} {p : Position}

theorem readOne_of_ok {t : Token} (h : src.token p = .ok t) :
    src.readOne p = (.ok t, t.span.stop) := by rw [readOne, h]

theorem readOne_of_error {e : LexicalError} (h : src.token p = .error e) :
    src.readOne p = (.error e, p) := by rw [readOne, h]

theorem readAll_of_ok {t : Token} (h : src.token p = .ok t) :
    src.readAll p = ((src.readAll t.span.stop).1.map (t :: ·), (src.readAll t.span.stop).2) := by
  rw [readAll]
  split
  · next t' h' =>
      cases h.symm.trans h'
      rfl
  · next h' => cases h.symm.trans h'

theorem readAll_of_error {e : LexicalError} (h : src.token p = .error e) :
    src.readAll p = (if e.isEndOfInput && src.atEnd p then .ok [] else .error e, p) := by
  rw [readAll]
  split
  · next h' => cases h.symm.trans h'
  · next h' =>
      cases h.symm.trans h'
      rfl

theorem IsPlace.of_skipIgnored (hp : src.IsPlace p) : src.IsPlace (src.skipIgnored p) := by
  fun_induction src.skipIgnored p with
  | case1 p m hm _ ih => exact ih (hp.of_scan hm)
  | case2 | case3 => exact hp

/-- Tokens read from a place on end at places. -/
theorem IsPlace.of_mem_readAll (hp : src.IsPlace p) {ts : List Token}
    (h : (src.readAll p).1 = .ok ts) : ∀ t ∈ ts, src.IsPlace t.span.stop := by
  fun_induction src.readAll p generalizing ts with
  | case1 p t ht rest q hrest ih =>
      have hstop := hp.of_token ht
      cases rest with
      | error e => cases h
      | ok us =>
          cases h
          intro u hu
          obtain rfl | hu := List.mem_cons.mp hu
          · exact hstop
          · exact ih hstop (by rw [hrest]) u hu
  | case2 p e _ =>
      intro t ht
      dsimp only at h
      split at h
      · cases h
        exact absurd ht List.not_mem_nil
      · cases h

end Source

namespace Lexer

variable {src : Source} {known : Position → Prop} {l : Lexer}

/-- A failed reading leaves every lexer where it was. -/
theorem position_of_next_error {e : LexicalError} (h : (l.next src).1 = .error e) :
    (l.next src).2.position = l.position := by
  have hlookup : (l.lookup src).2.position = l.position := by
    unfold lookup
    split <;> rfl
  unfold next at h ⊢
  split at h
  · cases h
  · next h' => rw [← hlookup, h']

/-- All that the lexer remembers was read at places, and it stands at one. -/
def Placed (src : Source) (l : Lexer) : Prop := ReadFrom src src.IsPlace l ∧ src.IsPlace l.position

/-- A lexer that answers and goes on like a reader without memory. -/
def Matches (src : Source) {α : Type} (answered : α × Lexer) (afresh : α × Position) : Prop :=
  answered.1 = afresh.1 ∧ answered.2.position = afresh.2 ∧ answered.2.Placed src

theorem next_matches (h : l.Placed src) : Matches src (l.next src) (src.readOne l.position) := by
  have once := next_spec h.1 h.2
  have hread := next_eq_token h.1 h.2
  have hposition := once.position
  cases hnext : (l.next src).1 with
  | ok t =>
      rw [hnext] at hposition hread
      rw [Source.readOne_of_ok hread.symm]
      refine ⟨hnext, hposition, once.readFrom, ?_⟩
      rw [hposition]
      exact h.2.of_token hread.symm
  | error e =>
      rw [hnext] at hposition hread
      rw [Source.readOne_of_error hread.symm]
      refine ⟨hnext, hposition, once.readFrom, ?_⟩
      rw [hposition]
      exact h.2

/-- As many readings as there are characters left, and one more, are as good as any number. -/
theorem collect_matches (n : Nat) (h : l.Placed src) (hn : src.length < n + l.position.index) :
    Matches src (l.collect src n) (src.readAll l.position) := by
  induction n generalizing l with
  | zero =>
      have := h.2.index_le
      omega
  | succ n ih =>
      have hnext := next_matches h
      rw [collect]
      generalize l.next src = read at hnext ⊢
      obtain ⟨result, l'⟩ := read
      cases htoken : src.token l.position with
      | ok t =>
          rw [Source.readOne_of_ok htoken] at hnext
          obtain ⟨hresult, hposition, hplaced⟩ := hnext
          obtain rfl : result = .ok t := hresult
          have hstop := Source.token_stop htoken
          have hposition : l'.position = t.span.stop := hposition
          obtain ⟨hrest, hafter⟩ := ih hplaced (by rw [hposition]; omega)
          rw [hposition] at hrest hafter
          rw [Source.readAll_of_ok htoken]
          exact ⟨congrArg (Except.map (t :: ·)) hrest, hafter⟩
      | error e =>
          rw [Source.readOne_of_error htoken] at hnext
          obtain ⟨hresult, hposition, hplaced⟩ := hnext
          obtain rfl : result = .error e := hresult
          have hposition : l'.position = l.position := hposition
          rw [Source.readAll_of_error htoken]
          exact ⟨by simp only [hposition], hposition, hplaced⟩

/-- One request: the lexer answers as it would without memory, and what it produces are places. -/
theorem perform_matches (h : l.Placed src) (hknown : ∀ q, known q → src.IsPlace q)
    {request : Request} (hallowed : request.Allowed known) :
    Matches src (l.perform src request) (src.performAfresh request l.position) ∧
      ∀ q, KnownAfter src known l request q → src.IsPlace q := by
  have hmatch : Matches src (l.perform src request) (src.performAfresh request l.position) := by
    cases request with
    | next =>
        obtain ⟨hresult, hafter⟩ := next_matches h
        exact ⟨congrArg Answer.token hresult, hafter⟩
    | tokens =>
        obtain ⟨hresult, hafter⟩ := collect_matches (src.length + 1) h (by omega)
        exact ⟨congrArg Answer.tokens hresult, hafter⟩
    | skipIgnored p | atEnd p => exact ⟨rfl, rfl, h⟩
    | restore p => exact ⟨rfl, rfl, h.1, hknown p hallowed⟩
  refine ⟨hmatch, fun q hq => ?_⟩
  obtain hq | rfl | htells := hq
  · exact hknown q hq
  · exact hmatch.2.2.2
  · rw [hmatch.1] at htells
    cases request with
    | next =>
        rw [Source.performAfresh] at htells
        cases htoken : src.token l.position with
        | error e =>
            rw [Source.readOne_of_error htoken] at htells
            cases htells
        | ok t =>
            rw [Source.readOne_of_ok htoken] at htells
            obtain rfl : q = t.span.stop := htells
            exact h.2.of_token htoken
    | tokens =>
        rw [Source.performAfresh] at htells
        cases hall : (src.readAll l.position).1 with
        | error e =>
            rw [hall] at htells
            cases htells
        | ok ts =>
            rw [hall] at htells
            obtain ⟨t, ht, rfl⟩ := htells
            exact h.2.of_mem_readAll hall t ht
    | skipIgnored p =>
        obtain ⟨hp, rfl⟩ := htells
        exact (hknown p hp).of_skipIgnored
    | atEnd p | restore p => cases htells

theorem transcript_matches (requests : List Request) (h : l.Placed src)
    (hknown : ∀ q, known q → src.IsPlace q) (hadmissible : Admissible src known l requests) :
    l.transcript src requests = src.transcriptAfresh l.position requests := by
  induction requests generalizing known l with
  | nil => rfl
  | cons request requests ih =>
      obtain ⟨hallowed, hrest⟩ := hadmissible
      obtain ⟨⟨hanswer, hposition, hplaced⟩, hafter⟩ := perform_matches h hknown hallowed
      have htail := ih hplaced hafter hrest
      rw [hposition] at htail
      simp only [transcript, Source.transcriptAfresh, hanswer, hposition, htail]

/-- Asked for anything in any order, and moved only to positions it has produced, a lexer answers
as a reader that works out every token again, and stands where that one stands after each answer.
A reading that fails never moves a lexer. -/
theorem transcript_eq_afresh {src : Source} {requests : List Request}
    (h : Admissible src (· = .start) {} requests) :
    transcript src {} requests = src.transcriptAfresh .start requests ∧
      ∀ (l : Lexer) (e : LexicalError),
        (l.next src).1 = .error e → (l.next src).2.position = l.position := by
  have hstart : Placed src {} := ⟨readFrom_empty, src.isPlace_start⟩
  refine ⟨transcript_matches requests hstart (fun q hq => ?_) h, fun l e => position_of_next_error⟩
  rw [hq]
  exact src.isPlace_start

/-- Reading ahead, back to the start, over the same token, and behind it to the end. -/
theorem transcript_eq_afresh_lists :
    Admissible (Samples.listSession "a,a").source (· = .start) {}
        [.next, .next, .restore .start, .next, .restore ⟨1, 1, 2⟩, .tokens] ∧
      transcript (Samples.listSession "a,a").source {}
          [.next, .next, .restore .start, .next, .restore ⟨1, 1, 2⟩, .tokens] =
        (Samples.listSession "a,a").source.transcriptAfresh .start
          [.next, .next, .restore .start, .next, .restore ⟨1, 1, 2⟩, .tokens] := by
  have hstop : (⟨1, 1, 2⟩ : Position) =
      (perform (Samples.listSession "a,a").source .next {}).2.position := by decide +kernel
  have hadmissible : Admissible (Samples.listSession "a,a").source (· = .start) {}
      [.next, .next, .restore .start, .next, .restore ⟨1, 1, 2⟩, .tokens] := by
    refine ⟨trivial, trivial, .inl (.inl rfl), trivial, ?_, trivial, trivial⟩
    exact .inl (.inl (.inl (.inr (.inl hstop))))
  exact ⟨hadmissible, (transcript_eq_afresh hadmissible).1⟩

end Lexer
end Multipath
