import Mathlib.Data.List.Induction
import Multipath.Proofs.Hosting

/-!
Line and column are functions of the index. At a place of a text, the line counts the newlines
before the index and the column the characters since the last of them; conversely nothing else is
a place (`Source.isPlace_iff_isCanonical`). So places are in the same order by index as by line and
column. Lexers, runs, extractions and parses can be asked for one thing after the other; as long as
they are asked at positions that occurred before, all positions that ever occur are such
(`Session.positions_canonical`).
-/

namespace Multipath

open Positioned (occurs)

namespace Position

/-- Before another position for someone who reads lines: on an earlier line, or further left on the
same. -/
def Above (p q : Position) : Prop := p.line < q.line ∨ p.line = q.line ∧ p.column < q.column

/-- The comparison by line, then by column. -/
def compareText : Position → Position → Ordering :=
  compareLex (compareOn (·.line)) (compareOn (·.column))

instance : Std.TransCmp compareText :=
  inferInstanceAs (Std.TransCmp (compareLex (compareOn line) (compareOn column)))

variable {p q r : Position}

theorem compareText_eq_lt : compareText p q = .lt ↔ p.Above q := by
  simp only [compareText, compareLex, compareOn, Ordering.then_eq_lt, Nat.compare_eq_lt,
    Nat.compare_eq_eq, Above]

theorem Above.trans (h : p.Above q) (h' : q.Above r) : p.Above r := by
  unfold Above at *
  omega

theorem above_advance (p : Position) (c : Char) : p.Above (p.advance c) := by
  unfold advance
  split
  · exact .inl (Nat.lt_succ_self p.line)
  · exact .inr ⟨rfl, Nat.lt_succ_self p.column⟩

theorem above_advanceAll {cs : List Char} (h : cs ≠ []) : p.Above (p.advanceAll cs) := by
  induction cs generalizing p with
  | nil => exact absurd rfl h
  | cons c cs ih =>
      by_cases hcs : cs = []
      · exact hcs ▸ p.above_advance c
      · exact (p.above_advance c).trans (ih hcs)

/-- Where some text leads to from the start. -/
theorem start_advanceAll (cs : List Char) : start.advanceAll cs =
    ⟨cs.length, 1 + cs.count '\n', 1 + (cs.reverse.takeWhile (· ≠ '\n')).length⟩ := by
  induction cs using List.reverseRecOn with
  | nil => rfl
  | append_singleton cs c ih =>
      rw [advanceAll_append, ih]
      change advance _ c = _
      by_cases hc : c = '\n'
      · simp [advance, hc, Nat.add_assoc]
      · simp [advance, hc, Nat.add_comm]

end Position

namespace Source

variable {src : Source} {p q : Position}

/-- A position in the text whose line and column are those of its index. -/
structure IsCanonical (src : Source) (p : Position) : Prop where
  index_le : p.index ≤ src.input.length
  line_eq : p.line = 1 + (src.input.take p.index).count '\n'
  column_eq : p.column = 1 + ((src.input.take p.index).reverse.takeWhile (· ≠ '\n')).length

theorem isPlace_iff_isCanonical : src.IsPlace p ↔ src.IsCanonical p := by
  constructor
  · intro h
    obtain ⟨before, hbefore, rfl⟩ := h
    have htake : src.input.take before.length = before :=
      (List.prefix_iff_eq_take.mp hbefore).symm
    rw [Position.start_advanceAll]
    exact ⟨hbefore.length_le, by rw [htake], by rw [htake]⟩
  · intro h
    refine ⟨src.input.take p.index, List.take_prefix _ _, ?_⟩
    rw [Position.start_advanceAll, List.length_take, Nat.min_eq_left h.index_le, ← h.line_eq,
      ← h.column_eq]

theorem IsPlace.above (hp : src.IsPlace p) (hq : src.IsPlace q) (h : p.index < q.index) :
    p.Above q := by
  obtain ⟨before, hbefore, rfl⟩ := hp
  obtain ⟨before', hbefore', rfl⟩ := hq
  simp only [index_start_advanceAll] at h
  obtain ⟨cs, rfl⟩ := List.prefix_of_prefix_length_le hbefore hbefore' (Nat.le_of_lt h)
  rw [Position.advanceAll_append]
  refine Position.above_advanceAll fun hcs => ?_
  simp [hcs] at h

/-- Of two places it does not matter by what they are compared. -/
theorem IsPlace.compare_eq (hp : src.IsPlace p) (hq : src.IsPlace q) :
    compare p q = compare p.index q.index ∧ compare p q = p.compareText q := by
  have hless {p q : Position} (hp : src.IsPlace p) (hq : src.IsPlace q) (h : p.index < q.index) :
      compare p q = .lt ∧ compare p.index q.index = .lt ∧ p.compareText q = .lt :=
    ⟨Position.compare_eq_lt.mpr (.inl h), Nat.compare_eq_lt.mpr h,
      Position.compareText_eq_lt.mpr (hp.above hq h)⟩
  obtain h | h | h := Nat.lt_trichotomy p.index q.index
  · obtain ⟨hall, hindex, htext⟩ := hless hp hq h
    exact ⟨hall.trans hindex.symm, hall.trans htext.symm⟩
  · obtain rfl := hp.eq_of_index hq h
    simp only [Std.ReflCmp.compare_self, and_self]
  · obtain ⟨hall, hindex, htext⟩ := hless hq hp h
    have hall := Std.OrientedCmp.gt_of_lt hall
    exact ⟨hall.trans (Std.OrientedCmp.gt_of_lt hindex).symm,
      hall.trans (Std.OrientedCmp.gt_of_lt htext).symm⟩

end Source

/-- What can be asked for while a text is read. A lexer by itself is that of a grammar without
rules. -/
inductive Operation where
  | next
  | tokens
  | skipIgnored (p : Position)
  | atEnd (p : Position)
  | restore (p : Position)
  | evaluate (rule : Rule) (input : PathSet)
  | derive (rule : RuleId) (p : Position)
  /-- Puts other paths in the place of a node's output. -/
  | narrow (id : NodeId) (output : PathSet)
  /-- Goes on with the lexer and nothing else. -/
  | restart
  /-- Begins another extraction. -/
  | renew
  | branch (rule : RuleId) (start stop : Position)
  | parse (trailingIgnorable : Bool) (start : Position)

namespace Operation

inductive Answer where
  | token (result : Except LexicalError Token)
  | tokens (result : Except LexicalError (List Token))
  | place (p : Position)
  | holds (holds : Bool)
  | paths (result : Except Failure PathSet)
  | node (result : Except Failure NodeId)
  | branch (result : Except Failure (Option Branch))
  | parse (result : Except ParseError Parse)
  | done

instance : Positioned Operation where
  occurs p
    | .skipIgnored q | .atEnd q | .restore q | .derive _ q | .parse _ q => p = q
    | .evaluate _ paths | .narrow _ paths => occurs p paths
    | .branch _ q r => p = q ∨ p = r
    | .next | .tokens | .restart | .renew => False

instance : Positioned Answer where
  occurs p
    | .token result => occurs p result
    | .tokens result => occurs p result
    | .place q => occurs p q
    | .paths result => occurs p result
    | .node result => occurs p result
    | .branch result => occurs p result
    | .parse result => occurs p result
    | .holds _ | .done => False

end Operation

def Extraction.setLexer (e : Extraction) (lexer : Lexer) : Extraction :=
  { e with run := { e.run with lexer } }

namespace Session

open Operation (Answer)

/-- The answer to an operation, and all that is kept after it. -/
def perform (s : Session) : Operation → Extraction → Answer × Extraction
  | .next, e =>
    let (result, lexer) := e.run.lexer.next s.source
    (.token result, e.setLexer lexer)
  | .tokens, e =>
    let (result, lexer) := e.run.lexer.tokens s.source
    (.tokens result, e.setLexer lexer)
  | .skipIgnored p, e => (.place (s.source.skipIgnored p), e)
  | .atEnd p, e => (.holds (s.source.atEnd p), e)
  | .restore p, e => (.done, e.setLexer (e.run.lexer.restore p))
  | .evaluate rule input, e =>
    let (result, run) := (s.follow rule input).run.run e.run
    (.paths result, { e with run })
  | .derive rule p, e =>
    let (result, run) := (s.derive rule p).run.run e.run
    (.node result, { e with run })
  | .narrow id output, e => (.done, { e with run := e.run.setOutput id output })
  | .restart, e => (.done, { run := { lexer := e.run.lexer } })
  | .renew, e => (.done, { run := e.run })
  | .branch rule p q, e =>
    let (result, e) := (s.branch rule p q).run.run e
    (.branch result, e)
  | .parse trailing p, e => (.parse (s.parse trailing p), e)

/-- All answers, each with what is kept after it. -/
def transcript (s : Session) : Extraction → List Operation → List (Answer × Extraction)
  | _, [] => []
  | e, operation :: operations =>
    s.perform operation e :: s.transcript (s.perform operation e).2 operations

/-- Each operation is given positions only that occurred before. -/
def Admissible (s : Session) : (Position → Prop) → Extraction → List Operation → Prop
  | _, _, [] => True
  | known, e, operation :: operations =>
    (∀ p, occurs p operation → known p) ∧
      s.Admissible (fun p => known p ∨ occurs p (s.perform operation e))
        (s.perform operation e).2 operations

/-- A position occurs in the course of operations that begin at the start of the text. -/
def Meets (s : Session) (operations : List Operation) (p : Position) : Prop :=
  p = .start ∨ occurs p (s.transcript { run := {} } operations)

variable {s : Session} {e : Extraction} {operations : List Operation}

open Source

theorem hosts_setLexer (he : s.source.Hosts e) {lexer : Lexer} (hlexer : s.source.Hosts lexer) :
    s.source.Hosts (e.setLexer lexer) := by
  have he := hosts_extraction.mp he
  exact hosts_extraction.mpr ⟨hosts_run.mpr ⟨hlexer, (hosts_run.mp he.1).2⟩, he.2⟩

theorem hosts_restart {lexer : Lexer} (h : s.source.Hosts lexer) :
    s.source.Hosts ({ run := { lexer } } : Extraction) :=
  hosts_renew (hosts_run.mpr ⟨h, (hosts_run.mp hosts_fresh).2⟩)

/-- Asked at places, an operation answers with places and leaves places. -/
theorem perform_hosted {operation : Operation} (hoperation : s.source.Hosts operation)
    (he : s.source.Hosts e) : s.source.Hosts (s.perform operation e) := by
  have hrun := (hosts_extraction.mp he).1
  have hrest := (hosts_extraction.mp he).2
  have hlexer := (hosts_run.mp hrun).1
  cases operation with
  | next =>
      have hnext := hosts_prod.mp (hosts_next hlexer)
      exact hosts_prod.mpr ⟨hnext.1, hosts_setLexer he hnext.2⟩
  | tokens =>
      have htokens := hosts_prod.mp (hosts_collect (s.source.length + 1) hlexer)
      exact hosts_prod.mpr ⟨htokens.1, hosts_setLexer he htokens.2⟩
  | skipIgnored p =>
      have hp := hosts_position.mp hoperation
      exact hosts_prod.mpr ⟨hosts_position.mpr hp.of_skipIgnored, he⟩
  | atEnd p => exact hosts_prod.mpr ⟨nofun, he⟩
  | restore p =>
      have hp := hosts_position.mp hoperation
      exact hosts_prod.mpr ⟨nofun, hosts_setLexer he (hosts_restore hlexer hp)⟩
  | evaluate rule input =>
      have hfollow := (follow_hosted rule hoperation).hosts_outcome (fun _ h => h) hrun
      exact hosts_prod.mpr ⟨hfollow.1, hosts_extraction.mpr ⟨hfollow.2, hrest⟩⟩
  | derive rule p =>
      have hp := hosts_position.mp hoperation
      have hderive := (derive_hosted rule hp).hosts_outcome (fun _ _ => hosts_nat _) hrun
      exact hosts_prod.mpr ⟨hderive.1, hosts_extraction.mpr ⟨hderive.2, hrest⟩⟩
  | narrow id output =>
      exact hosts_prod.mpr
        ⟨nofun, hosts_extraction.mpr ⟨hosts_setOutput hrun id hoperation, hrest⟩⟩
  | restart => exact hosts_prod.mpr ⟨nofun, hosts_restart hlexer⟩
  | renew => exact hosts_prod.mpr ⟨nofun, hosts_renew hrun⟩
  | branch rule p q =>
      have hp : s.source.IsPlace p := hoperation p (.inl rfl)
      have hq : s.source.IsPlace q := hoperation q (.inr rfl)
      exact hosts_prod.mpr ((branch_hosted rule hp hq).hosts_outcome (fun _ h => h) he)
  | parse trailing p =>
      have hp := hosts_position.mp hoperation
      exact hosts_prod.mpr ⟨hosts_parse trailing hp, he⟩

theorem transcript_hosted {known : Position → Prop} (h : s.Admissible known e operations)
    (hknown : ∀ p, known p → s.source.IsPlace p) (he : s.source.Hosts e) :
    s.source.Hosts (s.transcript e operations) := by
  induction operations generalizing known e with
  | nil => exact hosts_nil
  | cons operation operations ih =>
      have hperform : s.source.Hosts (s.perform operation e) :=
        perform_hosted (fun p hp => hknown p (h.1 p hp)) he
      refine hosts_cons.mpr ⟨hperform, ih h.2 (fun p hp => ?_) (hosts_prod.mp hperform).2⟩
      exact hp.elim (hknown p) (hperform p)

/-- Whatever is asked for at positions that occurred before, positions that occur have the line
and the column of their index, so that they are in one order, however they are compared. -/
theorem positions_canonical (h : s.Admissible (· = .start) { run := {} } operations) :
    (∀ p, s.Meets operations p → s.source.IsCanonical p) ∧
      ∀ p q, s.Meets operations p → s.Meets operations q →
        compare p q = compare p.index q.index ∧ compare p q = p.compareText q := by
  have hplace : ∀ p, s.Meets operations p → s.source.IsPlace p := by
    rintro p (rfl | hp)
    · exact s.source.isPlace_start
    · refine transcript_hosted h (fun q hq => ?_) (hosts_renew hosts_fresh) p hp
      exact hq ▸ s.source.isPlace_start
  exact ⟨fun p hp => isPlace_iff_isCanonical.mp (hplace p hp),
    fun p q hp hq => (hplace p hp).compare_eq (hplace q hq)⟩

theorem positions_canonical_lists : ∃ operations,
    (Samples.listSession "a,a").Admissible (· = .start) { run := {} } operations ∧
      (Samples.listSession "a,a").Meets operations ⟨3, 1, 4⟩ ∧
      (∀ p, (Samples.listSession "a,a").Meets operations p →
        (Samples.listSession "a,a").source.IsCanonical p) ∧
      ∀ p q, (Samples.listSession "a,a").Meets operations p →
        (Samples.listSession "a,a").Meets operations q →
          compare p q = compare p.index q.index ∧ compare p q = p.compareText q := by
  have hstop : (⟨3, 1, 4⟩ : Position) =
      ((Samples.listSession "a,a").perform .tokens { run := {} }).2.run.lexer.position := by
    decide +kernel
  have hmet : occurs (⟨3, 1, 4⟩ : Position)
      ((Samples.listSession "a,a").perform .tokens { run := {} }) :=
    .inr (.inl (.inl (.inl hstop)))
  have hadmissible : (Samples.listSession "a,a").Admissible (· = .start) { run := {} }
      [.tokens, .derive 0 .start, .restore ⟨3, 1, 4⟩, .branch 0 .start ⟨3, 1, 4⟩,
        .evaluate (.nonterminal 1) {.start}, .parse true .start] := by
    refine ⟨nofun, fun p hp => .inl hp, fun p hp => .inl (.inr (hp ▸ hmet)), fun p hp => ?_,
      fun p hp => ?_, fun p hp => ?_, trivial⟩
    · obtain rfl | rfl := hp
      · exact .inl (.inl (.inl rfl))
      · exact .inl (.inl (.inr hmet))
    · exact .inl (.inl (.inl (.inl (SortedSet.mem_singleton.mp hp))))
    · exact .inl (.inl (.inl (.inl (.inl hp))))
  exact ⟨_, hadmissible, .inr ⟨_, List.mem_cons_self, hmet⟩, positions_canonical hadmissible⟩

end Session
end Multipath
