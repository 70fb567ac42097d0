import Multipath.Proofs.Agreement
import Multipath.Proofs.Attention
import Multipath.Proofs.Standing

/-!
Runs on one level have read and found the same and derive the same rules; what they counted may
differ, and where an expected token was missing. No evaluation tells such runs apart
(`Session.evaluate_level`). A rule whose questions are all answered can be evaluated once more
without finding anything out (`Run.Still`, `Session.evaluate_idle`).
-/

namespace Multipath

open Search (outputOf readToken)

/-- What was read at an index is not read again. -/
theorem Lexer.next_of_cached {s : Source} {l : Lexer} {result : Except LexicalError Token}
    (h : l.cache[l.position.index]? = some result) :
    (l.next s).1 = result ∧ (l.next s).2.cache = l.cache := by
  unfold next lookup
  rw [h]
  cases result <;> exact ⟨rfl, rfl⟩

/-- The runs have read and found the same, and derive the same rules. -/
structure Run.Level (run run' : Run) : Prop where
  cache : run.lexer.cache = run'.lexer.cache
  memo : run.memo = run'.memo
  arena : run.arena = run'.arena
  frames : run.frames = run'.frames

namespace Run.Level

variable {run run' run'' : Run}

theorem refl (run : Run) : run.Level run := ⟨rfl, rfl, rfl, rfl⟩

theorem symm (h : run.Level run') : run'.Level run :=
  ⟨h.cache.symm, h.memo.symm, h.arena.symm, h.frames.symm⟩

theorem trans (h : run.Level run') (h' : run'.Level run'') : run.Level run'' :=
  ⟨h.cache.trans h'.cache, h.memo.trans h'.memo, h.arena.trans h'.arena, h.frames.trans h'.frames⟩

theorem noteFailure (h : run.Level run') (p : Position) :
    (run.noteFailure p).Level (run'.noteFailure p) := ⟨h.cache, h.memo, h.arena, h.frames⟩

theorem enter (h : run.Level run') (rule : RuleId) (p : Position) :
    (run.enter rule p).Level (run'.enter rule p) where
  cache := h.cache
  memo := congrArg (·.record p rule .inProgress) h.memo
  arena := h.arena
  frames := by simp only [Run.enter, h.frames]

theorem fail (h : run.Level run') (rule : RuleId) (p : Position) (f : Failure) :
    (run.fail rule p f).Level (run'.fail rule p f) where
  cache := h.cache
  memo := congrArg (·.record p rule (.failed f)) h.memo
  arena := h.arena
  frames := congrArg List.tail h.frames

theorem succeed (h : run.Level run') (rule : RuleId) (p : Position) (output : PathSet) :
    (run.succeed rule p output).1 = (run'.succeed rule p output).1 ∧
      (run.succeed rule p output).2.Level (run'.succeed rule p output).2 := by
  unfold Run.succeed
  simp only [h.memo, h.arena, h.frames, true_and]
  exact ⟨h.cache, rfl, rfl, rfl⟩

end Run.Level

/-- The later run has found nothing out since, nor tried to: it has looked answers up, at most, and
noted where an expected token was missing. -/
structure Run.Still (run run' : Run) : Prop where
  level : run'.Level run
  evaluations : run'.stats.evaluations = run.stats.evaluations
  leftRecursionHits : run'.stats.leftRecursionHits = run.stats.leftRecursionHits
  maxDepth : run'.stats.maxDepth = run.stats.maxDepth

namespace Run.Still

variable {run run' run'' : Run}

theorem refl (run : Run) : run.Still run := ⟨.refl run, rfl, rfl, rfl⟩

theorem trans (h : run.Still run') (h' : run'.Still run'') : run.Still run'' where
  level := h'.level.trans h.level
  evaluations := h'.evaluations.trans h.evaluations
  leftRecursionHits := h'.leftRecursionHits.trans h.leftRecursionHits
  maxDepth := h'.maxDepth.trans h.maxDepth

theorem noteFailure (run : Run) (p : Position) : run.Still (run.noteFailure p) :=
  ⟨⟨rfl, rfl, rfl, rfl⟩, rfl, rfl, rfl⟩

theorem lexer {l : Lexer} (hcache : l.cache = run.lexer.cache) :
    run.Still { run with lexer := l } := ⟨⟨hcache, rfl, rfl, rfl⟩, rfl, rfl, rfl⟩

end Run.Still

/-- Runs are on one level, and failures the same. -/
def Comparison.level : Comparison Run where
  states := Run.Level
  failures := Eq
  counts _ := True
  absorbable_eq h := congrArg Failure.isAbsorbable h
  counts_of_absorbable _ := trivial

namespace Session

variable {s : Session} {run run' : Run}

theorem readsAlike_level : s.ReadsAlike .level fun _ => True where
  reason p h := by rw [h.frames]; rfl
  note p h := h.noteFailure p
  read {run run' p} _ h := by
    have hlexer : run.lexer.restore p = run'.lexer.restore p := by
      simp only [Lexer.restore, h.cache]
    refine Search.ensures_readToken.mpr fun _ => Search.ensures_readToken.mpr ⟨?_, .ok ?_⟩
    · rw [hlexer]
      exact ⟨rfl, h.memo, h.arena, h.frames⟩
    · exact ⟨by rw [hlexer], fun _ _ => trivial⟩

theorem comparesKnowing_level : s.ComparesKnowing .level where
  reason := (readsAlike_level (s := s)).reason
  terminal tag _ _ h :=
    (terminal_agrees (s := s) readsAlike_level tag (fun _ _ => trivial) h).mono
      fun _ _ hsame => ⟨hsame.1, trivial⟩
  union _ _ := trivial
  diff _ _ := trivial
  rounds _ h := .inl (by unfold pathBound; rw [h.arena])
  failures_iff := Iff.rfl
  memo h := h.memo
  arena h := h.arena
  countMemoHit h := ⟨h.cache, h.memo, h.arena, h.frames⟩
  countLeftRecursion h := ⟨h.cache, h.memo, h.arena, h.frames⟩
  enter rule p h := h.enter rule p
  succeed rule p output h := h.succeed rule p output
  fail rule p f h := h.fail rule p f

/-- References as they are answered where no rule is being derived. -/
def resolver (s : Session) : Resolver := fun rule p => s.deriveWithin s.maxDepth rule p >>= outputOf

theorem resolver_level (rule : RuleId) (p : Position) (h : run.Level run') :
    Agrees .level (Same fun _ => True) (s.resolver rule p) (s.resolver rule p) run run' :=
  outputOf_agrees (s := s) comparesKnowing_level
    (deriveWithin_agrees comparesKnowing_level (.inl rfl) rule p h)

/-- Level runs are not told apart. -/
theorem evaluate_level (rule : Rule) (input : PathSet) (h : run.Level run') :
    Agrees .level (Same fun _ => True) (s.evaluate s.resolver rule input)
      (s.evaluate s.resolver rule input) run run' :=
  evaluate_agrees comparesKnowing_level.toCompares
    (fun rule _ _ p _ _ _ h => resolver_level rule p h) rule input run run' trivial h

section Idle
variable {base : Run}

/-- What a run at rest has answered is looked up. -/
theorem deriveWithin_answered (hrest : base.Resting s) (hdefined : base.Defined s) {rule : RuleId}
    {p : Position} (hasked : base.Answered s s.maxDepth (.reference rule p))
    (h : run.Level base) :
    Ensures (s.deriveWithin s.maxDepth rule p) run fun result run' => run.Still run' ∧
      match result with
      | .ok id => base.memo.find? p rule = some (.succeeded id)
      | .error f => f.isAbsorbable = true ∧
          (base.memo.find? p rule = some (.failed f) ∨ s.grammar.rule? rule = none) := by
  have hhit : run.Still run.countMemoHit := ⟨⟨rfl, rfl, rfl, rfl⟩, rfl, rfl, rfl⟩
  obtain ⟨finding, hm, hbears⟩ | ⟨hnone, hdepth⟩ := hasked
  · have hsettled : finding ≠ .inProgress := fun heq =>
      hrest.settled p rule (hm.trans (congrArg some heq))
    refine (s.deriveWithin_settled s.maxDepth (h.memo ▸ hm) hsettled).mono fun result run' hpost => ?_
    obtain ⟨rfl, rfl⟩ := hpost
    cases finding with
    | inProgress => exact absurd rfl hsettled
    | failed f => exact ⟨hhit, hbears, .inl hm⟩
    | succeeded id => exact ⟨hhit, hm⟩
  · have hm : run.memo.find? p rule = none := by
      rw [h.memo]
      cases hm : base.memo.find? p rule with
      | none => rfl
      | some finding => exact absurd hnone (hdefined p rule finding hm)
    obtain ⟨depth, hdepth⟩ := Nat.exists_eq_succ_of_ne_zero (Nat.ne_of_gt hdepth)
    rw [hdepth, deriveWithin, ensures_consult, hm]
    unfold deriveFresh
    rw [hnone]
    exact ensures_throw.mpr ⟨.refl run, rfl, .inr rfl⟩

theorem resolver_answered (hrest : base.Resting s) (hdefined : base.Defined s) {rule : RuleId}
    {p : Position} (hasked : base.Answered s s.maxDepth (.reference rule p))
    (h : run.Level base) :
    Ensures (s.resolver rule p) run fun result run' => run.Still run' ∧
      match result with
      | .ok out => ∀ q ∈ out, base.Known rule p q
      | .error f => f.isAbsorbable = true := by
  refine ensures_bind.mpr ((deriveWithin_answered hrest hdefined hasked h).mono
    fun result run' hpost => ?_)
  obtain ⟨hstill, hpost⟩ := hpost
  cases result with
  | error f => exact ⟨hstill, hpost.1⟩
  | ok id =>
      refine Search.ensures_outputOf.mpr ⟨hstill, fun q hq => ?_⟩
      rw [(hstill.level.trans h).arena] at hq
      exact hrest.valid.known hpost hq

/-- Questions that a run at rest has answered are answered from what it knows. -/
def recollection (hrest : base.Resting s) (hdefined : base.Defined s) (h : run.Level base) :
    Inquiry s s.resolver where
  reads := base.Reads
  refers := base.Known
  asked := base.Answered s s.maxDepth
  inv := run.Still
  fails f := f.isAbsorbable = true
  noPath _ _ := rfl
  noteFailure p hinv := hinv.trans (.noteFailure _ p)
  read {p run'} hasked hinv := by
    obtain ⟨result, hresult⟩ := hasked
    have hcached : (run'.lexer.restore p).cache[p.index]? = some result := by
      simpa only [Lexer.restore, (hinv.level.trans h).cache] using hresult
    obtain ⟨hnext, hcache⟩ := Lexer.next_of_cached (s := s.source) hcached
    refine Search.ensures_readToken.mpr
      ⟨hinv.trans (.lexer hcache), result, congrArg _ hnext, fun t ht => ?_⟩
    rwa [ht] at hresult
  answer {rule p run'} hasked hinv := by
    refine (resolver_answered hrest hdefined hasked (hinv.level.trans h)).mono
      fun result run'' hpost => ?_
    cases result with
    | ok out => exact ⟨hinv.trans hpost.1, hpost.2⟩
    | error f => exact ⟨hpost.2, fun _ => hinv.trans hpost.1⟩

/-- Evaluating a rule, all of whose questions are answered, finds nothing out. -/
theorem evaluate_idle (hrest : base.Resting s) (hdefined : base.Defined s) (rule : Rule)
    (input : PathSet)
    (hasked : ∀ p ∈ input, ∀ x, base.Asks s rule p x → base.Answered s s.maxDepth x)
    (h : run.Level base) :
    Ensures (s.evaluate s.resolver rule input) run fun result run' => run.Still run' ∧
      match result with
      | .ok out => ∀ q ∈ out, ∃ p ∈ input, base.Leads s rule p q
      | .error f => f.isAbsorbable = true := by
  have hfinds := (recollection hrest hdefined h).evaluate rule input run hasked (.refl run)
  refine Ensures.mono hfinds fun result run' hpost => ?_
  cases result with
  | ok out => exact hpost
  | error f => exact ⟨hpost.2 hpost.1, hpost.1⟩

end Idle
end Session
end Multipath
