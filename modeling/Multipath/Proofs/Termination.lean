import Multipath.Proofs.HaltingBranches
import Multipath.Proofs.NestingBound

/-!
Everything that can be asked of a run comes to an end, whether rules may nest to some limit or
without one. A session under a limit is the session with that bound; one without a limit does as
the session does whose bound is out of reach (`Session.ample`). So the calls of an unbounded run are
calls of a bounded one, and what holds of the latter carries over: the run keeps to the chain of
tokens and evaluates each rule once at each position there, at most.
-/

namespace Multipath

open Search (readToken)

namespace Limit

/-- What calls on the chain lead to, rules nesting up to the limit if there is one. -/
inductive Reached (s : Session) (limit : Limit) (start : Position) : Extraction → Prop
  | fresh : Reached s limit start { run := {} }
  | evaluate {run rule input result run'} : Reached s limit start { run } →
      (∀ p ∈ input, s.source.OnChain start p) →
      evaluate s limit rule input run = some (result, run') →
      Reached s limit start { run := run' }
  | derive {run rule p result run'} : Reached s limit start { run } → s.source.OnChain start p →
      derive s limit rule p run = some (result, run') →
      Reached s limit start { run := run' }
  | read {run p result run'} : Reached s limit start { run } → s.source.OnChain start p →
      (readToken s.source p).run.run run = (result, run') → Reached s limit start { run := run' }
  | narrow {run id q} : Reached s limit start { run } → id + 1 = run.arena.size →
      q ∈ run.arena.output id → Reached s limit start { run := run.setOutput id {q} }
  | branch {e rule p q result e'} : Reached s limit start e → s.source.OnChain start p →
      branch s limit rule p q e = some (result, e') → Reached s limit start e'
  | renew {e} : Reached s limit start e → Reached s limit start { run := e.run }

variable {s : Session} {bound : Nat} {limit : Limit}

/-! The bound of a session is nothing to an unbounded run. -/

theorem evaluate_within : evaluate (s.within bound) limit = evaluate s limit := by
  with_unfolding_all rfl

theorem derive_within : derive (s.within bound) limit = derive s limit := by
  with_unfolding_all rfl

theorem branch_within : branch (s.within bound) limit = branch s limit := by
  with_unfolding_all rfl

end Limit

section Bounds
variable {s : Session} {limit : Limit} {start : Position}

/-- The session with the limit as its bound, or with one that is out of reach. -/
def Session.upTo (s : Session) (limit : Limit) (start : Position) : Session :=
  s.within (limit.getD (s.ample start))

theorem Session.admits_upTo : (s.upTo limit start).Admits start limit := by
  cases limit with
  | some most => rfl
  | none => exact Nat.le_refl (s.ample start)

theorem Session.length_stretches (stops : List Position) :
    (s.stretches start stops).length = (s.references start).length * stops.length := by
  simp [stretches, List.length_flatMap, List.map_const']

/-- At first no stretch is under way, and all levels are left. -/
theorem Session.Admits.room (h : s.Admits start limit) (q : Position) :
    s.Room limit start (q :: s.source.positionsFrom start) s.maxDepth
      (s.stretches start (q :: s.source.positionsFrom start)).length ∅ where
  within _ h := absurd h Std.TreeSet.not_mem_emptyc
  left := Nat.le_add_left _ _
  levels := by
    cases limit with
    | some most => exact h
    | none =>
        have hample : s.ample start ≤ s.maxDepth := h
        unfold ample at hample
        dsimp only
        rw [length_stretches, List.length_cons, Std.TreeSet.size_emptyc]
        omega

end Bounds

section Calls
variable {s : Session} {limit : Limit} {start : Position} {e : Extraction}

/-- What calls on the chain lead to is ready for more of them. -/
theorem Extraction.Reached.ready (h : e.Reached s (s.source.OnChain start)) :
    e.Ready s start ∅ where
  valid := (h.valid (c := .chain s.source start) fun _ hp => hp).run
  resting := h.standing.1
  defined := h.standing.2
  active_iff stretch := by
    have hnone {run : Run} : stretch ∈ ({ run } : Extraction).active ↔
        stretch ∈ (∅ : Std.TreeSet Stretch) := Iff.rfl
    induction h with
    | fresh | evaluate _ _ _ | derive _ _ _ | read _ _ _ | narrow _ _ _ | renew _ => exact hnone
    | @branch e rule p q result e' he hp hrun ih =>
        have hvalid := he.valid (c := .chain s.source start) fun _ hp => hp
        exact (((branch_gives rule p q hvalid (.inl hp)).of_run hrun).2.1.active stretch).trans ih

namespace Extraction.Ready

variable (h : e.Ready s start ∅) (hlimit : s.Admits start limit)
include h hlimit

theorem derive_eq_some (rule : RuleId) {p : Position} (hp : s.source.OnChain start p) :
    Limit.derive s limit rule p e.run = some ((s.derive rule p).run.run e.run) :=
  Session.derivations_halt _ _ rule p e.run (h.run hlimit) hp

theorem evaluate_eq_some (rule : Rule) {input : PathSet}
    (hinput : ∀ p ∈ input, s.source.OnChain start p) :
    Limit.evaluate s limit rule input e.run = some ((s.follow rule input).run.run e.run) :=
  Session.evaluate_halts (Session.derivations_halt _ _) rule input e.run (h.run hlimit) hinput

theorem branch_eq_some (rule : RuleId) {p : Position} (hp : s.source.OnChain start p)
    (q : Position) :
    Limit.branch s limit rule p q e = some ((s.branch rule p q).run.run e) := by
  have hstops : ∀ q', s.source.OnChain start q' → q' ∈ q :: s.source.positionsFrom start :=
    fun q' hq' => List.mem_cons_of_mem _ hq'.mem_positionsFrom
  have hdepth : s.maxDepth - e.active.size = s.maxDepth := by
    rw [h.size_active, Std.TreeSet.size_emptyc, Nat.sub_zero]
  have hhalts : Halts (Limit.branch s limit rule p q)
      (s.branchWithin (s.maxDepth - e.active.size) rule p q) e := by
    rw [hdepth]
    exact (branches_halt hlimit hstops _ _ (hlimit.room q) rule p q e h hp List.mem_cons_self).1
  exact hhalts

end Extraction.Ready

/-! An unbounded call is the call of the session whose bound is the limit, or out of reach. -/

section UpTo
variable (h : e.Ready (s.upTo limit start) start ∅)
include h

theorem Limit.derive_eq_upTo (rule : RuleId) {p : Position} (hp : s.source.OnChain start p) :
    Limit.derive s limit rule p e.run =
      some (((s.upTo limit start).derive rule p).run.run e.run) := by
  rw [← Limit.derive_within]
  exact h.derive_eq_some Session.admits_upTo rule hp

theorem Limit.evaluate_eq_upTo (rule : Rule) {input : PathSet}
    (hinput : ∀ p ∈ input, s.source.OnChain start p) :
    Limit.evaluate s limit rule input e.run =
      some (((s.upTo limit start).follow rule input).run.run e.run) := by
  rw [← Limit.evaluate_within]
  exact h.evaluate_eq_some Session.admits_upTo rule hinput

theorem Limit.branch_eq_upTo (rule : RuleId) {p : Position} (hp : s.source.OnChain start p)
    (q : Position) :
    Limit.branch s limit rule p q e =
      some (((s.upTo limit start).branch rule p q).run.run e) := by
  rw [← Limit.branch_within]
  exact h.branch_eq_some Session.admits_upTo rule hp q

end UpTo

/-- A bound that is the limit, or out of reach, leads to whatever is reached without it. -/
theorem Limit.Reached.upTo (h : Limit.Reached s limit start e) :
    e.Reached (s.upTo limit start) (s.source.OnChain start) := by
  induction h with
  | fresh => exact .fresh
  | @evaluate run rule input result run' _ hinput hrun ih =>
      rw [evaluate_eq_upTo ih.ready rule hinput] at hrun
      exact ih.evaluate hinput (Option.some.inj hrun)
  | @derive run rule p result run' _ hp hrun ih =>
      rw [derive_eq_upTo ih.ready rule hp] at hrun
      exact ih.derive hp (Option.some.inj hrun)
  | read _ hp hrun ih => exact ih.read hp hrun
  | narrow _ hid hq ih => exact ih.narrow hid hq
  | @branch e rule p q result e' _ hp hrun ih =>
      rw [branch_eq_upTo ih.ready rule hp q] at hrun
      exact ih.branch hp (Option.some.inj hrun)
  | renew _ ih => exact ih.renew

end Calls

section Termination
variable {s : Session} {start : Position}

/-- Whatever is reached on the chain took an evaluation for each rule at each position, at most. -/
theorem Extraction.Ready.evaluations_le {e : Extraction} {active : Std.TreeSet Stretch}
    (h : e.Ready s start active) : e.run.stats.evaluations ≤
      s.grammar.rules.length * ((s.source.tokensFrom start).length + 1) :=
  h.resting.evaluations_le h.valid h.defined

/-- Everything comes to an end. From a start, rules may be derived and evaluated at all positions of
the chain of tokens and branches may be extracted from any of these to any stop, one after the other
and in any order: without a bound on the rounds of a repetition, on what is explored, or on
how deep rules nest, each of these calls ends. A limit on nesting, whichever it is, does not change
that, and with the limit of the session the calls do what the session's own do. At all times the run
has evaluated each rule at most once at the start and once behind each of the tokens that
are read from there until none can be read, and so it has when a parse is over. -/
theorem Session.terminates (s : Session) (start : Position) :
    (∀ limit e, Limit.Reached s limit start e →
      (∀ rule p, s.source.OnChain start p →
        ∃ result run, Limit.derive s limit rule p e.run = some (result, run)) ∧
      (∀ rule input, (∀ p ∈ input, s.source.OnChain start p) →
        ∃ result run, Limit.evaluate s limit rule input e.run = some (result, run)) ∧
      (∀ rule p q, s.source.OnChain start p →
        ∃ result e', Limit.branch s limit rule p q e = some (result, e')) ∧
      e.run.stats.evaluations ≤
        s.grammar.rules.length * ((s.source.tokensFrom start).length + 1)) ∧
    (∀ e, Extraction.Reached s (s.source.OnChain start) e →
      (∀ rule p, s.source.OnChain start p →
        Limit.derive s s.maxDepth rule p e.run = some ((s.derive rule p).run.run e.run)) ∧
      (∀ rule input, (∀ p ∈ input, s.source.OnChain start p) →
        Limit.evaluate s s.maxDepth rule input e.run =
          some ((s.follow rule input).run.run e.run)) ∧
      ∀ rule p q, s.source.OnChain start p →
        Limit.branch s s.maxDepth rule p q e = some ((s.branch rule p q).run.run e)) ∧
    Lexer.drain s.source s.source.length { position := start } = s.source.tokensFrom start ∧
    ∀ trailing r, s.parse trailing start = .ok r → r.stats.evaluations ≤
      s.grammar.rules.length * ((s.source.tokensFrom start).length + 1) := by
  refine ⟨fun limit e he => ?_, fun e he => ?_, ?_, fun trailing r hparse => ?_⟩
  · have hready := he.upTo.ready
    refine ⟨fun rule p hp => ?_, fun rule input hinput => ?_, fun rule p q hp => ?_, ?_⟩
    · exact ⟨_, _, Limit.derive_eq_upTo hready rule hp⟩
    · exact ⟨_, _, Limit.evaluate_eq_upTo hready rule hinput⟩
    · exact ⟨_, _, Limit.branch_eq_upTo hready rule hp q⟩
    · exact hready.evaluations_le
  · have hlimit : s.Admits start (some s.maxDepth) := rfl
    exact ⟨fun rule p hp => he.ready.derive_eq_some hlimit rule hp,
      fun rule input hinput => he.ready.evaluate_eq_some hlimit rule hinput,
      fun rule p q hp => he.ready.branch_eq_some hlimit rule hp q⟩
  · have hle := s.source.length_tokensFrom_le start
    exact Lexer.drain_eq_tokensFrom s.source.length Lexer.readFrom_empty
      (s.source.onChain_start start) (by dsimp only; omega)
  · obtain ⟨e, he, hstats⟩ := reached_of_parse _ (s.source.onChain_start start) hparse
    rw [hstats]
    exact he.ready.evaluations_le

/-- A list of two items is derived without a limit on nesting, and as it is under a limit of
eight levels. Its branch is extracted, and its two rules are evaluated four times each, at most. -/
theorem Session.terminates_lists : ∃ result run run' branch e r,
    Limit.derive (Samples.listSession "a,a") none 0 .start {} = some (result, run) ∧
      Limit.derive (Samples.listSession "a,a") (some 8) 0 .start {} = some (.ok 2, run') ∧
      Limit.branch (Samples.listSession "a,a") none 0 .start ⟨3, 1, 4⟩ { run } =
        some (branch, e) ∧
      (Samples.listSession "a,a").parse true .start = .ok r ∧ r.stats.evaluations ≤ 8 := by
  obtain ⟨run', hderive, -, hwinner, -, hsome⟩ := listSession_derived true
  obtain ⟨r, hparse⟩ := parse_of_branch rfl hderive hwinner hsome
  obtain ⟨hends, hsame, -, hbudget⟩ := terminates (Samples.listSession "a,a") .start
  have hstart := (Samples.listSession "a,a").source.onChain_start .start
  obtain ⟨result, run, hunlimited⟩ := (hends none _ .fresh).1 0 .start hstart
  obtain ⟨branch, e, hbranch⟩ :=
    (hends none _ (.derive .fresh hstart hunlimited)).2.2.1 0 .start ⟨3, 1, 4⟩ hstart
  have hlimited := (hsame _ .fresh).1 0 .start hstart
  rw [hderive] at hlimited
  have hrules : (Samples.listSession "a,a").grammar.rules.length = 2 := rfl
  have htokens : ((Samples.listSession "a,a").source.tokensFrom .start).length = 3 := by
    decide +kernel
  have hevaluations := hbudget true r hparse
  rw [hrules, htokens] at hevaluations
  exact ⟨result, run, run', branch, e, r, hunlimited, hlimited, hbranch, hparse, hevaluations⟩

end Termination
end Multipath
