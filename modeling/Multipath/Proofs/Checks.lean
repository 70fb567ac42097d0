import Multipath.Proofs.Examinations
import Multipath.Proofs.Preferences

/-!
The checks of a run: which terminals are looked for, at which positions and with what success, in
the order in which that happens. They are listed along the evaluator: what a search checks is told
by the run it starts from, and where another search goes on, it is told by the run that the first
one leaves (`Search.checksBind`). So a derivation that is answered from the memo table checks
nothing, and what is checked below a rule that fails is listed like everything else.
-/

namespace Multipath

open Search (attempt outputOf)

namespace Position

theorem le_total (p q : Position) : p ≤ q ∨ q ≤ p := by
  simp only [le_def, lt_def]
  omega

instance : Std.IsLinearOrder Position where
  le_refl := le_refl
  le_trans _ _ _ := le_trans
  le_antisymm _ _ := le_antisymm
  le_total := le_total

instance : Std.LawfulOrderMax Position where
  max_eq_or p q := by
    simp only [max]
    split <;> simp
  max_le_iff p q r := by
    simp only [max]
    split <;> simp only [le_def, lt_def] at * <;> omega

end Position

/-- A terminal looked for at a position, and what was read there. -/
structure Check where
  tag : TagId
  position : Position
  found : Except LexicalError Token

/-- Where a check ended, if it was successful. -/
def Check.stop? (check : Check) : Option Position :=
  match check.found with
  | .ok token => if token.hasTag check.tag then some token.span.stop else none
  | .error _ => none

theorem Check.stop?_eq_some {check : Check} {p : Position} : check.stop? = some p ↔
    ∃ t, check.found = .ok t ∧ t.hasTag check.tag = true ∧ t.span.stop = p := by
  unfold stop?
  cases check.found with
  | error e => simp
  | ok t => simp

/-- The furthest end of a successful check, and the start if there is none. -/
def furthestStop (start : Position) (checks : List Check) : Position :=
  (checks.filterMap Check.stop?).max?.getD start

theorem furthestStop_eq_start {start : Position} {checks : List Check}
    (h : ∀ check ∈ checks, check.stop? = none) : furthestStop start checks = start := by
  have hnone : checks.filterMap Check.stop? = [] := List.filterMap_eq_nil_iff.mpr h
  rw [furthestStop, hnone]
  rfl

theorem furthest_furthestStop (start : Position) {checks : List Check}
    (h : ∃ check ∈ checks, check.stop? ≠ none) :
    Position.Furthest (fun p => ∃ check ∈ checks, check.stop? = some p)
      (furthestStop start checks) := by
  unfold furthestStop
  cases hmax : (checks.filterMap Check.stop?).max? with
  | none =>
      obtain ⟨check, hcheck, hstop⟩ := h
      exact absurd (List.filterMap_eq_nil_iff.mp (List.max?_eq_none_iff.mp hmax) check hcheck) hstop
  | some p =>
      obtain ⟨hp, hle⟩ := List.max?_eq_some_iff.mp hmax
      simp only [List.mem_filterMap] at hp hle
      exact ⟨hp, hle⟩

namespace Search

section Binding

variable {α : Type} {x : Search α} {run run' : Run} {f : Failure}

/-- What is checked by a search and by what goes on from it, unless the search fails. -/
def checksBind (x : Search α) (first : Run → List Check) (next : α → Run → List Check)
    (run : Run) : List Check :=
  first run ++ match x.run.run run with
    | (.ok a, run') => next a run'
    | (.error _, _) => []

variable {first : Run → List Check} {next : α → Run → List Check}

theorem checksBind_of_ok {a : α} (hrun : x.run.run run = (.ok a, run')) :
    x.checksBind first next run = first run ++ next a run' := by
  rw [checksBind, hrun]

theorem checksBind_of_error (hrun : x.run.run run = (.error f, run')) :
    x.checksBind first next run = first run := by
  rw [checksBind, hrun, List.append_nil]

/-- Nothing need be checked after a search. -/
theorem checksBind_nil : x.checksBind first (fun _ _ => []) run = first run := by
  rw [checksBind]
  split <;> exact List.append_nil _

theorem attempt_of_ok {a : α} (hrun : x.run.run run = (.ok a, run')) :
    (attempt x).run.run run = (.ok (.ok a), run') :=
  show Ensures (attempt x) run fun result after => (result, after) = (.ok (.ok a), run') from
    ensures_attempt.mpr (Ensures.of_eq hrun rfl)

theorem attempt_of_absorbable (hrun : x.run.run run = (.error f, run'))
    (hf : f.isAbsorbable = true) : (attempt x).run.run run = (.ok (.error f), run') :=
  show Ensures (attempt x) run fun result after => (result, after) = (.ok (.error f), run') from
    ensures_attempt.mpr (Ensures.of_eq hrun (by simp [hf]))

theorem attempt_of_not_absorbable (hrun : x.run.run run = (.error f, run'))
    (hf : f.isAbsorbable = false) : (attempt x).run.run run = (.error f, run') :=
  show Ensures (attempt x) run fun result after => (result, after) = (.error f, run') from
    ensures_attempt.mpr (Ensures.of_eq hrun (by simp [hf]))

end Binding

end Search

namespace Session

/-- One check for each path, of what is read there. -/
def terminalChecks (s : Session) (tag : TagId) : List Position → PathSet → Run → List Check
  | [], _ => fun _ => []
  | p :: ps, output => (s.advance tag output p).checksBind
      (fun run => [⟨tag, p, ((run.lexer.restore p).next s.source).1⟩])
      (s.terminalChecks tag ps)

/-- The searches are tried one after the other, whether they find paths or not. -/
def uniteChecks : List (Search PathSet × (Run → List Check)) → Run → List Check
  | [] => fun _ => []
  | (x, checks) :: xs => (attempt x).checksBind checks fun _ => uniteChecks xs

def saturateChecks (body : PathSet → Search PathSet) (checks : PathSet → Run → List Check) :
    Nat → PathSet → PathSet → Run → List Check
  | 0, _, _ => fun _ => []
  | n + 1, frontier, result => (attempt (body frontier)).checksBind (checks frontier) fun
    | .error _ => fun _ => []
    | .ok output =>
      let fresh := output \ result
      if fresh.isEmpty then fun _ => [] else saturateChecks body checks n fresh (result ∪ fresh)

mutual

/-- What is checked when a rule is evaluated, `inner` telling it of references. -/
def checks (s : Session) (resolve : Resolver) (inner : RuleId → Position → Run → List Check) :
    Rule → PathSet → Run → List Check
  | .terminal tag, input => s.terminalChecks tag input.toList ∅
  | .nonterminal rule, input =>
    uniteChecks (input.toList.map fun p => (resolve rule p, inner rule p))
  | .sequence items, input => checksItems s resolve inner items input
  | .optional body, input => checks s resolve inner body input
  | .repetition body, input => fun run =>
    saturateChecks (s.evaluate resolve body) (checks s resolve inner body) (s.pathBound run)
      input input run
  | .alternation choices, input => uniteChecks (checksChoices s resolve inner choices input)
  | .switch feature body, input =>
    if s.grammar.isEnabled feature then checks s resolve inner body input else fun _ => []

def checksItems (s : Session) (resolve : Resolver)
    (inner : RuleId → Position → Run → List Check) : List Rule → PathSet → Run → List Check
  | [], _ => fun _ => []
  | item :: items, input => (s.evaluate resolve item input).checksBind
      (checks s resolve inner item input) (checksItems s resolve inner items)

def checksChoices (s : Session) (resolve : Resolver)
    (inner : RuleId → Position → Run → List Check) :
    List Rule → PathSet → List (Search PathSet × (Run → List Check))
  | [], _ => []
  | choice :: choices, input =>
    (s.evaluate resolve choice input, checks s resolve inner choice input) ::
      checksChoices s resolve inner choices input

end

/-- What is checked when a rule is derived, which is nothing unless that is done afresh. -/
def deriveChecksWithin (s : Session) : Nat → RuleId → Position → Run → List Check
  | 0, _, _, _ => []
  | depth + 1, rule, p, run =>
    match run.memo.find? p rule, s.grammar.rule? rule with
    | none, some definition =>
      s.checks (fun r q => s.deriveWithin depth r q >>= outputOf) (deriveChecksWithin s depth)
        definition.body {p} (run.enter rule p)
    | _, _ => []

def deriveChecks (s : Session) (rule : RuleId) (p : Position) (run : Run) : List Check :=
  s.deriveChecksWithin (s.maxDepth - run.frames.length) rule p run

theorem checksChoices_eq (s : Session) (resolve : Resolver)
    (inner : RuleId → Position → Run → List Check) (choices : List Rule) (input : PathSet) :
    s.checksChoices resolve inner choices input = choices.map fun choice =>
      (s.evaluate resolve choice input, s.checks resolve inner choice input) := by
  induction choices with
  | nil => rw [checksChoices, List.map_nil]
  | cons choice choices ih => rw [checksChoices, ih, List.map_cons]

end Session
end Multipath
