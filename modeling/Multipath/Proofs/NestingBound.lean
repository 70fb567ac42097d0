import Mathlib.Data.List.Forall2
import Multipath.Proofs.Agreement
import Multipath.Proofs.Recognition

/-!
The bound on nesting only ever cuts off. A computation outlasts another one if it ends like that one
in every state, unless that one runs into the bound. Whatever a session does, the same session with
a higher bound outlasts: deriving, evaluating and extracting, and so the whole parse. Running into
the bound is never borne and never taken for a want of paths.
-/

namespace Multipath

open Search (attempt outputOf)
open Extract (ofSearch)

/-- States and failures are the same, and running into the bound on nesting does not count. -/
def Comparison.unlessCut (σ : Type) : Comparison σ where
  states := Eq
  failures := Eq
  counts f := f.isAbsorbable = true
  absorbable_eq h := congrArg Failure.isAbsorbable h
  counts_of_absorbable h := h

section Outlasts
variable {σ α β α' β' ι : Type}

/-- From every state `x` ends like `y`, unless `y` is cut off by the bound on nesting. -/
def Outlasts (values : α → β → Prop) (x : ExceptT Failure (StateM σ) α)
    (y : ExceptT Failure (StateM σ) β) : Prop :=
  ∀ st, Agrees (.unlessCut σ) values x y st st

namespace Outlasts

theorem same (x : ExceptT Failure (StateM σ) α) : Outlasts Eq x x := by
  intro st
  rcases hrun : x.run.run st with ⟨result, after⟩
  refine Ensures.of_eq hrun fun _ => Ensures.of_eq hrun ⟨rfl, ?_⟩
  cases result with
  | ok a => exact .ok rfl
  | error f => exact .error rfl

theorem pure {values : α → β → Prop} {a : α} {b : β} (hab : values a b) :
    Outlasts values (Pure.pure a : ExceptT Failure (StateM σ) α) (Pure.pure b) :=
  fun _ => .pure rfl hab

theorem bind {values : α → β → Prop} {values' : α' → β' → Prop}
    {x : ExceptT Failure (StateM σ) α} {y : ExceptT Failure (StateM σ) β}
    {f : α → ExceptT Failure (StateM σ) α'} {g : β → ExceptT Failure (StateM σ) β'}
    (h : Outlasts values x y) (hfg : ∀ a b, values a b → Outlasts values' (f a) (g b)) :
    Outlasts values' (x >>= f) (y >>= g) := by
  intro st
  refine (h st).bind fun a b after after' hstates hab => ?_
  obtain rfl : after = after' := hstates
  exact hfg a b hab after

/-- Going on with what the one found, where the other found the same. -/
theorem bind_eq {values' : α' → β' → Prop} {x y : ExceptT Failure (StateM σ) α}
    {f : α → ExceptT Failure (StateM σ) α'} {g : α → ExceptT Failure (StateM σ) β'}
    (h : Outlasts Eq x y) (hfg : ∀ a, Outlasts values' (f a) (g a)) :
    Outlasts values' (x >>= f) (y >>= g) :=
  h.bind fun a _ heq => heq ▸ hfg a

theorem foldlM {f g : α → ι → ExceptT Failure (StateM σ) α} (is : List ι) (a : α)
    (hfg : ∀ a i, Outlasts Eq (f a i) (g a i)) : Outlasts Eq (is.foldlM f a) (is.foldlM g a) := by
  induction is generalizing a with
  | nil => exact .same _
  | cons i is ih =>
      rw [List.foldlM_cons, List.foldlM_cons]
      exact (hfg a i).bind_eq ih

theorem attempt {x y : Search α} (h : Outlasts Eq x y) : Outlasts Eq (attempt x) (attempt y) := by
  refine fun st => (h st).attempt.mono fun result result' halike => ?_
  cases halike with
  | ok heq => exact congrArg Except.ok heq
  | error heq => exact congrArg Except.error heq.1

theorem ofSearch {x y : Search α} (h : Outlasts Eq x y) :
    Outlasts Eq (ofSearch x) (ofSearch y) := by
  refine fun e => ensures_ofSearch.mpr (Ensures.mono (h e.run) fun result' run' hx hheeds => ?_)
  refine ensures_ofSearch.mpr (Ensures.mono (hx hheeds) fun result run hpost => ?_)
  obtain ⟨hstates, halike⟩ := hpost
  obtain rfl : run = run' := hstates
  exact ⟨rfl, halike⟩

/-- Going on from a result, whatever it is: being cut off must not be made up for. -/
theorem settled {x y : Extract α} {f g : Except Failure α → Extract β} (h : Outlasts Eq x y)
    (hfg : ∀ result, Outlasts Eq (f result) (g result))
    (hfails : ∀ cut e, Ensures (g (.error cut)) e fun result _ => result = .error cut) :
    Outlasts Eq (Extract.outcome x >>= f) (Extract.outcome y >>= g) := by
  refine fun e => Agrees.settled (h e) (fun result result' after after' hstates halike => ?_)
    fun cut after' _ => hfails cut after'
  obtain rfl : after = after' := hstates
  cases halike with
  | ok heq => exact heq ▸ hfg _ after
  | error heq => exact (show _ = _ from heq) ▸ hfg _ after

/-- The two runs are the same where the second one is not cut off. -/
theorem run_eq {x y : ExceptT Failure (StateM σ) α} (h : Outlasts Eq x y) (st : σ)
    (huncut : ∀ rule p, (y.run.run st).1 ≠ .error (.depthLimit rule p)) :
    x.run.run st = y.run.run st := by
  have hheeds : ∀ f, (y.run.run st).1 = .error f → f.isAbsorbable = true := by
    intro f hf
    cases f with
    | noPath rule p => rfl
    | depthLimit rule p => exact absurd hf (huncut rule p)
  obtain ⟨hstates, halike⟩ := h st hheeds
  refine Prod.ext ?_ hstates
  revert halike
  generalize (x.run.run st).1 = result
  generalize (y.run.run st).1 = result'
  intro halike
  cases halike with
  | ok heq => exact congrArg Except.ok heq
  | error heq => exact congrArg Except.error heq

end Outlasts
end Outlasts

/-- The session with another bound on nesting. -/
def Session.within (s : Session) (bound : Nat) : Session := { s with maxDepth := bound }

namespace Session

variable {s : Session} {bound deeper : Nat}

mutual

theorem evaluate_within (resolve : Resolver) : ∀ (rule : Rule) (input : PathSet),
    (s.within bound).evaluate resolve rule input = s.evaluate resolve rule input
  | .terminal tag, input => by
      rw [evaluate, evaluate]
      rfl
  | .nonterminal rule, input => by rw [evaluate, evaluate]
  | .sequence items, input => by
      rw [evaluate, evaluate]
      exact evaluateItems_within resolve items input
  | .optional body, input => by rw [evaluate, evaluate, evaluate_within resolve body]
  | .repetition body, input => by
      rw [evaluate, evaluate, funext (evaluate_within resolve body)]
      rfl
  | .alternation choices, input => by
      rw [evaluate, evaluate, evaluateChoices_within resolve choices]
  | .switch feature body, input => by
      rw [evaluate, evaluate, evaluate_within resolve body]
      rfl

theorem evaluateItems_within (resolve : Resolver) : ∀ (items : List Rule) (input : PathSet),
    (s.within bound).evaluateItems resolve items input = s.evaluateItems resolve items input
  | [], input => by rw [evaluateItems, evaluateItems]
  | item :: items, input => by
      rw [evaluateItems, evaluateItems, evaluate_within resolve item,
        funext (evaluateItems_within resolve items)]

theorem evaluateChoices_within (resolve : Resolver) : ∀ (choices : List Rule) (input : PathSet),
    (s.within bound).evaluateChoices resolve choices input =
      s.evaluateChoices resolve choices input
  | [], input => by rw [evaluateChoices, evaluateChoices]
  | choice :: choices, input => by
      rw [evaluateChoices, evaluateChoices, evaluate_within resolve choice,
        evaluateChoices_within resolve choices]

end

theorem deriveWithin_within (depth : Nat) (rule : RuleId) (p : Position) :
    (s.within bound).deriveWithin depth rule p = s.deriveWithin depth rule p := by
  induction depth generalizing rule p with
  | zero => rfl
  | succ depth ih =>
      simp only [deriveWithin, deriveFresh, evaluate_within, ih]
      rfl

theorem comparesKnowing_unlessCut : s.ComparesKnowing (.unlessCut Run) where
  reason p h := by
    obtain rfl : _ = _ := h
    exact (rfl : Failure.noPath _ p = _)
  terminal tag input _ h := by
    obtain rfl : _ = _ := h
    exact (Outlasts.same (s.terminal tag input) _).mono fun _ _ heq => ⟨heq, trivial⟩
  union _ _ := trivial
  diff _ _ := trivial
  rounds _ h := .inl (by rw [show _ = _ from h])
  failures_iff := Iff.rfl
  memo h := congrArg Run.memo h
  arena h := congrArg Run.arena h
  countMemoHit h := congrArg Run.countMemoHit h
  countLeftRecursion h := congrArg Run.countLeftRecursion h
  enter rule p h := congrArg (Run.enter · rule p) h
  succeed rule p output h := by
    obtain rfl : _ = _ := h
    exact ⟨rfl, rfl⟩
  fail rule p f h := congrArg (Run.fail · rule p f) h

/-- More depth left. -/
theorem deriveWithin_outlasts {depth depth' : Nat} (hle : depth' ≤ depth) (rule : RuleId)
    (p : Position) : Outlasts Eq (s.deriveWithin depth rule p) (s.deriveWithin depth' rule p) :=
  fun _ => deriveWithin_agrees comparesKnowing_unlessCut
    (.inr ⟨hle, fun _ _ => Bool.false_ne_true⟩) rule p rfl

variable (hle : bound ≤ deeper)
include hle

theorem derive_outlasts (rule : RuleId) (p : Position) :
    Outlasts Eq ((s.within deeper).derive rule p) ((s.within bound).derive rule p) := by
  intro run
  unfold Agrees
  simp only [ensures_derive, deriveWithin_within]
  exact deriveWithin_outlasts (Nat.sub_le_sub_right hle _) rule p run

theorem follow_outlasts (rule : Rule) (input : PathSet) :
    Outlasts Eq ((s.within deeper).follow rule input) ((s.within bound).follow rule input) := by
  intro run
  unfold Agrees
  simp only [ensures_follow, deriveWithin_within, evaluate_within]
  have hres : AnswersAlike (.unlessCut Run) (fun _ => True)
      (fun r q => s.deriveWithin (deeper - run.frames.length) r q >>= outputOf)
      (fun r q => s.deriveWithin (bound - run.frames.length) r q >>= outputOf) := by
    intro r _ _ q _ run' run'' hstates
    obtain rfl : run' = run'' := hstates
    exact outputOf_agrees (s := s) comparesKnowing_unlessCut
      (deriveWithin_outlasts (Nat.sub_le_sub_right hle _) r q run')
  exact (evaluate_agrees comparesKnowing_unlessCut.toCompares hres rule input run run trivial
    rfl).mono fun _ _ hsame => hsame.1

end Session

section Extraction

/-- A part of a rule that outlasts another, whether it is reached over or built. -/
structure Fragment.Outlasts (f g : Fragment) : Prop where
  reach : ∀ paths stop, Multipath.Outlasts Eq (f.reach paths stop) (g.reach paths stop)
  build : ∀ start stop, Multipath.Outlasts Eq (f.build start stop) (g.build start stop)

namespace Fragment

/-- The same paths at parts that outlast each other. -/
def StepsOutlast (steps steps' : List (Fragment × PathSet)) : Prop :=
  List.Forall₂ (fun step step' => step.1.Outlasts step'.1 ∧ step.2 = step'.2) steps steps'

variable {f g : Fragment}

theorem Outlasts.firstBuilt (h : f.Outlasts g) (p : Position) (stops : List Position) :
    Multipath.Outlasts Eq (f.firstBuilt p stops) (g.firstBuilt p stops) := by
  induction stops with
  | nil => exact .same _
  | cons stop stops ih =>
      rw [Fragment.firstBuilt, Fragment.firstBuilt]
      refine (h.build p stop).bind_eq fun found => ?_
      cases found with
      | none => exact ih
      | some nodes => exact .same _

theorem layers_outlasts (stop : Position) {fs gs : List Fragment}
    (h : List.Forall₂ Outlasts fs gs) (paths : PathSet) :
    Multipath.Outlasts (Option.Rel StepsOutlast) (layers stop fs paths)
      (layers stop gs paths) := by
  induction h generalizing paths with
  | nil => exact .pure (.some .nil)
  | cons hfg _ ih =>
      rw [layers, layers]
      refine (hfg.reach paths stop).bind_eq fun next => ?_
      split
      · exact .pure .none
      · refine (ih next).bind fun rest rest' hrest => .pure ?_
        cases hrest with
        | none => exact .none
        | some hsteps => exact .some (.cons ⟨hfg, rfl⟩ hsteps)

theorem Outlasts.keepViable (h : f.Outlasts g) (stop : Position) (after layer : PathSet) :
    Multipath.Outlasts Eq (f.keepViable stop after layer) (g.keepViable stop after layer) :=
  .foldlM _ _ fun _ _ => (h.reach _ stop).bind_eq fun _ => .same _

theorem prune_outlasts (stop : Position) {steps steps' : List (Fragment × PathSet)}
    (h : StepsOutlast steps steps') :
    Multipath.Outlasts (fun found found' => found.1 = found'.1 ∧ StepsOutlast found.2 found'.2)
      (prune stop steps) (prune stop steps') := by
  induction h with
  | nil => exact .pure ⟨rfl, .nil⟩
  | @cons step step' _ _ hstep _ ih =>
      obtain ⟨f, layer⟩ := step
      obtain ⟨g, layer'⟩ := step'
      obtain ⟨hfg, rfl⟩ := hstep
      rw [prune, prune]
      refine ih.bind fun found found' hfound => ?_
      obtain ⟨after, rest⟩ := found
      obtain ⟨after', rest'⟩ := found'
      obtain ⟨rfl, hrest⟩ := hfound
      exact (hfg.keepViable stop after layer).bind_eq fun _ => .pure ⟨rfl, .cons ⟨hfg, rfl⟩ hrest⟩

theorem choose_outlasts (stop : Position) {steps steps' : List (Fragment × PathSet)}
    (h : StepsOutlast steps steps') (p : Position) :
    Multipath.Outlasts Eq (choose stop steps p) (choose stop steps' p) := by
  induction h generalizing p with
  | nil => exact .same _
  | @cons step step' _ _ hstep _ ih =>
      obtain ⟨f, after⟩ := step
      obtain ⟨g, after'⟩ := step'
      obtain ⟨hfg, rfl⟩ := hstep
      rw [choose, choose]
      refine (hfg.reach _ stop).bind_eq fun stops => (hfg.firstBuilt p _).bind_eq fun found => ?_
      cases found with
      | none => exact .same _
      | some found => exact (ih found.1).bind_eq fun _ => .same _

theorem inSequence_outlasts {fs gs : List Fragment} (h : List.Forall₂ Outlasts fs gs)
    (start stop : Position) :
    Multipath.Outlasts Eq (inSequence fs start stop) (inSequence gs start stop) := by
  refine (layers_outlasts stop h {start}).bind fun before before' hbefore => ?_
  cases hbefore with
  | none => exact .same _
  | some hsteps =>
      refine (prune_outlasts stop hsteps).bind fun found found' hfound => ?_
      obtain ⟨viable, after⟩ := found
      obtain ⟨viable', after'⟩ := found'
      obtain ⟨rfl, hafter⟩ := hfound
      dsimp only
      split
      · exact choose_outlasts stop hafter start
      · exact .same _

theorem Outlasts.explore (h : f.Outlasts g) (stop : Position) (n : Nat) (pending : List Position)
    (steps : Steps) :
    Multipath.Outlasts Eq (f.explore stop n pending steps) (g.explore stop n pending steps) := by
  induction n generalizing pending steps with
  | zero => exact .same _
  | succ n ih =>
      rw [Fragment.explore, Fragment.explore]
      split
      · exact .same _
      · exact (h.reach _ stop).bind_eq fun _ => ih _ _

theorem Outlasts.iterate (h : f.Outlasts g) (stop : Position) (steps : Steps)
    (viable : Std.TreeSet Position) (n : Nat) (p : Position) :
    Multipath.Outlasts Eq (f.iterate stop steps viable n p) (g.iterate stop steps viable n p) := by
  induction n generalizing p with
  | zero => exact .same _
  | succ n ih =>
      rw [Fragment.iterate, Fragment.iterate]
      split
      · exact .same _
      · refine (h.firstBuilt p _).bind_eq fun found => ?_
        cases found with
        | none => exact .same _
        | some found => exact (ih found.1).bind_eq fun _ => .same _

theorem Outlasts.inRepetition (h : f.Outlasts g) (most : Nat) (start stop : Position) :
    Multipath.Outlasts Eq (f.inRepetition most start stop) (g.inRepetition most start stop) := by
  unfold Fragment.inRepetition
  split
  · exact .same _
  · refine (h.explore stop most _ _).bind_eq fun steps => ?_
    dsimp only
    split
    · exact h.iterate stop steps _ _ start
    · exact .same _

end Fragment

namespace Session

variable {s : Session} {bound deeper : Nat}

theorem reach_outlasts (hle : bound ≤ deeper) (rule : Rule) (paths : PathSet) (stop : Position) :
    Outlasts Eq ((s.within deeper).reach rule paths stop)
      ((s.within bound).reach rule paths stop) :=
  (follow_outlasts hle rule paths).attempt.ofSearch.bind_eq fun _ => .same _

theorem forward_outlasts (start stop : Position) {x y : Extract (Option (List Tree))}
    (h : Outlasts Eq x y) : Outlasts Eq (forward start stop x) (forward start stop y) := by
  unfold forward
  split
  · exact .same _
  · exact h

/-- Branches that outlast others. -/
def BranchBuilder.Outlasts (branch branch' : BranchBuilder) : Prop :=
  ∀ rule start stop, Multipath.Outlasts Eq (branch rule start stop) (branch' rule start stop)

variable {branch branch' : BranchBuilder}

theorem buildNonterminal_outlasts (hle : bound ≤ deeper) (h : branch.Outlasts branch')
    (rule : RuleId) (start stop : Position) :
    Outlasts Eq ((s.within deeper).buildNonterminal branch rule start stop)
      ((s.within bound).buildNonterminal branch' rule start stop) := by
  refine (derive_outlasts hle rule start).attempt.ofSearch.bind_eq fun found => ?_
  cases found with
  | error f => exact .same _
  | ok node =>
      refine (Outlasts.same _).bind_eq fun output => ?_
      split
      · exact (h rule start stop).bind_eq fun _ => .same _
      · exact .same _

mutual

theorem build_outlasts (hle : bound ≤ deeper) (h : branch.Outlasts branch') :
    ∀ (rule : Rule) (start stop : Position),
      Outlasts Eq ((s.within deeper).build branch rule start stop)
        ((s.within bound).build branch' rule start stop)
  | .terminal tag, start, stop => by
      rw [build, build]
      exact .same _
  | .nonterminal rule, start, stop => by
      rw [build, build]
      exact forward_outlasts start stop (buildNonterminal_outlasts hle h rule start stop)
  | .sequence items, start, stop => by
      rw [build, build]
      exact forward_outlasts start stop
        (Fragment.inSequence_outlasts (fragments_outlast hle h items) start stop)
  | .optional body, start, stop => by
      rw [build, build]
      refine forward_outlasts start stop
        ((build_outlasts hle h body start stop).bind_eq fun found => ?_)
      cases found <;> exact .same _
  | .repetition body, start, stop => by
      rw [build, build]
      refine forward_outlasts start stop ((Outlasts.same _).bind_eq fun e => ?_)
      exact Fragment.Outlasts.inRepetition ⟨reach_outlasts hle body, build_outlasts hle h body⟩ _
        start stop
  | .alternation choices, start, stop => by
      rw [build, build]
      exact forward_outlasts start stop (buildFirst_outlasts hle h choices start stop)
  | .switch feature body, start, stop => by
      rw [build, build]
      refine forward_outlasts start stop ?_
      change Outlasts Eq (if s.grammar.isEnabled feature = true then _ else _)
        (if s.grammar.isEnabled feature = true then _ else _)
      split
      · exact build_outlasts hle h body start stop
      · exact .same _

theorem buildFirst_outlasts (hle : bound ≤ deeper) (h : branch.Outlasts branch') :
    ∀ (choices : List Rule) (start stop : Position),
      Outlasts Eq ((s.within deeper).buildFirst branch choices start stop)
        ((s.within bound).buildFirst branch' choices start stop)
  | [], start, stop => by
      rw [buildFirst, buildFirst]
      exact .same _
  | choice :: choices, start, stop => by
      rw [buildFirst, buildFirst]
      refine (build_outlasts hle h choice start stop).bind_eq fun found => ?_
      cases found with
      | none => exact buildFirst_outlasts hle h choices start stop
      | some nodes => exact .same _

theorem fragments_outlast (hle : bound ≤ deeper) (h : branch.Outlasts branch') :
    ∀ items : List Rule, List.Forall₂ Fragment.Outlasts ((s.within deeper).fragments branch items)
      ((s.within bound).fragments branch' items)
  | [] => by
      rw [fragments, fragments]
      exact .nil
  | item :: items => by
      rw [fragments, fragments]
      exact .cons ⟨reach_outlasts hle item, build_outlasts hle h item⟩
        (fragments_outlast hle h items)

end

theorem reuse_outlasts (stretch : Stretch) {fresh fresh' : Extract (Option Branch)}
    (h : Outlasts Eq fresh fresh') : Outlasts Eq (reuse stretch fresh) (reuse stretch fresh') := by
  refine (Outlasts.same _).bind_eq fun e => ?_
  split
  · exact .same _
  · split
    · exact .same _
    · exact h

theorem branchFresh_outlasts (hle : bound ≤ deeper) (h : branch.Outlasts branch')
    (stretch : Stretch) :
    Outlasts Eq ((s.within deeper).branchFresh branch stretch)
      ((s.within bound).branchFresh branch' stretch) := by
  unfold branchFresh
  refine (Outlasts.same _).bind_eq fun _ => Outlasts.settled ?_ (fun _ => .same _) fun cut e =>
    ensures_bind.mpr (ensures_modify.mpr (ensures_throw.mpr rfl))
  have hrule (bound : Nat) :
      (s.within bound).grammar.rule? stretch.rule = s.grammar.rule? stretch.rule := rfl
  rw [hrule deeper, hrule bound]
  cases s.grammar.rule? stretch.rule with
  | some definition => exact build_outlasts hle h definition.body _ _
  | none => exact .same _

theorem branchWithin_outlasts (hle : bound ≤ deeper) {depth depth' : Nat}
    (hdepth : depth' ≤ depth) :
    BranchBuilder.Outlasts (fun rule p q => (s.within deeper).branchWithin depth rule p q)
      fun rule p q => (s.within bound).branchWithin depth' rule p q := by
  induction depth' generalizing depth with
  | zero =>
      intro rule p q
      cases depth with
      | zero => exact .same _
      | succ depth => exact reuse_outlasts _ fun _ => .of_not_counts Bool.false_ne_true
  | succ depth' ih =>
      intro rule p q
      cases depth with
      | zero => omega
      | succ depth =>
          exact reuse_outlasts _
            (branchFresh_outlasts hle (ih (Nat.le_of_succ_le_succ hdepth)) ⟨rule, p, q⟩)

theorem branch_outlasts (hle : bound ≤ deeper) (rule : RuleId) (start stop : Position) :
    Outlasts Eq ((s.within deeper).branch rule start stop)
      ((s.within bound).branch rule start stop) :=
  (Outlasts.same _).bind_eq fun _ =>
    branchWithin_outlasts hle (Nat.sub_le_sub_right hle _) rule start stop

end Session
end Extraction

section Parsing
variable {s : Session} {bound deeper : Nat}

/-- A parse that is not cut off by the bound on nesting is the same under every higher bound. -/
theorem Session.parse_within_eq (hle : bound ≤ deeper) (trailing : Bool) (start : Position)
    (huncut : ∀ name p most,
      (s.within bound).parse trailing start ≠ .error (.depthLimit name p most)) :
    (s.within deeper).parse trailing start = (s.within bound).parse trailing start := by
  have hselect : (s.within deeper).grammar.selectStart (s.within deeper).source.conditions =
    (s.within bound).grammar.selectStart (s.within bound).source.conditions := rfl
  unfold Session.parse at huncut ⊢
  rw [hselect]
  cases hrule : (s.within bound).grammar.selectStart (s.within bound).source.conditions with
  | error e => rfl
  | ok rule =>
      rw [hrule] at huncut
      simp only [bind, Except.bind] at huncut ⊢
      rcases hrun : ((s.within bound).derive rule start).run.run {} with ⟨result, run⟩
      rw [hrun] at huncut
      have hderive := (derive_outlasts (s := s) hle rule start).run_eq {} fun r p hcut => by
        obtain rfl : result = .error (.depthLimit r p) := by rwa [hrun] at hcut
        exact huncut _ _ _ rfl
      rw [hderive, hrun]
      cases result with
      | error f =>
          cases f with
          | noPath r p => rfl
          | depthLimit r p => exact absurd rfl (huncut _ _ _)
      | ok root =>
          dsimp only at huncut ⊢
          have hwinner : (s.within deeper).winner? trailing (run.arena.output root) =
            (s.within bound).winner? trailing (run.arena.output root) := rfl
          rw [hwinner]
          cases hstop : (s.within bound).winner? trailing (run.arena.output root) with
          | none => rfl
          | some stop =>
              rw [hstop] at huncut
              dsimp only at huncut ⊢
              rcases htree : ((s.within bound).branch rule start stop).run.run
                { run := run.setOutput root {stop} } with ⟨tree, e⟩
              rw [htree] at huncut
              have hbranch := (branch_outlasts (s := s) hle rule start stop).run_eq
                { run := run.setOutput root {stop} } fun r p hcut => by
                  obtain rfl : tree = .error (.depthLimit r p) := by rwa [htree] at hcut
                  exact huncut _ _ _ rfl
              rw [hbranch, htree]
              cases tree with
              | error f =>
                  cases f with
                  | noPath r p => rfl
                  | depthLimit r p => exact absurd rfl (huncut _ _ _)
              | ok tree =>
                  cases tree <;> rfl

/-- A higher bound on nesting changes nothing but what the lower one cut off: a parse that does not
run into the lower bound is the same, in its tree, root, nodes and counters or in its error. So is
every derivation, evaluation and extraction, with all that it leaves in the run. -/
theorem Session.within_outlasts (s : Session) {bound deeper : Nat} (hle : bound ≤ deeper) :
    (∀ trailing start,
      (∀ name p most, (s.within bound).parse trailing start ≠ .error (.depthLimit name p most)) →
      (s.within deeper).parse trailing start = (s.within bound).parse trailing start) ∧
    (∀ rule p, Outlasts Eq ((s.within deeper).derive rule p) ((s.within bound).derive rule p)) ∧
    (∀ rule input,
      Outlasts Eq ((s.within deeper).follow rule input) ((s.within bound).follow rule input)) ∧
    ∀ rule start stop, Outlasts Eq ((s.within deeper).branch rule start stop)
      ((s.within bound).branch rule start stop) :=
  ⟨parse_within_eq hle, derive_outlasts hle, follow_outlasts hle, branch_outlasts hle⟩

/-- Eight levels are enough for a list of two items, and so are more. -/
theorem Session.within_outlasts_lists : ∃ r,
    ((Samples.listSession "a,a").within 8).parse true .start = .ok r ∧
      ((Samples.listSession "a,a").within 256).parse true .start = .ok r := by
  obtain ⟨run, hderive, -, hwinner, -, hsome⟩ := listSession_derived true
  have hselect : (Samples.listSession "a,a").grammar.selectStart
      (Samples.listSession "a,a").source.conditions = .ok 0 := rfl
  obtain ⟨r, hparse⟩ := parse_of_branch hselect hderive hwinner hsome
  have hparse : ((Samples.listSession "a,a").within 8).parse true .start = .ok r := hparse
  refine ⟨r, hparse, ?_⟩
  rw [((Samples.listSession "a,a").within_outlasts (by decide : 8 ≤ 256)).1 true .start, hparse]
  intro name p most hcut
  cases hparse.symm.trans hcut

end Parsing
end Multipath
