import Multipath.Proofs.Ensures
import Multipath.Derivation.Evaluation
import Multipath.Tree.Extraction

/-!
What searches and extractions do to a run, without regard to what they find. An evaluation reads
tokens, notes failures and resolves references, so it keeps whatever these keep
(`Session.evaluate_keeps`). An extraction only makes calls that a run answers
(`Session.branch_calls`), so what every call keeps, every extraction keeps.
-/

namespace Multipath

open Search (attempt noPath outcome outputOf readToken)
open Extract (ofSearch)

/-- Whatever comes of a computation, the state before and the state after it are related. -/
def Keeps {σ α : Type} (rel : σ → σ → Prop) (x : ExceptT Failure (StateM σ) α) : Prop :=
  ∀ st, Ensures x st fun _ st' => rel st st'

/-- A relation that is kept by doing nothing, and by one thing after another. -/
structure Steady {σ : Type} (rel : σ → σ → Prop) : Prop where
  refl : ∀ st, rel st st
  trans : ∀ {st st' st''}, rel st st' → rel st' st'' → rel st st''

namespace Keeps

variable {σ α β : Type} {rel : σ → σ → Prop} (hrel : Steady rel)
include hrel

theorem pure (a : α) : Keeps rel (Pure.pure a) := fun st => ensures_pure.mpr (hrel.refl st)

theorem throw (f : Failure) : Keeps rel (MonadExcept.throw f : ExceptT Failure (StateM σ) α) :=
  fun st => ensures_throw.mpr (hrel.refl st)

theorem get : Keeps rel (MonadState.get : ExceptT Failure (StateM σ) σ) :=
  fun st => ensures_get.mpr (hrel.refl st)

theorem bind_of {x : ExceptT Failure (StateM σ) α} {f : α → ExceptT Failure (StateM σ) β}
    {post : α → Prop} (hx : Keeps rel x)
    (hpost : ∀ st, Ensures x st fun result _ => ∀ a, result = .ok a → post a)
    (hf : ∀ a, post a → Keeps rel (f a)) : Keeps rel (x >>= f) := by
  intro st
  refine ensures_bind.mpr (((hx st).and (hpost st)).mono fun result st' h => ?_)
  cases result with
  | error f => exact h.1
  | ok a => exact (hf a (h.2 a rfl) st').mono fun _ _ h' => hrel.trans h.1 h'

theorem bind {x : ExceptT Failure (StateM σ) α} {f : α → ExceptT Failure (StateM σ) β}
    (hx : Keeps rel x) (hf : ∀ a, Keeps rel (f a)) : Keeps rel (x >>= f) :=
  hx.bind_of hrel (fun _ _ _ => (trivial : True)) fun a _ => hf a

theorem foldlM {ι : Type} {f : α → ι → ExceptT Failure (StateM σ) α} (is : List ι) (a : α)
    (hf : ∀ a i, Keeps rel (f a i)) : Keeps rel (is.foldlM f a) := by
  induction is generalizing a with
  | nil => exact .pure hrel a
  | cons i is ih =>
      rw [List.foldlM_cons]
      exact (hf a i).bind hrel fun a => ih a

end Keeps

section Search

/-- A relation that reading tokens and noting failures keep. -/
structure Run.Indifferent (rel : Run → Run → Prop) : Prop extends Steady rel where
  lexer : ∀ run lexer, rel run { run with lexer }
  noteFailure : ∀ run p, rel run (run.noteFailure p)

variable {s : Session} {rel : Run → Run → Prop}

theorem Keeps.noPath {α : Type} (hrel : Steady rel) (input : PathSet) :
    Keeps rel (noPath input : Search α) :=
  fun run => Search.ensures_noPath.mpr (hrel.refl run)

theorem Keeps.outputOf (hrel : Steady rel) (node : NodeId) : Keeps rel (outputOf node) :=
  fun run => Search.ensures_outputOf.mpr (hrel.refl run)

theorem Keeps.attempt {α : Type} {x : Search α} (hx : Keeps rel x) : Keeps rel (attempt x) := by
  intro run
  refine Search.ensures_attempt.mpr ((hx run).mono fun result run' h => ?_)
  cases result with
  | ok a => exact h
  | error f =>
      dsimp only
      split <;> exact h

namespace Session

variable (hrel : Run.Indifferent rel)
include hrel

theorem advance_keeps (tag : TagId) (output : PathSet) (p : Position) :
    Keeps rel (s.advance tag output p) := by
  have hread : Keeps rel (readToken s.source p) :=
    fun run => Search.ensures_readToken.mpr (hrel.lexer run _)
  have hnote (q : Position) : Keeps rel (do modify (·.noteFailure q); pure output) :=
    fun run => ensures_bind.mpr (ensures_modify.mpr (ensures_pure.mpr (hrel.noteFailure run q)))
  refine hread.bind hrel.toSteady fun result => ?_
  cases result with
  | error e => exact hnote e.position
  | ok token =>
      dsimp only
      split
      · exact .pure hrel.toSteady _
      · exact hnote token.span.start

theorem terminal_keeps (tag : TagId) (input : PathSet) : Keeps rel (s.terminal tag input) := by
  refine (Keeps.foldlM hrel.toSteady input.toList ∅ fun output p =>
    advance_keeps hrel tag output p).bind hrel.toSteady fun output => ?_
  split
  · exact .noPath hrel.toSteady input
  · exact .pure hrel.toSteady output

theorem unite_keeps (input : PathSet) (xs : List (Search PathSet)) (output : PathSet)
    (cause : Option Failure) (hxs : ∀ x ∈ xs, Keeps rel x) :
    Keeps rel (unite input xs output cause) := by
  induction xs generalizing output cause with
  | nil =>
      simp only [unite]
      split
      · split
        · exact .throw hrel.toSteady _
        · exact .noPath hrel.toSteady input
      · exact .pure hrel.toSteady output
  | cons x xs ih =>
      rw [unite]
      refine (hxs x (by simp)).attempt.bind hrel.toSteady fun result => ?_
      cases result <;> exact ih _ _ fun y hy => hxs y (by simp [hy])

theorem saturate_keeps (body : PathSet → Search PathSet) (n : Nat) (frontier result : PathSet)
    (hbody : ∀ input, Keeps rel (body input)) : Keeps rel (saturate body n frontier result) := by
  induction n generalizing frontier result with
  | zero => exact .pure hrel.toSteady result
  | succ n ih =>
      rw [saturate]
      refine (hbody frontier).attempt.bind hrel.toSteady fun found => ?_
      cases found with
      | error f => exact .pure hrel.toSteady result
      | ok output =>
          dsimp only
          split
          · exact .pure hrel.toSteady result
          · exact ih _ _

omit hrel

mutual

/-- An evaluation keeps what its resolver keeps. -/
theorem evaluate_keeps (hrel : Run.Indifferent rel) {resolve : Resolver}
    (hres : ∀ r p, Keeps rel (resolve r p)) :
    ∀ (rule : Rule) (input : PathSet), Keeps rel (s.evaluate resolve rule input)
  | .terminal tag, input => by
      rw [evaluate]
      exact terminal_keeps hrel tag input
  | .nonterminal rule, input => by
      rw [evaluate]
      refine unite_keeps hrel input _ ∅ none fun x hx => ?_
      obtain ⟨p, -, rfl⟩ := List.mem_map.mp hx
      exact hres rule p
  | .sequence items, input => by
      rw [evaluate]
      exact evaluateItems_keeps hrel hres items input
  | .optional body, input => by
      rw [evaluate]
      refine (evaluate_keeps hrel hres body input).attempt.bind hrel.toSteady fun found => ?_
      cases found <;> exact .pure hrel.toSteady _
  | .repetition body, input => by
      rw [evaluate]
      exact (Keeps.get hrel.toSteady).bind hrel.toSteady fun run =>
        saturate_keeps hrel _ _ input input (evaluate_keeps hrel hres body)
  | .alternation choices, input => by
      rw [evaluate]
      exact unite_keeps hrel input _ ∅ none (evaluateChoices_keeps hrel hres choices input)
  | .switch feature body, input => by
      rw [evaluate]
      split
      · exact evaluate_keeps hrel hres body input
      · exact .pure hrel.toSteady input

theorem evaluateItems_keeps (hrel : Run.Indifferent rel) {resolve : Resolver}
    (hres : ∀ r p, Keeps rel (resolve r p)) :
    ∀ (items : List Rule) (input : PathSet), Keeps rel (s.evaluateItems resolve items input)
  | [], input => by
      rw [evaluateItems]
      exact .pure hrel.toSteady input
  | item :: items, input => by
      rw [evaluateItems]
      exact (evaluate_keeps hrel hres item input).bind hrel.toSteady
        (evaluateItems_keeps hrel hres items)

theorem evaluateChoices_keeps (hrel : Run.Indifferent rel) {resolve : Resolver}
    (hres : ∀ r p, Keeps rel (resolve r p)) :
    ∀ (choices : List Rule) (input : PathSet), ∀ x ∈ s.evaluateChoices resolve choices input,
      Keeps rel x
  | [], _, _, hx => by
      rw [evaluateChoices] at hx
      exact absurd hx List.not_mem_nil
  | choice :: choices, input, x, hx => by
      rw [evaluateChoices] at hx
      obtain rfl | hx := List.mem_cons.mp hx
      · exact evaluate_keeps hrel hres choice input
      · exact evaluateChoices_keeps hrel hres choices input x hx

end

end Session

end Search
section Extract

/-- Calls that a run answers, whatever it answers. -/
inductive Session.Calls (s : Session) : Run → Run → Prop
  | none (run) : Calls s run run
  | follow {run run' rule input result run''} : Calls s run run' →
      (s.follow rule input).run.run run' = (result, run'') → Calls s run run''
  | derive {run run' rule p result run''} : Calls s run run' →
      (s.derive rule p).run.run run' = (result, run'') → Calls s run run''
  | read {run run' p result run''} : Calls s run run' →
      (readToken s.source p).run.run run' = (result, run'') → Calls s run run''

theorem Session.Calls.trans {s : Session} {run run' run'' : Run} (h : s.Calls run run')
    (h' : s.Calls run' run'') : s.Calls run run'' := by
  induction h' with
  | none => exact h
  | follow _ hrun ih => exact ih.follow hrun
  | derive _ hrun ih => exact ih.derive hrun
  | read _ hrun ih => exact ih.read hrun

/-- One extraction makes the run of another by calls. -/
def Extraction.Calls (s : Session) (e e' : Extraction) : Prop := s.Calls e.run e'.run

variable {s : Session}

theorem Extraction.calls_steady : Steady (Extraction.Calls s) where
  refl e := .none e.run
  trans h h' := Session.Calls.trans h h'

theorem Extract.keeps_ofSearch {α : Type} {x : Search α} (hx : Keeps s.Calls x) :
    Keeps (Extraction.Calls s) (ofSearch x) := by
  intro e
  refine ensures_bind.mpr (ensures_modifyGet.mpr ?_)
  dsimp only
  split
  · exact ensures_pure.mpr (hx e.run)
  · exact ensures_throw.mpr (hx e.run)

theorem Extract.keeps_outcome {α : Type} {x : Extract α} (hx : Keeps (Extraction.Calls s) x) :
    Keeps (Extraction.Calls s) (Extract.outcome x) := hx

/-- A part of a rule that makes calls only, whether it is reached over or built. -/
structure Fragment.CallsOnly (s : Session) (f : Fragment) : Prop where
  reach : ∀ paths stop, Keeps (Extraction.Calls s) (f.reach paths stop)
  build : ∀ start stop, Keeps (Extraction.Calls s) (f.build start stop)

namespace Fragment

open Extraction (calls_steady)

theorem CallsOnly.firstBuilt {f : Fragment} (hf : f.CallsOnly s) (p : Position)
    (stops : List Position) : Keeps (Extraction.Calls s) (f.firstBuilt p stops) := by
  induction stops with
  | nil => exact .pure calls_steady none
  | cons stop stops ih =>
      rw [Fragment.firstBuilt]
      refine (hf.build p stop).bind calls_steady fun found => ?_
      cases found with
      | none => exact ih
      | some nodes => exact .pure calls_steady _

section Reaching
variable {rel : Extraction → Extraction → Prop} (hrel : Steady rel)
include hrel

/-- Reaching over fragments, one after another, keeps what each of them does. -/
theorem layers_keeps (stop : Position) (fs : List Fragment) (paths : PathSet)
    (hfs : ∀ f ∈ fs, ∀ paths, Keeps rel (f.reach paths stop)) :
    Keeps rel (layers stop fs paths) := by
  induction fs generalizing paths with
  | nil => exact .pure hrel _
  | cons f fs ih =>
      rw [layers]
      refine (hfs f (by simp) paths).bind hrel fun next => ?_
      split
      · exact .pure hrel none
      · exact (ih next fun g hg => hfs g (by simp [hg])).bind hrel fun _ => .pure hrel _

theorem keepViable_keeps {f : Fragment} {stop : Position}
    (hf : ∀ paths, Keeps rel (f.reach paths stop)) (after layer : PathSet) :
    Keeps rel (f.keepViable stop after layer) :=
  .foldlM hrel _ _ fun _ _ => (hf _).bind hrel fun _ => .pure hrel _

theorem prune_keeps (stop : Position) (steps : List (Fragment × PathSet))
    (hsteps : ∀ step ∈ steps, ∀ paths, Keeps rel (step.1.reach paths stop)) :
    Keeps rel (prune stop steps) := by
  induction steps with
  | nil => exact .pure hrel _
  | cons step steps ih =>
      rw [prune]
      refine (ih fun step hstep => hsteps step (by simp [hstep])).bind hrel fun found => ?_
      exact (keepViable_keeps hrel (hsteps step (by simp)) found.1 step.2).bind hrel
        fun _ => .pure hrel _

theorem explore_keeps {f : Fragment} {stop : Position}
    (hf : ∀ paths, Keeps rel (f.reach paths stop)) (n : Nat) (pending : List Position)
    (steps : Steps) : Keeps rel (f.explore stop n pending steps) := by
  induction n generalizing pending steps with
  | zero => exact .pure hrel steps
  | succ n ih =>
      rw [Fragment.explore]
      split
      · exact .pure hrel steps
      · exact (hf _).bind hrel fun stops => ih _ _

end Reaching

theorem choose_calls (stop : Position) (steps : List (Fragment × PathSet)) (p : Position)
    (hsteps : ∀ step ∈ steps, step.1.CallsOnly s) :
    Keeps (Extraction.Calls s) (choose stop steps p) := by
  induction steps generalizing p with
  | nil => exact .pure calls_steady _
  | cons step steps ih =>
      rw [choose]
      have hstep := hsteps step (by simp)
      refine (hstep.reach _ stop).bind calls_steady fun stops => ?_
      refine (hstep.firstBuilt p _).bind calls_steady fun found => ?_
      cases found with
      | none => exact .pure calls_steady none
      | some found =>
          exact (ih found.1 fun step hstep => hsteps step (by simp [hstep])).bind calls_steady
            fun _ => .pure calls_steady _

/-- The fragments that are passed are those that were given. -/
theorem layers_fragments (stop : Position) (fs : List Fragment) (paths : PathSet)
    (e : Extraction) : Ensures (layers stop fs paths) e fun result _ =>
      ∀ steps, result = .ok (some steps) → steps.map (·.1) = fs := by
  induction fs generalizing paths e with
  | nil =>
      refine ensures_pure.mpr fun steps heq => ?_
      cases heq
      rfl
  | cons f fs ih =>
      rw [layers]
      refine ensures_bind.mpr (Ensures.of_forall fun result e' => ?_)
      cases result with
      | error f => exact nofun
      | ok next =>
          dsimp only
          split
          · exact ensures_pure.mpr fun _ heq => by cases heq
          · refine ensures_bind.mpr ((ih next e').mono fun result e'' hrest => ?_)
            cases result with
            | error f => exact nofun
            | ok found =>
                refine ensures_pure.mpr fun steps heq => ?_
                obtain ⟨rest, rfl, rfl⟩ := Option.map_eq_some_iff.mp (Except.ok.inj heq)
                rw [List.map_cons, hrest rest rfl]

theorem prune_fragments (stop : Position) (steps : List (Fragment × PathSet)) (e : Extraction) :
    Ensures (prune stop steps) e fun result _ =>
      ∀ found, result = .ok found → found.2.map (·.1) = steps.map (·.1) := by
  induction steps generalizing e with
  | nil =>
      refine ensures_pure.mpr fun found heq => ?_
      cases heq
      rfl
  | cons step steps ih =>
      rw [prune]
      refine ensures_bind.mpr ((ih e).mono fun result e' hrest => ?_)
      cases result with
      | error f => exact nofun
      | ok found =>
          refine ensures_bind.mpr (Ensures.of_forall fun result e'' => ?_)
          cases result with
          | error f => exact nofun
          | ok keep =>
              refine ensures_pure.mpr fun found' heq => ?_
              cases heq
              rw [List.map_cons, List.map_cons, hrest found rfl]

theorem inSequence_calls (fs : List Fragment) (start stop : Position)
    (hfs : ∀ f ∈ fs, f.CallsOnly s) :
    Keeps (Extraction.Calls s) (inSequence fs start stop) := by
  unfold inSequence
  refine (layers_keeps calls_steady stop fs {start} fun f hf paths =>
    (hfs f hf).reach paths stop).bind_of calls_steady
    (fun e => (layers_fragments stop fs {start} e).mono fun _ _ hsteps before heq steps hsome =>
      hsteps steps (heq.trans (congrArg Except.ok hsome))) fun before hbefore => ?_
  cases before with
  | none => exact .pure calls_steady none
  | some before =>
      have hcalls {steps : List (Fragment × PathSet)} (heq : steps.map (·.1) = fs) :
          ∀ step ∈ steps, step.1.CallsOnly s :=
        fun step hstep => hfs _ (heq ▸ List.mem_map_of_mem hstep)
      refine (prune_keeps calls_steady stop before fun step hstep paths =>
        (hcalls (hbefore before rfl) step hstep).reach paths stop).bind_of calls_steady
        (prune_fragments stop before) fun found hfound => ?_
      dsimp only
      split
      · exact choose_calls stop found.2 start (hcalls (hfound.trans (hbefore before rfl)))
      · exact .pure calls_steady none

theorem CallsOnly.iterate {f : Fragment} (hf : f.CallsOnly s) (stop : Position) (steps : Steps)
    (viable : Std.TreeSet Position) (n : Nat) (p : Position) :
    Keeps (Extraction.Calls s) (f.iterate stop steps viable n p) := by
  induction n generalizing p with
  | zero => exact .pure calls_steady _
  | succ n ih =>
      rw [Fragment.iterate]
      split
      · exact .pure calls_steady _
      · refine (hf.firstBuilt p _).bind calls_steady fun found => ?_
        cases found with
        | none => exact .pure calls_steady none
        | some found => exact (ih found.1).bind calls_steady fun _ => .pure calls_steady _

theorem CallsOnly.inRepetition {f : Fragment} (hf : f.CallsOnly s) (bound : Nat)
    (start stop : Position) : Keeps (Extraction.Calls s) (f.inRepetition bound start stop) := by
  unfold Fragment.inRepetition
  split
  · exact .pure calls_steady _
  · refine (explore_keeps calls_steady (fun paths => hf.reach paths stop) bound _ _).bind
      calls_steady fun steps => ?_
    dsimp only
    split
    · exact hf.iterate stop steps _ _ start
    · exact .pure calls_steady none

end Fragment

namespace Session

open Extraction (calls_steady)

theorem reach_calls (rule : Rule) (paths : PathSet) (stop : Position) :
    Keeps (Extraction.Calls s) (s.reach rule paths stop) := by
  have hfollow : Keeps s.Calls (s.follow rule paths) := fun run => (Calls.none run).follow rfl
  refine (Extract.keeps_ofSearch hfollow.attempt).bind calls_steady fun found => ?_
  cases found <;> exact .pure calls_steady _

theorem buildTerminal_calls (tag : TagId) (start stop : Position) :
    Keeps (Extraction.Calls s) (s.buildTerminal tag start stop) := by
  have hread : Keeps s.Calls (readToken s.source start) := fun run => (Calls.none run).read rfl
  refine (Extract.keeps_ofSearch hread).bind calls_steady fun found => ?_
  cases found with
  | error e => exact .pure calls_steady none
  | ok token =>
      dsimp only
      split <;> exact .pure calls_steady _

/-- A builder of branches that makes calls only. -/
def BranchBuilder.CallsOnly (s : Session) (branch : BranchBuilder) : Prop :=
  ∀ rule start stop, Keeps (Extraction.Calls s) (branch rule start stop)

variable {branch : BranchBuilder}

theorem buildNonterminal_calls (hbranch : branch.CallsOnly s) (rule : RuleId)
    (start stop : Position) :
    Keeps (Extraction.Calls s) (s.buildNonterminal branch rule start stop) := by
  have hderive : Keeps s.Calls (s.derive rule start) := fun run => (Calls.none run).derive rfl
  have houtput (node : NodeId) : Keeps s.Calls (outputOf node) :=
    fun run => Search.ensures_outputOf.mpr (.none run)
  refine (Extract.keeps_ofSearch hderive.attempt).bind calls_steady fun found => ?_
  cases found with
  | error f => exact .pure calls_steady none
  | ok node =>
      refine (Extract.keeps_ofSearch (houtput node)).bind calls_steady fun output => ?_
      split
      · exact (hbranch rule start stop).bind calls_steady fun _ => .pure calls_steady _
      · exact .pure calls_steady none

theorem forward_calls (start stop : Position) {x : Extract (Option (List Tree))}
    (hx : Keeps (Extraction.Calls s) x) : Keeps (Extraction.Calls s) (forward start stop x) := by
  unfold forward
  split
  · exact .pure calls_steady none
  · exact hx

mutual

theorem build_calls (hbranch : branch.CallsOnly s) : ∀ (rule : Rule) (start stop : Position),
    Keeps (Extraction.Calls s) (s.build branch rule start stop)
  | .terminal tag, start, stop => by
      rw [build]
      exact forward_calls start stop (buildTerminal_calls tag start stop)
  | .nonterminal rule, start, stop => by
      rw [build]
      exact forward_calls start stop (buildNonterminal_calls hbranch rule start stop)
  | .sequence items, start, stop => by
      rw [build]
      exact forward_calls start stop
        (Fragment.inSequence_calls _ start stop (fragments_calls hbranch items))
  | .optional body, start, stop => by
      rw [build]
      refine forward_calls start stop
        ((build_calls hbranch body start stop).bind calls_steady fun found => ?_)
      cases found <;> exact .pure calls_steady _
  | .repetition body, start, stop => by
      rw [build]
      exact forward_calls start stop ((Keeps.get calls_steady).bind calls_steady fun e =>
        Fragment.CallsOnly.inRepetition ⟨reach_calls body, build_calls hbranch body⟩ _ start stop)
  | .alternation choices, start, stop => by
      rw [build]
      exact forward_calls start stop (buildFirst_calls hbranch choices start stop)
  | .switch feature body, start, stop => by
      rw [build]
      refine forward_calls start stop ?_
      split
      · exact build_calls hbranch body start stop
      · exact .pure calls_steady _

theorem buildFirst_calls (hbranch : branch.CallsOnly s) :
    ∀ (choices : List Rule) (start stop : Position),
      Keeps (Extraction.Calls s) (s.buildFirst branch choices start stop)
  | [], start, stop => by
      rw [buildFirst]
      exact .pure calls_steady none
  | choice :: choices, start, stop => by
      rw [buildFirst]
      refine (build_calls hbranch choice start stop).bind calls_steady fun found => ?_
      cases found with
      | none => exact buildFirst_calls hbranch choices start stop
      | some nodes => exact .pure calls_steady _

theorem fragments_calls (hbranch : branch.CallsOnly s) :
    ∀ (items : List Rule), ∀ f ∈ s.fragments branch items, f.CallsOnly s
  | [], _, hf => by
      rw [fragments] at hf
      exact absurd hf List.not_mem_nil
  | item :: items, f, hf => by
      rw [fragments] at hf
      obtain rfl | hf := List.mem_cons.mp hf
      · exact ⟨reach_calls item, build_calls hbranch item⟩
      · exact fragments_calls hbranch items f hf

end

/-- Which stretches are under way or built is no matter of the run. -/
theorem keeps_modify {f : Extraction → Extraction} (hf : ∀ e, (f e).run = e.run) :
    Keeps (Extraction.Calls s) (modify f : Extract Unit) := by
  intro e
  refine ensures_modify.mpr ?_
  rw [Extraction.Calls, hf]
  exact .none e.run

theorem reuse_calls (stretch : Stretch) {fresh : Extract (Option Branch)}
    (hfresh : Keeps (Extraction.Calls s) fresh) :
    Keeps (Extraction.Calls s) (reuse stretch fresh) := by
  refine (Keeps.get calls_steady).bind calls_steady fun e => ?_
  split
  · exact .pure calls_steady _
  · split
    · exact .pure calls_steady none
    · exact hfresh

theorem branchFresh_calls (hbranch : branch.CallsOnly s) (stretch : Stretch) :
    Keeps (Extraction.Calls s) (s.branchFresh branch stretch) := by
  have hmodify (f : Extraction → Extraction) (hf : ∀ e, (f e).run = e.run) :
      Keeps (Extraction.Calls s) (modify f : Extract Unit) := keeps_modify hf
  unfold branchFresh
  refine (hmodify _ ?_).bind calls_steady fun _ => (Extract.keeps_outcome ?_).bind calls_steady
    fun derived => (hmodify _ ?_).bind calls_steady fun _ => ?_
  · exact fun _ => rfl
  · split
    · exact build_calls hbranch _ _ _
    · exact .pure calls_steady none
  · exact fun _ => rfl
  · split
    · exact .throw calls_steady _
    · exact .pure calls_steady none
    · refine (hmodify _ ?_).bind calls_steady fun _ => .pure calls_steady _
      exact fun _ => rfl

theorem branchWithin_calls (depth : Nat) :
    BranchBuilder.CallsOnly s fun rule start stop => s.branchWithin depth rule start stop := by
  induction depth with
  | zero => exact fun rule start stop => reuse_calls _ (.throw calls_steady _)
  | succ depth ih => exact fun rule start stop => reuse_calls _ (branchFresh_calls ih _)

/-- Extracting a branch makes calls on the run and nothing else. -/
theorem branch_calls (rule : RuleId) (start stop : Position) :
    Keeps (Extraction.Calls s) (s.branch rule start stop) :=
  (Keeps.get calls_steady).bind calls_steady fun _ => branchWithin_calls _ rule start stop

end Session

end Extract
end Multipath
