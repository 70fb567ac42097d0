import Multipath.Proofs.AtRest
import Multipath.Proofs.Trees

/-!
The standing of a run between calls, however it came about: it is at rest, also after its newest
node was narrowed to one path, and it has findings only about rules that its grammar has. The latter
is one of the relations between runs that deriving a rule keeps if it keeps them around what it
evaluates (`Run.Enclosing`).
-/

namespace Multipath

open Search (outcome outputOf)

namespace Arena

theorem node?_setOutput (a : Arena) (id : NodeId) (out : PathSet) (other : NodeId) :
    (a.setOutput id out).node? other =
      (a.node? other).map fun n => if id = other then { n with output := out } else n := by
  simp only [setOutput, node?, Array.getElem?_modify]
  split
  · rfl
  · simp

theorem node?_setOutput_eq_some {a : Arena} {id other : NodeId} {out : PathSet} {n : Node}
    (h : (a.setOutput id out).node? other = some n) :
    ∃ n', a.node? other = some n' ∧ n.children = n'.children ∧ n.parent = n'.parent := by
  rw [node?_setOutput] at h
  obtain ⟨n', hn', rfl⟩ := Option.map_eq_some_iff.mp h
  refine ⟨n', hn', ?_, ?_⟩ <;> split <;> rfl

theorem node?_setOutput_of_node? {a : Arena} {other : NodeId} {n : Node}
    (h : a.node? other = some n) (id : NodeId) (out : PathSet) :
    ∃ n', (a.setOutput id out).node? other = some n' ∧ n'.children = n.children ∧
      n'.parent = n.parent := by
  rw [node?_setOutput, h]
  refine ⟨_, rfl, ?_, ?_⟩ <;> split <;> rfl

/-- Links do not depend on outputs. -/
theorem Linked.setOutput {a : Arena} {waiting : List NodeId} (h : a.Linked waiting) (id : NodeId)
    (out : PathSet) : (a.setOutput id out).Linked waiting where
  children_lt other n hn := by
    obtain ⟨n', hn', hchildren, -⟩ := node?_setOutput_eq_some hn
    rw [hchildren]
    exact h.children_lt other n' hn'
  nodup other n hn := by
    obtain ⟨n', hn', hchildren, -⟩ := node?_setOutput_eq_some hn
    rw [hchildren]
    exact h.nodup other n' hn'
  parent_iff other n hn parent := by
    obtain ⟨n', hn', -, hparent⟩ := node?_setOutput_eq_some hn
    rw [hparent, h.parent_iff other n' hn' parent]
    constructor
    · intro hm
      obtain ⟨m, hm, hmem⟩ := hm
      obtain ⟨m', hm', hchildren, -⟩ := node?_setOutput_of_node? hm id out
      exact ⟨m', hm', hchildren ▸ hmem⟩
    · intro hm
      obtain ⟨m, hm, hmem⟩ := hm
      obtain ⟨m', hm', hchildren, -⟩ := node?_setOutput_eq_some hm
      exact ⟨m', hm', hchildren ▸ hmem⟩
  orphan other hother := by
    obtain ⟨n, hn, hnone⟩ := h.orphan other hother
    obtain ⟨n', hn', -, hparent⟩ := node?_setOutput_of_node? hn id out
    exact ⟨n', hn', hparent.trans hnone⟩
  nodup_waiting := h.nodup_waiting

end Arena

/-- A relation that deriving a rule keeps where evaluating its body does, besides what evaluations
do themselves. -/
structure Run.Enclosing (s : Session) (rel : Run → Run → Prop) : Prop extends Indifferent rel where
  countMemoHit : ∀ run, rel run run.countMemoHit
  countLeftRecursion : ∀ run, rel run run.countLeftRecursion
  fail : ∀ {run run' rule p}, s.grammar.rule? rule ≠ none → rel (run.enter rule p) run' →
    ∀ f, rel run (run'.fail rule p f)
  succeed : ∀ {run run' rule p}, s.grammar.rule? rule ≠ none → rel (run.enter rule p) run' →
    ∀ out, rel run (run'.succeed rule p out).2

namespace Session

variable {s : Session} {rel : Run → Run → Prop}

theorem deriveFresh_keeps (hrel : Run.Enclosing s rel) {resolve : Resolver}
    (hres : ∀ r q, Keeps rel (resolve r q)) (rule : RuleId) (p : Position) :
    Keeps rel (s.deriveFresh resolve rule p) := by
  intro run
  refine ensures_deriveFresh.mpr ?_
  split
  · exact hrel.refl run
  · next definition hdef =>
      have hrule : s.grammar.rule? rule ≠ none := by simp [hdef]
      refine Ensures.mono (evaluate_keeps hrel.toIndifferent hres definition.body {p}
        (run.enter rule p)) fun result run' hkept => ?_
      cases result with
      | error f => exact hrel.fail hrule hkept f
      | ok out => exact hrel.succeed hrule hkept out

theorem deriveWithin_keeps (hrel : Run.Enclosing s rel) (depth : Nat) (rule : RuleId)
    (p : Position) : Keeps rel (s.deriveWithin depth rule p) := by
  have hconsult (rule : RuleId) (p : Position) {fresh : Search NodeId}
      (hfresh : Keeps rel fresh) : Keeps rel (consult rule p fresh) := by
    intro run
    refine ensures_consult.mpr ?_
    split
    · exact hrel.countMemoHit run
    · exact hrel.countMemoHit run
    · exact hrel.countLeftRecursion run
    · exact hfresh run
  induction depth generalizing rule p with
  | zero => exact hconsult rule p (.throw hrel.toSteady _)
  | succ depth ih =>
      refine hconsult rule p (deriveFresh_keeps hrel (fun r q => ?_) rule p)
      exact (ih r q).bind hrel.toSteady (.outputOf hrel.toSteady)

/-- References keep what derivations do, and so does evaluating with them. -/
theorem evaluateWithin_keeps (hrel : Run.Enclosing s rel) (depth : Nat) (rule : Rule)
    (input : PathSet) :
    Keeps rel (s.evaluate (fun r q => s.deriveWithin depth r q >>= outputOf) rule input) :=
  evaluate_keeps hrel.toIndifferent
    (fun r q => (deriveWithin_keeps hrel depth r q).bind hrel.toSteady (.outputOf hrel.toSteady))
    rule input

end Session

namespace Run

variable {s : Session} {run run' : Run}

theorem Resting.narrow (h : run.Resting s) {id : NodeId} (hid : id + 1 = run.arena.size)
    {q : Position} (hq : q ∈ run.arena.output id) : (run.setOutput id {q}).Resting s where
  valid := h.valid.narrow hid hq
  tidy := ⟨h.tidy.counted, h.tidy.maxDepth, h.tidy.linked.setOutput id {q}⟩
  frames := h.frames
  settled := h.settled

/-- Findings are about rules of the grammar. -/
def Defined (s : Session) (run : Run) : Prop :=
  ∀ p rule finding, run.memo.find? p rule = some finding → s.grammar.rule? rule ≠ none

theorem Defined.record {p : Position} {rule : RuleId} {finding : Finding} (h : run.Defined s)
    (hrec : run.Records run' p rule finding) (hrule : s.grammar.rule? rule ≠ none) :
    run'.Defined s := by
  intro q r f hm
  rw [hrec.find?] at hm
  split at hm
  · next heq => exact heq.2 ▸ hrule
  · exact h q r f hm

/-- Findings stay findings about rules of the grammar. -/
def StaysDefined (s : Session) (run run' : Run) : Prop := run.Defined s → run'.Defined s

theorem staysDefined_enclosing : Enclosing s (StaysDefined s) where
  refl _ h := h
  trans h h' hd := h' (h hd)
  lexer _ _ h := h
  noteFailure _ _ h := h
  countMemoHit _ h := h
  countLeftRecursion _ h := h
  fail hrule h f hd :=
    (h (hd.record (enter_records _ _ _) hrule)).record (fail_records _ _ _ f) hrule
  succeed hrule h out hd :=
    (h (hd.record (enter_records _ _ _) hrule)).record (succeed_records _ _ _ out) hrule

end Run

namespace Session

variable {s : Session}

open Run (StaysDefined staysDefined_enclosing)

theorem Calls.defined {run run' : Run} (h : s.Calls run run') (hdefined : run.Defined s) :
    run'.Defined s := by
  induction h with
  | none => exact hdefined
  | @follow run' rule input _ _ _ hrun ih =>
      exact (ensures_follow.mpr
        (evaluateWithin_keeps staysDefined_enclosing _ rule input run')).of_run hrun ih
  | @derive run' rule p _ _ _ hrun ih =>
      exact (ensures_derive.mpr
        (deriveWithin_keeps staysDefined_enclosing _ rule p run')).of_run hrun ih
  | @read run' p _ _ _ hrun ih =>
      have hread : Ensures (Search.readToken s.source p) run' fun _ run'' =>
          StaysDefined s run' run'' := Search.ensures_readToken.mpr id
      exact hread.of_run hrun ih

end Session

/-- However a run came about, it is at rest between calls. -/
theorem Extraction.Reached.standing {s : Session} {allowed : Position → Prop} {e : Extraction}
    (h : e.Reached s allowed) : e.run.Resting s ∧ e.run.Defined s := by
  have hcalls {run run' : Run} (hcalls : s.Calls run run') (h : run.Resting s ∧ run.Defined s) :
      run'.Resting s ∧ run'.Defined s := ⟨(hcalls.leaves h.1).2, hcalls.defined h.2⟩
  induction h with
  | fresh =>
      refine ⟨Run.resting_fresh s, fun p rule finding hm => ?_⟩
      simp [Memo.find?] at hm
  | evaluate _ _ hrun ih => exact hcalls ((Session.Calls.none _).follow hrun) ih
  | derive _ _ hrun ih => exact hcalls ((Session.Calls.none _).derive hrun) ih
  | read _ _ hrun ih => exact hcalls ((Session.Calls.none _).read hrun) ih
  | narrow _ hid hq ih => exact ⟨ih.1.narrow hid hq, ih.2⟩
  | branch _ _ hrun ih => exact hcalls ((Session.branch_calls _ _ _ _).of_run hrun) ih
  | renew _ ih => exact ih

end Multipath
