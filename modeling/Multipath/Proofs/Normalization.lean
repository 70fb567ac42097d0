import Multipath.Proofs.Levels

/-!
Normalising a rule keeps its meaning. Between calls a rule and its normal form have the same outcome
(`Extraction.Reached.follow_normalize`), and leave runs on one level. Resolving a switch and
flattening a sequence do not even change what is computed. Flattening an alternation may change
which failure is reported, and merging nested repetitions drops evaluations, which had nothing left
to find.
-/

namespace Multipath

open Search (attempt outputOf)

namespace SortedSet

variable {α : Type} [Ord α] [Std.TransOrd α] [Std.LawfulEqOrd α] {s t : SortedSet α}

theorem union_assoc (s t u : SortedSet α) : s ∪ t ∪ u = s ∪ (t ∪ u) :=
  Std.ExtTreeSet.ext_mem fun a => by simp [Std.ExtTreeSet.mem_union_iff, or_assoc]

theorem union_empty (s : SortedSet α) : s ∪ ∅ = s :=
  Std.ExtTreeSet.ext_mem fun a => by simp [Std.ExtTreeSet.mem_union_iff]

theorem union_eq_right (h : ∀ a ∈ s, a ∈ t) : s ∪ t = t := by
  refine Std.ExtTreeSet.ext_mem fun a => ?_
  rw [Std.ExtTreeSet.mem_union_iff]
  exact or_iff_right_of_imp (h a)

theorem union_diff_eq (h : ∀ a ∈ s, a ∈ t) : s ∪ (t \ s) = t := by
  refine Std.ExtTreeSet.ext_mem fun a => ?_
  rw [Std.ExtTreeSet.mem_union_iff, Std.ExtTreeSet.mem_diff_iff]
  by_cases hs : a ∈ s
  · simp [hs, h a hs]
  · simp [hs]

theorem diff_union_eq (s t u : SortedSet α) (h : ∀ a ∈ s, a ∈ u) : (s ∪ t) \ u = t \ u := by
  refine Std.ExtTreeSet.ext_mem fun a => ?_
  rw [Std.ExtTreeSet.mem_diff_iff, Std.ExtTreeSet.mem_diff_iff, Std.ExtTreeSet.mem_union_iff]
  by_cases hs : a ∈ s
  · simp [h a hs]
  · simp [hs]

end SortedSet

namespace Search

variable {α β : Type}

theorem attempt_pure (a : α) : attempt (pure a : Search α) = pure (.ok a) := rfl

/-- An attempt fails no more when it is attempted again. -/
theorem attempt_bind_attempt {x : Search α} {k : Except Failure α → Search β} :
    attempt (attempt x >>= k) = attempt x >>= fun found => attempt (k found) := by
  refine ext_ensures fun run post h => ?_
  refine ensures_attempt.mpr (ensures_bind.mpr (ensures_attempt.mpr ?_))
  refine Ensures.mono (ensures_attempt.mp (ensures_bind.mp h)) fun result run' hpost => ?_
  cases result with
  | ok a => exact ensures_attempt.mp hpost
  | error f =>
      dsimp only at hpost ⊢
      split
      · next hf =>
          rw [if_pos hf] at hpost
          exact ensures_attempt.mp hpost
      · next hf =>
          rw [if_neg hf] at hpost
          simpa [hf] using hpost

/-- What passes a result on as it is has no effect. -/
theorem attempt_bind_eq_self {x : Search α} {k : Except Failure α → Search α}
    (h : ∀ run, Ensures x run fun result _ =>
      match result with
      | .ok a => k (.ok a) = pure a
      | .error f => f.isAbsorbable = true → k (.error f) = throw f) :
    attempt x >>= k = x := by
  refine ext_ensures fun run post hpost => ?_
  refine ensures_bind.mpr (ensures_attempt.mpr (((h run).and hpost).mono ?_))
  intro result run' hboth
  obtain ⟨hk, hpost⟩ := hboth
  cases result with
  | ok a =>
      dsimp only at hk ⊢
      rw [hk]
      exact ensures_pure.mpr hpost
  | error f =>
      dsimp only at hk ⊢
      split
      · next hf =>
          rw [hk hf]
          exact ensures_throw.mpr hpost
      · exact hpost

end Search

/-- No calls are under way, and findings are about rules of the grammar. -/
def Run.AtRest (s : Session) (run : Run) : Prop := run.Resting s ∧ run.Defined s

/-- The runs are on one level, both at rest, and failures may differ as long as they are borne
alike. -/
def Comparison.atRest (s : Session) : Comparison Run where
  states run run' := run.Level run' ∧ run.AtRest s ∧ run'.AtRest s
  failures f g := f.isAbsorbable = g.isAbsorbable
  counts _ := True
  absorbable_eq h := h
  counts_of_absorbable _ := trivial

namespace Session

variable {s : Session} {run run' : Run}

/-- Between calls the one search may stand for the other. -/
def Interchangeable (s : Session) (x y : Search PathSet) : Prop :=
  ∀ run run', (Comparison.atRest s).states run run' →
    Agrees (.atRest s) (Same (· ≠ ∅)) x y run run'

/-- The search leaves the run at rest, and it does not find no paths. -/
def EndsAtRest (s : Session) (x : Search PathSet) : Prop :=
  ∀ run, run.AtRest s → Ensures x run fun result run' =>
    run'.AtRest s ∧ ∀ out, result = .ok out → out ≠ ∅

namespace Interchangeable

variable {x y z : Search PathSet}

theorem of_level (hlevel : ∀ run run', run.Level run' →
      Agrees .level (Same fun _ => True) x x run run')
    (hrest : s.EndsAtRest x) : s.Interchangeable x x := by
  intro run run' hstates
  obtain ⟨h, hrun, hrun'⟩ := hstates
  refine ((hrest run' hrun').and (hlevel run run' h)).mono fun result' after' hpost _ => ?_
  obtain ⟨⟨hafter', hne⟩, hx⟩ := hpost
  refine ((hrest run hrun).and (hx fun _ _ => trivial)).mono fun result after hpost => ?_
  obtain ⟨⟨hafter, -⟩, hlevel, halike⟩ := hpost
  refine ⟨⟨hlevel, hafter, hafter'⟩, ?_⟩
  cases halike with
  | @ok _ out hsame => exact .ok ⟨hsame.1, hsame.1 ▸ hne out rfl⟩
  | error heq => exact .error (congrArg Failure.isAbsorbable heq)

theorem trans (h : s.Interchangeable x y) (h' : s.Interchangeable y z) :
    s.Interchangeable x z := by
  intro run run'' hstates
  refine Ensures.mono (h' run run'' hstates) fun result'' after'' hy _ => ?_
  have hx := h run run ⟨.refl run, hstates.2.1, hstates.2.1⟩
  rcases hrun : y.run.run run with ⟨result', after'⟩
  obtain ⟨hstates', halike'⟩ := (hy fun _ _ => trivial).of_run hrun
  refine Ensures.mono (hx.of_run hrun fun _ _ => trivial) fun result after hpost => ?_
  obtain ⟨hstates, halike⟩ := hpost
  refine ⟨⟨hstates.1.trans hstates'.1, hstates.2.1, hstates'.2.2⟩, ?_⟩
  cases halike with
  | ok hsame =>
      cases halike' with
      | ok hsame' => exact .ok ⟨hsame.1.trans hsame'.1, hsame.2⟩
  | error heq =>
      cases halike' with
      | error heq' => exact .error (heq.trans heq')

end Interchangeable

theorem follow_eq_evaluate (hframes : run.frames = []) (rule : Rule) (input : PathSet) :
    (s.follow rule input).run.run run = (s.evaluate s.resolver rule input).run.run run := by
  have hfollow : Ensures (s.follow rule input) run fun result run' =>
      (result, run') = (s.evaluate s.resolver rule input).run.run run := by
    rw [ensures_follow, hframes]
    rfl
  exact hfollow

theorem Calls.atRest (h : s.Calls run run') (hrest : run.AtRest s) : run'.AtRest s :=
  ⟨(h.leaves hrest.1).2, h.defined hrest.2⟩

theorem evaluate_endsAtRest (rule : Rule) {input : PathSet} (hinput : input ≠ ∅) :
    s.EndsAtRest (s.evaluate s.resolver rule input) := by
  intro run hrest
  rcases hrun : (s.evaluate s.resolver rule input).run.run run with ⟨result, run'⟩
  refine Ensures.of_eq hrun ⟨?_, fun out hout => ?_⟩
  · rw [← follow_eq_evaluate hrest.1.frames] at hrun
    exact ((Calls.none run).follow hrun).atRest hrest
  · have hsound := evaluate_sound (resolver_sound s.maxDepth) rule input run hrest.1.valid
      fun _ _ => .inl trivial
    exact ((hsound.of_run hrun).2.2 out hout).1 hinput

/-- An evaluation stands for itself. -/
theorem evaluate_interchangeable (rule : Rule) {input : PathSet} (hinput : input ≠ ∅) :
    s.Interchangeable (s.evaluate s.resolver rule input) (s.evaluate s.resolver rule input) :=
  .of_level (fun _ _ h => evaluate_level rule input h) (evaluate_endsAtRest rule hinput)

theorem compares_atRest : s.Compares (.atRest s) (· ≠ ∅) where
  reason _ _ := rfl
  terminal tag input hinput hstates := by
    have h := evaluate_interchangeable (.terminal tag) hinput _ _ hstates
    rwa [evaluate] at h
  union h _ heq := by
    obtain ⟨p, hp⟩ := SortedSet.ne_empty_iff.mp h
    exact SortedSet.ne_empty_iff.mpr ⟨p, Std.ExtTreeSet.mem_union_of_left hp⟩ heq
  diff _ hne heq := hne (Std.ExtTreeSet.isEmpty_iff.mpr heq)
  rounds _ hstates := .inl (by unfold pathBound; rw [hstates.1.arena])

theorem evaluate_alternation (resolve : Resolver) (choices : List Rule) (input : PathSet) :
    s.evaluate resolve (.alternation choices) input =
      unite input (choices.map fun choice => s.evaluate resolve choice input) ∅ none := by
  rw [evaluate, evaluateChoices_eq]

section Congruence
variable {rule rule' : Rule} {input : PathSet}

theorem optional_interchangeable (hinput : input ≠ ∅)
    (h : s.Interchangeable (s.evaluate s.resolver rule' input) (s.evaluate s.resolver rule input)) :
    s.Interchangeable (s.evaluate s.resolver (.optional rule') input)
      (s.evaluate s.resolver (.optional rule) input) := by
  intro run run' hstates
  rw [evaluate, evaluate]
  apply (h run run' hstates).attempt.bind
  intro found found' after after' hstates hfound
  cases hfound with
  | ok hsame =>
      obtain ⟨rfl, hout⟩ := hsame
      exact .pure hstates ⟨rfl, (compares_atRest (s := s)).union hinput hout⟩
  | error _ => exact .pure hstates ⟨rfl, hinput⟩

theorem repetition_interchangeable (hinput : input ≠ ∅)
    (h : ∀ input, input ≠ ∅ → s.Interchangeable (s.evaluate s.resolver rule' input)
      (s.evaluate s.resolver rule input)) :
    s.Interchangeable (s.evaluate s.resolver (.repetition rule') input)
      (s.evaluate s.resolver (.repetition rule) input) := by
  intro run run' hstates
  rw [evaluate, evaluate]
  exact saturate_agrees compares_atRest (s.evaluate s.resolver rule') (s.evaluate s.resolver rule) h
    (s.pathBound run) (s.pathBound run') input input hinput hinput
    (compares_atRest.rounds hinput hstates) run run' hstates

theorem alternation_interchangeable (f : Rule → Rule) (choices : List Rule)
    (h : ∀ choice ∈ choices, s.Interchangeable (s.evaluate s.resolver (f choice) input)
      (s.evaluate s.resolver choice input)) :
    s.Interchangeable (s.evaluate s.resolver (.alternation (choices.map f)) input)
      (s.evaluate s.resolver (.alternation choices) input) := by
  intro run run' hstates
  rw [evaluate_alternation, evaluate_alternation, List.map_map]
  exact unite_agrees compares_atRest input _ _ choices h ∅ (by simp) none none .none run run'
    hstates

end Congruence

section Sequences

theorem evaluateItems_append (resolve : Resolver) (items items' : List Rule) (input : PathSet) :
    s.evaluateItems resolve (items ++ items') input =
      s.evaluateItems resolve items input >>= s.evaluateItems resolve items' := by
  induction items generalizing input with
  | nil => rfl
  | cons item items ih => simp only [List.cons_append, evaluateItems, ih, bind_assoc]

/-- Nested sequences are evaluated like flat ones. -/
theorem evaluateItems_flatMap (resolve : Resolver) (rules : List Rule) (input : PathSet) :
    s.evaluateItems resolve (rules.flatMap Rule.sequenceItems) input =
      s.evaluateItems resolve rules input := by
  induction rules generalizing input with
  | nil => rfl
  | cons rule rules ih =>
      have hitems : s.evaluateItems resolve rule.sequenceItems input =
          s.evaluate resolve rule input := by
        cases rule with
        | sequence items => rw [Rule.sequenceItems, evaluate]
        | _ => simp only [Rule.sequenceItems, evaluateItems, bind_pure]
      have hrest : s.evaluateItems resolve (rules.flatMap Rule.sequenceItems) =
          s.evaluateItems resolve rules := funext ih
      rw [List.flatMap_cons, evaluateItems_append, hitems, hrest, evaluateItems]

theorem evaluate_sequenceOf (resolve : Resolver) (rules : List Rule) (input : PathSet) :
    s.evaluate resolve (Rule.sequenceOf rules) input = s.evaluateItems resolve rules input := by
  unfold Rule.sequenceOf
  split
  · simp only [evaluateItems, bind_pure]
  · rw [evaluate]

end Sequences

section Alternations

/-- The failure, if there is one, may be borne. -/
def Borne (cause : Option Failure) : Prop := ∀ f, cause = some f → f.isAbsorbable = true

theorem borne_none : Borne none := by
  intro f heq
  cases heq

theorem borne_some {f : Failure} (hf : f.isAbsorbable = true) : Borne (some f) := by
  intro g heq
  cases heq
  exact hf

theorem unite_nil_spec (input output : PathSet) {cause : Option Failure} (hcause : Borne cause)
    (run : Run) : Ensures (unite input [] output cause) run fun result run' => run' = run ∧
      (output = ∅ ∧ (∃ f, result = .error f ∧ f.isAbsorbable = true) ∨
        output ≠ ∅ ∧ result = .ok output) := by
  simp only [unite]
  split
  · next hempty =>
      have hempty := Std.ExtTreeSet.isEmpty_iff.mp hempty
      cases cause with
      | none => exact Search.ensures_noPath.mpr ⟨rfl, .inl ⟨hempty, _, rfl, rfl⟩⟩
      | some f => exact ensures_throw.mpr ⟨rfl, .inl ⟨hempty, f, rfl, hcause f rfl⟩⟩
  · next hne =>
      exact ensures_pure.mpr ⟨rfl, .inr ⟨fun heq => hne (Std.ExtTreeSet.isEmpty_iff.mpr heq), rfl⟩⟩

/-- Without searches left, it makes no difference which failure is reported. -/
theorem unite_nil_interchangeable (input output : PathSet) {cause cause' : Option Failure}
    (hcause : Borne cause) (hcause' : Borne cause') :
    s.Interchangeable (unite input [] output cause) (unite input [] output cause') := by
  intro run run' hstates
  refine Ensures.mono (unite_nil_spec input output hcause' run') fun result' _ hpost' _ => ?_
  refine Ensures.mono (unite_nil_spec input output hcause run) fun result _ hpost => ?_
  obtain ⟨rfl, hresult'⟩ := hpost'
  obtain ⟨rfl, hresult⟩ := hpost
  refine ⟨hstates, ?_⟩
  obtain ⟨hempty, f, rfl, hf⟩ | ⟨hne, rfl⟩ := hresult
  · obtain ⟨-, g, rfl, hg⟩ | ⟨hne, -⟩ := hresult'
    · exact .error (hf.trans hg.symm)
    · exact absurd hempty hne
  · obtain ⟨hempty, -⟩ | ⟨-, rfl⟩ := hresult'
    · exact absurd hempty hne
    · exact .ok ⟨rfl, hne⟩

/-- Uniting goes on with what came of a group. -/
def resume (input : PathSet) (xs : List (Search PathSet)) (output : PathSet)
    (cause : Option Failure) : Except Failure PathSet → Search PathSet
  | .ok paths => unite input xs (output ∪ paths) cause
  | .error f => unite input xs output (some f)

theorem unite_cons (input : PathSet) (x : Search PathSet) (xs : List (Search PathSet))
    (output : PathSet) (cause : Option Failure) :
    unite input (x :: xs) output cause = attempt x >>= resume input xs output cause := rfl

/-- Tails of which the one may stand for the other, whatever was found before. -/
def TailsInterchangeable (s : Session) (input : PathSet) (ys zs : List (Search PathSet)) : Prop :=
  ∀ output cause cause', Borne cause → Borne cause' →
    s.Interchangeable (unite input ys output cause) (unite input zs output cause')

/-- Searches can be united with others one by one or as a group. -/
theorem unite_group {input : PathSet} {ys zs : List (Search PathSet)}
    (htail : s.TailsInterchangeable input ys zs) (xs : List (Search PathSet))
    (hxs : ∀ x ∈ xs, s.Interchangeable x x) (output inner : PathSet)
    {cause innerCause cause' : Option Failure} (hcause : Borne cause)
    (hinner : Borne innerCause) (hcause' : Borne cause') :
    s.Interchangeable (unite input (xs ++ ys) (output ∪ inner) cause)
      (attempt (unite input xs inner innerCause) >>= resume input zs output cause') := by
  induction xs generalizing inner cause innerCause with
  | nil =>
      intro run run' hstates
      refine ensures_bind.mpr (Search.ensures_attempt.mpr
        ((unite_nil_spec input inner hinner run').mono fun result' after' hpost => ?_))
      obtain ⟨rfl, ⟨rfl, f, rfl, hf⟩ | ⟨-, rfl⟩⟩ := hpost
      · dsimp only
        rw [if_pos hf, SortedSet.union_empty]
        exact htail output cause (some f) hcause (borne_some hf) run after' hstates
      · exact htail (output ∪ inner) cause cause' hcause hcause' run after' hstates
  | cons x xs ih =>
      have hrest : ∀ y ∈ xs, s.Interchangeable y y := fun y hy => hxs y (List.mem_cons_of_mem x hy)
      intro run run' hstates
      rw [List.cons_append, unite_cons, unite_cons, Search.attempt_bind_attempt, bind_assoc]
      apply (hxs x List.mem_cons_self run run' hstates).attempt.bind
      intro found found' after after' hstates hfound
      cases hfound with
      | @ok paths _ hsame =>
          obtain ⟨rfl, -⟩ := hsame
          have hunion := ih hrest (inner ∪ paths) hcause hinner
          rw [← SortedSet.union_assoc] at hunion
          exact hunion after after' hstates
      | error hfg =>
          exact ih hrest inner (borne_some hfg.2) (borne_some (hfg.1 ▸ hfg.2)) after after' hstates

/-- Nested alternations are evaluated like flat ones, but for the failure that they report. -/
theorem unite_flatMap (input : PathSet) (hinput : input ≠ ∅) (rules : List Rule) :
    s.TailsInterchangeable input
      ((rules.flatMap Rule.alternationChoices).map (s.evaluate s.resolver · input))
      (rules.map (s.evaluate s.resolver · input)) := by
  induction rules with
  | nil =>
      intro output _ _ hcause hcause'
      exact unite_nil_interchangeable input output hcause hcause'
  | cons rule rules ih =>
      intro output cause cause' hcause hcause'
      have hself (rule : Rule) :
          s.Interchangeable (s.evaluate s.resolver rule input) (s.evaluate s.resolver rule input) :=
        evaluate_interchangeable rule hinput
      rw [List.flatMap_cons, List.map_append, List.map_cons, unite_cons]
      cases rule with
      | alternation choices =>
          rw [Rule.alternationChoices, evaluate_alternation]
          have hgroup := unite_group ih (choices.map (s.evaluate s.resolver · input))
            (fun x hx => ?_) output ∅ hcause borne_none hcause'
          · rwa [SortedSet.union_empty] at hgroup
          · obtain ⟨choice, -, rfl⟩ := List.mem_map.mp hx
            exact hself choice
      | _ =>
          intro run run' hstates
          apply (hself _ run run' hstates).attempt.bind
          intro found found' after after' hstates hfound
          cases hfound with
          | ok hsame =>
              obtain ⟨rfl, -⟩ := hsame
              exact ih _ _ _ hcause hcause' after after' hstates
          | error hfg =>
              exact ih _ _ _ (borne_some hfg.2) (borne_some (hfg.1 ▸ hfg.2)) after after' hstates

/-- Uniting one search only drops the failure that it reports. -/
theorem unite_single (input : PathSet) {x : Search PathSet} (hx : s.Interchangeable x x) :
    s.Interchangeable x (unite input [x] ∅ none) := by
  let pass : Except Failure PathSet → Search PathSet
    | .ok out => pure out
    | .error f => throw f
  have hpass : attempt x >>= pass = x :=
    Search.attempt_bind_eq_self fun run => .of_forall fun result run' => by
      cases result with
      | ok out => rfl
      | error f => exact fun _ => rfl
  have hunite : s.Interchangeable (attempt x >>= pass) (unite input [x] ∅ none) := by
    intro run run' hstates
    rw [unite_cons]
    apply (hx run run' hstates).attempt.bind
    intro found found' after after' hstates hfound
    cases hfound with
    | @ok out _ hsame =>
        obtain ⟨rfl, hne⟩ := hsame
        refine Ensures.mono (unite_nil_spec input (∅ ∪ out) borne_none after') ?_
        intro result _ hpost _
        obtain ⟨rfl, ⟨hempty, -⟩ | ⟨-, rfl⟩⟩ := hpost
        · rw [SortedSet.empty_union] at hempty
          exact absurd hempty hne
        · exact ensures_pure.mpr ⟨hstates, .ok ⟨(SortedSet.empty_union out).symm, hne⟩⟩
    | @error f g hfg =>
        have hg : g.isAbsorbable = true := hfg.1 ▸ hfg.2
        refine Ensures.mono (unite_nil_spec input ∅ (borne_some hg) after') ?_
        intro result _ hpost _
        obtain ⟨rfl, ⟨-, g', rfl, hg'⟩ | ⟨hne, -⟩⟩ := hpost
        · exact ensures_throw.mpr ⟨hstates, .error (hfg.2.trans hg'.symm)⟩
        · exact absurd rfl hne
  rwa [hpass] at hunite

theorem evaluate_alternationOf (rules : List Rule) {input : PathSet} (hinput : input ≠ ∅) :
    s.Interchangeable (s.evaluate s.resolver (Rule.alternationOf rules) input)
      (s.evaluate s.resolver (.alternation rules) input) := by
  unfold Rule.alternationOf
  split
  · next rule =>
      have hsingle := unite_single input (evaluate_interchangeable (s := s) rule hinput)
      rwa [evaluate_alternation]
  · exact evaluate_interchangeable _ hinput

end Alternations

section Optional

/-- The search finds all paths that it is given, and it fails only at the bound on nesting. -/
def Includes (input : PathSet) (x : Search PathSet) : Prop :=
  ∀ run, Ensures x run fun result _ =>
    match result with
    | .ok out => ∀ p ∈ input, p ∈ out
    | .error f => f.isAbsorbable = false

theorem includes_optional (resolve : Resolver) (body : Rule) (input : PathSet) :
    Includes input (s.evaluate resolve (.optional body) input) := by
  intro run
  rw [evaluate]
  refine ensures_bind.mpr (Search.ensures_attempt.mpr (.of_forall fun result run' => ?_))
  cases result with
  | ok out => exact ensures_pure.mpr fun p hp => Std.ExtTreeSet.mem_union_of_left hp
  | error f =>
      dsimp only
      split
      · exact ensures_pure.mpr fun p hp => hp
      · next hf => simpa using hf

theorem includes_saturate (body : PathSet → Search PathSet) (n : Nat)
    (frontier result : PathSet) : Includes result (saturate body n frontier result) := by
  intro run
  induction n generalizing frontier result run with
  | zero => exact ensures_pure.mpr fun p hp => hp
  | succ n ih =>
      rw [saturate]
      refine ensures_bind.mpr (Search.ensures_attempt.mpr (.of_forall fun found run' => ?_))
      cases found with
      | error f =>
          dsimp only
          split
          · exact ensures_pure.mpr fun p hp => hp
          · next hf => simpa using hf
      | ok output =>
          dsimp only
          split
          · exact ensures_pure.mpr fun p hp => hp
          · refine Ensures.mono (ih _ _ run') fun result' _ hpost => ?_
            cases result' with
            | error f => exact hpost
            | ok out => exact fun p hp => hpost p (Std.ExtTreeSet.mem_union_of_left hp)

theorem includes_repetition (resolve : Resolver) (body : Rule) (input : PathSet) :
    Includes input (s.evaluate resolve (.repetition body) input) := by
  intro run
  rw [evaluate]
  exact ensures_bind.mpr (ensures_get.mpr (includes_saturate _ _ input input run))

/-- What finds its input anyway need not be optional. -/
theorem evaluate_optional_of_includes {resolve : Resolver} {body : Rule} {input : PathSet}
    (h : Includes input (s.evaluate resolve body input)) :
    s.evaluate resolve (.optional body) input = s.evaluate resolve body input := by
  rw [evaluate]
  refine Search.attempt_bind_eq_self fun run => (h run).mono fun result _ hpost => ?_
  cases result with
  | ok out => exact congrArg Pure.pure (SortedSet.union_eq_right hpost)
  | error f =>
      intro hf
      cases hf.symm.trans hpost

theorem evaluate_optionalOf (resolve : Resolver) (body : Rule) (input : PathSet) :
    s.evaluate resolve (Rule.optionalOf body) input =
      s.evaluate resolve (.optional body) input := by
  unfold Rule.optionalOf
  split
  · refine (evaluate_optional_of_includes fun run => ?_).symm
    rw [evaluate, evaluateItems]
    exact ensures_pure.mpr fun p hp => hp
  · exact (evaluate_optional_of_includes (includes_optional resolve _ input)).symm
  · exact (evaluate_optional_of_includes (includes_repetition resolve _ input)).symm
  · rfl

end Optional

section Repetition

/-- Within a repetition a body need not be optional. -/
theorem saturate_optional (resolve : Resolver) (body : Rule) (n : Nat) (frontier result : PathSet)
    (hsub : ∀ p ∈ frontier, p ∈ result) :
    saturate (s.evaluate resolve (.optional body)) n frontier result =
      saturate (s.evaluate resolve body) n frontier result := by
  induction n generalizing frontier result with
  | zero => rfl
  | succ n ih =>
      have hfresh (output : PathSet) : ∀ p ∈ output \ result, p ∈ result ∪ (output \ result) :=
        fun p hp => Std.ExtTreeSet.mem_union_of_right hp
      rw [saturate, saturate, evaluate, Search.attempt_bind_attempt, bind_assoc]
      congr 1
      funext found
      cases found with
      | error f =>
          have hempty : (frontier \ result).isEmpty = true :=
            Std.ExtTreeSet.isEmpty_diff_iff.mpr hsub
          simp only [Search.attempt_pure, pure_bind, hempty, if_true]
      | ok output =>
          have hrest := SortedSet.diff_union_eq frontier output result hsub
          simp only [Search.attempt_pure, pure_bind, hrest, ih _ _ (hfresh output)]

theorem saturate_nothing (n : Nat) (input : PathSet) :
    saturate pure (n + 1) input input = (pure input : Search PathSet) := by
  have hempty : (input \ input).isEmpty = true := Std.ExtTreeSet.isEmpty_diff_iff.mpr fun _ h => h
  simp only [saturate, Search.attempt_pure, pure_bind, hempty, if_true]

/-- Once a repetition has been evaluated, evaluating it on what it found adds nothing. -/
theorem saturate_idle {base : Run} (hrest : base.AtRest s) (body : Rule) (n : Nat)
    (frontier result : PathSet) (hne : frontier ≠ ∅)
    (hasked : ∀ p ∈ frontier, ∀ x, base.Asks s body p x → base.Answered s s.maxDepth x)
    (hclosed : ∀ p ∈ frontier, ∀ q, base.Leads s body p q → q ∈ result) (run : Run)
    (hlevel : run.Level base) (hrun : run.AtRest s) :
    Ensures (saturate (s.evaluate s.resolver body) n frontier result) run fun found run' =>
      found = .ok result ∧ run'.Level base ∧ run'.AtRest s := by
  cases n with
  | zero => exact ensures_pure.mpr ⟨rfl, hlevel, hrun⟩
  | succ n =>
      rw [saturate]
      refine ensures_bind.mpr (Search.ensures_attempt.mpr
        (((evaluate_endsAtRest body hne run hrun).and
          (evaluate_idle hrest.1 hrest.2 body frontier hasked hlevel)).mono ?_))
      intro found run' hpost
      obtain ⟨⟨hrun', -⟩, hstill, hfound⟩ := hpost
      have hlevel' := hstill.level.trans hlevel
      cases found with
      | error f =>
          dsimp only at hfound ⊢
          rw [if_pos hfound]
          exact ensures_pure.mpr ⟨rfl, hlevel', hrun'⟩
      | ok output =>
          have hempty : (output \ result).isEmpty = true := by
            refine Std.ExtTreeSet.isEmpty_diff_iff.mpr fun q hq => ?_
            obtain ⟨p, hp, hl⟩ := hfound q hq
            exact hclosed p hp q hl
          dsimp only
          rw [if_pos hempty]
          exact ensures_pure.mpr ⟨rfl, hlevel', hrun'⟩

/-- A repetition need not be repeated: its second round has nothing left to find. -/
theorem repetition_twice (body : Rule) {input : PathSet} (hinput : input ≠ ∅) :
    s.Interchangeable (s.evaluate s.resolver (.repetition body) input)
      (s.evaluate s.resolver (.repetition (.repetition body)) input) := by
  obtain ⟨start, hstart⟩ := SortedSet.ne_empty_iff.mp hinput
  intro run run' hstates
  rw [evaluate.eq_def s s.resolver (.repetition (.repetition body))]
  refine ensures_bind.mpr (ensures_get.mpr ?_)
  dsimp only
  have hbound : s.pathBound run' = s.source.length + run'.arena.pathCount + 1 := rfl
  rw [hbound, saturate]
  have hself := evaluate_interchangeable (s := s) (.repetition body) hinput run run' hstates
  have hvalid := hstates.2.2.1.valid
  refine ensures_bind.mpr (Search.ensures_attempt.mpr ((hself.and
    ((evaluate_endsAtRest (.repetition body) hinput run' hstates.2.2).and
      ((evaluate_attendsAll s.maxDepth (.repetition body) input run' hvalid).and
        (evaluate_sound (resolver_sound s.maxDepth) (.repetition body) input run' hvalid
          fun _ _ => .inl trivial)))).mono ?_))
  intro first after' hpost
  obtain ⟨hx, ⟨hrest, -⟩, hattends, -, -, hsound⟩ := hpost
  have hx := hx fun _ _ => trivial
  cases first with
  | error f =>
      dsimp only
      split
      · next hf =>
          -- a repetition leads at least to where it starts
          have hnone := (hattends (uncut_error hf)).2 hf
          exact absurd ⟨start, hstart, .stop⟩ (hnone start)
      · exact fun _ => hx
  | ok out =>
      obtain ⟨hasked, hclosed⟩ := hattends (uncut_ok out)
      have hsub : ∀ p ∈ input, p ∈ out := fun p hp => hclosed p ⟨p, hp, .stop⟩
      have hleads := (hsound out rfl).2
      dsimp only
      rw [SortedSet.union_diff_eq hsub]
      split
      · next hempty =>
          obtain rfl : input = out := Std.ExtTreeSet.ext_mem fun p =>
            ⟨hsub p, fun hp => Std.ExtTreeSet.isEmpty_diff_iff.mp hempty p hp⟩
          exact fun _ => hx
      · next hne =>
          have hfresh : out \ input ≠ ∅ := fun heq => hne (Std.ExtTreeSet.isEmpty_iff.mpr heq)
          have hfrom (p : Position) (hp : p ∈ out \ input) :
              ∃ p' ∈ input, after'.Leads s (.repetition body) p' p :=
            hleads p (Std.ExtTreeSet.mem_diff_iff.mp hp).1
          refine Ensures.mono (saturate_idle hrest (.repetition body) _ (out \ input) out hfresh
            (fun p hp x hask => ?_) (fun p hp q hl => ?_) after' (.refl after') hrest) ?_
          · obtain ⟨p', hp', hl⟩ := hfrom p hp
            exact hasked p' hp' x (hask.again hl)
          · obtain ⟨p', hp', hl'⟩ := hfrom p hp
            exact hclosed q ⟨p', hp', hl'.repetition_trans hl⟩
          · intro second last' hpost _
            obtain ⟨rfl, hlevel, hlast⟩ := hpost
            refine hx.mono fun result after hpost => ?_
            exact ⟨⟨hpost.1.1.trans hlevel.symm, hpost.1.2.1, hlast⟩, hpost.2⟩

theorem evaluate_repetitionOf (body : Rule) {input : PathSet} (hinput : input ≠ ∅) :
    s.Interchangeable (s.evaluate s.resolver (Rule.repetitionOf body) input)
      (s.evaluate s.resolver (.repetition body) input) := by
  have hself := evaluate_interchangeable (s := s) (.repetition body) hinput
  unfold Rule.repetitionOf
  split
  · have hbody : s.evaluate s.resolver (.sequence []) = pure := by
      funext input
      rw [evaluate, evaluateItems]
    have hnothing : s.evaluate s.resolver (.repetition (.sequence [])) input = pure input := by
      rw [evaluate.eq_def]
      simp only [hbody]
      exact funext fun run => congrFun (saturate_nothing _ input) run
    rw [hnothing] at hself ⊢
    rwa [hbody]
  · next body =>
      have hbody : s.evaluate s.resolver (.repetition (.optional body)) input =
          s.evaluate s.resolver (.repetition body) input := by
        rw [evaluate, evaluate]
        funext run
        exact congrFun (saturate_optional s.resolver body (s.pathBound run) input input
          fun _ h => h) run
      rw [hbody] at hself ⊢
      exact hself
  · exact repetition_twice _ hinput
  · exact hself

end Repetition

mutual

/-- The normal form of a rule may stand for it between calls. -/
theorem normalize_interchangeable : ∀ (rule : Rule) (input : PathSet), input ≠ ∅ →
    s.Interchangeable (s.evaluate s.resolver (rule.normalize s.grammar.features) input)
      (s.evaluate s.resolver rule input)
  | .terminal tag, input, hinput => by
      rw [Rule.normalize]
      exact evaluate_interchangeable _ hinput
  | .nonterminal rule, input, hinput => by
      rw [Rule.normalize]
      exact evaluate_interchangeable _ hinput
  | .sequence items, input, hinput => by
      rw [Rule.normalize, evaluate_sequenceOf, evaluateItems_flatMap, evaluate]
      exact normalizeAll_interchangeable items input hinput
  | .optional body, input, hinput => by
      rw [Rule.normalize, evaluate_optionalOf]
      exact optional_interchangeable hinput (normalize_interchangeable body input hinput)
  | .repetition body, input, hinput => by
      rw [Rule.normalize]
      exact (evaluate_repetitionOf _ hinput).trans
        (repetition_interchangeable hinput (normalize_interchangeable body))
  | .alternation choices, input, hinput => by
      rw [Rule.normalize, Rule.normalizeAll_eq]
      have hchoices := normalizeChoices_interchangeable choices input hinput
      refine ((evaluate_alternationOf _ hinput).trans ?_).trans
        (alternation_interchangeable _ choices hchoices)
      rw [evaluate_alternation, evaluate_alternation]
      exact unite_flatMap input hinput _ ∅ none none borne_none borne_none
  | .switch feature body, input, hinput => by
      have henabled : s.grammar.isEnabled feature = true ↔ feature ∈ s.grammar.features := by
        simp [Grammar.isEnabled]
      rw [Rule.normalize, evaluate]
      simp only [henabled]
      split
      · exact normalize_interchangeable body input hinput
      · have h := evaluate_interchangeable (s := s) .empty hinput
        rwa [Rule.empty, evaluate, evaluateItems] at h ⊢

theorem normalizeAll_interchangeable : ∀ (items : List Rule) (input : PathSet), input ≠ ∅ →
    s.Interchangeable
      (s.evaluateItems s.resolver (Rule.normalizeAll s.grammar.features items) input)
      (s.evaluateItems s.resolver items input)
  | [], input, hinput => by
      rw [Rule.normalizeAll, evaluateItems]
      exact fun run run' hstates => .pure hstates ⟨rfl, hinput⟩
  | item :: items, input, hinput => by
      rw [Rule.normalizeAll, evaluateItems, evaluateItems]
      intro run run' hstates
      apply (normalize_interchangeable item input hinput run run' hstates).bind
      intro paths _ after after' hstates hsame
      obtain ⟨rfl, hpaths⟩ := hsame
      exact normalizeAll_interchangeable items paths hpaths after after' hstates

theorem normalizeChoices_interchangeable : ∀ (choices : List Rule) (input : PathSet), input ≠ ∅ →
    ∀ choice ∈ choices, s.Interchangeable
      (s.evaluate s.resolver (choice.normalize s.grammar.features) input)
      (s.evaluate s.resolver choice input)
  | [], _, _, _, hx => absurd hx List.not_mem_nil
  | choice :: choices, input, hinput, x, hx => by
      by_cases h : x = choice
      · rw [h]
        exact normalize_interchangeable choice input hinput
      · exact normalizeChoices_interchangeable choices input hinput x
          ((List.mem_cons.mp hx).resolve_left h)

end

end Session

/-- However a run came about, between calls a rule and its normal form have the same outcome from
it: the same paths, or failures that are borne alike. -/
theorem Extraction.Reached.follow_normalize {s : Session} {allowed : Position → Prop}
    {e : Extraction} (h : e.Reached s allowed) (rule : Rule) {input : PathSet}
    (hinput : input ≠ ∅) :
    Alike (fun f g => f.isAbsorbable = g.isAbsorbable) Eq
      ((s.follow (rule.normalize s.grammar.features) input).run.run e.run).1
      ((s.follow rule input).run.run e.run).1 := by
  have hrest := h.standing
  have hsame := Session.normalize_interchangeable rule input hinput e.run e.run
    ⟨.refl e.run, hrest, hrest⟩
  have hboth := hsame fun _ _ => trivial
  rw [Session.follow_eq_evaluate hrest.1.frames, Session.follow_eq_evaluate hrest.1.frames]
  exact hboth.2.mono (fun _ _ heq => heq) fun _ _ heq => heq.1

/-- An optional repetition between nested groups, evaluated in a run that has derived a list. -/
theorem Extraction.Reached.follow_normalize_lists :
    Extraction.Reached (Samples.listSession "a,a") (fun _ => True)
        { run := (((Samples.listSession "a,a").derive 0 .start).run.run {}).2 } ∧
      ({.start} : PathSet) ≠ ∅ ∧
      Alike (fun f g => f.isAbsorbable = g.isAbsorbable) Eq
        (((Samples.listSession "a,a").follow (.repetition (.alternation [.nonterminal 0, .terminal 1]))
          {.start}).run.run (((Samples.listSession "a,a").derive 0 .start).run.run {}).2).1
        (((Samples.listSession "a,a").follow (.repetition (.optional (.sequence
          [.repetition (.alternation [.alternation [.nonterminal 0], .terminal 1])])))
          {.start}).run.run (((Samples.listSession "a,a").derive 0 .start).run.run {}).2).1 := by
  have hreached : Extraction.Reached (Samples.listSession "a,a") (fun _ => True)
      { run := (((Samples.listSession "a,a").derive 0 .start).run.run {}).2 } := by
    generalize hderive : ((Samples.listSession "a,a").derive 0 .start).run.run {} = derived
    exact .derive .fresh trivial hderive
  have hinput : ({.start} : PathSet) ≠ ∅ :=
    SortedSet.ne_empty_iff.mpr ⟨.start, SortedSet.mem_singleton.mpr rfl⟩
  exact ⟨hreached, hinput, hreached.follow_normalize (.repetition (.optional (.sequence
    [.repetition (.alternation [.alternation [.nonterminal 0], .terminal 1])]))) hinput⟩

end Multipath
