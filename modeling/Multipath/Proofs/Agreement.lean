import Multipath.Proofs.Derivations

/-!
Two computations side by side. A comparison says which states of the two correspond, which failures
do, and which ways to fail leave nothing to be said. `Agrees` holds when the two end alike under
that comparison. It passes through every combinator of the evaluator, so two evaluations of a rule
agree as soon as their references do (`Session.evaluate_agrees`).
-/

namespace Multipath

open Search (attempt readToken)

/-- What it takes for two computations to end alike. -/
structure Comparison (σ : Type) where
  states : σ → σ → Prop
  failures : Failure → Failure → Prop
  /-- When the second one fails otherwise than so, nothing is said of the first. -/
  counts : Failure → Prop
  absorbable_eq : ∀ {f g}, failures f g → f.isAbsorbable = g.isAbsorbable
  counts_of_absorbable : ∀ {f}, f.isAbsorbable = true → counts f

/-- Both succeed with values that match, or both fail with failures that match. -/
inductive Alike {α β : Type} (failures : Failure → Failure → Prop) (values : α → β → Prop) :
    Except Failure α → Except Failure β → Prop
  | ok {a b} : values a b → Alike failures values (.ok a) (.ok b)
  | error {f g} : failures f g → Alike failures values (.error f) (.error g)

theorem Alike.mono {α β : Type} {failures failures' : Failure → Failure → Prop}
    {values values' : α → β → Prop} {result : Except Failure α} {result' : Except Failure β}
    (h : Alike failures values result result') (hfailures : ∀ f g, failures f g → failures' f g)
    (hvalues : ∀ a b, values a b → values' a b) : Alike failures' values' result result' := by
  cases h with
  | ok hab => exact .ok (hvalues _ _ hab)
  | error hfg => exact .error (hfailures _ _ hfg)

section Agrees
variable {σ α β α' β' : Type}

/-- What a computation ended in counts. -/
def Comparison.Heeds (c : Comparison σ) (result : Except Failure α) : Prop :=
  ∀ f, result = .error f → c.counts f

/-- `x` ends like `y`, if what `y` ends in counts. -/
def Agrees (c : Comparison σ) (values : α → β → Prop) (x : ExceptT Failure (StateM σ) α)
    (y : ExceptT Failure (StateM σ) β) (st st' : σ) : Prop :=
  Ensures y st' fun result' after' => c.Heeds result' →
    Ensures x st fun result after =>
      c.states after after' ∧ Alike c.failures values result result'

variable {c : Comparison σ} {st st' : σ} {values : α → β → Prop} {values' : α' → β' → Prop}

theorem Comparison.heeds_ok (a : α) : c.Heeds (Except.ok a) := by
  intro f heq
  cases heq

theorem Comparison.heeds_error {f : Failure} (hf : c.counts f) :
    c.Heeds (Except.error f : Except Failure α) := by
  intro g heq
  cases heq
  exact hf

namespace Agrees

theorem pure {a : α} {b : β} (hstates : c.states st st') (hab : values a b) :
    Agrees c values (Pure.pure a) (Pure.pure b) st st' :=
  ensures_pure.mpr fun _ => ensures_pure.mpr ⟨hstates, .ok hab⟩

theorem throw {f g : Failure} (hstates : c.states st st') (hfg : c.failures f g) :
    Agrees c values (MonadExcept.throw f) (MonadExcept.throw g) st st' :=
  ensures_throw.mpr fun _ => ensures_throw.mpr ⟨hstates, .error hfg⟩

/-- Where the second computation fails and that does not count. -/
theorem of_not_counts {x : ExceptT Failure (StateM σ) α} {f : Failure} (hf : ¬c.counts f) :
    Agrees c values x (MonadExcept.throw f) st st' :=
  ensures_throw.mpr fun hheeds => absurd (hheeds f rfl) hf

theorem mono {x : ExceptT Failure (StateM σ) α} {y : ExceptT Failure (StateM σ) β}
    {values' : α → β → Prop} (h : Agrees c values x y st st')
    (himp : ∀ a b, values a b → values' a b) : Agrees c values' x y st st' :=
  Ensures.mono h fun _ _ hx hheeds => (hx hheeds).mono fun _ _ hpost =>
    ⟨hpost.1, hpost.2.mono (fun _ _ hfg => hfg) himp⟩

theorem bind {x : ExceptT Failure (StateM σ) α} {y : ExceptT Failure (StateM σ) β}
    {f : α → ExceptT Failure (StateM σ) α'} {g : β → ExceptT Failure (StateM σ) β'}
    (h : Agrees c values x y st st')
    (hfg : ∀ a b after after', c.states after after' → values a b →
      Agrees c values' (f a) (g b) after after') :
    Agrees c values' (x >>= f) (y >>= g) st st' := by
  refine ensures_bind.mpr (Ensures.mono h ?_)
  intro result' after' hx
  cases result' with
  | error e =>
      intro hheeds
      refine ensures_bind.mpr ((hx (c.heeds_error (hheeds e rfl))).mono ?_)
      intro result after hpost
      obtain ⟨hstates, halike⟩ := hpost
      cases halike with
      | error hfg => exact ⟨hstates, .error hfg⟩
  | ok b =>
      rcases hrun : x.run.run st with ⟨result, after⟩
      obtain ⟨hstates, halike⟩ := (hx (c.heeds_ok b)).of_run hrun
      cases halike with
      | ok hab =>
          refine Ensures.mono (hfg _ b after after' hstates hab) fun _ _ hlast hheeds => ?_
          exact ensures_bind.mpr (Ensures.of_eq hrun (hlast hheeds))

/-- Going on from a result, whatever it is: what does not count must not be made up for. -/
theorem settled {x : ExceptT Failure (StateM σ) α} {y : ExceptT Failure (StateM σ) β}
    {f : Except Failure α → ExceptT Failure (StateM σ) α'}
    {g : Except Failure β → ExceptT Failure (StateM σ) β'} (h : Agrees c values x y st st')
    (hfg : ∀ result result' after after', c.states after after' →
      Alike c.failures values result result' →
      Agrees c values' (f result) (g result') after after')
    (hfails : ∀ e after', ¬c.counts e →
      Ensures (g (.error e)) after' fun result _ => result = .error e) :
    Agrees c values' (ExceptT.lift x.run >>= f) (ExceptT.lift y.run >>= g) st st' := by
  refine ensures_settled.mpr (Ensures.mono h ?_)
  intro result' after' hx
  by_cases hheeds : c.Heeds result'
  · rcases hrun : x.run.run st with ⟨result, after⟩
    obtain ⟨hstates, halike⟩ := (hx hheeds).of_run hrun
    refine Ensures.mono (hfg result result' after after' hstates halike) fun _ _ hlast hheeds => ?_
    exact ensures_settled.mpr (Ensures.of_eq hrun (hlast hheeds))
  · cases result' with
    | ok b => exact absurd (c.heeds_ok b) hheeds
    | error e =>
        have he : ¬c.counts e := fun he => hheeds (c.heeds_error he)
        exact Ensures.mono (hfails e after' he) fun _ _ heq hyes => absurd (hyes e heq) he

end Agrees
end Agrees

section Search
variable {α β : Type} {c : Comparison Run} {run run' : Run}

/-- A failure that is borne by the one is borne by the other. -/
theorem Agrees.attempt {x : Search α} {y : Search β} {values : α → β → Prop}
    (h : Agrees c values x y run run') :
    Agrees c (Alike (fun f g => c.failures f g ∧ f.isAbsorbable = true) values) (attempt x)
      (attempt y) run run' := by
  refine Agrees.settled h (fun result result' after after' hstates halike => ?_)
    fun e after' he => ?_
  · cases halike with
    | ok hab => exact .pure hstates (.ok hab)
    | @error f g hfg =>
        have heq := c.absorbable_eq hfg
        dsimp only
        rw [← heq]
        split
        · next hf => exact .pure hstates (.error ⟨hfg, hf⟩)
        · exact .throw hstates hfg
  · dsimp only
    split
    · next hf => exact absurd (c.counts_of_absorbable hf) he
    · exact ensures_throw.mpr rfl

end Search

theorem SortedSet.empty_union {α : Type} [Ord α] [Std.TransOrd α] [Std.LawfulEqOrd α]
    (s : SortedSet α) : ∅ ∪ s = s :=
  Std.ExtTreeSet.ext_mem fun a => by simp [Std.ExtTreeSet.mem_union_iff]

/-- The same paths, of some kind. -/
def Same (fits : PathSet → Prop) (paths paths' : PathSet) : Prop := paths = paths' ∧ fits paths

/-- Two bounds on the rounds of a repetition that come to the same: they are equal, or neither is
reached. -/
def Rounds (fits : PathSet → Prop) (result : PathSet) (n m : Nat) : Prop :=
  n = m ∨ ∃ most, (∀ paths, fits paths → paths.size ≤ most) ∧
    most < n + result.size ∧ most < m + result.size

namespace Session

variable {s : Session} {c : Comparison Run} {fits : PathSet → Prop} {run run' : Run}

/-- A comparison of runs that reading over path sets of some kind keeps. -/
structure Compares (s : Session) (c : Comparison Run) (fits : PathSet → Prop) : Prop where
  reason : ∀ {run run' : Run} (p : Position), c.states run run' →
    c.failures (.noPath (run.frames.head?.map (·.rule)) p)
      (.noPath (run'.frames.head?.map (·.rule)) p)
  terminal : ∀ {run run' : Run} (tag : TagId) {input : PathSet}, fits input → c.states run run' →
    Agrees c (Same fits) (s.terminal tag input) (s.terminal tag input) run run'
  union : ∀ {paths paths' : PathSet}, fits paths → fits paths' → fits (paths ∪ paths')
  diff : ∀ {paths paths' : PathSet}, fits paths → ¬(paths \ paths').isEmpty = true →
    fits (paths \ paths')
  rounds : ∀ {run run' : Run} {input : PathSet}, fits input → c.states run run' →
    Rounds fits input (s.pathBound run) (s.pathBound run')

theorem Compares.noPath (hc : s.Compares c fits) (hstates : c.states run run')
    {α β : Type} {values : α → β → Prop} (input : PathSet) :
    Agrees c values (Search.noPath input) (Search.noPath input) run run' :=
  Search.ensures_noPath.mpr fun _ => Search.ensures_noPath.mpr
    ⟨hstates, .error (hc.reason _ hstates)⟩

/-- A comparison that reading at some positions keeps, and noting failures. -/
structure ReadsAlike (s : Session) (c : Comparison Run) (place : Position → Prop) : Prop where
  reason : ∀ {run run' : Run} (p : Position), c.states run run' →
    c.failures (.noPath (run.frames.head?.map (·.rule)) p)
      (.noPath (run'.frames.head?.map (·.rule)) p)
  note : ∀ {run run' : Run} (p : Position), c.states run run' →
    c.states (run.noteFailure p) (run'.noteFailure p)
  read : ∀ {run run' : Run} {p : Position}, place p → c.states run run' →
    Agrees c (fun result result' => result = result' ∧ ∀ t, result = .ok t → place t.span.stop)
      (readToken s.source p) (readToken s.source p) run run'

section Terminal
variable {place : Position → Prop}

theorem advance_agrees (hc : s.ReadsAlike c place) (tag : TagId) {output : PathSet} {p : Position}
    (hp : place p) (houtput : ∀ q ∈ output, place q) (hstates : c.states run run') :
    Agrees c (Same fun out => ∀ q ∈ out, place q) (s.advance tag output p)
      (s.advance tag output p) run run' := by
  have hnote (q : Position) (after after' : Run) (hstates : c.states after after') :
      Agrees c (Same fun out => ∀ q ∈ out, place q) (do modify (·.noteFailure q); pure output)
        (do modify (·.noteFailure q); pure output) after after' :=
    ensures_bind.mpr (ensures_modify.mpr (ensures_pure.mpr fun _ => ensures_bind.mpr
      (ensures_modify.mpr (ensures_pure.mpr ⟨hc.note q hstates, .ok ⟨rfl, houtput⟩⟩))))
  apply (hc.read hp hstates).bind
  intro result _ after after' hstates hresult
  obtain ⟨rfl, hstop⟩ := hresult
  cases result with
  | error e => exact hnote e.position after after' hstates
  | ok token =>
      dsimp only
      split
      · refine .pure hstates ⟨rfl, fun q hq => ?_⟩
        obtain rfl | hq := SortedSet.mem_insert.mp hq
        · exact hstop token rfl
        · exact houtput q hq
      · exact hnote token.span.start after after' hstates

theorem terminal_agrees (hc : s.ReadsAlike c place) (tag : TagId) {input : PathSet}
    (hinput : ∀ p ∈ input, place p) (hstates : c.states run run') :
    Agrees c (Same fun out => out ≠ ∅ ∧ ∀ q ∈ out, place q) (s.terminal tag input)
      (s.terminal tag input) run run' := by
  have hfold (ps : List Position) (hps : ∀ p ∈ ps, place p) (output : PathSet)
      (houtput : ∀ q ∈ output, place q) (run run' : Run) (hstates : c.states run run') :
      Agrees c (Same fun out => ∀ q ∈ out, place q) (ps.foldlM (s.advance tag) output)
        (ps.foldlM (s.advance tag) output) run run' := by
    induction ps generalizing output run run' with
    | nil => exact .pure hstates ⟨rfl, houtput⟩
    | cons p ps ih =>
        simp only [List.foldlM_cons]
        apply (advance_agrees hc tag (hps p (by simp)) houtput hstates).bind
        intro out _ after after' hstates hsame
        obtain ⟨rfl, hout⟩ := hsame
        exact ih (fun q hq => hps q (by simp [hq])) out hout after after' hstates
  apply (hfold input.toList (by simpa using hinput) ∅ (by simp) run run' hstates).bind
  intro out _ after after' hstates hsame
  obtain ⟨rfl, hout⟩ := hsame
  split
  · exact Search.ensures_noPath.mpr fun _ => Search.ensures_noPath.mpr
      ⟨hstates, .error (hc.reason _ hstates)⟩
  · next hne =>
      refine .pure hstates ⟨rfl, fun heq => hne ?_, hout⟩
      rw [heq]
      exact Std.ExtTreeSet.isEmpty_empty

end Terminal

theorem unite_agrees (hc : s.Compares c fits) {ι : Type} (input : PathSet)
    (f g : ι → Search PathSet) (is : List ι)
    (hfg : ∀ i ∈ is, ∀ run run', c.states run run' → Agrees c (Same fits) (f i) (g i) run run')
    (output : PathSet) (houtput : ¬output.isEmpty = true → fits output)
    (cause cause' : Option Failure) (hcause : Option.Rel c.failures cause cause') (run run' : Run)
    (hstates : c.states run run') :
    Agrees c (Same fits) (unite input (is.map f) output cause)
      (unite input (is.map g) output cause') run run' := by
  induction is generalizing output cause cause' run run' with
  | nil =>
      simp only [List.map_nil, unite]
      split
      · cases hcause with
        | none => exact hc.noPath hstates input
        | some hfg => exact .throw hstates hfg
      · next hne => exact .pure hstates ⟨rfl, houtput hne⟩
  | cons i is ih =>
      have ih := ih fun j hj => hfg j (by simp [hj])
      simp only [List.map_cons, unite]
      apply (hfg i (by simp) run run' hstates).attempt.bind
      intro result result' after after' hstates hresult
      cases hresult with
      | @ok paths _ hsame =>
          obtain ⟨rfl, hpaths⟩ := hsame
          refine ih _ (fun _ => ?_) cause cause' hcause after after' hstates
          by_cases hempty : output.isEmpty = true
          · obtain rfl := Std.ExtTreeSet.isEmpty_iff.mp hempty
            rwa [SortedSet.empty_union]
          · exact hc.union (houtput hempty) hpaths
      | error hfg => exact ih output houtput _ _ (.some hfg.1) after after' hstates

theorem saturate_agrees (hc : s.Compares c fits) (body body' : PathSet → Search PathSet)
    (hbody : ∀ input, fits input → ∀ run run', c.states run run' →
      Agrees c (Same fits) (body input) (body' input) run run')
    (n m : Nat) (frontier result : PathSet) (hfrontier : fits frontier) (hresult : fits result)
    (hrounds : Rounds fits result n m) (run run' : Run) (hstates : c.states run run') :
    Agrees c (Same fits) (saturate body n frontier result) (saturate body' m frontier result)
      run run' := by
  induction n generalizing m frontier result run run' with
  | zero =>
      obtain rfl | ⟨most, hmost, hn, -⟩ := hrounds
      · exact .pure hstates ⟨rfl, hresult⟩
      · have := hmost result hresult
        omega
  | succ n ih =>
      cases m with
      | zero =>
          obtain hnm | ⟨most, hmost, -, hm⟩ := hrounds
          · cases hnm
          · have := hmost result hresult
            omega
      | succ m =>
          rw [saturate, saturate]
          apply (hbody frontier hfrontier run run' hstates).attempt.bind
          intro found found' after after' hstates hfound
          cases hfound with
          | error _ => exact .pure hstates ⟨rfl, hresult⟩
          | @ok output _ hsame =>
              obtain ⟨rfl, houtput⟩ := hsame
              dsimp only
              split
              · exact .pure hstates ⟨rfl, hresult⟩
              · next hne =>
                  have hfresh := hc.diff houtput hne
                  have hgain := SortedSet.size_lt_size_union_diff hne
                  refine ih m _ _ hfresh (hc.union hresult hfresh) ?_ after after' hstates
                  obtain hnm | ⟨most, hmost, hn, hm⟩ := hrounds
                  · exact .inl (Nat.succ.inj hnm)
                  · exact .inr ⟨most, hmost, by omega, by omega⟩

section Evaluation
variable {resolve resolve' : Resolver}

/-- References from path sets of some kind are answered alike. -/
def AnswersAlike (c : Comparison Run) (fits : PathSet → Prop) (resolve resolve' : Resolver) :
    Prop :=
  ∀ rule input, fits input → ∀ p ∈ input, ∀ run run', c.states run run' →
    Agrees c (Same fits) (resolve rule p) (resolve' rule p) run run'

mutual

/-- Evaluation goes alike when references do. -/
theorem evaluate_agrees (hc : s.Compares c fits) (hres : AnswersAlike c fits resolve resolve') :
    ∀ (rule : Rule) (input : PathSet) (run run' : Run), fits input → c.states run run' →
      Agrees c (Same fits) (s.evaluate resolve rule input) (s.evaluate resolve' rule input)
        run run'
  | .terminal tag, input, run, run', hinput, hstates => by
      rw [evaluate, evaluate]
      exact hc.terminal tag hinput hstates
  | .nonterminal rule, input, run, run', hinput, hstates => by
      rw [evaluate, evaluate]
      refine unite_agrees hc input (resolve rule) (resolve' rule) input.toList ?_ ∅ (by simp)
        none none .none run run' hstates
      exact fun p hp run run' hstates =>
        hres rule input hinput p (Std.ExtTreeSet.mem_toList.mp hp) run run' hstates
  | .sequence items, input, run, run', hinput, hstates => by
      rw [evaluate, evaluate]
      exact evaluateItems_agrees hc hres items input run run' hinput hstates
  | .optional body, input, run, run', hinput, hstates => by
      rw [evaluate, evaluate]
      apply (evaluate_agrees hc hres body input run run' hinput hstates).attempt.bind
      intro found found' after after' hstates hfound
      cases hfound with
      | ok hsame =>
          obtain ⟨rfl, houtput⟩ := hsame
          exact .pure hstates ⟨rfl, hc.union hinput houtput⟩
      | error _ => exact .pure hstates ⟨rfl, hinput⟩
  | .repetition body, input, run, run', hinput, hstates => by
      rw [evaluate, evaluate]
      exact saturate_agrees hc (s.evaluate resolve body) (s.evaluate resolve' body)
        (fun input hinput run run' hstates =>
          evaluate_agrees hc hres body input run run' hinput hstates)
        (s.pathBound run) (s.pathBound run') input input hinput hinput
        (hc.rounds hinput hstates) run run' hstates
  | .alternation choices, input, run, run', hinput, hstates => by
      rw [evaluate, evaluate, evaluateChoices_eq, evaluateChoices_eq]
      exact unite_agrees hc input _ _ choices (evaluateChoices_agrees hc hres choices input hinput)
        ∅ (by simp) none none .none run run' hstates
  | .switch feature body, input, run, run', hinput, hstates => by
      rw [evaluate, evaluate]
      split
      · exact evaluate_agrees hc hres body input run run' hinput hstates
      · exact .pure hstates ⟨rfl, hinput⟩

theorem evaluateItems_agrees (hc : s.Compares c fits)
    (hres : AnswersAlike c fits resolve resolve') :
    ∀ (items : List Rule) (input : PathSet) (run run' : Run), fits input → c.states run run' →
      Agrees c (Same fits) (s.evaluateItems resolve items input)
        (s.evaluateItems resolve' items input) run run'
  | [], input, run, run', hinput, hstates => by
      rw [evaluateItems, evaluateItems]
      exact .pure hstates ⟨rfl, hinput⟩
  | item :: items, input, run, run', hinput, hstates => by
      rw [evaluateItems, evaluateItems]
      apply (evaluate_agrees hc hres item input run run' hinput hstates).bind
      intro paths paths' after after' hstates hsame
      obtain ⟨rfl, hpaths⟩ := hsame
      exact evaluateItems_agrees hc hres items paths after after' hpaths hstates

theorem evaluateChoices_agrees (hc : s.Compares c fits)
    (hres : AnswersAlike c fits resolve resolve') :
    ∀ (choices : List Rule) (input : PathSet), fits input → ∀ choice ∈ choices,
      ∀ run run', c.states run run' →
        Agrees c (Same fits) (s.evaluate resolve choice input) (s.evaluate resolve' choice input)
          run run'
  | [], _, _, _, hx, _, _, _ => absurd hx List.not_mem_nil
  | choice :: choices, input, hinput, x, hx, run, run', hstates => by
      by_cases h : x = choice
      · rw [h]
        exact evaluate_agrees hc hres choice input run run' hinput hstates
      · exact evaluateChoices_agrees hc hres choices input hinput x
          ((List.mem_cons.mp hx).resolve_left h) run run' hstates

end

end Evaluation

section Derivation

/-- A comparison of runs that know the same, which deriving rules keeps. -/
structure ComparesKnowing (s : Session) (c : Comparison Run) : Prop
    extends s.Compares c fun _ => True where
  failures_iff : ∀ {f g}, c.failures f g ↔ f = g
  memo : ∀ {run run' : Run}, c.states run run' → run.memo = run'.memo
  arena : ∀ {run run' : Run}, c.states run run' → run.arena = run'.arena
  countMemoHit : ∀ {run run' : Run}, c.states run run' →
    c.states run.countMemoHit run'.countMemoHit
  countLeftRecursion : ∀ {run run' : Run}, c.states run run' →
    c.states run.countLeftRecursion run'.countLeftRecursion
  enter : ∀ {run run' : Run} (rule : RuleId) (p : Position), c.states run run' →
    c.states (run.enter rule p) (run'.enter rule p)
  succeed : ∀ {run run' : Run} (rule : RuleId) (p : Position) (output : PathSet),
    c.states run run' → (run.succeed rule p output).1 = (run'.succeed rule p output).1 ∧
      c.states (run.succeed rule p output).2 (run'.succeed rule p output).2
  fail : ∀ {run run' : Run} (rule : RuleId) (p : Position) (f : Failure), c.states run run' →
    c.states (run.fail rule p f) (run'.fail rule p f)

theorem consult_agrees (hc : s.ComparesKnowing c) (rule : RuleId) (p : Position)
    {fresh fresh' : Search NodeId} (hstates : c.states run run')
    (hfresh : Agrees c Eq fresh fresh' run run') :
    Agrees c Eq (consult rule p fresh) (consult rule p fresh') run run' := by
  unfold Agrees
  simp only [ensures_consult, hc.memo hstates]
  split
  · exact fun _ => ⟨hc.countMemoHit hstates, .ok rfl⟩
  · exact fun _ => ⟨hc.countMemoHit hstates, .error (hc.failures_iff.mpr rfl)⟩
  · exact fun _ => ⟨hc.countLeftRecursion hstates, .error (hc.failures_iff.mpr rfl)⟩
  · exact hfresh

theorem deriveFresh_agrees (hc : s.ComparesKnowing c) {resolve resolve' : Resolver}
    (hres : AnswersAlike c (fun _ => True) resolve resolve') (rule : RuleId) (p : Position)
    (hstates : c.states run run') :
    Agrees c Eq (s.deriveFresh resolve rule p) (s.deriveFresh resolve' rule p) run run' := by
  unfold deriveFresh
  split
  · exact .throw hstates (hc.failures_iff.mpr rfl)
  · next definition hdef =>
      have henter : Agrees c Eq (modify (·.enter rule p) : Search Unit) (modify (·.enter rule p))
          run run' :=
        ensures_modify.mpr fun _ => ensures_modify.mpr ⟨hc.enter rule p hstates, .ok rfl⟩
      refine henter.bind fun _ _ after after' hstates _ => ?_
      have hbody := evaluate_agrees hc.toCompares hres definition.body {p} after after' trivial
        hstates
      refine Agrees.settled hbody (fun result result' after after' hstates halike => ?_)
        fun e after' he => ?_
      · cases halike with
        | ok hsame =>
            obtain ⟨rfl, -⟩ := hsame
            obtain ⟨hnode, hstates⟩ := hc.succeed rule p _ hstates
            exact ensures_modifyGet.mpr fun _ => ensures_modifyGet.mpr ⟨hstates, .ok hnode⟩
        | @error f _ hfg =>
            obtain rfl := hc.failures_iff.mp hfg
            have hfail : Agrees c Eq (modify (·.fail rule p f) : Search Unit)
                (modify (·.fail rule p f)) after after' :=
              ensures_modify.mpr fun _ => ensures_modify.mpr ⟨hc.fail rule p f hstates, .ok rfl⟩
            exact hfail.bind fun _ _ _ _ hstates _ => .throw hstates hfg
      · exact ensures_bind.mpr (ensures_modify.mpr (ensures_throw.mpr rfl))

theorem outputOf_agrees (hc : s.ComparesKnowing c) {x y : Search NodeId}
    (h : Agrees c Eq x y run run') :
    Agrees c (Same fun _ => True) (x >>= Search.outputOf) (y >>= Search.outputOf) run run' := by
  refine h.bind fun node _ after after' hstates heq => ?_
  obtain rfl := heq
  refine Search.ensures_outputOf.mpr fun _ => Search.ensures_outputOf.mpr ⟨hstates, .ok ?_⟩
  exact ⟨by rw [hc.arena hstates], trivial⟩

/-- Derivations of a rule agree where they have the same depth left, or where the second has less
and running out of it does not count. -/
theorem deriveWithin_agrees (hc : s.ComparesKnowing c) {depth depth' : Nat}
    (hdepth : depth = depth' ∨ depth' ≤ depth ∧ ∀ rule p, ¬c.counts (.depthLimit rule p))
    (rule : RuleId) (p : Position) (hstates : c.states run run') :
    Agrees c Eq (s.deriveWithin depth rule p) (s.deriveWithin depth' rule p) run run' := by
  induction depth' generalizing depth rule p run run' with
  | zero =>
      cases depth with
      | zero => exact consult_agrees hc rule p hstates (.throw hstates (hc.failures_iff.mpr rfl))
      | succ depth =>
          obtain hdepth | ⟨-, hcut⟩ := hdepth
          · cases hdepth
          · exact consult_agrees hc rule p hstates (.of_not_counts (hcut rule p))
  | succ depth' ih =>
      cases depth with
      | zero => omega
      | succ depth =>
          have hdepth : depth = depth' ∨
              depth' ≤ depth ∧ ∀ rule p, ¬c.counts (.depthLimit rule p) :=
            hdepth.imp Nat.succ.inj fun h => ⟨Nat.le_of_succ_le_succ h.1, h.2⟩
          refine consult_agrees hc rule p hstates (deriveFresh_agrees hc ?_ rule p hstates)
          exact fun r _ _ q _ _ _ hstates => outputOf_agrees hc (ih hdepth r q hstates)

end Derivation

end Session
end Multipath
