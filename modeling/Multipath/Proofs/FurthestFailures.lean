import Multipath.Proofs.Assembly
import Multipath.Proofs.Horizons

/-!
Where a parse is reported to have no path. Each function of the evaluator is followed up to a
horizon: no check ends beyond it, so a check that is made there fails and is noted. By induction on
the rule, and on the depth left where a rule is derived, whatever is asked at the furthest end of a
check either ends there or fails at one that was noted. So a parse that finds no path at all is
reported at the token behind the furthest end, which is the first that nothing could consume
(`Session.parse_noPath_position`). An alternation without choices would fail without any check; that
is why there must be none.
-/

namespace Multipath

open Search (attempt noPath outputOf readToken)

namespace Rule

/-- Every alternation in the rule has a choice. -/
def HasChoices (rule : Rule) : Prop := alternation [] ∉ rule.parts

instance (rule : Rule) : Decidable rule.HasChoices :=
  inferInstanceAs (Decidable (alternation [] ∉ rule.parts))

@[simp] theorem hasChoices_sequence {items : List Rule} :
    (sequence items).HasChoices ↔ ∀ r ∈ items, r.HasChoices := by
  simp [HasChoices, parts, mem_partsAll_iff]

@[simp] theorem hasChoices_alternation {choices : List Rule} :
    (alternation choices).HasChoices ↔ choices ≠ [] ∧ ∀ r ∈ choices, r.HasChoices := by
  simp [HasChoices, parts, mem_partsAll_iff, @eq_comm _ []]

@[simp] theorem hasChoices_optional {body : Rule} :
    (optional body).HasChoices ↔ body.HasChoices := by
  simp [HasChoices, parts]

@[simp] theorem hasChoices_repetition {body : Rule} :
    (repetition body).HasChoices ↔ body.HasChoices := by
  simp [HasChoices, parts]

@[simp] theorem hasChoices_switch {feature : String} {body : Rule} :
    (switch feature body).HasChoices ↔ body.HasChoices := by
  simp [HasChoices, parts]

end Rule

namespace Horizon

variable {s : Session} {h : Horizon s.source} {run run' : Run}

/-- A token that ends within the horizon does not follow the last position. -/
theorem ne_last_of_token {p : Position} {t : Token} (ht : s.source.token p = .ok t)
    (hle : t.span.stop ≤ h.last) : p ≠ h.last := by
  rintro rfl
  exact hle (.inl (Source.token_stop ht).1)

/-- One check either moves the path within the horizon, or its failure is noted. -/
theorem advance_follows (tag : TagId) (output : PathSet) (p : Position) (hold : h.Holds run)
    (hp : h.Reaches p) (houtput : ∀ q ∈ output, h.Reaches q) {check : Check}
    (hcheck : check = ⟨tag, p, ((run.lexer.restore p).next s.source).1⟩)
    (hbound : ∀ q, check.stop? = some q → q ≤ h.last) :
    h.Made check ∧ Ensures (s.advance tag output p) run fun result run' => h.Holds run' ∧
      ∃ out, result = .ok out ∧ (∀ q ∈ out, h.Reaches q) ∧
        (h.Noted run ∨ p = h.last ∨ h.last ∈ output ∨ check.stop? = some h.last →
          h.Noted run' ∨ h.last ∈ out) := by
  have hread : ((run.lexer.restore p).next s.source).1 = s.source.token p :=
    Lexer.next_eq_token_of_onChain (l := run.lexer.restore p) hold.readFrom hp.1
  have hold₁ := hold.read (Lexer.next_spec (l := run.lexer.restore p) hold.readFrom hp.1).readFrom
  rw [hread] at hcheck
  subst hcheck
  refine ⟨⟨hp, rfl⟩, ensures_bind.mpr (Search.ensures_readToken.mpr ?_)⟩
  -- a check that fails notes where the next token starts
  have hmiss (f : Position) (hf : f = s.source.nextStart p)
      (hstop : (⟨tag, p, s.source.token p⟩ : Check).stop? = none) :
      Ensures (do modify (·.noteFailure f); pure output : Search PathSet)
        { run with lexer := ((run.lexer.restore p).next s.source).2 } fun result run' =>
          h.Holds run' ∧ ∃ out, result = .ok out ∧ (∀ q ∈ out, h.Reaches q) ∧
            (h.Noted run ∨ p = h.last ∨ h.last ∈ output ∨
              (⟨tag, p, s.source.token p⟩ : Check).stop? = some h.last →
              h.Noted run' ∨ h.last ∈ out) := by
    subst hf
    refine ensures_bind.mpr (ensures_modify.mpr (ensures_pure.mpr ?_))
    refine ⟨hold₁.noteFailure hp, output, rfl, houtput, ?_⟩
    rintro (hnoted | rfl | hlast | hhit)
    · exact .inl (Noted.noteFailure hnoted _)
    · exact .inl (noted_noteFailure _)
    · exact .inr hlast
    · cases hstop.symm.trans hhit
  rw [hread]
  cases ht : s.source.token p with
  | error e =>
      rw [ht] at hmiss
      exact hmiss e.position (by rw [Source.nextStart, ht]) rfl
  | ok token =>
      dsimp only
      split
      · next htag =>
          have hstop : (⟨tag, p, .ok token⟩ : Check).stop? = some token.span.stop := if_pos htag
          have hle : token.span.stop ≤ h.last := hbound _ (by rw [ht, hstop])
          refine ensures_pure.mpr ⟨hold₁, _, rfl, fun q hq => ?_, ?_⟩
          · obtain rfl | hq := SortedSet.mem_insert.mp hq
            · exact ⟨hp.1.next ht, hle⟩
            · exact houtput q hq
          · rw [hstop, SortedSet.mem_insert]
            rintro (hnoted | hp | hlast | hhit)
            · exact .inl hnoted
            · exact absurd hp (ne_last_of_token ht hle)
            · exact .inr (.inr hlast)
            · exact .inr (.inl (Option.some.inj hhit).symm)
      · next htag =>
          rw [ht] at hmiss
          exact hmiss token.span.start (by rw [Source.nextStart, ht]) (if_neg htag)

/-- One check after another, for each path. -/
theorem advanceAll_follows (tag : TagId) (ps : List Position) (output : PathSet) (run : Run)
    (hold : h.Holds run) (hps : ∀ p ∈ ps, h.Reaches p) (houtput : ∀ q ∈ output, h.Reaches q)
    (hbounds : h.Bounds (s.terminalChecks tag ps output run)) :
    (∀ check ∈ s.terminalChecks tag ps output run, h.Made check) ∧
      Ensures (ps.foldlM (s.advance tag) output) run fun result run' => h.Holds run' ∧
        ∃ out, result = .ok out ∧ (∀ q ∈ out, h.Reaches q) ∧
          (h.Noted run ∨ h.last ∈ ps ∨ h.last ∈ output ∨
            h.Hit (s.terminalChecks tag ps output run) → h.Noted run' ∨ h.last ∈ out) := by
  induction ps generalizing output run with
  | nil =>
      refine ⟨nofun, ensures_pure.mpr ⟨hold, output, rfl, houtput, ?_⟩⟩
      simp [Session.terminalChecks]
  | cons p ps ih =>
      rw [List.forall_mem_cons] at hps
      rw [Session.terminalChecks] at hbounds ⊢
      obtain ⟨hmade, hpost⟩ := advance_follows tag output p hold hps.1 houtput rfl
        (hbounds.of_checksBind _ (List.mem_singleton_self _))
      rcases hrun : (s.advance tag output p).run.run run with ⟨result, run₁⟩
      obtain ⟨hold₁, out, rfl, hout, hmet⟩ := hpost.of_run hrun
      rw [Search.checksBind_of_ok hrun] at hbounds ⊢
      obtain ⟨hmade', hpost'⟩ := ih out run₁ hold₁ hps.2 hout (bounds_append.mp hbounds).2
      refine ⟨List.forall_mem_cons.mpr ⟨hmade, hmade'⟩, ?_⟩
      rw [List.foldlM_cons]
      refine ensures_bind.mpr (Ensures.of_eq hrun (hpost'.mono fun result run' hpost => ?_))
      obtain ⟨hold', out', rfl, hout', hmet'⟩ := hpost
      refine ⟨hold', out', rfl, hout', fun hm => hmet' ?_⟩
      rw [hit_append, hit_singleton, List.mem_cons] at hm
      grind

/-- A check that ends at the last position keeps it, and one that is made there is noted. -/
theorem terminal_follows (tag : TagId) {input : PathSet} (hold : h.Holds run)
    (hinput : h.Spans input) :
    h.Follows (s.terminal tag input) (s.terminalChecks tag input.toList ∅) run
      (h.Noted run ∨ h.last ∈ input) := by
  intro hbounds
  obtain ⟨hmade, hpost⟩ := advanceAll_follows tag input.toList ∅ run hold
    (fun p hp => hinput.2 p (Std.ExtTreeSet.mem_toList.mp hp))
    (fun q hq => absurd hq Std.ExtTreeSet.not_mem_empty) hbounds
  refine ⟨hmade, ensures_bind.mpr (hpost.mono fun result run' hpost => ?_)⟩
  obtain ⟨hold', out, rfl, hout, hmet⟩ := hpost
  dsimp only
  split
  · next hempty =>
      obtain rfl := Std.ExtTreeSet.isEmpty_iff.mp hempty
      refine Search.ensures_noPath.mpr ⟨hold', hinput.first_le, fun hm => .inl ?_⟩
      rw [Std.ExtTreeSet.mem_toList] at hmet
      have hnone : h.last ∉ (∅ : PathSet) := Std.ExtTreeSet.not_mem_empty
      grind
  · next hempty =>
      have hne := mt Std.ExtTreeSet.isEmpty_iff.mpr hempty
      refine ensures_pure.mpr ⟨hold', ⟨hne, hout⟩, fun hm => hmet ?_⟩
      rw [Std.ExtTreeSet.mem_toList]
      grind

/-- Searches are united that each account for what is met by `given`; one of them is enough. -/
theorem unite_follows {ι : Type} {input : PathSet} (hinput : h.Spans input)
    (f : ι → Search PathSet) (checks : ι → Run → List Check) (given : ι → Prop) (is : List ι)
    (output : PathSet) (cause : Option Failure) (run : Run) (hold : h.Holds run)
    (houtput : ∀ p ∈ output, h.Reaches p) (hcause : ∀ e, cause = some e → e.position ≤ h.last)
    (hf : ∀ i ∈ is, ∀ run', h.Holds run' →
      h.Follows (f i) (checks i) run' (h.Noted run' ∨ given i)) :
    h.Follows (Session.unite input (is.map f) output cause)
      (Session.uniteChecks (is.map fun i => (f i, checks i))) run
      (h.Noted run ∨ h.last ∈ output ∨ ∃ i ∈ is, given i) := by
  induction is generalizing output cause run with
  | nil =>
      intro _
      refine ⟨nofun, ?_⟩
      have hmet : h.Noted run ∨ h.last ∈ output ∨ (∃ i ∈ ([] : List ι), given i) →
          h.Noted run ∨ h.last ∈ output := by simp
      simp only [List.map_nil, Session.unite, Session.uniteChecks, not_hit_nil, or_false]
      split
      · next hempty =>
          obtain rfl := Std.ExtTreeSet.isEmpty_iff.mp hempty
          have hnoted := fun hm => (hmet hm).resolve_right Std.ExtTreeSet.not_mem_empty
          split
          · next e => exact ensures_throw.mpr ⟨hold, hcause e rfl, fun hm => .inl (hnoted hm)⟩
          · exact Search.ensures_noPath.mpr ⟨hold, hinput.first_le, fun hm => .inl (hnoted hm)⟩
      · next hempty =>
          have hne := mt Std.ExtTreeSet.isEmpty_iff.mpr hempty
          exact ensures_pure.mpr ⟨hold, ⟨hne, houtput⟩, hmet⟩
  | cons i is ih =>
      rw [List.forall_mem_cons] at hf
      simp only [List.map_cons, Session.unite, Session.uniteChecks]
      refine (Follows.attempt_bind (h.last ∈ output ∨ ∃ i ∈ is, given i) (hf.1 run hold)
        (fun paths run₁ hold₁ hpaths => ?_) fun e run₁ hold₁ he => ?_).of_imp ?_
      · refine (ih (output ∪ paths) cause run₁ hold₁ (fun p hp => ?_) hcause hf.2).of_imp ?_
        · exact (Std.ExtTreeSet.mem_union_iff.mp hp).elim (houtput p) (hpaths.2 p)
        · rw [Std.ExtTreeSet.mem_union_iff]
          grind
      · refine ih output (some e) run₁ hold₁ houtput ?_ hf.2
        rintro _ ⟨⟩
        exact he
      · simp only [List.mem_cons, exists_eq_or_imp]
        grind

/-- What is met stays among the paths, and what an iteration reaches is added to them. -/
theorem saturate_follows {body : PathSet → Search PathSet}
    {checks : PathSet → Run → List Check} (n : Nat) (frontier result : PathSet) (run : Run)
    (hold : h.Holds run) (hfrontier : h.Spans frontier) (hresult : h.Spans result)
    (hbody : ∀ input run', h.Holds run' → h.Spans input →
      h.Follows (body input) (checks input) run' (h.Noted run' ∨ h.last ∈ input)) :
    h.Follows (Session.saturate body n frontier result)
      (Session.saturateChecks body checks n frontier result) run
      (h.Noted run ∨ h.last ∈ result) := by
  induction n generalizing frontier result run with
  | zero => exact follows_pure hold hresult id
  | succ n ih =>
      rw [Session.saturate, Session.saturateChecks]
      refine (Follows.attempt_bind (h.last ∈ result) (hbody frontier run hold hfrontier)
        (fun output run₁ hold₁ houtput => ?_) fun e run₁ hold₁ _ => ?_).of_imp (by grind)
      · dsimp only
        split
        · next hempty =>
            have hnone : h.last ∉ output \ result := by
              rw [Std.ExtTreeSet.isEmpty_iff.mp hempty]
              exact Std.ExtTreeSet.not_mem_empty
            rw [Std.ExtTreeSet.mem_diff_iff] at hnone
            exact follows_pure hold₁ hresult (by grind)
        · next hfresh =>
            have hspans : h.Spans (output \ result) :=
              ⟨mt Std.ExtTreeSet.isEmpty_iff.mpr hfresh,
                fun p hp => houtput.2 p (Std.ExtTreeSet.mem_diff_iff.mp hp).1⟩
            refine (ih (output \ result) (result ∪ (output \ result)) run₁ hold₁ hspans
              (hresult.union hspans.2)).of_imp ?_
            rw [Std.ExtTreeSet.mem_union_iff, Std.ExtTreeSet.mem_diff_iff]
            grind
      · exact follows_pure hold₁ hresult id

/-- References are answered with regard to the horizon. -/
def Resolves (h : Horizon s.source) (resolve : Resolver)
    (inner : RuleId → Position → Run → List Check) : Prop :=
  ∀ rule p run, rule < s.grammar.rules.length → h.Holds run → h.Reaches p →
    h.Follows (resolve rule p) (inner rule p) run (h.Noted run ∨ p = h.last)

section Evaluation

variable {resolve : Resolver} {inner : RuleId → Position → Run → List Check} {tags : Nat}

mutual

/-- A rule that is evaluated at the last position ends there or fails at a check. -/
theorem evaluate_follows (hres : h.Resolves resolve inner) :
    ∀ (rule : Rule) (input : PathSet) (run : Run), rule.Within s.grammar.rules.length tags →
      rule.HasChoices → h.Holds run → h.Spans input →
      h.Follows (s.evaluate resolve rule input) (s.checks resolve inner rule input) run
        (h.Noted run ∨ h.last ∈ input)
  | .terminal tag, input, run, _, _, hold, hinput => by
      rw [Session.evaluate, Session.checks]
      exact terminal_follows tag hold hinput
  | .nonterminal rule, input, run, hwithin, _, hold, hinput => by
      rw [Session.evaluate, Session.checks]
      refine (unite_follows hinput (resolve rule) (inner rule) (· = h.last) input.toList ∅ none run
        hold (fun _ hp => absurd hp Std.ExtTreeSet.not_mem_empty) nofun ?_).of_imp ?_
      · intro p hp run' hold'
        exact hres rule p run' (Rule.within_nonterminal.mp hwithin) hold'
          (hinput.2 p (Std.ExtTreeSet.mem_toList.mp hp))
      · simp
  | .sequence items, input, run, hwithin, hchoices, hold, hinput => by
      rw [Session.evaluate, Session.checks]
      exact evaluateItems_follows hres items input run (Rule.within_sequence.mp hwithin)
        (Rule.hasChoices_sequence.mp hchoices) hold hinput
  | .optional body, input, run, hwithin, hchoices, hold, hinput => by
      rw [Session.evaluate, Session.checks]
      refine Follows.of_checksBind_nil (Follows.of_imp (Follows.attempt_bind (h.last ∈ input)
        (evaluate_follows hres body input run (Rule.within_optional.mp hwithin)
          (Rule.hasChoices_optional.mp hchoices) hold hinput)
        (fun out run' hold' hout => ?_) fun e run' hold' _ => ?_) .inl)
      · refine follows_pure hold' (hinput.union hout.2) ?_
        rw [Std.ExtTreeSet.mem_union_iff]
        grind
      · exact follows_pure hold' hinput id
  | .repetition body, input, run, hwithin, hchoices, hold, hinput => by
      rw [Session.evaluate, Session.checks]
      have hsaturate := saturate_follows (s.pathBound run) input input run hold hinput hinput
        fun input' run' hold' hinput' => evaluate_follows hres body input' run'
          (Rule.within_repetition.mp hwithin) (Rule.hasChoices_repetition.mp hchoices) hold' hinput'
      intro hbounds
      obtain ⟨hmade, hpost⟩ := hsaturate hbounds
      exact ⟨hmade, ensures_bind.mpr (ensures_get.mpr hpost)⟩
  | .alternation choices, input, run, hwithin, hchoices, hold, hinput => by
      rw [Session.evaluate, Session.checks, Session.evaluateChoices_eq, Session.checksChoices_eq]
      obtain ⟨hne, hchoices⟩ := Rule.hasChoices_alternation.mp hchoices
      refine (unite_follows hinput (fun choice => s.evaluate resolve choice input)
        (fun choice => s.checks resolve inner choice input) (fun _ => h.last ∈ input) choices ∅ none
        run hold (fun _ hp => absurd hp Std.ExtTreeSet.not_mem_empty) nofun
        (evaluateChoices_follows hres choices input (Rule.within_alternation.mp hwithin) hchoices
          hinput)).of_imp ?_
      -- every choice is tried with the whole input, so any of them will do
      obtain ⟨choice, hchoice⟩ := List.exists_mem_of_ne_nil choices hne
      exact Or.imp_right fun hlast => .inr ⟨choice, hchoice, hlast⟩
  | .switch feature body, input, run, hwithin, hchoices, hold, hinput => by
      rw [Session.evaluate, Session.checks]
      split
      · exact evaluate_follows hres body input run (Rule.within_switch.mp hwithin)
          (Rule.hasChoices_switch.mp hchoices) hold hinput
      · exact follows_pure hold hinput id

theorem evaluateItems_follows (hres : h.Resolves resolve inner) :
    ∀ (items : List Rule) (input : PathSet) (run : Run),
      (∀ r ∈ items, r.Within s.grammar.rules.length tags) → (∀ r ∈ items, r.HasChoices) →
      h.Holds run → h.Spans input →
      h.Follows (s.evaluateItems resolve items input) (s.checksItems resolve inner items input) run
        (h.Noted run ∨ h.last ∈ input)
  | [], input, run, _, _, hold, hinput => by
      rw [Session.evaluateItems, Session.checksItems]
      exact follows_pure hold hinput id
  | item :: items, input, run, hwithin, hchoices, hold, hinput => by
      rw [List.forall_mem_cons] at hwithin hchoices
      rw [Session.evaluateItems, Session.checksItems]
      refine (evaluate_follows hres item input run hwithin.1 hchoices.1 hold hinput).bind ?_
      exact fun out run' hold' hout =>
        evaluateItems_follows hres items out run' hwithin.2 hchoices.2 hold' hout

theorem evaluateChoices_follows (hres : h.Resolves resolve inner) :
    ∀ (choices : List Rule) (input : PathSet),
      (∀ r ∈ choices, r.Within s.grammar.rules.length tags) → (∀ r ∈ choices, r.HasChoices) →
      h.Spans input → ∀ choice ∈ choices, ∀ run, h.Holds run →
        h.Follows (s.evaluate resolve choice input) (s.checks resolve inner choice input) run
          (h.Noted run ∨ h.last ∈ input)
  | [], _, _, _, _, _, hx, _, _ => absurd hx List.not_mem_nil
  | choice :: choices, input, hwithin, hchoices, hinput, x, hx, run, hold => by
      rw [List.forall_mem_cons] at hwithin hchoices
      by_cases heq : x = choice
      · rw [heq]
        exact evaluate_follows hres choice input run hwithin.1 hchoices.1 hold hinput
      · exact evaluateChoices_follows hres choices input hwithin.2 hchoices.2 hinput x
          ((List.mem_cons.mp hx).resolve_left heq) run hold

end

end Evaluation

section Derivation

variable {rule : RuleId} {p : Position}

/-- What is settled accounts for what is met by its finding, and a rule that met itself counts. -/
theorem consult_follows {fresh : Search NodeId} {checks : Run → List Check} (hold : h.Holds run)
    (hp : h.Reaches p) (hnone : run.memo.find? p rule ≠ none → checks run = [])
    (hfresh : run.memo.find? p rule = none →
      h.Follows (fresh >>= outputOf) checks run (h.Noted run ∨ p = h.last)) :
    h.Follows (Session.consult rule p fresh >>= outputOf) checks run
      (h.Noted run ∨ p = h.last) := by
  cases hm : run.memo.find? p rule with
  | none =>
      intro hbounds
      obtain ⟨hmade, hpost⟩ := hfresh hm hbounds
      refine ⟨hmade, ensures_bind.mpr (Session.ensures_consult.mpr ?_)⟩
      rw [hm]
      exact ensures_bind.mp hpost
  | some finding =>
      intro _
      rw [hnone (by simp [hm])]
      refine ⟨nofun, ensures_bind.mpr (Session.ensures_consult.mpr ?_)⟩
      rw [hm]
      have hsettled : ∀ result, finding.result? run.arena = some result →
          h.Accounts run ((h.Noted run ∨ p = h.last) ∨ h.Hit []) result :=
        fun result hresult => (hold.settled p rule finding result hm hresult).or_noted.mono id
          fun hmet => hmet.resolve_right not_hit_nil
      cases finding with
      | inProgress =>
          -- refusing the reference is what counts here
          exact ⟨hold.countLeftRecursion, hp.2, fun _ => .inl (.inl (Nat.succ_ne_zero _))⟩
      | succeeded node => exact ⟨hold.countMemoHit, (hsettled _ rfl).mono id id⟩
      | failed f => exact ⟨hold.countMemoHit, (hsettled _ rfl).mono id id⟩

/-- What came of the body is what the finding then accounts for. -/
theorem deriveFresh_follows {resolve : Resolver} {inner : RuleId → Position → Run → List Check}
    (hres : h.Resolves resolve inner) (hclosed : s.grammar.Closed)
    (hchoices : ∀ d ∈ s.grammar.rules, d.body.HasChoices) {definition : Grammar.Definition}
    (hdef : s.grammar.rule? rule = some definition) (hold : h.Holds run) (hp : h.Reaches p) :
    h.Follows (s.deriveFresh resolve rule p >>= outputOf)
      (fun run => s.checks resolve inner definition.body {p} (run.enter rule p)) run
      (h.Noted run ∨ p = h.last) := by
  intro hbounds
  have hentered : h.Holds (run.enter rule p) :=
    hold.record (run.enter_records rule p) rfl hp.2 nofun
  obtain ⟨hmade, hpost⟩ := evaluate_follows hres definition.body {p} (run.enter rule p)
    (hclosed.within hdef) (hchoices definition (List.mem_of_getElem? hdef)) hentered
    (spans_singleton hp) hbounds
  refine ⟨hmade, ensures_bind.mpr (Session.ensures_deriveFresh.mpr ?_)⟩
  rw [hdef]
  refine hpost.mono fun result run' hpost => ?_
  obtain ⟨hold', haccounts⟩ := hpost
  rw [SortedSet.mem_singleton, eq_comm] at haccounts
  cases result with
  | error e =>
      refine ⟨hold'.record (run'.fail_records rule p e) rfl hp.2 ?_, haccounts.mono id id⟩
      rintro _ ⟨⟩
      exact haccounts.mono id fun heq => .inl (.inr heq)
  | ok out =>
      have houtput : (run'.succeed rule p out).2.arena.output run'.arena.size = out := by
        rw [Arena.output_eq, Run.derived?_succeed, if_pos rfl]
        rfl
      refine Search.ensures_outputOf.mpr
        ⟨hold'.record (run'.succeed_records rule p out) rfl hp.2 ?_, ?_⟩
      · rintro _ ⟨⟩
        rw [houtput]
        exact haccounts.mono id fun heq => .inl (.inr heq)
      · rw [show (run'.succeed rule p out).1 = run'.arena.size from rfl, houtput]
        exact haccounts.mono id id

/-- With each level of nesting left, references are answered with regard to the horizon. -/
theorem deriveWithin_follows (hclosed : s.grammar.Closed)
    (hchoices : ∀ d ∈ s.grammar.rules, d.body.HasChoices) (depth : Nat) :
    h.Resolves (fun r q => s.deriveWithin depth r q >>= outputOf) (s.deriveChecksWithin depth) := by
  induction depth with
  | zero =>
      intro rule p run _ hold hp
      refine consult_follows hold hp (fun _ => rfl) fun _ _ => ⟨nofun, ?_⟩
      exact ensures_bind.mpr (ensures_throw.mpr ⟨hold, hp.2, fun _ => .inr rfl⟩)
  | succ depth ih =>
      intro rule p run hrule hold hp
      have hdef : s.grammar.rule? rule = some s.grammar.rules[rule] :=
        List.getElem?_eq_getElem hrule
      refine consult_follows hold hp (fun hsome => ?_) fun hnone => ?_
      · obtain ⟨finding, hm⟩ := Option.ne_none_iff_exists'.mp hsome
        rw [Session.deriveChecksWithin, hm]
      · have hfresh := deriveFresh_follows ih hclosed hchoices hdef hold hp
        unfold Follows at hfresh ⊢
        rw [Session.deriveChecksWithin, hnone, hdef]
        exact hfresh

end Derivation

end Horizon

theorem Grammar.exists_start_of_select {g : Grammar} {conditions : Conditions} {rule : RuleId}
    (h : g.selectStart conditions = .ok rule) : ∃ start ∈ g.starts, start.rule = rule := by
  unfold selectStart at h
  split at h
  · cases h
  · next only hopen =>
      cases h
      have hmem : rule ∈ g.openStarts conditions := hopen ▸ List.mem_singleton_self rule
      obtain ⟨start, hstart, heq⟩ := List.mem_map.mp hmem
      exact ⟨start, (List.mem_filter.mp hstart).1, heq⟩
  · cases h

namespace Session

variable {s : Session} {start position : Position} {rule : RuleId}

section Deriving

variable (hclosed : s.grammar.Closed) (hchoices : ∀ d ∈ s.grammar.rules, d.body.HasChoices)
  (hrule : rule < s.grammar.rules.length)
include hclosed hchoices hrule

/-- Deriving a rule of the grammar from the start on, with regard to a horizon. -/
theorem derive_follows (h : Horizon s.source) (hle : h.start ≤ h.last) :
    h.Follows (s.derive rule h.start >>= outputOf) (s.deriveChecks rule h.start) {}
      (h.start = h.last) := by
  have hreaches : h.Reaches h.start := ⟨s.source.onChain_start h.start, hle⟩
  exact (Horizon.deriveWithin_follows hclosed hchoices s.maxDepth rule h.start {} hrule
    (.fresh h) hreaches).of_imp .inr

/-- Checks are made of the tokens on the chain. -/
theorem made_of_mem_deriveChecks {check : Check} (hcheck : check ∈ s.deriveChecks rule start {}) :
    s.source.OnChain start check.position ∧ check.found = s.source.token check.position := by
  -- beyond any end, since how ends lie to the start is not known yet
  let h : Horizon s.source :=
    ⟨start, max start (furthestStop start (s.deriveChecks rule start {}))⟩
  have hbounds : h.Bounds (s.deriveChecks rule start {}) := by
    intro check hcheck p hp
    have hfurthest := furthest_furthestStop start ⟨check, hcheck, by simp [hp]⟩
    exact Position.le_trans (hfurthest.2 p ⟨check, hcheck, hp⟩) Std.right_le_max
  obtain ⟨⟨hchain, -⟩, hfound⟩ :=
    (derive_follows hclosed hchoices hrule h Std.left_le_max hbounds).1 check hcheck
  exact ⟨hchain, hfound⟩

/-- The furthest end lies on the chain. -/
theorem onChain_furthestStop :
    s.source.OnChain start (furthestStop start (s.deriveChecks rule start {})) := by
  by_cases hany : ∃ check ∈ s.deriveChecks rule start {}, check.stop? ≠ none
  · obtain ⟨check, hcheck, hstop⟩ := (furthest_furthestStop start hany).1
    obtain ⟨hchain, hfound⟩ := made_of_mem_deriveChecks hclosed hchoices hrule hcheck
    obtain ⟨t, ht, -, heq⟩ := Check.stop?_eq_some.mp hstop
    rw [← heq]
    exact hchain.next (hfound.symm.trans ht)
  · rw [furthestStop_eq_start (by simpa using hany)]
    exact s.source.onChain_start start

end Deriving

/-- A derivation that fails is reported. -/
theorem parse_of_derive_error (trailing : Bool) {run : Run} {f : Failure}
    (hselect : s.grammar.selectStart s.source.conditions = .ok rule)
    (hderive : (s.derive rule start).run.run {} = (.error f, run)) :
    s.parse trailing start = .error (s.report run rule f) := by
  rw [parse, hselect]
  simp only [bind, Except.bind, hderive]
  rfl

/-- A parse that reports that there is no path reports a derivation that failed. -/
theorem derive_of_parse_noPath {trailing : Bool} {name : String}
    (hselect : s.grammar.selectStart s.source.conditions = .ok rule)
    (h : s.parse trailing start = .error (.noPath name position)) :
    ∃ r p run, (s.derive rule start).run.run {} = (.error (.noPath r p), run) ∧
      position = (run.furthest.map fun q => max q p).getD p := by
  rcases hderive : (s.derive rule start).run.run {} with ⟨f | root, run⟩
  · rw [parse_of_derive_error trailing hselect hderive] at h
    cases f with
    | noPath r p =>
        injection h with h
        injection h with _ hposition
        exact ⟨r, p, run, rfl, hposition.symm⟩
    | depthLimit r p => cases h
  · cases hwinner : s.winner? trailing (run.arena.output root) with
    | none =>
        rw [parse, hselect] at h
        simp only [bind, Except.bind, hderive, hwinner] at h
        cases h
    | some stop =>
        obtain ⟨r, hparse⟩ | ⟨name', p, hparse⟩ := parse_of_winner hselect hderive hwinner
        · rw [hparse] at h
          cases h
        · rw [hparse] at h
          cases h

/-- A parse without any path is reported where the next token starts behind the furthest end of a
successful check, or behind the start if there is none, or where reading that token fails. This is
never before a position that was checked, or that any rule was found to lead to. -/
theorem parse_noPath_position {b : Grammar.Builder} {trailing : Bool} {name : String}
    (hbuilt : b.build = .ok s.grammar) (hchoices : ∀ d ∈ s.grammar.rules, d.body.HasChoices)
    (hselect : s.grammar.selectStart s.source.conditions = .ok rule)
    (hhits : ((s.derive rule start).run.run {}).2.stats.leftRecursionHits = 0)
    (h : s.parse trailing start = .error (.noPath name position)) :
    (∃ failure, ((s.derive rule start).run.run {}).1 = .error failure) ∧
      position = s.source.nextStart (furthestStop start (s.deriveChecks rule start {})) ∧
      (∀ check ∈ s.deriveChecks rule start {},
        check.position ≤ position ∧ ∀ p, check.stop? = some p → p ≤ position) ∧
      ∀ p r finding, ((s.derive rule start).run.run {}).2.memo.find? p r = some finding →
        p ≤ position ∧ ∀ id, finding = .succeeded id →
          ∀ q ∈ ((s.derive rule start).run.run {}).2.arena.output id, q ≤ position := by
  obtain ⟨r, p, run, hderive, hposition⟩ := derive_of_parse_noPath hselect h
  rw [hderive] at hhits ⊢
  have hclosed := Grammar.Builder.closed_of_build hbuilt
  have hrule : rule < s.grammar.rules.length := by
    obtain ⟨start, hstart, rfl⟩ := Grammar.exists_start_of_select hselect
    exact Grammar.Builder.starts_of_build hbuilt start hstart
  let v : Horizon s.source := ⟨start, furthestStop start (s.deriveChecks rule start {})⟩
  have hchain : s.source.OnChain start v.last := onChain_furthestStop hclosed hchoices hrule
  have hbounds : v.Bounds (s.deriveChecks rule start {}) := fun check hcheck q hq =>
    (furthest_furthestStop start ⟨check, hcheck, by simp [hq]⟩).2 q ⟨check, hcheck, hq⟩
  have hmet : start = v.last ∨ v.Hit (s.deriveChecks rule start {}) := by
    by_cases hany : ∃ check ∈ s.deriveChecks rule start {}, check.stop? ≠ none
    · exact .inr (furthest_furthestStop start hany).1
    · exact .inl (furthestStop_eq_start (by simpa using hany)).symm
  obtain ⟨hmade, hpost⟩ := derive_follows hclosed hchoices hrule v hchain.upto.le hbounds
  obtain ⟨hold, hp, hnoted⟩ := (ensures_bind.mp hpost).of_run hderive
  -- neither a left recursion nor the bound on nesting stands in for the failure at the horizon
  obtain ⟨f, hf, hle⟩ := ((hnoted hmet).resolve_right nofun).resolve_left (absurd hhits)
  obtain ⟨q, hq, rfl⟩ := hold.noted f hf
  have hlast : s.source.nextStart q = s.source.nextStart v.last :=
    Position.le_antisymm (hq.1.nextStart_le hchain hq.2) hle
  have hnext : v.last ≤ s.source.nextStart v.last := (s.source.upto_nextStart v.last).le
  have heq : position = s.source.nextStart v.last := by
    rw [hposition, hf, hlast]
    exact Position.le_antisymm (Std.max_le_iff.mpr ⟨Position.le_refl _, Position.le_trans hp hnext⟩)
      Std.left_le_max
  have hreach (p : Position) (hp : p ≤ v.last) : p ≤ position := heq ▸ Position.le_trans hp hnext
  refine ⟨⟨_, rfl⟩, heq, fun check hcheck => ?_, fun p r finding hm => ?_⟩
  · exact ⟨hreach _ (hmade check hcheck).1.2, fun p hp => hreach p (hbounds check hcheck p hp)⟩
  · refine ⟨hreach p (hold.asked p r finding hm), ?_⟩
    rintro id rfl q hq
    exact hreach q ((hold.settled p r _ _ hm rfl).1.2 q hq).2

end Session

namespace Samples

/-- Two items with a comma between them, `Pair: Item Comma Item; Item: A;`, ignoring spaces. -/
def pairBuilder : Grammar.Builder where
  lexicon :=
    { tags := lists.lexicon.tags ++
        [{ name := "Space", openings := [⟨.always, [3]⟩], ignored := true }]
      automaton := ⟨[⟨1, .char 'a', [0], [0], []⟩, ⟨2, .char ',', [0], [1], []⟩,
        ⟨3, .char ' ', [0], [2], []⟩]⟩ }
  entries := [("Pair", some (.sequence [.nonterminal 1, .terminal 1, .nonterminal 1])),
    ("Item", some (.terminal 0))]
  starts := [⟨0, .always⟩]

def pairs : Grammar where
  lexicon := pairBuilder.lexicon
  rules := [⟨"Pair", .sequence [.nonterminal 1, .terminal 1, .nonterminal 1]⟩,
    ⟨"Item", .terminal 0⟩]
  starts := pairBuilder.starts
  features := ∅

def pairSession (text : String) : Session := .ofText pairs ∅ text none 8

end Samples

/-- A second comma instead of the second item: two checks succeed, and the third one, behind them,
fails where that comma is. -/
theorem Session.parse_noPath_position_pairs :
    ((Samples.pairSession "a, ,").deriveChecks 0 .start {}).map Check.stop? =
        [some ⟨1, 1, 2⟩, some ⟨2, 1, 3⟩, none] ∧
      ∃ name, (Samples.pairSession "a, ,").parse true .start =
        .error (.noPath name ⟨3, 1, 4⟩) := by
  have hbuilt : Samples.pairBuilder.build = .ok (Samples.pairSession "a, ,").grammar := rfl
  have hchoices : ∀ d ∈ (Samples.pairSession "a, ,").grammar.rules, d.body.HasChoices := by decide
  have hselect : (Samples.pairSession "a, ,").grammar.selectStart
      (Samples.pairSession "a, ,").source.conditions = .ok 0 := rfl
  generalize hderive : ((Samples.pairSession "a, ,").derive 0 .start).run.run {} = derived
  have hhits : derived.2.stats.leftRecursionHits = 0 := by
    rw [← hderive]
    decide +kernel
  have hfailed : (failure? derived.1).map (·.isAbsorbable) = some true := by
    rw [← hderive]
    decide +kernel
  obtain ⟨f, hf, habsorbable⟩ := Option.map_eq_some_iff.mp hfailed
  cases f with
  | depthLimit r p => cases habsorbable
  | noPath r p =>
      have hparse := parse_of_derive_error true hselect
        (hderive.trans (Prod.ext (error_of_failure? hf) rfl))
      rw [report] at hparse
      obtain ⟨-, hposition, -⟩ := parse_noPath_position hbuilt hchoices hselect
        (hderive ▸ hhits) hparse
      have hcomma : (Samples.pairSession "a, ,").source.nextStart (furthestStop .start
          ((Samples.pairSession "a, ,").deriveChecks 0 .start {})) = ⟨3, 1, 4⟩ := by decide +kernel
      rw [hposition, hcomma] at hparse
      exact ⟨by decide +kernel, _, hparse⟩

end Multipath
