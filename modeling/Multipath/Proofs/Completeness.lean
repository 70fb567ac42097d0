import Multipath.Proofs.PathBound

/-!
Evaluation is complete: what a rule leads to is found, as far as tokens and references are
answered fully. What counts as a full answer is left open in `Yardstick`, since it is needed twice:
of the derivation relation, as long as no rule met itself, and of what an earlier run has found,
always. Repetitions stop for want of new paths and never for the bound on them.
-/

namespace Multipath

open Search (attempt noPath outcome outputOf readToken)

/-- `result` has every path expected: it lists them all, and there are none if it is a failure
that may be borne. -/
def Answers (result : Except Failure PathSet) (expected : Position → Prop) : Prop :=
  match result with
  | .ok out => ∀ q, expected q → q ∈ out
  | .error f => f.isAbsorbable = true → ∀ q, ¬expected q

theorem Answers.mono {result : Except Failure PathSet} {expected expected' : Position → Prop}
    (h : Answers result expected) (himp : ∀ q, expected' q → expected q) :
    Answers result expected' := by
  cases result with
  | ok out => exact fun q hq => h q (himp q hq)
  | error f => exact fun hf q hq => h hf q (himp q hq)

/-- What tokens and references should lead to, with an invariant under which a search attends to
it. Answers are held against it only of runs that count. -/
structure Yardstick (s : Session) (c : Scope s.source) where
  reads : Position → Token → Prop
  spans : RuleId → Position → Position → Prop
  inv : Run → Prop
  counts : Run → Prop
  counts_of_grows : ∀ {run run' : Run}, run.Grows run' → counts run' → counts run
  inv_of_onlyReads : ∀ {run run' : Run}, run.OnlyReads run' → inv run → inv run'
  reads_eq : ∀ {run : Run} {p : Position} {t : Token} {result : Except LexicalError Token},
    run.Valid s c → run.Within c p → inv run → reads p t →
    run.lexer.cache[p.index]? = some result → result = .ok t

namespace Yardstick

variable {s : Session} {c : Scope s.source} {y : Yardstick s c}

/-- Where a rule should lead. -/
abbrev Leads (y : Yardstick s c) : Rule → Position → Position → Prop :=
  s.grammar.Leads y.reads y.spans

/-- The search attends to the yardstick and finds all that is expected, if the run counts. -/
def Complete (y : Yardstick s c) (x : Search PathSet) (run : Run)
    (expected : Position → Prop) : Prop :=
  Ensures x run fun result run' =>
    run'.Valid s c ∧ run.Grows run' ∧ y.inv run' ∧ (y.counts run' → Answers result expected)

/-- References are answered fully. -/
def Resolves (y : Yardstick s c) (resolve : Resolver) : Prop :=
  ∀ rule p run, run.Valid s c → run.Within c p → y.inv run →
    y.Complete (resolve rule p) run (y.spans rule p)

theorem Complete.mono {x : Search PathSet} {run : Run} {expected expected' : Position → Prop}
    (h : y.Complete x run expected) (himp : ∀ q, expected' q → expected q) :
    y.Complete x run expected' := by
  refine Ensures.mono h ?_
  intro result run' hpost
  obtain ⟨hv, hg, hinv, hall⟩ := hpost
  exact ⟨hv, hg, hinv, fun hc => (hall hc).mono himp⟩

/-- An attempt only fails for reasons that may not be borne. -/
theorem Complete.attempt {x : Search PathSet} {run : Run} {expected : Position → Prop}
    (h : y.Complete x run expected) :
    Ensures (attempt x) run fun result run' =>
      run'.Valid s c ∧ run.Grows run' ∧ y.inv run' ∧
        match result with
        | .ok (.ok out) => y.counts run' → ∀ q, expected q → q ∈ out
        | .ok (.error _) => y.counts run' → ∀ q, ¬expected q
        | .error f => f.isAbsorbable = false := by
  refine Search.ensures_attempt.mpr (Ensures.mono h ?_)
  intro result run' hpost
  obtain ⟨hv, hg, hinv, hall⟩ := hpost
  cases result with
  | ok out => exact ⟨hv, hg, hinv, hall⟩
  | error f =>
      dsimp only
      split
      · next hf => exact ⟨hv, hg, hinv, fun hc => hall hc hf⟩
      · next hf => exact ⟨hv, hg, hinv, by simpa using hf⟩

theorem answers_error {f : Failure} (h : f.isAbsorbable = false) (expected : Position → Prop) :
    Answers (.error f) expected := by
  intro hf
  rw [h] at hf
  cases hf

theorem terminal_complete (tag : TagId) (input : PathSet) (run : Run) (hv : run.Valid s c)
    (hwithin : ∀ p ∈ input, run.Within c p) (hinv : y.inv run) :
    y.Complete (s.terminal tag input) run fun q => ∃ p ∈ input, y.Leads (.terminal tag) p q := by
  refine (terminal_spec tag input hv hwithin).mono ?_
  intro result run' hpost
  obtain ⟨hv', honly, hread, hout⟩ := hpost
  have hinv' := y.inv_of_onlyReads honly hinv
  have hreads : ∀ p ∈ input, ∀ t, y.reads p t → run'.Reads p t := by
    intro p hp t ht
    obtain ⟨r, hr⟩ := hread p hp
    have heq := y.reads_eq hv' (honly.grows.within (hwithin p hp)) hinv' ht hr
    rwa [heq] at hr
  refine ⟨hv', honly.grows, hinv', fun _ => ?_⟩
  cases result with
  | ok out =>
      intro q hq
      obtain ⟨p, hp, hl⟩ := hq
      cases hl with
      | terminal ht htag => exact (hout.2 _).mpr ⟨p, hp, _, hreads p hp _ ht, htag, rfl⟩
  | error f =>
      intro _ q hq
      obtain ⟨p, hp, hl⟩ := hq
      cases hl with
      | terminal ht htag =>
          have hno := hout p hp _ (hreads p hp _ ht)
          rw [htag] at hno
          cases hno

/-- United searches find all that each of them should. -/
theorem unite_complete {ι : Type} (input : PathSet) (f : ι → Search PathSet)
    (expected : ι → Position → Prop) (is : List ι) (output : PathSet) (cause : Option Failure)
    (run : Run) (hv : run.Valid s c) (hinv : y.inv run)
    (hf : ∀ i ∈ is, ∀ run', run'.Valid s c → run.Grows run' → y.inv run' →
      y.Complete (f i) run' (expected i)) :
    y.Complete (Session.unite input (is.map f) output cause) run fun q =>
      q ∈ output ∨ ∃ i ∈ is, expected i q := by
  induction is generalizing output cause run with
  | nil =>
      have hnone (hempty : output.isEmpty = true) (q : Position) :
          ¬(q ∈ output ∨ ∃ i ∈ ([] : List ι), expected i q) := by
        obtain rfl := Std.ExtTreeSet.isEmpty_iff.mp hempty
        simp
      simp only [List.map_nil, Session.unite]
      split
      · next hempty =>
          split
          · exact ensures_throw.mpr ⟨hv, .refl run, hinv, fun _ _ => hnone hempty⟩
          · exact Search.ensures_noPath.mpr ⟨hv, .refl run, hinv, fun _ _ => hnone hempty⟩
      · refine ensures_pure.mpr ⟨hv, .refl run, hinv, fun _ q hq => ?_⟩
        simpa using hq
  | cons i is ih =>
      simp only [List.map_cons, Session.unite]
      refine ensures_bind.mpr (Ensures.mono
        (hf i (by simp) run hv (.refl run) hinv).attempt ?_)
      intro result run₁ hpost
      obtain ⟨hv₁, hg₁, hinv₁, hfound⟩ := hpost
      have hf₁ : ∀ j ∈ is, ∀ run', run'.Valid s c → run₁.Grows run' → y.inv run' →
          y.Complete (f j) run' (expected j) :=
        fun j hj run' hv' hg' => hf j (by simp [hj]) run' hv' (hg₁.trans hg')
      cases result with
      | error f => exact ⟨hv₁, hg₁, hinv₁, fun _ => answers_error hfound _⟩
      | ok found =>
          -- what the first search should find is there, and the others go on from that
          have hrest (output' : PathSet) (cause' : Option Failure)
              (hhave : y.counts run₁ → ∀ q, q ∈ output ∨ expected i q → q ∈ output') :
              Ensures (Session.unite input (is.map f) output' cause') run₁ fun result run' =>
                run'.Valid s c ∧ run.Grows run' ∧ y.inv run' ∧
                  (y.counts run' → Answers result fun q =>
                    q ∈ output ∨ ∃ j ∈ i :: is, expected j q) := by
            refine Ensures.mono (ih output' cause' run₁ hv₁ hinv₁ hf₁) ?_
            intro result run' hpost
            obtain ⟨hv', hg', hinv', hall⟩ := hpost
            refine ⟨hv', hg₁.trans hg', hinv', fun hc => (hall hc).mono fun q hq => ?_⟩
            have hsome := hhave (y.counts_of_grows hg' hc) q
            simp only [List.mem_cons, exists_eq_or_imp] at hq
            obtain hq | hq | hq := hq
            · exact .inl (hsome (.inl hq))
            · exact .inl (hsome (.inr hq))
            · exact .inr hq
          cases found with
          | ok paths =>
              refine hrest (output ∪ paths) cause fun hc q hq => ?_
              obtain hq | hq := hq
              · exact Std.ExtTreeSet.mem_union_of_left hq
              · exact Std.ExtTreeSet.mem_union_of_right (hfound hc q hq)
          | error f =>
              refine hrest output (some f) fun hc q hq => ?_
              obtain hq | hq := hq
              · exact hq
              · exact absurd hq (hfound hc q)

/-- What is missing from the result for it to be closed under the body starts on the frontier. -/
def ClosedBut (y : Yardstick s c) (body : Rule) (frontier result : PathSet) : Prop :=
  ∀ p ∈ result, p ∈ frontier ∨ ∀ q, y.Leads body p q → q ∈ result

variable {body : Rule} {frontier result output : PathSet}

theorem ClosedBut.closed (h : y.ClosedBut body frontier result)
    (hfrontier : ∀ q, (∃ p ∈ frontier, y.Leads body p q) → q ∈ result) :
    ∀ p ∈ result, ∀ q, y.Leads body p q → q ∈ result := by
  intro p hp q hl
  obtain hf | hdone := h p hp
  · exact hfrontier q ⟨p, hf, hl⟩
  · exact hdone q hl

/-- After a round, what is new is the frontier. -/
theorem ClosedBut.round (h : y.ClosedBut body frontier result)
    (houtput : ∀ q, (∃ p ∈ frontier, y.Leads body p q) → q ∈ output) :
    y.ClosedBut body (output \ result) (result ∪ (output \ result)) := by
  have hmem (q : Position) (hq : q ∈ output) : q ∈ result ∪ (output \ result) := by
    by_cases hr : q ∈ result
    · exact Std.ExtTreeSet.mem_union_of_left hr
    · exact Std.ExtTreeSet.mem_union_of_right (Std.ExtTreeSet.mem_diff_iff.mpr ⟨hq, hr⟩)
  intro p hp
  obtain hr | hfresh := Std.ExtTreeSet.mem_union_iff.mp hp
  · refine .inr fun q hl => ?_
    obtain hf | hdone := h p hr
    · exact hmem q (houtput q ⟨p, hf, hl⟩)
    · exact Std.ExtTreeSet.mem_union_of_left (hdone q hl)
  · exact .inl hfresh

/-- Repeating either closes the paths under the body or runs through its bound, and it gains a
path each time. -/
theorem saturate_complete (body : Rule) (eval : PathSet → Search PathSet) (n : Nat)
    (frontier result : PathSet) (run : Run) (hv : run.Valid s c) (hinv : y.inv run)
    (hwithin : ∀ p ∈ frontier, run.Within c p)
    (heval : ∀ input run', run'.Valid s c → run.Grows run' → y.inv run' →
      (∀ p ∈ input, run'.Within c p) →
      Search.Sound s c (eval input) run' (fun out run'' =>
        ∀ q ∈ out, ∃ p ∈ input, run''.Leads s body p q) ∧
      y.Complete (eval input) run' fun q => ∃ p ∈ input, y.Leads body p q)
    (hclosed : y.counts run → y.ClosedBut body frontier result) :
    Ensures (Session.saturate eval n frontier result) run fun out run' =>
      run'.Valid s c ∧ run.Grows run' ∧ y.inv run' ∧
        match out with
        | .ok out => (∀ q ∈ result, q ∈ out) ∧ (result.size + n ≤ out.size ∨
            (y.counts run' → ∀ p ∈ out, ∀ q, y.Leads body p q → q ∈ out))
        | .error f => f.isAbsorbable = false := by
  induction n generalizing frontier result run with
  | zero => exact ensures_pure.mpr ⟨hv, .refl run, hinv, fun _ hq => hq, .inl (Nat.le_refl _)⟩
  | succ n ih =>
      rw [Session.saturate]
      obtain ⟨hsound, hcomplete⟩ := heval frontier run hv (.refl run) hinv hwithin
      refine ensures_bind.mpr (Ensures.mono (hsound.attempt.and hcomplete.attempt) ?_)
      intro attempted run₁ hpost
      obtain ⟨⟨-, -, hfound⟩, hv₁, hg₁, hinv₁, hall⟩ := hpost
      have hclosed₁ (hc : y.counts run₁) : y.ClosedBut body frontier result :=
        hclosed (y.counts_of_grows hg₁ hc)
      cases attempted with
      | error f => exact ⟨hv₁, hg₁, hinv₁, hall⟩
      | ok attempted =>
          cases attempted with
          | error f =>
              refine ensures_pure.mpr ⟨hv₁, hg₁, hinv₁, fun _ hq => hq, .inr fun hc => ?_⟩
              exact (hclosed₁ hc).closed fun q hq => absurd hq (hall hc q)
          | ok output =>
              dsimp only
              split
              · next hempty =>
                  refine ensures_pure.mpr ⟨hv₁, hg₁, hinv₁, fun _ hq => hq, .inr fun hc => ?_⟩
                  exact (hclosed₁ hc).closed fun q hq =>
                    Std.ExtTreeSet.isEmpty_diff_iff.mp hempty q (hall hc q hq)
              · next hne =>
                  have hwithin₁ : ∀ q ∈ output \ result, run₁.Within c q := by
                    intro q hq
                    have hmem := (Std.ExtTreeSet.mem_diff_iff.mp hq).1
                    obtain ⟨p, hp, hl⟩ := hfound _ rfl output rfl q hmem
                    exact hv₁.leads_within hl (hg₁.within (hwithin p hp))
                  have hsize := SortedSet.size_lt_size_union_diff hne
                  refine Ensures.mono (ih (output \ result) (result ∪ (output \ result)) run₁
                    hv₁ hinv₁ hwithin₁
                    (fun input run' hv' hg' => heval input run' hv' (hg₁.trans hg'))
                    fun hc => (hclosed₁ hc).round (hall hc)) ?_
                  intro out run₂ hpost
                  obtain ⟨hv₂, hg₂, hinv₂, hout⟩ := hpost
                  refine ⟨hv₂, hg₁.trans hg₂, hinv₂, ?_⟩
                  cases out with
                  | error f => exact hout
                  | ok out =>
                      obtain ⟨hsub, hend⟩ := hout
                      refine ⟨fun q hq => hsub q (Std.ExtTreeSet.mem_union_of_left hq), ?_⟩
                      exact hend.imp_left fun hle => by omega

theorem Leads.repetition_subset {body : Rule} {out : PathSet}
    (hclosed : ∀ p ∈ out, ∀ q, y.Leads body p q → q ∈ out) {p q : Position} (hp : p ∈ out)
    (h : y.Leads (.repetition body) p q) : q ∈ out := by
  generalize hrule : Rule.repetition body = rule at h
  induction h with
  | stop => exact hp
  | again hbody _ _ ih =>
      cases hrule
      exact ih (hclosed _ hp _ hbody) rfl
  | _ => cases hrule

mutual

/-- All that a rule should lead to is found. -/
theorem evaluate_complete {resolve : Resolver} (hsound : ∀ c, s.SoundResolver c resolve)
    (hres : y.Resolves resolve) : ∀ (rule : Rule) (input : PathSet) (run : Run), run.Valid s c →
      (∀ p ∈ input, run.Within c p) → y.inv run →
      y.Complete (s.evaluate resolve rule input) run fun q => ∃ p ∈ input, y.Leads rule p q
  | .terminal tag, input, run, hv, hwithin, hinv => by
      rw [Session.evaluate]
      exact terminal_complete tag input run hv hwithin hinv
  | .nonterminal rule, input, run, hv, hwithin, hinv => by
      rw [Session.evaluate]
      refine Complete.mono (unite_complete input (resolve rule) (y.spans rule) input.toList ∅ none
        run hv hinv ?_) ?_
      · intro p hp run' hv' hg hinv'
        have hp' := hg.within (hwithin p (Std.ExtTreeSet.mem_toList.mp hp))
        exact hres rule p run' hv' hp' hinv'
      · intro q hq
        obtain ⟨p, hp, hl⟩ := hq
        cases hl with
        | nonterminal hspans => exact .inr ⟨p, Std.ExtTreeSet.mem_toList.mpr hp, hspans⟩
  | .sequence items, input, run, hv, hwithin, hinv => by
      rw [Session.evaluate]
      exact evaluateItems_complete hsound hres items input run hv hwithin hinv
  | .optional body, input, run, hv, hwithin, hinv => by
      rw [Session.evaluate]
      refine ensures_bind.mpr (Ensures.mono
        (evaluate_complete hsound hres body input run hv hwithin hinv).attempt ?_)
      intro result run' hpost
      obtain ⟨hv', hg, hinv', hall⟩ := hpost
      cases result with
      | error f => exact ⟨hv', hg, hinv', fun _ => answers_error hall _⟩
      | ok found =>
          cases found with
          | ok output =>
              refine ensures_pure.mpr ⟨hv', hg, hinv', fun hc q hq => ?_⟩
              obtain ⟨p, hp, hl⟩ := hq
              cases hl with
              | skip => exact Std.ExtTreeSet.mem_union_of_left hp
              | take hbody => exact Std.ExtTreeSet.mem_union_of_right (hall hc q ⟨p, hp, hbody⟩)
          | error f =>
              refine ensures_pure.mpr ⟨hv', hg, hinv', fun hc q hq => ?_⟩
              obtain ⟨p, hp, hl⟩ := hq
              cases hl with
              | skip => exact hp
              | take hbody => exact absurd ⟨p, hp, hbody⟩ (hall hc q)
  | .repetition body, input, run, hv, hwithin, hinv => by
      have hsize := Session.evaluate_size_lt hsound (.repetition body) input hv hwithin
      rw [Session.evaluate] at hsize ⊢
      refine ensures_bind.mpr (ensures_get.mpr ?_)
      have hsaturate := saturate_complete (y := y) body (s.evaluate resolve body)
        (s.pathBound run) input input run hv hinv hwithin
        (fun input' run' hv' _ hinv' hwithin' =>
          ⟨(Session.evaluate_sound (hsound c) body input' run' hv' hwithin').mono
            fun _ _ _ _ hout => hout.2,
          evaluate_complete hsound hres body input' run' hv' hwithin' hinv'⟩)
        fun _ p hp => .inl hp
      refine Ensures.mono (hsaturate.and (ensures_get.mp (ensures_bind.mp hsize))) ?_
      intro result run' hpost
      obtain ⟨⟨hv', hg, hinv', hall⟩, hlt⟩ := hpost
      refine ⟨hv', hg, hinv', fun hc => ?_⟩
      cases result with
      | error f => exact answers_error hall _
      | ok out =>
          obtain ⟨hsub, hbound | hclosed⟩ := hall
          · have := hlt out rfl
            omega
          · intro q hq
            obtain ⟨p, hp, hl⟩ := hq
            exact Leads.repetition_subset (hclosed hc) (hsub p hp) hl
  | .alternation choices, input, run, hv, hwithin, hinv => by
      rw [Session.evaluate, Session.evaluateChoices_eq]
      refine Complete.mono (unite_complete input (fun choice => s.evaluate resolve choice input)
        (fun choice q => ∃ p ∈ input, y.Leads choice p q) choices ∅ none run hv hinv
        (evaluateChoices_complete hsound hres choices input run hwithin)) ?_
      intro q hq
      obtain ⟨p, hp, hl⟩ := hq
      cases hl with
      | choice hmem hl => exact .inr ⟨_, hmem, p, hp, hl⟩
  | .switch feature body, input, run, hv, hwithin, hinv => by
      rw [Session.evaluate]
      split
      · next hon =>
          refine Complete.mono (evaluate_complete hsound hres body input run hv hwithin hinv) ?_
          intro q hq
          obtain ⟨p, hp, hl⟩ := hq
          cases hl with
          | enabled _ hl => exact ⟨p, hp, hl⟩
          | disabled hoff => rw [hon] at hoff; cases hoff
      · next hoff =>
          refine ensures_pure.mpr ⟨hv, .refl run, hinv, fun _ q hq => ?_⟩
          obtain ⟨p, hp, hl⟩ := hq
          cases hl with
          | enabled hon _ => exact absurd hon hoff
          | disabled _ => exact hp

theorem evaluateItems_complete {resolve : Resolver} (hsound : ∀ c, s.SoundResolver c resolve)
    (hres : y.Resolves resolve) : ∀ (items : List Rule) (input : PathSet) (run : Run),
      run.Valid s c → (∀ p ∈ input, run.Within c p) → y.inv run →
      y.Complete (s.evaluateItems resolve items input) run fun q =>
        ∃ p ∈ input, y.Leads (.sequence items) p q
  | [], input, run, hv, _, hinv => by
      rw [Session.evaluateItems]
      refine ensures_pure.mpr ⟨hv, .refl run, hinv, fun _ q hq => ?_⟩
      obtain ⟨p, hp, hl⟩ := hq
      cases hl with
      | nil => exact hp
  | item :: items, input, run, hv, hwithin, hinv => by
      rw [Session.evaluateItems]
      have hsnd := Session.evaluate_sound (hsound c) item input run hv hwithin
      have hcmp := evaluate_complete hsound hres item input run hv hwithin hinv
      refine ensures_bind.mpr (Ensures.mono (hsnd.and hcmp) ?_)
      intro result run₁ hpost
      obtain ⟨⟨-, -, hfound⟩, hv₁, hg₁, hinv₁, hall⟩ := hpost
      cases result with
      | error f =>
          refine ⟨hv₁, hg₁, hinv₁, fun hc hf q hq => ?_⟩
          obtain ⟨p, hp, hl⟩ := hq
          cases hl with
          | cons hitem _ => exact hall hc hf _ ⟨p, hp, hitem⟩
      | ok paths =>
          have hwithin₁ : ∀ m ∈ paths, run₁.Within c m := by
            intro m hm
            obtain ⟨p, hp, hl⟩ := (hfound paths rfl).2 m hm
            exact hv₁.leads_within hl (hg₁.within (hwithin p hp))
          refine Ensures.mono
            (evaluateItems_complete hsound hres items paths run₁ hv₁ hwithin₁ hinv₁) ?_
          intro result run₂ hpost
          obtain ⟨hv₂, hg₂, hinv₂, hrest⟩ := hpost
          refine ⟨hv₂, hg₁.trans hg₂, hinv₂, fun hc => (hrest hc).mono fun q hq => ?_⟩
          obtain ⟨p, hp, hl⟩ := hq
          cases hl with
          | cons hitem hitems =>
              exact ⟨_, hall (y.counts_of_grows hg₂ hc) _ ⟨p, hp, hitem⟩, hitems⟩

theorem evaluateChoices_complete {resolve : Resolver} (hsound : ∀ c, s.SoundResolver c resolve)
    (hres : y.Resolves resolve) : ∀ (choices : List Rule) (input : PathSet) (run : Run),
      (∀ p ∈ input, run.Within c p) → ∀ choice ∈ choices, ∀ run', run'.Valid s c →
      run.Grows run' → y.inv run' →
      y.Complete (s.evaluate resolve choice input) run' fun q =>
        ∃ p ∈ input, y.Leads choice p q
  | [], _, _, _, _, hx, _, _, _, _ => absurd hx List.not_mem_nil
  | choice :: choices, input, run, hwithin, x, hx, run', hv', hg, hinv' => by
      by_cases h : x = choice
      · rw [h]
        exact evaluate_complete hsound hres choice input run' hv'
          (fun p hp => hg.within (hwithin p hp)) hinv'
      · have hx' : x ∈ choices := (List.mem_cons.mp hx).resolve_left h
        exact evaluateChoices_complete hsound hres choices input run hwithin x hx' run' hv' hg hinv'

end

/-- At rest, with references answered at the depth that is left. -/
theorem follow_complete
    (hres : ∀ depth, y.Resolves fun rule q => s.deriveWithin depth rule q >>= outputOf)
    (rule : Rule) (input : PathSet) (run : Run) (hv : run.Valid s c)
    (hwithin : ∀ p ∈ input, run.Within c p) (hinv : y.inv run) :
    y.Complete (s.follow rule input) run fun q => ∃ p ∈ input, y.Leads rule p q :=
  evaluate_complete (fun _ => Session.resolver_sound _) (hres (s.maxDepth - run.frames.length))
    rule input run hv hwithin hinv

end Yardstick
end Multipath
