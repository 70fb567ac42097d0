import Multipath.Proofs.Reading

/-!
Evaluation is sound: whatever paths are found, the rule leads there from some path of the input,
by what the run has read and derived by then. This holds of left-recursive grammars too, and of
every depth. Each function of the evaluator has one statement.
-/

namespace Multipath

open Search (attempt noPath outcome outputOf readToken)

variable {s : Session} {c : Scope s.source}

namespace Session

/-- The resolver finds only what the run then knows. -/
def SoundResolver (s : Session) (c : Scope s.source) (resolve : Resolver) : Prop :=
  ∀ rule p run, run.Valid s c → run.Within c p →
    Search.Sound s c (resolve rule p) run fun out run' =>
      out ≠ ∅ ∧ ∀ q ∈ out, run'.Known rule p q

/-- United searches find what some of them finds, `found` being a claim that lasts. -/
theorem unite_sound {ι : Type} (input : PathSet) (f : ι → Search PathSet)
    (found : ι → Run → Position → Prop)
    (hlasts : ∀ i q run run', run.Valid s c → run'.Valid s c → run.Grows run' →
      found i run q → found i run' q)
    (is : List ι) (output : PathSet) (cause : Option Failure) (run : Run) (hv : run.Valid s c)
    (hf : ∀ i ∈ is, ∀ run', run'.Valid s c → run.Grows run' →
      Search.Sound s c (f i) run' fun out run'' => ∀ q ∈ out, found i run'' q) :
    Search.Sound s c (unite input (is.map f) output cause) run fun out run' =>
      out ≠ ∅ ∧ ∀ q ∈ out, q ∈ output ∨ ∃ i ∈ is, found i run' q := by
  induction is generalizing output cause run with
  | nil =>
      simp only [List.map_nil, unite]
      split
      · split
        · exact .throw hv
        · exact Search.ensures_noPath.mpr ⟨hv, .refl run, nofun⟩
      · next hne =>
          refine .pure hv ⟨?_, fun q hq => .inl hq⟩
          intro heq
          obtain rfl := heq
          exact hne Std.ExtTreeSet.isEmpty_empty
  | cons i is ih =>
      simp only [List.map_cons, unite]
      refine (hf i (by simp) run hv (.refl run)).attempt.bind ?_
      intro result run₁ hv₁ hg₁ hfound
      have hf₁ : ∀ j ∈ is, ∀ run', run'.Valid s c → run₁.Grows run' →
          Search.Sound s c (f j) run' fun out run'' => ∀ q ∈ out, found j run'' q :=
        fun j hj run' hv' hg' => hf j (by simp [hj]) run' hv' (hg₁.trans hg')
      cases result with
      | ok paths =>
          refine (ih (output ∪ paths) cause run₁ hv₁ hf₁).mono ?_
          intro out run₂ hv₂ hg₂ hpost
          obtain ⟨hne, hout⟩ := hpost
          refine ⟨hne, fun q hq => ?_⟩
          obtain hq | ⟨j, hj, hq⟩ := hout q hq
          · obtain hq | hq := Std.ExtTreeSet.mem_union_iff.mp hq
            · exact .inl hq
            · exact .inr ⟨i, by simp, hlasts i q run₁ run₂ hv₁ hv₂ hg₂ (hfound paths rfl q hq)⟩
          · exact .inr ⟨j, by simp [hj], hq⟩
      | error f =>
          refine (ih output (some f) run₁ hv₁ hf₁).mono ?_
          intro out run₂ _ _ h
          obtain ⟨hne, hout⟩ := h
          refine ⟨hne, fun q hq => ?_⟩
          obtain hq | ⟨j, hj, hq⟩ := hout q hq
          · exact .inl hq
          · exact .inr ⟨j, by simp [hj], hq⟩

/-- Repeating adds only what iterations lead to from the frontier. -/
theorem saturate_sound (body : Rule) (eval : PathSet → Search PathSet) (n : Nat)
    (frontier result : PathSet) (run : Run) (hv : run.Valid s c)
    (hwithin : ∀ p ∈ frontier, run.Within c p)
    (heval : ∀ input run', run'.Valid s c → run.Grows run' → (∀ p ∈ input, run'.Within c p) →
      Search.Sound s c (eval input) run' fun out run'' =>
        ∀ q ∈ out, ∃ p ∈ input, run''.Leads s body p q) :
    Search.Sound s c (saturate eval n frontier result) run fun out run' =>
      (∀ q ∈ result, q ∈ out) ∧
        ∀ q ∈ out, q ∈ result ∨ ∃ p ∈ frontier, run'.Leads s (.repetition body) p q := by
  induction n generalizing frontier result run with
  | zero => exact .pure hv ⟨fun _ hq => hq, fun _ hq => .inl hq⟩
  | succ n ih =>
      rw [saturate]
      refine (heval frontier run hv (.refl run) hwithin).attempt.bind ?_
      intro found run₁ hv₁ hg₁ hfound
      cases found with
      | error f => exact .pure hv₁ ⟨fun _ hq => hq, fun _ hq => .inl hq⟩
      | ok output =>
          have hleads := hfound output rfl
          dsimp only
          split
          · exact .pure hv₁ ⟨fun _ hq => hq, fun _ hq => .inl hq⟩
          · have hfresh : ∀ q ∈ output \ result, ∃ p ∈ frontier, run₁.Leads s body p q :=
              fun q hq => hleads q (Std.ExtTreeSet.mem_diff_iff.mp hq).1
            have hwithin₁ : ∀ q ∈ output \ result, run₁.Within c q := by
              intro q hq
              obtain ⟨p, hp, hl⟩ := hfresh q hq
              exact hv₁.leads_within hl (hg₁.within (hwithin p hp))
            refine (ih (output \ result) (result ∪ (output \ result)) run₁ hv₁ hwithin₁
              fun input run' hv' hg' => heval input run' hv' (hg₁.trans hg')).mono ?_
            intro out run₂ hv₂ hg₂ hpost
            obtain ⟨hsub, hout⟩ := hpost
            -- an iteration to the fresh paths, then what follows from there
            have hagain : ∀ m ∈ output \ result, ∀ q, run₂.Leads s (.repetition body) m q →
                ∃ p ∈ frontier, run₂.Leads s (.repetition body) p q := by
              intro m hm q hl
              obtain ⟨p, hp, hbody⟩ := hfresh m hm
              exact ⟨p, hp, .again (hg₂.leads hv₁ hv₂ hbody) hl⟩
            refine ⟨fun q hq => hsub q (Std.ExtTreeSet.mem_union_of_left hq), fun q hq => ?_⟩
            obtain hq | ⟨m, hm, hl⟩ := hout q hq
            · obtain hq | hq := Std.ExtTreeSet.mem_union_iff.mp hq
              · exact .inl hq
              · exact .inr (hagain q hq q .stop)
            · exact .inr (hagain m hm q hl)

theorem evaluateChoices_eq (s : Session) (resolve : Resolver) (choices : List Rule)
    (input : PathSet) : s.evaluateChoices resolve choices input =
      choices.map fun choice => s.evaluate resolve choice input := by
  induction choices with
  | nil => rfl
  | cons choice choices ih => simp [evaluateChoices, ih]

mutual

/-- A rule leads to every path it is evaluated to, and it is not evaluated to none. -/
theorem evaluate_sound {resolve : Resolver} (hres : s.SoundResolver c resolve) :
    ∀ (rule : Rule) (input : PathSet) (run : Run), run.Valid s c →
      (∀ p ∈ input, run.Within c p) →
      Search.Sound s c (s.evaluate resolve rule input) run fun out run' =>
        (input ≠ ∅ → out ≠ ∅) ∧ ∀ q ∈ out, ∃ p ∈ input, run'.Leads s rule p q
  | .terminal tag, input, run, hv, hwithin => by
      rw [evaluate]
      refine (terminal_spec tag input hv hwithin).mono ?_
      intro result run' hpost
      obtain ⟨hv', honly, -, hout⟩ := hpost
      refine ⟨hv', honly.grows, fun out hresult => ?_⟩
      cases hresult
      refine ⟨fun _ => hout.1, fun q hq => ?_⟩
      obtain ⟨p, hp, t, ht, htag, rfl⟩ := (hout.2 q).mp hq
      exact ⟨p, hp, .terminal ht htag⟩
  | .nonterminal rule, input, run, hv, hwithin => by
      rw [evaluate]
      refine (unite_sound input (resolve rule) (fun p run' q => run'.Known rule p q)
        (fun _ _ _ _ hv hv' hg hk => hg.known hv hv' hk) input.toList ∅ none run hv ?_).mono ?_
      · intro p hp run' hv' hg
        have hp' := hg.within (hwithin p (Std.ExtTreeSet.mem_toList.mp hp))
        exact (hres rule p run' hv' hp').mono fun _ _ _ _ hout => hout.2
      · intro out run' _ _ h
        obtain ⟨hne, hout⟩ := h
        refine ⟨fun _ => hne, fun q hq => ?_⟩
        obtain hq | ⟨p, hp, hk⟩ := hout q hq
        · exact absurd hq Std.ExtTreeSet.not_mem_empty
        · exact ⟨p, Std.ExtTreeSet.mem_toList.mp hp, .nonterminal hk⟩
  | .sequence items, input, run, hv, hwithin => by
      rw [evaluate]
      exact evaluateItems_sound hres items input run hv hwithin
  | .optional body, input, run, hv, hwithin => by
      rw [evaluate]
      refine (evaluate_sound hres body input run hv hwithin).attempt.bind ?_
      intro found run' hv' _ hout
      cases found with
      | error f => exact .pure hv' ⟨id, fun q hq => ⟨q, hq, .skip⟩⟩
      | ok output =>
          refine .pure hv' ⟨fun hne => ?_, fun q hq => ?_⟩
          · obtain ⟨p, hp⟩ := SortedSet.ne_empty_iff.mp hne
            exact SortedSet.ne_empty_iff.mpr ⟨p, Std.ExtTreeSet.mem_union_of_left hp⟩
          · obtain hq | hq := Std.ExtTreeSet.mem_union_iff.mp hq
            · exact ⟨q, hq, .skip⟩
            · obtain ⟨p, hp, hl⟩ := (hout output rfl).2 q hq
              exact ⟨p, hp, .take hl⟩
  | .repetition body, input, run, hv, hwithin => by
      rw [evaluate]
      refine ensures_bind.mpr (ensures_get.mpr ?_)
      refine (saturate_sound body (s.evaluate resolve body) _ input input run hv hwithin ?_).mono ?_
      · intro input' run' hv' _ hwithin'
        exact (evaluate_sound hres body input' run' hv' hwithin').mono fun _ _ _ _ hout => hout.2
      · intro out run' _ _ h
        obtain ⟨hsub, hout⟩ := h
        refine ⟨fun hne => ?_, fun q hq => ?_⟩
        · obtain ⟨p, hp⟩ := SortedSet.ne_empty_iff.mp hne
          exact SortedSet.ne_empty_iff.mpr ⟨p, hsub p hp⟩
        · obtain hq | hl := hout q hq
          · exact ⟨q, hq, .stop⟩
          · exact hl
  | .alternation choices, input, run, hv, hwithin => by
      rw [evaluate, evaluateChoices_eq]
      refine (unite_sound input (fun choice => s.evaluate resolve choice input)
        (fun choice run' q => ∃ p ∈ input, run'.Leads s choice p q) ?_ choices ∅ none run hv
        (evaluateChoices_sound hres choices input run hwithin)).mono ?_
      · intro choice q run₁ run₂ hv₁ hv₂ hg hpost
        obtain ⟨p, hp, hl⟩ := hpost
        exact ⟨p, hp, hg.leads hv₁ hv₂ hl⟩
      · intro out run' _ _ h
        obtain ⟨hne, hout⟩ := h
        refine ⟨fun _ => hne, fun q hq => ?_⟩
        obtain hq | ⟨choice, hc, p, hp, hl⟩ := hout q hq
        · exact absurd hq Std.ExtTreeSet.not_mem_empty
        · exact ⟨p, hp, .choice hc hl⟩
  | .switch feature body, input, run, hv, hwithin => by
      rw [evaluate]
      split
      · next hf =>
          refine (evaluate_sound hres body input run hv hwithin).mono ?_
          intro out run' _ _ h
          obtain ⟨hne, hout⟩ := h
          refine ⟨hne, fun q hq => ?_⟩
          obtain ⟨p, hp, hl⟩ := hout q hq
          exact ⟨p, hp, .enabled hf hl⟩
      · next hf => exact .pure hv ⟨id, fun q hq => ⟨q, hq, .disabled (by simpa using hf)⟩⟩

theorem evaluateItems_sound {resolve : Resolver} (hres : s.SoundResolver c resolve) :
    ∀ (items : List Rule) (input : PathSet) (run : Run), run.Valid s c →
      (∀ p ∈ input, run.Within c p) →
      Search.Sound s c (s.evaluateItems resolve items input) run fun out run' =>
        (input ≠ ∅ → out ≠ ∅) ∧ ∀ q ∈ out, ∃ p ∈ input, run'.Leads s (.sequence items) p q
  | [], input, run, hv, _ => by
      rw [evaluateItems]
      exact .pure hv ⟨id, fun q hq => ⟨q, hq, .nil⟩⟩
  | item :: items, input, run, hv, hwithin => by
      rw [evaluateItems]
      refine (evaluate_sound hres item input run hv hwithin).bind ?_
      intro paths run₁ hv₁ hg₁ hpost
      obtain ⟨hne, hpaths⟩ := hpost
      have hwithin₁ : ∀ m ∈ paths, run₁.Within c m := by
        intro m hm
        obtain ⟨p, hp, hl⟩ := hpaths m hm
        exact hv₁.leads_within hl (hg₁.within (hwithin p hp))
      refine (evaluateItems_sound hres items paths run₁ hv₁ hwithin₁).mono ?_
      intro out run₂ hv₂ hg₂ hpost
      obtain ⟨hne', hout⟩ := hpost
      refine ⟨hne' ∘ hne, fun q hq => ?_⟩
      obtain ⟨m, hm, hl'⟩ := hout q hq
      obtain ⟨p, hp, hl⟩ := hpaths m hm
      exact ⟨p, hp, .cons (hg₂.leads hv₁ hv₂ hl) hl'⟩

theorem evaluateChoices_sound {resolve : Resolver} (hres : s.SoundResolver c resolve) :
    ∀ (choices : List Rule) (input : PathSet) (run : Run), (∀ p ∈ input, run.Within c p) →
      ∀ choice ∈ choices, ∀ run', run'.Valid s c → run.Grows run' →
        Search.Sound s c (s.evaluate resolve choice input) run' fun out run'' =>
          ∀ q ∈ out, ∃ p ∈ input, run''.Leads s choice p q
  | [], _, _, _, _, hx, _, _, _ => absurd hx List.not_mem_nil
  | choice :: choices, input, run, hwithin, x, hx, run', hv', hg => by
      by_cases h : x = choice
      · rw [h]
        exact (evaluate_sound hres choice input run' hv' fun p hp => hg.within (hwithin p hp)).mono
          fun _ _ _ _ hout => hout.2
      · have hx' : x ∈ choices := (List.mem_cons.mp hx).resolve_left h
        exact evaluateChoices_sound hres choices input run hwithin x hx' run' hv' hg

end

end Session
end Multipath
