import Multipath.Proofs.Agreement
import Multipath.Proofs.Questions
import Multipath.Proofs.Relocation

/-!
Two sessions side by side. The second one evaluates the same rules on the same paths, all of them
moved to where they are in its text. A correspondence says which runs of the two belong together,
where the first one may go, and which of its questions the second one answers alike. Every rule
that asks nothing else is then evaluated alike (`Correspondence.evaluate_alike`), and the paths
found are those that the rule leads to by the answers. What a single evaluation keeps is the case
in which the two sessions are one (`Upkeep.evaluate`).
-/

namespace Multipath

open Search (attempt noPath readToken)

/-- The second paths are the first ones moved, and these are of some kind. -/
def Moved (σ : Relocation) (fits : PathSet → Prop) (paths paths' : PathSet) : Prop :=
  paths' = paths.relocate σ ∧ fits paths

/-- Both grammars decide the switches of a rule alike. -/
def SwitchedAlike (g g' : Grammar) (rule : Rule) : Prop :=
  ∀ feature body, .switch feature body ∈ rule.parts → g.isEnabled feature = g'.isEnabled feature

theorem Rule.mem_partsAll {part rule : Rule} {rules : List Rule} (h : rule ∈ rules)
    (hpart : part ∈ rule.parts) : part ∈ partsAll rules :=
  mem_partsAll_iff.mpr ⟨rule, h, hpart⟩

section SwitchedAlike
variable {g g' : Grammar} {rule body : Rule} {rules : List Rule} {feature : String}

theorem SwitchedAlike.of_sequence (h : SwitchedAlike g g' (.sequence rules)) (hr : rule ∈ rules) :
    SwitchedAlike g g' rule :=
  fun f b hb => h f b (by simpa [Rule.parts] using Rule.mem_partsAll hr hb)

theorem SwitchedAlike.of_alternation (h : SwitchedAlike g g' (.alternation rules))
    (hr : rule ∈ rules) : SwitchedAlike g g' rule :=
  fun f b hb => h f b (by simpa [Rule.parts] using Rule.mem_partsAll hr hb)

theorem SwitchedAlike.of_optional (h : SwitchedAlike g g' (.optional body)) :
    SwitchedAlike g g' body :=
  fun f b hb => h f b (by simpa [Rule.parts] using hb)

theorem SwitchedAlike.of_repetition (h : SwitchedAlike g g' (.repetition body)) :
    SwitchedAlike g g' body :=
  fun f b hb => h f b (by simpa [Rule.parts] using hb)

theorem SwitchedAlike.of_switch (h : SwitchedAlike g g' (.switch feature body)) :
    g.isEnabled feature = g'.isEnabled feature ∧ SwitchedAlike g g' body :=
  ⟨h feature body (by simp [Rule.parts]), fun f b hb => h f b (by simp [Rule.parts, hb])⟩

theorem SwitchedAlike.refl (g : Grammar) (rule : Rule) : SwitchedAlike g g rule :=
  fun _ _ _ => rfl

end SwitchedAlike

/-- Going on with what is known of the first computation besides. -/
theorem Agrees.bind_with {σ α β α' β' : Type} {c : Comparison σ} {st st' : σ}
    {values : α → β → Prop} {values' : α' → β' → Prop} {known : α → σ → Prop}
    {x : ExceptT Failure (StateM σ) α} {y : ExceptT Failure (StateM σ) β}
    {f : α → ExceptT Failure (StateM σ) α'} {g : β → ExceptT Failure (StateM σ) β'}
    (h : Agrees c values x y st st')
    (hx : Ensures x st fun result after => ∀ a, result = .ok a → known a after)
    (hfg : ∀ a b after after', c.states after after' → values a b → known a after →
      Agrees c values' (f a) (g b) after after') :
    Agrees c values' (x >>= f) (y >>= g) st st' := by
  refine ensures_bind.mpr (Ensures.mono h ?_)
  intro result' after' halike
  cases result' with
  | error e =>
      intro hheeds
      refine ensures_bind.mpr ((halike (c.heeds_error (hheeds e rfl))).mono ?_)
      intro result after hpost
      obtain ⟨hstates, halike⟩ := hpost
      cases halike with
      | error hfg => exact ⟨hstates, .error hfg⟩
  | ok b =>
      rcases hrun : x.run.run st with ⟨result, after⟩
      obtain ⟨hstates, halike⟩ := (halike (c.heeds_ok b)).of_run hrun
      cases halike with
      | @ok a _ hab =>
          have hknown := hx.of_run hrun a rfl
          refine Ensures.mono (hfg a b after after' hstates hab hknown) fun _ _ hlast hheeds => ?_
          exact ensures_bind.mpr (Ensures.of_eq hrun (hlast hheeds))

/-- Going on behind what only the second one does. -/
theorem Agrees.aside {σ α β γ : Type} {c : Comparison σ} {st st' : σ} {values : α → β → Prop}
    {x : ExceptT Failure (StateM σ) α} {y : ExceptT Failure (StateM σ) γ}
    {f : γ → ExceptT Failure (StateM σ) β} {a : γ}
    (hy : Ensures y st' fun result after' => c.states st after' ∧ result = .ok a)
    (hf : ∀ after', c.states st after' → Agrees c values x (f a) st after') :
    Agrees c values x (y >>= f) st st' := by
  refine ensures_bind.mpr (hy.mono fun result after' hpost => ?_)
  obtain ⟨hstates, rfl⟩ := hpost
  exact hf after' hstates

theorem Agrees.get {σ α β : Type} {c : Comparison σ} {st st' : σ} {values : α → β → Prop}
    {f : σ → ExceptT Failure (StateM σ) α} {g : σ → ExceptT Failure (StateM σ) β}
    (h : Agrees c values (f st) (g st') st st') :
    Agrees c values (MonadState.get >>= f) (MonadState.get >>= g) st st' :=
  ensures_bind.mpr (ensures_get.mpr (Ensures.mono h fun _ _ hx hheeds =>
    ensures_bind.mpr (ensures_get.mpr (hx hheeds))))

/-- Two folds whose steps go alike. -/
theorem Agrees.foldlM {σ α β ι κ : Type} {c : Comparison σ} {st st' : σ} {values : α → β → Prop}
    {f : α → ι → ExceptT Failure (StateM σ) α} {g : β → κ → ExceptT Failure (StateM σ) β}
    (φ : ι → κ) (is : List ι)
    (hfg : ∀ i ∈ is, ∀ a b st st', c.states st st' → values a b →
      Agrees c values (f a i) (g b (φ i)) st st')
    {a : α} {b : β} (hab : values a b) (hstates : c.states st st') :
    Agrees c values (is.foldlM f a) ((is.map φ).foldlM g b) st st' := by
  induction is generalizing a b st st' with
  | nil => exact .pure hstates hab
  | cons i is ih =>
      rw [List.map_cons, List.foldlM_cons, List.foldlM_cons]
      exact (hfg i (by simp) a b st st' hstates hab).bind fun _ _ _ _ hstates hab =>
        ih (fun j hj => hfg j (by simp [hj])) hab hstates

section Diagonal
variable {σ α : Type} {c : Comparison σ} {st : σ} {x : ExceptT Failure (StateM σ) α}
  {values : α → α → Prop}

/-- What a computation that ends like itself ends in. -/
theorem Agrees.diagonal (hcounts : ∀ f, c.counts f) (h : Agrees c values x x st st) :
    Ensures x st fun result after =>
      c.states after after ∧ Alike c.failures values result result :=
  Ensures.of_run h rfl fun f _ => hcounts f

theorem Agrees.of_ensures (h : Ensures x st fun result after =>
    c.states after after ∧ Alike c.failures values result result) : Agrees c values x x st st := by
  rcases hrun : x.run.run st with ⟨result, after⟩
  exact Ensures.of_eq hrun fun _ => Ensures.of_eq hrun (h.of_run hrun)

end Diagonal

/-- Runs of two sessions that belong together, the paths of the first being moved in the second. -/
structure Correspondence (s s' : Session) (resolve resolve' : Resolver) extends Comparison Run where
  σ : Relocation
  /-- The first session stays at these. -/
  place : Position → Prop
  reads : Position → Token → Prop
  refers : RuleId → Position → Position → Prop
  /-- The questions that the sessions answer alike. -/
  asked : Question → Prop
  reason : ∀ {run run' : Run} (p : Position), states run run' →
    failures (.noPath (run.frames.head?.map (·.rule)) p)
      (.noPath (run'.frames.head?.map (·.rule)) (σ.move p))
  note : ∀ {run run' : Run} (p : Position), states run run' →
    states (run.noteFailure p) (run'.noteFailure (σ.move p))
  read : ∀ {run run' : Run} {p : Position}, asked (.token p) → place p → states run run' →
    Agrees toComparison (fun result result' => result' = relocateRead σ result ∧
        ∀ t, result = .ok t → reads p t ∧ place t.span.stop)
      (readToken s.source p) (readToken s'.source (σ.move p)) run run'
  answer : ∀ {run run' : Run} {rule : RuleId} {p : Position}, asked (.reference rule p) → place p →
    states run run' →
    Agrees toComparison (Moved σ fun out => ∀ q ∈ out, place q ∧ refers rule p q)
      (resolve rule p) (resolve' rule (σ.move p)) run run'
  rounds : ∀ {run run' : Run} {input : PathSet}, input ≠ ∅ → (∀ p ∈ input, place p) →
    states run run' → Rounds (fun paths => ∀ p ∈ paths, place p) input (s.pathBound run)
      (s'.pathBound run')

namespace Correspondence

variable {s s' : Session} {resolve resolve' : Resolver} (c : Correspondence s s' resolve resolve')
  {run run' : Run} {rule : Rule} {input : PathSet}

/-- Where a rule leads by the answers of the first session. -/
abbrev Leads : Rule → Position → Position → Prop := s.grammar.Leads c.reads c.refers

/-- All that a rule asks from a position may be asked. -/
def Admits (rule : Rule) (p : Position) : Prop :=
  ∀ x, s.grammar.Asks c.reads c.refers rule p x → c.asked x

/-- Some paths, to which a rule leads from others. -/
def Found (rule : Rule) (input out : PathSet) : Prop :=
  out ≠ ∅ ∧ ∀ q ∈ out, c.place q ∧ ∃ p ∈ input, c.Leads rule p q

variable {c}

theorem noPath_alike (hinput : input ≠ ∅) (hstates : c.states run run') {α β : Type}
    {values : α → β → Prop} : Agrees c.toComparison values (noPath input)
      (noPath (input.relocate c.σ)) run run' := by
  refine Search.ensures_noPath.mpr fun _ => Search.ensures_noPath.mpr ⟨hstates, .error ?_⟩
  rw [PathSet.min?_getD_relocate hinput .start]
  exact c.reason _ hstates

section Terminal
variable {tag : TagId} {p : Position} {output : PathSet} {expected : Position → Prop}

theorem advance_alike (hasked : c.asked (.token p)) (hp : c.place p)
    (hstop : ∀ t, c.reads p t → t.hasTag tag = true → c.place t.span.stop → expected t.span.stop)
    (houtput : ∀ q ∈ output, expected q) (hstates : c.states run run') :
    Agrees c.toComparison (Moved c.σ fun out => ∀ q ∈ out, expected q) (s.advance tag output p)
      (s'.advance tag (output.relocate c.σ) (c.σ.move p)) run run' := by
  have hnote (q : Position) (after after' : Run) (hstates : c.states after after') :
      Agrees c.toComparison (Moved c.σ fun out => ∀ q ∈ out, expected q)
        (do modify (·.noteFailure q); pure output)
        (do modify (·.noteFailure (c.σ.move q)); pure (output.relocate c.σ)) after after' :=
    ensures_bind.mpr (ensures_modify.mpr (ensures_pure.mpr fun _ => ensures_bind.mpr
      (ensures_modify.mpr (ensures_pure.mpr ⟨c.note q hstates, .ok ⟨rfl, houtput⟩⟩))))
  apply (c.read hasked hp hstates).bind
  intro result _ after after' hstates hresult
  obtain ⟨rfl, hread⟩ := hresult
  cases result with
  | error e =>
      simp only [relocateRead, LexicalError.position_relocate]
      exact hnote e.position after after' hstates
  | ok t =>
      obtain ⟨ht, hplace⟩ := hread t rfl
      have htag : (t.relocate c.σ).hasTag tag = t.hasTag tag := rfl
      simp only [relocateRead, htag]
      split
      · next hhas =>
          refine .pure hstates ⟨PathSet.relocate_insert.symm, fun q hq => ?_⟩
          obtain rfl | hq := SortedSet.mem_insert.mp hq
          · exact hstop t ht hhas hplace
          · exact houtput q hq
      · exact hnote t.span.start after after' hstates

theorem terminal_alike (tag : TagId) (hinput : input ≠ ∅) (hplace : ∀ p ∈ input, c.place p)
    (hadmits : ∀ p ∈ input, c.Admits (.terminal tag) p) (hstates : c.states run run') :
    Agrees c.toComparison (Moved c.σ (c.Found (.terminal tag) input)) (s.terminal tag input)
      (s'.terminal tag (input.relocate c.σ)) run run' := by
  let expected (q : Position) : Prop := c.place q ∧ ∃ p ∈ input, c.Leads (.terminal tag) p q
  have hstep (p : Position) (hp : p ∈ input.toList) (output output' : PathSet) (run run' : Run)
      (hstates : c.states run run') (hmoved : Moved c.σ (fun out => ∀ q ∈ out, expected q) output
        output') :
      Agrees c.toComparison (Moved c.σ fun out => ∀ q ∈ out, expected q) (s.advance tag output p)
        (s'.advance tag output' (c.σ.move p)) run run' := by
    obtain ⟨rfl, houtput⟩ := hmoved
    have hp := Std.ExtTreeSet.mem_toList.mp hp
    exact advance_alike (hadmits p hp _ .terminal) (hplace p hp)
      (fun t ht htag hstop => ⟨hstop, p, hp, .terminal ht htag⟩) houtput hstates
  have hall := Agrees.foldlM c.σ.move input.toList hstep (a := ∅)
    ⟨PathSet.relocate_empty.symm, by simp⟩ hstates
  rw [← PathSet.toList_relocate] at hall
  apply hall.bind
  intro out _ after after' hstates hmoved
  obtain ⟨rfl, hout⟩ := hmoved
  rw [PathSet.isEmpty_relocate]
  split
  · exact noPath_alike hinput hstates
  · next hne => exact .pure hstates ⟨rfl, fun heq => hne (by simp [heq]), hout⟩

end Terminal

theorem unite_alike {ι : Type} (expected : Position → Prop) (hinput : input ≠ ∅)
    (f g : ι → Search PathSet) (is : List ι)
    (hfg : ∀ i ∈ is, ∀ run run', c.states run run' →
      Agrees c.toComparison (Moved c.σ fun out => ∀ q ∈ out, expected q) (f i) (g i) run run')
    (output : PathSet) (houtput : ∀ q ∈ output, expected q) (cause cause' : Option Failure)
    (hcause : Option.Rel c.failures cause cause') (run run' : Run) (hstates : c.states run run') :
    Agrees c.toComparison (Moved c.σ fun out => out ≠ ∅ ∧ ∀ q ∈ out, expected q)
      (Session.unite input (is.map f) output cause)
      (Session.unite (input.relocate c.σ) (is.map g) (output.relocate c.σ) cause') run run' := by
  induction is generalizing output cause cause' run run' with
  | nil =>
      simp only [List.map_nil, Session.unite, PathSet.isEmpty_relocate]
      split
      · cases hcause with
        | none => exact noPath_alike hinput hstates
        | some hfg => exact .throw hstates hfg
      · next hne => exact .pure hstates ⟨rfl, fun heq => hne (by simp [heq]), houtput⟩
  | cons i is ih =>
      have ih := ih fun j hj => hfg j (by simp [hj])
      simp only [List.map_cons, Session.unite]
      apply (hfg i (by simp) run run' hstates).attempt.bind
      intro result result' after after' hstates hresult
      cases hresult with
      | @ok paths _ hmoved =>
          obtain ⟨rfl, hpaths⟩ := hmoved
          dsimp only
          rw [← PathSet.relocate_union]
          refine ih _ (fun q hq => ?_) cause cause' hcause after after' hstates
          exact (Std.ExtTreeSet.mem_union_iff.mp hq).elim (houtput q) (hpaths q)
      | error hfg => exact ih output houtput _ _ (.some hfg.1) after after' hstates

/-- Repeating a body that keeps paths of some kind keeps them. -/
theorem saturate_alike (expected : Position → Prop) (hexpected : ∀ q, expected q → c.place q)
    (body body' : PathSet → Search PathSet)
    (hbody : ∀ paths, paths ≠ ∅ → (∀ q ∈ paths, expected q) → ∀ run run', c.states run run' →
      Agrees c.toComparison (Moved c.σ fun out => out ≠ ∅ ∧ ∀ q ∈ out, expected q) (body paths)
        (body' (paths.relocate c.σ)) run run')
    (n m : Nat) (frontier result : PathSet) (hne : frontier ≠ ∅)
    (hfrontier : ∀ q ∈ frontier, expected q) (hresult : result ≠ ∅ ∧ ∀ q ∈ result, expected q)
    (hrounds : Rounds (fun paths => ∀ q ∈ paths, c.place q) result n m) (run run' : Run)
    (hstates : c.states run run') :
    Agrees c.toComparison (Moved c.σ fun out => out ≠ ∅ ∧ ∀ q ∈ out, expected q)
      (Session.saturate body n frontier result)
      (Session.saturate body' m (frontier.relocate c.σ) (result.relocate c.σ)) run run' := by
  have hplace (paths : PathSet) (hpaths : ∀ q ∈ paths, expected q) : ∀ q ∈ paths, c.place q :=
    fun q hq => hexpected q (hpaths q hq)
  induction n generalizing m frontier result run run' with
  | zero =>
      obtain rfl | ⟨most, hmost, hn, -⟩ := hrounds
      · exact .pure hstates ⟨rfl, hresult⟩
      · have := hmost result (hplace result hresult.2)
        omega
  | succ n ih =>
      cases m with
      | zero =>
          obtain hnm | ⟨most, hmost, -, hm⟩ := hrounds
          · cases hnm
          · have := hmost result (hplace result hresult.2)
            omega
      | succ m =>
          rw [Session.saturate, Session.saturate]
          apply (hbody frontier hne hfrontier run run' hstates).attempt.bind
          intro found found' after after' hstates hfound
          cases hfound with
          | error _ => exact .pure hstates ⟨rfl, hresult⟩
          | @ok output _ hmoved =>
              obtain ⟨rfl, -, houtput⟩ := hmoved
              dsimp only
              rw [← PathSet.relocate_diff, PathSet.isEmpty_relocate]
              split
              · exact .pure hstates ⟨rfl, hresult⟩
              · next hfresh =>
                  have hgain := SortedSet.size_lt_size_union_diff hfresh
                  have hnew : ∀ q ∈ output \ result, expected q := fun q hq =>
                    houtput q (Std.ExtTreeSet.mem_diff_iff.mp hq).1
                  rw [← PathSet.relocate_union]
                  refine ih m _ _ (fun heq => hfresh (by simp [heq])) hnew ⟨?_, fun q hq => ?_⟩ ?_
                    after after' hstates
                  · obtain ⟨q, hq⟩ := SortedSet.ne_empty_iff.mp hresult.1
                    exact SortedSet.ne_empty_iff.mpr ⟨q, Std.ExtTreeSet.mem_union_of_left hq⟩
                  · exact (Std.ExtTreeSet.mem_union_iff.mp hq).elim (hresult.2 q) (hnew q)
                  · obtain hnm | ⟨most, hmost, hn, hm⟩ := hrounds
                    · exact .inl (Nat.succ.inj hnm)
                    · exact .inr ⟨most, hmost, by omega, by omega⟩

mutual

/-- A rule that asks only what may be asked is evaluated alike. -/
theorem evaluate_alike : ∀ (rule : Rule) (input : PathSet) (run run' : Run),
    SwitchedAlike s.grammar s'.grammar rule → input ≠ ∅ → (∀ p ∈ input, c.place p) →
      (∀ p ∈ input, c.Admits rule p) → c.states run run' →
      Agrees c.toComparison (Moved c.σ (c.Found rule input)) (s.evaluate resolve rule input)
        (s'.evaluate resolve' rule (input.relocate c.σ)) run run'
  | .terminal tag, input, run, run', _, hne, hplace, hadmits, hstates => by
      rw [Session.evaluate, Session.evaluate]
      exact terminal_alike tag hne hplace hadmits hstates
  | .nonterminal rule, input, run, run', _, hne, hplace, hadmits, hstates => by
      rw [Session.evaluate, Session.evaluate, PathSet.toList_relocate, List.map_map]
      have h := unite_alike (c := c)
        (fun q => c.place q ∧ ∃ p ∈ input, c.Leads (.nonterminal rule) p q) hne
        (resolve rule) (resolve' rule ∘ c.σ.move) input.toList ?_ ∅ (by simp) none none .none run
        run' hstates
      · rwa [PathSet.relocate_empty] at h
      · intro p hp run run' hstates
        have hp := Std.ExtTreeSet.mem_toList.mp hp
        refine (c.answer (hadmits p hp _ .nonterminal) (hplace p hp) hstates).mono ?_
        exact fun _ _ hmoved => ⟨hmoved.1, fun q hq =>
          ⟨(hmoved.2 q hq).1, p, hp, .nonterminal (hmoved.2 q hq).2⟩⟩
  | .sequence items, input, run, run', hswitched, hne, hplace, hadmits, hstates => by
      rw [Session.evaluate, Session.evaluate]
      exact evaluateItems_alike items input run run' (fun _ => hswitched.of_sequence) hne hplace
        hadmits hstates
  | .optional body, input, run, run', hswitched, hne, hplace, hadmits, hstates => by
      rw [Session.evaluate, Session.evaluate]
      have hskip : c.Found (.optional body) input input :=
        ⟨hne, fun q hq => ⟨hplace q hq, q, hq, .skip⟩⟩
      apply (evaluate_alike body input run run' hswitched.of_optional hne hplace
        (fun p hp _ hx => hadmits p hp _ (.optional hx)) hstates).attempt.bind
      intro found found' after after' hstates hfound
      cases hfound with
      | error _ => exact .pure hstates ⟨rfl, hskip⟩
      | @ok output _ hmoved =>
          obtain ⟨rfl, -, houtput⟩ := hmoved
          refine .pure hstates ⟨PathSet.relocate_union.symm, ?_, fun q hq => ?_⟩
          · obtain ⟨p, hp⟩ := SortedSet.ne_empty_iff.mp hne
            exact SortedSet.ne_empty_iff.mpr ⟨p, Std.ExtTreeSet.mem_union_of_left hp⟩
          · obtain hq | hq := Std.ExtTreeSet.mem_union_iff.mp hq
            · exact hskip.2 q hq
            · obtain ⟨hplace, p, hp, hleads⟩ := houtput q hq
              exact ⟨hplace, p, hp, .take hleads⟩
  | .repetition body, input, run, run', hswitched, hne, hplace, hadmits, hstates => by
      rw [Session.evaluate, Session.evaluate]
      refine saturate_alike (c := c)
        (fun q => c.place q ∧ ∃ p ∈ input, c.Leads (.repetition body) p q)
        (fun _ => And.left) (s.evaluate resolve body) (s'.evaluate resolve' body) ?_ _ _ input
        input hne ?_ ⟨hne, ?_⟩ (c.rounds hne hplace hstates) run run' hstates
      · intro paths hpaths hleads run run' hstates
        refine (evaluate_alike body paths run run' hswitched.of_repetition hpaths
          (fun q hq => (hleads q hq).1) ?_ hstates).mono ?_
        · intro q hq x hx
          obtain ⟨-, p, hp, hl⟩ := hleads q hq
          exact hadmits p hp x (.iteration hl hx)
        · intro out _ hmoved
          refine ⟨hmoved.1, hmoved.2.1, fun q hq => ?_⟩
          obtain ⟨hplace, m, hm, hbody⟩ := hmoved.2.2 q hq
          obtain ⟨-, p, hp, hl⟩ := hleads m hm
          exact ⟨hplace, p, hp, hl.repetition_trans (.again hbody .stop)⟩
      all_goals exact fun q hq => ⟨hplace q hq, q, hq, .stop⟩
  | .alternation choices, input, run, run', hswitched, hne, hplace, hadmits, hstates => by
      rw [Session.evaluate, Session.evaluate, Session.evaluateChoices_eq,
        Session.evaluateChoices_eq]
      have h := unite_alike (c := c)
        (fun q => c.place q ∧ ∃ p ∈ input, c.Leads (.alternation choices) p q) hne
        (s.evaluate resolve · input) (s'.evaluate resolve' · (input.relocate c.σ)) choices ?_ ∅
        (by simp) none none .none run run' hstates
      · rwa [PathSet.relocate_empty] at h
      · intro choice hchoice run run' hstates
        refine (evaluateChoices_alike choices input (fun _ => hswitched.of_alternation) hne hplace
          choice hchoice (fun p hp _ hx => hadmits p hp _ (.choice hchoice hx)) run run'
          hstates).mono fun _ _ hmoved => ⟨hmoved.1, fun q hq => ?_⟩
        obtain ⟨hplace, p, hp, hl⟩ := hmoved.2.2 q hq
        exact ⟨hplace, p, hp, .choice hchoice hl⟩
  | .switch feature body, input, run, run', hswitched, hne, hplace, hadmits, hstates => by
      obtain ⟨henabled, hbody⟩ := hswitched.of_switch
      rw [Session.evaluate, Session.evaluate, ← henabled]
      split
      · next hf =>
          refine (evaluate_alike body input run run' hbody hne hplace
            (fun p hp _ hx => hadmits p hp _ (.enabled hf hx)) hstates).mono fun _ _ hmoved =>
              ⟨hmoved.1, hmoved.2.1, fun q hq => ?_⟩
          obtain ⟨hplace, p, hp, hl⟩ := hmoved.2.2 q hq
          exact ⟨hplace, p, hp, .enabled hf hl⟩
      · next hf =>
          exact .pure hstates
            ⟨rfl, hne, fun q hq => ⟨hplace q hq, q, hq, .disabled (by simpa using hf)⟩⟩

theorem evaluateItems_alike : ∀ (items : List Rule) (input : PathSet) (run run' : Run),
    (∀ item ∈ items, SwitchedAlike s.grammar s'.grammar item) → input ≠ ∅ →
      (∀ p ∈ input, c.place p) → (∀ p ∈ input, c.Admits (.sequence items) p) →
      c.states run run' →
      Agrees c.toComparison (Moved c.σ (c.Found (.sequence items) input))
        (s.evaluateItems resolve items input)
        (s'.evaluateItems resolve' items (input.relocate c.σ)) run run'
  | [], input, run, run', _, hne, hplace, _, hstates => by
      rw [Session.evaluateItems, Session.evaluateItems]
      exact .pure hstates ⟨rfl, hne, fun q hq => ⟨hplace q hq, q, hq, .nil⟩⟩
  | item :: items, input, run, run', hswitched, hne, hplace, hadmits, hstates => by
      rw [Session.evaluateItems, Session.evaluateItems]
      apply (evaluate_alike item input run run' (hswitched item (by simp)) hne hplace
        (fun p hp _ hx => hadmits p hp _ (.head hx)) hstates).bind
      intro paths _ after after' hstates hmoved
      obtain ⟨rfl, hpaths, hleads⟩ := hmoved
      refine (evaluateItems_alike items paths after after'
        (fun i hi => hswitched i (by simp [hi])) hpaths (fun q hq => (hleads q hq).1) ?_
        hstates).mono ?_
      · intro m hm x hx
        obtain ⟨-, p, hp, hl⟩ := hleads m hm
        exact hadmits p hp x (.rest hl hx)
      · intro out _ hmoved
        refine ⟨hmoved.1, hmoved.2.1, fun q hq => ?_⟩
        obtain ⟨hplace, m, hm, hls⟩ := hmoved.2.2 q hq
        obtain ⟨-, p, hp, hl⟩ := hleads m hm
        exact ⟨hplace, p, hp, .cons hl hls⟩

theorem evaluateChoices_alike : ∀ (choices : List Rule) (input : PathSet),
    (∀ choice ∈ choices, SwitchedAlike s.grammar s'.grammar choice) → input ≠ ∅ →
      (∀ p ∈ input, c.place p) → ∀ choice ∈ choices, (∀ p ∈ input, c.Admits choice p) →
      ∀ run run', c.states run run' →
      Agrees c.toComparison (Moved c.σ (c.Found choice input)) (s.evaluate resolve choice input)
        (s'.evaluate resolve' choice (input.relocate c.σ)) run run'
  | [], _, _, _, _, _, hx, _, _, _, _ => absurd hx List.not_mem_nil
  | choice :: choices, input, hswitched, hne, hplace, x, hx, hadmits, run, run', hstates => by
      by_cases h : x = choice
      · rw [h] at hadmits ⊢
        exact evaluate_alike choice input run run' (hswitched choice (by simp)) hne hplace hadmits
          hstates
      · exact evaluateChoices_alike choices input (fun i hi => hswitched i (by simp [hi])) hne
          hplace x ((List.mem_cons.mp hx).resolve_left h) hadmits run run' hstates

end

end Correspondence

section Upkeep
variable {s : Session} {resolve : Resolver} {run : Run}

/-- What a session keeps of its run while it evaluates, and where it goes. -/
structure Upkeep (s : Session) (resolve : Resolver) where
  inv : Run → Prop
  place : Position → Prop
  reads : Position → Token → Prop
  refers : RuleId → Position → Position → Prop
  asked : Question → Prop
  note : ∀ {run : Run} (p : Position), inv run → inv (run.noteFailure p)
  read : ∀ {run : Run} {p : Position}, asked (.token p) → place p → inv run →
    Ensures (readToken s.source p) run fun result run' => inv run' ∧
      ∀ t, result = .ok (.ok t) → reads p t ∧ place t.span.stop
  answer : ∀ {run : Run} {rule : RuleId} {p : Position}, asked (.reference rule p) → place p →
    inv run → Ensures (resolve rule p) run fun result run' => inv run' ∧
      ∀ out, result = .ok out → ∀ q ∈ out, place q ∧ refers rule p q

namespace Upkeep

/-- The session beside itself. -/
def diagonal (u : Upkeep s resolve) : Correspondence s s resolve resolve where
  states run run' := run = run' ∧ u.inv run
  failures := Eq
  counts _ := True
  absorbable_eq h := congrArg Failure.isAbsorbable h
  counts_of_absorbable _ := trivial
  σ := .refl
  place := u.place
  reads := u.reads
  refers := u.refers
  asked := u.asked
  reason p h := by
    obtain ⟨rfl, -⟩ := h
    rfl
  note p h := by
    obtain ⟨rfl, hinv⟩ := h
    exact ⟨rfl, u.note p hinv⟩
  read hasked hp h := by
    obtain ⟨rfl, hinv⟩ := h
    refine .of_ensures ((u.read hasked hp hinv).mono fun result run' hpost => ?_)
    obtain ⟨hinv', hread⟩ := hpost
    refine ⟨⟨rfl, hinv'⟩, ?_⟩
    cases result with
    | error f => exact .error rfl
    | ok r => exact .ok ⟨(relocateRead_refl r).symm, fun t ht => hread t (ht ▸ rfl)⟩
  answer hasked hp h := by
    obtain ⟨rfl, hinv⟩ := h
    refine .of_ensures ((u.answer hasked hp hinv).mono fun result run' hpost => ?_)
    obtain ⟨hinv', hout⟩ := hpost
    refine ⟨⟨rfl, hinv'⟩, ?_⟩
    cases result with
    | error f => exact .error rfl
    | ok out => exact .ok ⟨PathSet.relocate_refl.symm, hout out rfl⟩
  rounds _ _ h := .inl (by rw [h.1])

/-- A rule that asks only what may be asked is evaluated with the invariant kept, to paths that it
leads to. -/
theorem evaluate (u : Upkeep s resolve) (rule : Rule) {input : PathSet} (hne : input ≠ ∅)
    (hplace : ∀ p ∈ input, u.place p)
    (hadmits : ∀ p ∈ input, ∀ x, s.grammar.Asks u.reads u.refers rule p x → u.asked x)
    (hinv : u.inv run) : Ensures (s.evaluate resolve rule input) run fun result run' =>
      u.inv run' ∧ ∀ out, result = .ok out → out ≠ ∅ ∧
        ∀ q ∈ out, u.place q ∧ ∃ p ∈ input, s.grammar.Leads u.reads u.refers rule p q := by
  have h := Correspondence.evaluate_alike (c := u.diagonal) rule input run run
    (.refl s.grammar rule) hne hplace hadmits ⟨rfl, hinv⟩
  rw [show input.relocate u.diagonal.σ = input from PathSet.relocate_refl] at h
  refine (h.diagonal fun _ => trivial).mono fun result run' hpost => ?_
  obtain ⟨⟨-, hinv'⟩, halike⟩ := hpost
  refine ⟨hinv', ?_⟩
  rintro out rfl
  cases halike with
  | ok hmoved => exact hmoved.2

/-- A rule from one position. -/
theorem evaluateAt (u : Upkeep s resolve) (rule : Rule) {p : Position} (hplace : u.place p)
    (hadmits : ∀ x, s.grammar.Asks u.reads u.refers rule p x → u.asked x) (hinv : u.inv run) :
    Ensures (s.evaluate resolve rule {p}) run fun result run' =>
      u.inv run' ∧ ∀ out, result = .ok out → out ≠ ∅ ∧
        ∀ q ∈ out, u.place q ∧ s.grammar.Leads u.reads u.refers rule p q := by
  have hmem {q : Position} (hq : q ∈ ({p} : PathSet)) : q = p := SortedSet.mem_singleton.mp hq
  refine (u.evaluate rule (SortedSet.ne_empty_iff.mpr ⟨p, by simp⟩) (fun q hq => hmem hq ▸ hplace)
    (fun q hq => hmem hq ▸ hadmits) hinv).mono fun result run' hpost => ?_
  obtain ⟨hinv', hout⟩ := hpost
  refine ⟨hinv', fun out hresult => ?_⟩
  obtain ⟨hne, hleads⟩ := hout out hresult
  refine ⟨hne, fun q hq => ?_⟩
  obtain ⟨hplace, m, hm, hl⟩ := hleads q hq
  exact ⟨hplace, hmem hm ▸ hl⟩

end Upkeep
end Upkeep
end Multipath
