import Multipath.Proofs.Completeness
import Multipath.Proofs.Mirrors
import Multipath.Proofs.Questions

/-!
A run attends to every question. Once a rule has been evaluated, and was not cut off by the bound
on nesting, all questions it asks have answers that last, and the paths found are exactly those that
the answers lead to. Both are said of a later run that has everything found so far, so that nothing
need be carried along while findings are added. A reference that was refused counts as answered in
that run, where it has left its mark.
-/

namespace Multipath

open Search (attempt outcome outputOf)

namespace Run

variable {s : Session} {c : Scope s.source} {run run' : Run}

theorem Valid.everywhere (hv : run.Valid s c) : run.Valid s (.everywhere s.source) where
  readFrom i result h := by
    obtain ⟨p, -, hi, ht⟩ := hv.readFrom i result h
    exact ⟨p, trivial, hi, ht⟩
  asked _ _ _ _ := trivial
  within _ _ _ := .inl trivial
  settled := hv.settled
  recorded := hv.recorded
  backed := hv.backed

/-- The run bears the finding: it was not for the bound on nesting, and where the rule met itself
that left its mark. -/
def Bears (run : Run) : Finding → Prop
  | .inProgress => run.stats.leftRecursionHits ≠ 0
  | .succeeded _ => True
  | .failed f => f.isAbsorbable = true

/-- The question has an answer; a rule that is not there never matches, if there is depth left to
find that out. -/
def Answered (s : Session) (depth : Nat) (run : Run) : Question → Prop
  | .token p => ∃ result, run.lexer.cache[p.index]? = some result
  | .reference rule p => (∃ finding, run.memo.find? p rule = some finding ∧ run.Bears finding) ∨
      s.grammar.rule? rule = none ∧ 0 < depth

/-- What a rule asks by what a run has read and derived. -/
abbrev Asks (s : Session) (run : Run) : Rule → Position → Question → Prop :=
  s.grammar.Asks run.Reads run.Known

/-- A reference that was refused leaves its mark. -/
theorem Grows.hits_of_countLeftRecursion {last : Run} (hg : run.countLeftRecursion.Grows last) :
    last.stats.leftRecursionHits ≠ 0 :=
  Nat.ne_of_gt (Nat.lt_of_lt_of_le (Nat.succ_pos _) hg.hits)

theorem Valid.rule_of_succeeded (hv : run.Valid s c) {p : Position} {rule : RuleId} {id : NodeId}
    (hm : run.memo.find? p rule = some (.succeeded id)) : s.grammar.rule? rule ≠ none := by
  obtain ⟨out, hd, -⟩ := hv.settled p rule id hm
  obtain ⟨definition, hdef, -⟩ := hv.backed id rule p out hd
  rw [hdef]
  exact Option.some_ne_none definition

end Run

section Lasts
variable {s : Session} {last run : Run} {α β : Type}

/-- The search keeps a valid run valid and only adds to it; and what comes of it satisfies `post`,
provided that it lasts into the later run and was not cut off. -/
def Search.Lasts (s : Session) (last : Run) (x : Search α) (run : Run)
    (post : Except Failure α → Prop) : Prop :=
  Ensures x run fun result run' => run'.Valid s (.everywhere s.source) ∧ run.Grows run' ∧
    (run'.Grows last → Uncut result → post result)

namespace Search.Lasts

theorem mono {x : Search α} {post post' : Except Failure α → Prop} (h : Lasts s last x run post)
    (himp : ∀ result, Uncut result → post result → post' result) : Lasts s last x run post' :=
  Ensures.mono h fun _ _ hpost =>
    ⟨hpost.1, hpost.2.1, fun hg hu => himp _ hu (hpost.2.2 hg hu)⟩

theorem pure {a : α} {post : Except Failure α → Prop} (hv : run.Valid s (.everywhere s.source))
    (ha : post (.ok a)) : Lasts s last (Pure.pure a) run post :=
  ensures_pure.mpr ⟨hv, .refl run, fun _ _ => ha⟩

theorem throw {f : Failure} {post : Except Failure α → Prop}
    (hv : run.Valid s (.everywhere s.source)) (hf : f.isAbsorbable = true → post (.error f)) :
    Lasts s last (MonadExcept.throw f) run post :=
  ensures_throw.mpr ⟨hv, .refl run, fun _ hu => hf (hu f rfl)⟩

theorem bind {x : Search α} {f : α → Search β} {middle : Except Failure α → Prop}
    {post : Except Failure β → Prop} (h : Lasts s last x run middle)
    (herror : ∀ f, f.isAbsorbable = true → middle (.error f) → post (.error f))
    (hf : ∀ a run', run'.Valid s (.everywhere s.source) → run.Grows run' →
      Lasts s last (f a) run' fun result => middle (.ok a) → post result) :
    Lasts s last (x >>= f) run post := by
  refine ensures_bind.mpr (Ensures.mono h fun result run' hpost => ?_)
  obtain ⟨hv', hg, hmiddle⟩ := hpost
  cases result with
  | error f =>
      refine ⟨hv', hg, fun hlast hu => ?_⟩
      have hf := hu f rfl
      exact herror f hf (hmiddle hlast (uncut_error hf))
  | ok a =>
      refine Ensures.mono (hf a run' hv' hg) fun result run'' hpost => ?_
      obtain ⟨hv'', hg', hlast⟩ := hpost
      exact ⟨hv'', hg.trans hg', fun hgl hu =>
        hlast hgl hu (hmiddle (hg'.trans hgl) (uncut_ok a))⟩

/-- An attempt that fails was cut off. -/
theorem attempt {x : Search α} {post : Except Failure α → Prop} (h : Lasts s last x run post) :
    Lasts s last (attempt x) run fun result =>
      ∃ found, result = .ok found ∧ Uncut found ∧ post found := by
  refine Search.ensures_attempt.mpr (Ensures.mono h fun result run' hpost => ?_)
  obtain ⟨hv', hg, hlast⟩ := hpost
  cases result with
  | ok a => exact ⟨hv', hg, fun hgl _ => ⟨_, rfl, uncut_ok a, hlast hgl (uncut_ok a)⟩⟩
  | error f =>
      dsimp only
      split
      · next hf =>
          exact ⟨hv', hg, fun hgl _ =>
            ⟨_, rfl, uncut_error hf, hlast hgl (uncut_error hf)⟩⟩
      · next hf => exact ⟨hv', hg, fun _ hu => absurd (hu f rfl) hf⟩

end Search.Lasts
end Lasts

namespace Session

variable {s : Session} {last : Run}

/-- What is known at last of a reference that was answered. -/
def Attended (s : Session) (last : Run) (depth : Nat) (rule : RuleId) (p : Position)
    (result : Except Failure PathSet) : Prop :=
  last.Answered s depth (.reference rule p) ∧ Answers result (last.Known rule p)

/-- All questions of the rule are answered, and all paths are found that the answers lead to. -/
def AttendsAll (s : Session) (last : Run) (depth : Nat) (rule : Rule) (input : PathSet)
    (result : Except Failure PathSet) : Prop :=
  (∀ p ∈ input, ∀ x, last.Asks s rule p x → last.Answered s depth x) ∧
    Answers result fun q => ∃ p ∈ input, last.Leads s rule p q

theorem terminal_attends (depth : Nat) (tag : TagId) (input : PathSet) (run : Run)
    (hv : run.Valid s (.everywhere s.source)) :
    Search.Lasts s last (s.terminal tag input) run
      (s.AttendsAll last depth (.terminal tag) input) := by
  refine (terminal_spec tag input hv fun _ _ => .inl trivial).mono fun result run' hpost => ?_
  obtain ⟨hv', honly, hread, hout⟩ := hpost
  refine ⟨hv', honly.grows, fun hg _ => ⟨fun p hp x hx => ?_, ?_⟩⟩
  · cases hx with
    | terminal =>
        obtain ⟨r, hr⟩ := hread p hp
        exact ⟨r, hg.cache _ _ hr⟩
  · -- what was read in the end was read by now
    have hreads : ∀ p ∈ input, ∀ t, last.Reads p t → run'.Reads p t := by
      intro p hp t ht
      obtain ⟨r, hr⟩ := hread p hp
      have heq := (hg.cache _ _ hr).symm.trans ht
      rwa [Option.some.inj heq] at hr
    cases result with
    | ok out =>
        intro q hq
        obtain ⟨p, hp, hl⟩ := hq
        cases hl with
        | terminal ht htag => exact (hout.2 _).mpr ⟨p, hp, _, hreads p hp _ ht, htag, rfl⟩
    | error f =>
        intro _ q hq
        obtain ⟨p, hp, hl⟩ := hq
        cases hl with
        | terminal ht htag =>
            have hno := hout p hp _ (hreads p hp _ ht)
            rw [htag] at hno
            cases hno

/-- United searches attend to all that each of them does. -/
theorem unite_attends {ι : Type} (input : PathSet) (f : ι → Search PathSet) (attended : ι → Prop)
    (expected : ι → Position → Prop) (is : List ι) (output : PathSet) (cause : Option Failure)
    (run : Run) (hv : run.Valid s (.everywhere s.source))
    (hf : ∀ i ∈ is, ∀ run, run.Valid s (.everywhere s.source) →
      Search.Lasts s last (f i) run fun result => attended i ∧ Answers result (expected i)) :
    Search.Lasts s last (unite input (is.map f) output cause) run fun result =>
      (∀ i ∈ is, attended i) ∧ Answers result fun q => q ∈ output ∨ ∃ i ∈ is, expected i q := by
  induction is generalizing output cause run with
  | nil =>
      have hnone (hempty : output.isEmpty = true) (q : Position) :
          ¬(q ∈ output ∨ ∃ i ∈ ([] : List ι), expected i q) := by
        obtain rfl := Std.ExtTreeSet.isEmpty_iff.mp hempty
        simp
      simp only [List.map_nil, unite]
      split
      · next hempty =>
          split
          · exact .throw hv fun _ => ⟨by simp, fun _ => hnone hempty⟩
          · exact Search.ensures_noPath.mpr
              ⟨hv, .refl run, fun _ _ => ⟨by simp, fun _ => hnone hempty⟩⟩
      · exact .pure hv ⟨by simp, fun q hq => by simpa using hq⟩
  | cons i is ih =>
      have hrest := fun j hj => hf j (List.mem_cons_of_mem i hj)
      simp only [List.map_cons, unite]
      refine (hf i List.mem_cons_self run hv).attempt.bind (fun f _ h => ?_)
        fun found run' hv' _ => ?_
      · obtain ⟨_, heq, -⟩ := h
        cases heq
      · -- what the first search attends to is attended to, and the others go on from that
        have hall (output' : PathSet) (cause' : Option Failure)
            (hhave : Uncut found → Answers found (expected i) →
              ∀ q, q ∈ output ∨ expected i q → q ∈ output') :
            Search.Lasts s last (unite input (is.map f) output' cause') run' fun result =>
              (∃ found', .ok found = Except.ok (ε := Failure) found' ∧ Uncut found' ∧
                attended i ∧ Answers found' (expected i)) →
              (∀ j ∈ i :: is, attended j) ∧
                Answers result fun q => q ∈ output ∨ ∃ j ∈ i :: is, expected j q := by
          refine (ih output' cause' run' hv' hrest).mono fun result _ h hfirst => ?_
          obtain ⟨_, heq, hu, hi, hanswers⟩ := hfirst
          cases heq
          refine ⟨fun j hj => ?_, h.2.mono fun q hq => ?_⟩
          · obtain rfl | hj := List.mem_cons.mp hj
            · exact hi
            · exact h.1 j hj
          · have hsome := hhave hu hanswers q
            simp only [List.mem_cons, exists_eq_or_imp] at hq
            obtain hq | hq | hq := hq
            · exact .inl (hsome (.inl hq))
            · exact .inl (hsome (.inr hq))
            · exact .inr hq
        cases found with
        | ok paths =>
            refine hall (output ∪ paths) cause fun _ hanswers q hq => ?_
            obtain hq | hq := hq
            · exact Std.ExtTreeSet.mem_union_of_left hq
            · exact Std.ExtTreeSet.mem_union_of_right (hanswers q hq)
        | error f =>
            refine hall output (some f) fun hu hanswers q hq => ?_
            obtain hq | hq := hq
            · exact hq
            · exact absurd hq (hanswers (hu f rfl) q)

/-- What is missing from the result for it to be closed under the body, and for all questions about
it to be answered, starts on the frontier. -/
def AttendedBut (s : Session) (last : Run) (depth : Nat) (body : Rule)
    (frontier result : PathSet) : Prop :=
  ∀ p ∈ result, p ∈ frontier ∨ (∀ x, last.Asks s body p x → last.Answered s depth x) ∧
    ∀ q, last.Leads s body p q → q ∈ result

section Saturation
variable {depth : Nat} {body : Rule} {frontier result : PathSet}

/-- Once the frontier is attended to, nothing is missing but what it leads to. -/
theorem AttendedBut.round {output : PathSet} (h : s.AttendedBut last depth body frontier result)
    (hall : s.AttendsAll last depth body frontier (.ok output)) :
    s.AttendedBut last depth body (output \ result) (result ∪ (output \ result)) := by
  intro p hp
  obtain hr | hfresh := Std.ExtTreeSet.mem_union_iff.mp hp
  · refine .inr ?_
    obtain hf | hdone := h p hr
    · refine ⟨hall.1 p hf, fun q hl => ?_⟩
      have hq := hall.2 q ⟨p, hf, hl⟩
      by_cases hr : q ∈ result
      · exact Std.ExtTreeSet.mem_union_of_left hr
      · exact Std.ExtTreeSet.mem_union_of_right (Std.ExtTreeSet.mem_diff_iff.mpr ⟨hq, hr⟩)
    · exact ⟨hdone.1, fun q hl => Std.ExtTreeSet.mem_union_of_left (hdone.2 q hl)⟩
  · exact .inl hfresh

/-- When the frontier leads to nothing new, nothing is missing. -/
theorem AttendedBut.close {found : Except Failure PathSet}
    (h : s.AttendedBut last depth body frontier result)
    (hall : s.AttendsAll last depth body frontier found) (hu : Uncut found)
    (hold : ∀ output, found = .ok output → ∀ q ∈ output, q ∈ result) :
    s.AttendedBut last depth body ∅ result := by
  intro p hp
  obtain hf | hdone := h p hp
  · refine .inr ⟨hall.1 p hf, fun q hl => ?_⟩
    cases found with
    | ok output => exact hold output rfl q (hall.2 q ⟨p, hf, hl⟩)
    | error f => exact absurd ⟨p, hf, hl⟩ (hall.2 (hu f rfl) q)
  · exact .inr hdone

/-- Repeating attends to all that it finds, unless it runs through its bound, gaining a path each
time. -/
theorem saturate_attends (eval : PathSet → Search PathSet)
    (heval : ∀ input run, run.Valid s (.everywhere s.source) →
      Search.Lasts s last (eval input) run (s.AttendsAll last depth body input))
    (n : Nat) (frontier result : PathSet) (run : Run) (hv : run.Valid s (.everywhere s.source)) :
    Search.Lasts s last (saturate eval n frontier result) run fun found =>
      ∃ out, found = .ok out ∧ (∀ q ∈ result, q ∈ out) ∧
        (s.AttendedBut last depth body frontier result → out.size < result.size + n →
          s.AttendedBut last depth body ∅ out) := by
  induction n generalizing frontier result run with
  | zero =>
      refine .pure hv ⟨result, rfl, fun _ hq => hq, fun _ hlt => ?_⟩
      omega
  | succ n ih =>
      rw [saturate]
      refine (heval frontier run hv).attempt.bind (fun f _ h => ?_) fun found run' hv' _ => ?_
      · obtain ⟨_, heq, -⟩ := h
        cases heq
      · cases found with
        | error f =>
            refine .pure hv' fun h => ⟨result, rfl, fun _ hq => hq, fun hbut _ => ?_⟩
            obtain ⟨_, heq, hu, hall⟩ := h
            cases heq
            exact hbut.close hall hu fun _ heq => by cases heq
        | ok output =>
            dsimp only
            split
            · next hempty =>
                refine .pure hv' fun h => ⟨result, rfl, fun _ hq => hq, fun hbut _ => ?_⟩
                obtain ⟨_, heq, hu, hall⟩ := h
                cases heq
                refine hbut.close hall hu fun output' heq q hq => ?_
                cases heq
                exact Std.ExtTreeSet.isEmpty_diff_iff.mp hempty q hq
            · next hne =>
                refine (ih (output \ result) (result ∪ (output \ result)) run' hv').mono ?_
                intro found' _ hfound h
                obtain ⟨out, rfl, hsub, hclosed⟩ := hfound
                obtain ⟨_, heq, -, hall⟩ := h
                cases heq
                have hgain := SortedSet.size_lt_size_union_diff hne
                exact ⟨out, rfl, fun q hq => hsub q (Std.ExtTreeSet.mem_union_of_left hq),
                  fun hbut hlt => hclosed (hbut.round hall) (by omega)⟩

end Saturation

section Evaluation
variable {depth : Nat} {resolve : Resolver}

/-- Where iterations lead is attended to when all positions on the way are. -/
theorem AttendedBut.repetition {body : Rule} {out : PathSet}
    (h : s.AttendedBut last depth body ∅ out) {p : Position} (hp : p ∈ out) :
    (∀ q, last.Leads s (.repetition body) p q → q ∈ out) ∧
      ∀ x, last.Asks s (.repetition body) p x → last.Answered s depth x := by
  have hdone (m : Position) (hm : m ∈ out) :
      (∀ x, last.Asks s body m x → last.Answered s depth x) ∧
        ∀ q, last.Leads s body m q → q ∈ out :=
    (h m hm).resolve_left Std.ExtTreeSet.not_mem_empty
  have hreach (q : Position) (hl : last.Leads s (.repetition body) p q) : q ∈ out := by
    generalize hrule : Rule.repetition body = rule at hl
    induction hl with
    | stop => exact hp
    | again hbody _ _ ih =>
        cases hrule
        exact ih ((hdone _ hp).2 _ hbody) rfl
    | _ => cases hrule
  refine ⟨hreach, fun x hx => ?_⟩
  cases hx with
  | iteration hl hbody => exact (hdone _ (hreach _ hl)).1 x hbody

namespace AttendsAll

variable {input : PathSet} {result : Except Failure PathSet}

/-! What is attended to of a rule, from what is attended to of its parts. -/

theorem nonterminal {rule : RuleId}
    (hanswered : ∀ p ∈ input.toList, last.Answered s depth (.reference rule p))
    (hanswers : Answers result fun q =>
      q ∈ (∅ : PathSet) ∨ ∃ p ∈ input.toList, last.Known rule p q) :
    s.AttendsAll last depth (.nonterminal rule) input result := by
  refine ⟨fun p hp x hx => ?_, hanswers.mono fun q hq => ?_⟩
  · cases hx with
    | nonterminal => exact hanswered p (Std.ExtTreeSet.mem_toList.mpr hp)
  · obtain ⟨p, hp, hl⟩ := hq
    cases hl with
    | nonterminal hk => exact .inr ⟨p, Std.ExtTreeSet.mem_toList.mpr hp, hk⟩

theorem asks_optional {body : Rule} {found : Except Failure PathSet}
    (h : s.AttendsAll last depth body input found) :
    ∀ p ∈ input, ∀ x, last.Asks s (.optional body) p x → last.Answered s depth x := by
  intro p hp x hx
  cases hx with
  | optional hx => exact h.1 p hp x hx

theorem skipped {body : Rule} {f : Failure} (h : s.AttendsAll last depth body input (.error f))
    (hf : f.isAbsorbable = true) : s.AttendsAll last depth (.optional body) input (.ok input) := by
  refine ⟨h.asks_optional, fun q hq => ?_⟩
  obtain ⟨p, hp, hl⟩ := hq
  cases hl with
  | skip => exact hp
  | take hbody => exact absurd ⟨p, hp, hbody⟩ (h.2 hf q)

theorem taken {body : Rule} {output : PathSet}
    (h : s.AttendsAll last depth body input (.ok output)) :
    s.AttendsAll last depth (.optional body) input (.ok (input ∪ output)) := by
  refine ⟨h.asks_optional, fun q hq => ?_⟩
  obtain ⟨p, hp, hl⟩ := hq
  cases hl with
  | skip => exact Std.ExtTreeSet.mem_union_of_left hp
  | take hbody => exact Std.ExtTreeSet.mem_union_of_right (h.2 q ⟨p, hp, hbody⟩)

theorem repetition {body : Rule} {out : PathSet} (h : s.AttendedBut last depth body ∅ out)
    (hsub : ∀ p ∈ input, p ∈ out) :
    s.AttendsAll last depth (.repetition body) input (.ok out) := by
  refine ⟨fun p hp => (h.repetition (hsub p hp)).2, fun q hq => ?_⟩
  obtain ⟨p, hp, hl⟩ := hq
  exact (h.repetition (hsub p hp)).1 q hl

theorem alternation {choices : List Rule}
    (hanswered : ∀ choice ∈ choices, ∀ p ∈ input, ∀ x, last.Asks s choice p x →
      last.Answered s depth x)
    (hanswers : Answers result fun q => q ∈ (∅ : PathSet) ∨
      ∃ choice ∈ choices, ∃ p ∈ input, last.Leads s choice p q) :
    s.AttendsAll last depth (.alternation choices) input result := by
  refine ⟨fun p hp x hx => ?_, hanswers.mono fun q hq => ?_⟩
  · cases hx with
    | choice hmem hx => exact hanswered _ hmem p hp x hx
  · obtain ⟨p, hp, hl⟩ := hq
    cases hl with
    | choice hmem hl => exact .inr ⟨_, hmem, p, hp, hl⟩

theorem enabled {feature : String} {body : Rule} (hon : s.grammar.isEnabled feature = true)
    (h : s.AttendsAll last depth body input result) :
    s.AttendsAll last depth (.switch feature body) input result := by
  refine ⟨fun p hp x hx => ?_, h.2.mono fun q hq => ?_⟩
  · cases hx with
    | enabled _ hx => exact h.1 p hp x hx
  · obtain ⟨p, hp, hl⟩ := hq
    cases hl with
    | enabled _ hl => exact ⟨p, hp, hl⟩
    | disabled hoff =>
        rw [hon] at hoff
        cases hoff

theorem disabled {feature : String} {body : Rule} (hoff : ¬s.grammar.isEnabled feature = true) :
    s.AttendsAll last depth (.switch feature body) input (.ok input) := by
  refine ⟨fun p _ x hx => ?_, fun q hq => ?_⟩
  · cases hx with
    | enabled hon _ => exact absurd hon hoff
  · obtain ⟨p, hp, hl⟩ := hq
    cases hl with
    | enabled hon _ => exact absurd hon hoff
    | disabled _ => exact hp

theorem nil : s.AttendsAll last depth (.sequence []) input (.ok input) := by
  refine ⟨fun p _ x hx => (by cases hx), fun q hq => ?_⟩
  obtain ⟨p, hp, hl⟩ := hq
  cases hl with
  | nil => exact hp

variable {item : Rule} {items : List Rule}

/-- An item that leads nowhere leaves nothing to ask behind it. -/
theorem cons_error {f : Failure} (h : s.AttendsAll last depth item input (.error f))
    (hf : f.isAbsorbable = true) :
    s.AttendsAll last depth (.sequence (item :: items)) input (.error f) := by
  have hnone (p : Position) (hp : p ∈ input) (m : Position) : ¬last.Leads s item p m :=
    fun hl => h.2 hf m ⟨p, hp, hl⟩
  refine ⟨fun p hp x hx => ?_, fun _ q hq => ?_⟩
  · cases hx with
    | head hx => exact h.1 p hp x hx
    | rest hl _ => exact absurd hl (hnone p hp _)
  · obtain ⟨p, hp, hl⟩ := hq
    cases hl with
    | cons hl _ => exact hnone p hp _ hl

theorem cons {paths : PathSet} (h : s.AttendsAll last depth item input (.ok paths))
    (hrest : s.AttendsAll last depth (.sequence items) paths result) :
    s.AttendsAll last depth (.sequence (item :: items)) input result := by
  refine ⟨fun p hp x hx => ?_, hrest.2.mono fun q hq => ?_⟩
  · cases hx with
    | head hx => exact h.1 p hp x hx
    | rest hl hx => exact hrest.1 _ (h.2 _ ⟨p, hp, hl⟩) x hx
  · obtain ⟨p, hp, hl⟩ := hq
    cases hl with
    | cons hitem hitems => exact ⟨_, h.2 _ ⟨p, hp, hitem⟩, hitems⟩

end AttendsAll

mutual

/-- An evaluation attends to all that its rule asks. -/
theorem evaluate_attends (hsound : ∀ c, s.SoundResolver c resolve)
    (hres : ∀ rule p run, run.Valid s (.everywhere s.source) →
      Search.Lasts s last (resolve rule p) run (s.Attended last depth rule p)) :
    ∀ (rule : Rule) (input : PathSet) (run : Run), run.Valid s (.everywhere s.source) →
      Search.Lasts s last (s.evaluate resolve rule input) run
        (s.AttendsAll last depth rule input)
  | .terminal tag, input, run, hv => by
      rw [evaluate]
      exact terminal_attends depth tag input run hv
  | .nonterminal rule, input, run, hv => by
      rw [evaluate]
      exact (unite_attends input (resolve rule)
        (fun p => last.Answered s depth (.reference rule p)) (last.Known rule) input.toList ∅ none
        run hv fun p _ run hv => hres rule p run hv).mono fun _ _ h => .nonterminal h.1 h.2
  | .sequence items, input, run, hv => by
      rw [evaluate]
      exact evaluateItems_attends hsound hres items input run hv
  | .optional body, input, run, hv => by
      rw [evaluate]
      refine (evaluate_attends hsound hres body input run hv).attempt.bind (fun f _ h => ?_)
        fun found run' hv' _ => ?_
      · obtain ⟨_, heq, -⟩ := h
        cases heq
      · cases found with
        | error f =>
            refine .pure hv' fun h => ?_
            obtain ⟨_, heq, hu, hall⟩ := h
            cases heq
            exact hall.skipped (hu f rfl)
        | ok output =>
            refine .pure hv' fun h => ?_
            obtain ⟨_, heq, -, hall⟩ := h
            cases heq
            exact hall.taken
  | .repetition body, input, run, hv => by
      have hsize := evaluate_size_lt hsound (.repetition body) input hv fun _ _ => .inl trivial
      rw [evaluate] at hsize ⊢
      refine ensures_bind.mpr (ensures_get.mpr ?_)
      have hsaturate := saturate_attends (s.evaluate resolve body)
        (evaluate_attends hsound hres body) (s.pathBound run) input input run hv
      refine Ensures.mono (hsaturate.and (ensures_get.mp (ensures_bind.mp hsize))) ?_
      intro result run' hpost
      obtain ⟨⟨hv', hg, hlasts⟩, hlt⟩ := hpost
      refine ⟨hv', hg, fun hgl hu => ?_⟩
      obtain ⟨out, rfl, hsub, hclosed⟩ := hlasts hgl hu
      exact .repetition (hclosed (fun p hp => .inl hp) (hlt out rfl)) hsub
  | .alternation choices, input, run, hv => by
      rw [evaluate, evaluateChoices_eq]
      exact (unite_attends input (fun choice => s.evaluate resolve choice input)
        (fun choice => ∀ p ∈ input, ∀ x, last.Asks s choice p x → last.Answered s depth x)
        (fun choice q => ∃ p ∈ input, last.Leads s choice p q) choices ∅ none run hv
        (evaluateChoices_attends hsound hres choices input)).mono fun _ _ h => .alternation h.1 h.2
  | .switch feature body, input, run, hv => by
      rw [evaluate]
      split
      · next hon =>
          exact (evaluate_attends hsound hres body input run hv).mono fun _ _ h => h.enabled hon
      · next hoff => exact .pure hv (.disabled hoff)

theorem evaluateItems_attends (hsound : ∀ c, s.SoundResolver c resolve)
    (hres : ∀ rule p run, run.Valid s (.everywhere s.source) →
      Search.Lasts s last (resolve rule p) run (s.Attended last depth rule p)) :
    ∀ (items : List Rule) (input : PathSet) (run : Run), run.Valid s (.everywhere s.source) →
      Search.Lasts s last (s.evaluateItems resolve items input) run
        (s.AttendsAll last depth (.sequence items) input)
  | [], input, run, hv => by
      rw [evaluateItems]
      exact .pure hv .nil
  | item :: items, input, run, hv => by
      rw [evaluateItems]
      refine (evaluate_attends hsound hres item input run hv).bind (fun f hf h => h.cons_error hf)
        fun paths run' hv' _ => ?_
      exact (evaluateItems_attends hsound hres items paths run' hv').mono
        fun _ _ hrest h => h.cons hrest

theorem evaluateChoices_attends (hsound : ∀ c, s.SoundResolver c resolve)
    (hres : ∀ rule p run, run.Valid s (.everywhere s.source) →
      Search.Lasts s last (resolve rule p) run (s.Attended last depth rule p)) :
    ∀ (choices : List Rule) (input : PathSet), ∀ choice ∈ choices, ∀ run,
      run.Valid s (.everywhere s.source) →
      Search.Lasts s last (s.evaluate resolve choice input) run fun result =>
        (∀ p ∈ input, ∀ x, last.Asks s choice p x → last.Answered s depth x) ∧
          Answers result fun q => ∃ p ∈ input, last.Leads s choice p q
  | [], _, _, hx, _, _ => absurd hx List.not_mem_nil
  | choice :: choices, input, x, hx, run, hv => by
      by_cases h : x = choice
      · rw [h]
        exact evaluate_attends hsound hres choice input run hv
      · exact evaluateChoices_attends hsound hres choices input x
          ((List.mem_cons.mp hx).resolve_left h) run hv

end

end Evaluation

section Derivation

/-- The result is the answer that is found at last, or there is no such rule. -/
def Recalled (s : Session) (last : Run) (depth : Nat) (rule : RuleId) (p : Position)
    (result : Except Failure NodeId) : Prop :=
  (∃ finding, last.memo.find? p rule = some finding ∧ last.Bears finding ∧
    result = finding.answer rule p) ∨
  s.grammar.rule? rule = none ∧ 0 < depth ∧ ∃ f, result = .error f

theorem Recalled.answered {depth : Nat} {rule : RuleId} {p : Position}
    {result : Except Failure NodeId} (h : s.Recalled last depth rule p result) :
    last.Answered s depth (.reference rule p) := by
  obtain ⟨finding, hm, hbears, -⟩ | ⟨hnone, hdepth, -⟩ := h
  · exact .inl ⟨finding, hm, hbears⟩
  · exact .inr ⟨hnone, hdepth⟩

theorem deriveFresh_recalled (resolve : Resolver) (depth : Nat) (rule : RuleId) (p : Position)
    (run : Run) : Ensures (s.deriveFresh resolve rule p) run fun result run' =>
      run'.Grows last → Uncut result → s.Recalled last (depth + 1) rule p result := by
  refine ensures_deriveFresh.mpr ?_
  split
  · next hnone => exact fun _ _ => .inr ⟨hnone, Nat.succ_pos depth, _, rfl⟩
  · refine Ensures.of_forall fun result run' => ?_
    cases result with
    | error f =>
        refine fun hg hu => .inl ⟨.failed f, hg.memo _ _ _ ?_, hu f rfl, rfl⟩
        rw [(run'.fail_records rule p f).find?, if_pos ⟨rfl, rfl⟩]
    | ok out =>
        refine fun hg _ => .inl ⟨.succeeded _, hg.memo _ _ _ ?_, trivial, rfl⟩
        rw [(run'.succeed_records rule p out).find?, if_pos ⟨rfl, rfl⟩]
        rfl

theorem deriveWithin_recalled (last : Run) (depth : Nat) (rule : RuleId) (p : Position)
    (run : Run) : Ensures (s.deriveWithin depth rule p) run fun result run' =>
      run'.Grows last → Uncut result → s.Recalled last depth rule p result := by
  have hconsult (fresh : Search NodeId) (hfresh : Ensures fresh run fun result run' =>
      run'.Grows last → Uncut result → s.Recalled last depth rule p result) :
      Ensures (consult rule p fresh) run fun result run' =>
        run'.Grows last → Uncut result → s.Recalled last depth rule p result := by
    refine ensures_consult.mpr ?_
    split
    · next id hm =>
        exact fun hg _ => .inl ⟨.succeeded id, hg.memo p rule _ hm, trivial, rfl⟩
    · next f hm => exact fun hg hu => .inl ⟨.failed f, hg.memo p rule _ hm, hu f rfl, rfl⟩
    · next hm =>
        exact fun hg _ =>
          .inl ⟨.inProgress, hg.memo p rule _ hm, hg.hits_of_countLeftRecursion, rfl⟩
    · exact hfresh
  cases depth with
  | zero => exact hconsult _ (ensures_throw.mpr fun _ hu => absurd (hu _ rfl) Bool.false_ne_true)
  | succ depth => exact hconsult _ (deriveFresh_recalled _ depth rule p run)

/-- Every session's resolver attends to its references. -/
theorem resolver_attends (hlast : last.Valid s (.everywhere s.source))
    (depth : Nat) (rule : RuleId) (p : Position) (run : Run)
    (hv : run.Valid s (.everywhere s.source)) :
    Search.Lasts s last (s.deriveWithin depth rule p >>= outputOf) run
      (s.Attended last depth rule p) := by
  refine ensures_bind.mpr (Ensures.mono
    ((deriveWithin_sound depth rule p run hv (.inl trivial)).and
      (deriveWithin_recalled last depth rule p run)) fun result run' hpost => ?_)
  obtain ⟨⟨hv', hg, hfound⟩, hrecalled⟩ := hpost
  cases result with
  | error f =>
      refine ⟨hv', hg, fun hgl hu => ?_⟩
      have h := hrecalled hgl (uncut_error (hu f rfl))
      refine ⟨h.answered, fun _ q hq => ?_⟩
      -- what is known is a success
      obtain ⟨id, -, hm, -⟩ := hq
      obtain ⟨finding, hm', -, heq⟩ | ⟨hnone, -⟩ := h
      · obtain rfl := Option.some.inj (hm.symm.trans hm')
        cases heq
      · exact hlast.rule_of_succeeded hm hnone
  | ok id =>
      refine Search.ensures_outputOf.mpr ⟨hv', hg, fun hgl _ => ?_⟩
      have hm := hfound id rfl
      refine ⟨(hrecalled hgl (uncut_ok id)).answered, fun q hq => ?_⟩
      obtain ⟨id', -, hm', hq⟩ := hq
      obtain rfl : id = id' := by
        cases (hgl.memo p rule _ hm).symm.trans hm'
        rfl
      rwa [hgl.output hv' hm] at hq

/-- In the end an evaluation has attended to all that its rule asks. -/
theorem evaluate_attendsAll (depth : Nat) (rule : Rule) (input : PathSet) (run : Run)
    (hv : run.Valid s (.everywhere s.source)) :
    Ensures (s.evaluate (fun r q => s.deriveWithin depth r q >>= outputOf) rule input) run
      fun result run' => Uncut result → s.AttendsAll run' depth rule input result := by
  rcases hrun : (s.evaluate (fun r q => s.deriveWithin depth r q >>= outputOf) rule input).run.run
    run with ⟨result, run'⟩
  refine Ensures.of_eq hrun fun hu => ?_
  have hv' := ((evaluate_sound (resolver_sound depth) rule input run hv
    fun _ _ => .inl trivial).of_run hrun).1
  have hattends := evaluate_attends (fun _ => resolver_sound depth)
    (resolver_attends hv' depth) rule input run hv
  exact (hattends.of_run hrun).2.2 (.refl run') hu

end Derivation

end Session
end Multipath
