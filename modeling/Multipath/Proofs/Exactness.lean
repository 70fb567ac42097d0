import Multipath.Proofs.Completeness
import Multipath.Samples

/-!
Path sets are exact. On the places of a text an index has only one token, so whatever a run knows
is an end in the sense of `Session.Ends`, left recursion or not. As long as no rule met itself
before it was settled, the converse holds of every finding, and with it of every call.
-/

namespace Multipath

open Search (attempt outcome outputOf)

namespace Run

variable {s : Session} {run run' : Run}

theorem Valid.token_of_reads (hv : run.Valid s (.places s.source)) {p : Position} {t : Token}
    (hp : s.source.IsPlace p) (ht : run.Reads p t) : s.source.token p = .ok t := by
  obtain ⟨p', hp', hi, htok⟩ := hv.readFrom _ _ ht
  rwa [hp'.eq_of_index hp hi] at htok

theorem Valid.reads_along (hv : run.Valid s (.places s.source)) (p : Position) (t : Token)
    (hp : s.source.IsPlace p) (ht : run.Reads p t) :
    s.source.token p = .ok t ∧ s.source.IsPlace t.span.stop :=
  ⟨hv.token_of_reads hp ht, hp.of_token (hv.token_of_reads hp ht)⟩

/-- By induction on the order in which nodes were completed. -/
theorem Valid.ends_of_settled (hv : run.Valid s (.places s.source)) (n : Nat) {rule : RuleId}
    {p q : Position} (hp : s.source.IsPlace p) (h : run.Settled n rule p q) :
    s.Ends (.nonterminal rule) p q ∧ s.source.IsPlace q := by
  induction n using Nat.strongRecOn generalizing rule p q with
  | ind n ih =>
      obtain ⟨id, hid, hm, hq⟩ := h
      obtain ⟨out, hd, -⟩ := hv.settled p rule id hm
      obtain ⟨definition, hdef, hleads⟩ := hv.backed id rule p out hd
      rw [Arena.output_of_derived hd] at hq
      have halong := (hleads q hq).along s.source.IsPlace hp hv.reads_along
        (fun r p q hp hs => ih id hid hp hs)
      exact ⟨.nonterminal hdef (Session.ends_iff_leads.mpr halong.1), halong.2⟩

/-- What a run knows are ends. -/
theorem Valid.ends_of_leads (hv : run.Valid s (.places s.source)) {rule : Rule} {p q : Position}
    (hp : s.source.IsPlace p) (h : run.Leads s rule p q) : s.Ends rule p q :=
  Session.ends_iff_leads.mpr (h.along s.source.IsPlace hp hv.reads_along
    (fun _ _ _ hp hs => hv.ends_of_settled _ hp hs)).1

/-- A finding that leaves out no end of the rule. -/
def Thorough (s : Session) (run : Run) (rule : RuleId) (p : Position) : Finding → Prop
  | .inProgress => True
  | .succeeded id => ∀ q, s.Ends (.nonterminal rule) p q → q ∈ run.arena.output id
  | .failed f => f.isAbsorbable = true → ∀ q, ¬s.Ends (.nonterminal rule) p q

/-- Unless some rule met itself, all findings at places are thorough. -/
def ThoroughUnlessHit (s : Session) (run : Run) : Prop :=
  run.stats.leftRecursionHits = 0 → ∀ p rule finding, s.source.IsPlace p →
    run.memo.find? p rule = some finding → run.Thorough s rule p finding

theorem thoroughUnlessHit_empty (s : Session) : ThoroughUnlessHit s {} := by
  intro _ p rule finding _ hm
  simp [Memo.find?] at hm

/-- Recording a thorough finding. -/
theorem ThoroughUnlessHit.record {c : Scope s.source} {p : Position} {rule : RuleId}
    {finding : Finding} (h : run.ThoroughUnlessHit s) (hv : run.Valid s c)
    (hrec : run.Records run' p rule finding)
    (hfinding : run.stats.leftRecursionHits = 0 → run'.Thorough s rule p finding) :
    run'.ThoroughUnlessHit s := by
  intro hhits q r f hq hm
  rw [hrec.hits] at hhits
  rw [hrec.find?] at hm
  split at hm
  · next heq =>
      obtain ⟨rfl, rfl⟩ := heq
      cases hm
      exact hfinding hhits
  · have hold := h hhits q r f hq hm
    cases f with
    | inProgress => trivial
    | failed f => exact hold
    | succeeded id =>
        obtain ⟨out, hd, -⟩ := hv.settled q r id hm
        intro q' hq'
        have hmem := hold q' hq'
        rwa [Arena.output_of_derived hd, ← Arena.output_of_derived (hrec.nodes _ _ hd)] at hmem

end Run

/-- The derivation relation, which the calls of a run attain until a rule meets itself. -/
def Yardstick.ends (s : Session) : Yardstick s (.places s.source) where
  reads p t := s.source.token p = .ok t
  spans rule := s.Ends (.nonterminal rule)
  inv run := run.ThoroughUnlessHit s
  counts run := run.stats.leftRecursionHits = 0
  counts_of_grows hg hc := by
    have := hg.hits
    omega
  inv_of_onlyReads honly h hhits p rule finding hp hm := by
    rw [honly.stats] at hhits
    rw [honly.memo] at hm
    have hold := h hhits p rule finding hp hm
    cases finding with
    | inProgress => trivial
    | failed f => exact hold
    | succeeded id =>
        intro q hq
        rw [honly.arena]
        exact hold q hq
  reads_eq hv hp _ ht hr := by
    obtain ⟨p', hp', hi, htok⟩ := hv.readFrom _ _ hr
    rw [hp'.eq_of_index (hv.origin_of_within hp) hi, ht] at htok
    exact htok.symm

namespace Session

variable {s : Session}

/-- A node is found whose output is all that is expected, if the run counts. -/
def Settles (s : Session) (x : Search NodeId) (run : Run) (expected : Position → Prop) : Prop :=
  Ensures x run fun result run' =>
    run'.Valid s (.places s.source) ∧ run.Grows run' ∧ run'.ThoroughUnlessHit s ∧
      (run'.stats.leftRecursionHits = 0 → Answers (result.map run'.arena.output) expected)

theorem Settles.outputOf {x : Search NodeId} {run : Run} {expected : Position → Prop}
    (h : s.Settles x run expected) :
    (Yardstick.ends s).Complete (x >>= Search.outputOf) run expected := by
  refine ensures_bind.mpr (Ensures.mono h ?_)
  intro result run' hpost
  cases result with
  | ok id => exact hpost
  | error f => exact hpost

theorem consult_complete (rule : RuleId) (p : Position) (fresh : Search NodeId) (run : Run)
    (hv : run.Valid s (.places s.source)) (hp : s.source.IsPlace p)
    (hinv : run.ThoroughUnlessHit s)
    (hfresh : run.memo.find? p rule = none →
      s.Settles fresh run (s.Ends (.nonterminal rule) p)) :
    s.Settles (consult rule p fresh) run (s.Ends (.nonterminal rule) p) := by
  refine ensures_consult.mpr ?_
  split
  · next id hm =>
      exact ⟨hv.countMemoHit, run.grows_countMemoHit, hinv, fun hhits => hinv hhits p rule _ hp hm⟩
  · next f hm =>
      exact ⟨hv.countMemoHit, run.grows_countMemoHit, hinv, fun hhits => hinv hhits p rule _ hp hm⟩
  · -- the hit is counted, so nothing is promised from here on
    have hhit : run.countLeftRecursion.stats.leftRecursionHits ≠ 0 := Nat.succ_ne_zero _
    exact ⟨hv.countLeftRecursion, run.grows_countLeftRecursion, fun hhits => absurd hhits hhit,
      fun hhits => absurd hhits hhit⟩
  · next hm => exact hfresh hm

theorem deriveFresh_complete {resolve : Resolver} (hsound : ∀ c, s.SoundResolver c resolve)
    (hres : (Yardstick.ends s).Resolves resolve) (rule : RuleId) (p : Position) (run : Run)
    (hv : run.Valid s (.places s.source)) (hp : s.source.IsPlace p)
    (hinv : run.ThoroughUnlessHit s) (hnone : run.memo.find? p rule = none) :
    s.Settles (s.deriveFresh resolve rule p) run (s.Ends (.nonterminal rule) p) := by
  suffices hmore : Ensures (s.deriveFresh resolve rule p) run fun result run' =>
      run'.ThoroughUnlessHit s ∧ (run'.stats.leftRecursionHits = 0 →
        Answers (result.map run'.arena.output) (s.Ends (.nonterminal rule) p)) by
    refine Ensures.mono ((deriveFresh_sound (hsound _) rule p run hv (.inl hp) hnone).and hmore) ?_
    intro result run' hpost
    obtain ⟨⟨hv', hg, -⟩, hinv', hall⟩ := hpost
    exact ⟨hv', hg, hinv', hall⟩
  refine ensures_deriveFresh.mpr ?_
  split
  · next hdef =>
      refine ⟨hinv, fun _ _ q hq => ?_⟩
      cases hq with
      | nonterminal hdef' _ => cases hdef.symm.trans hdef'
  · next definition hdef =>
      have henter := run.enter_records rule p
      have hv₁ := henter.valid hv hp (by simp [hnone]) rfl (by simp)
      have hinv₁ : (run.enter rule p).ThoroughUnlessHit s :=
        hinv.record hv henter fun _ => trivial
      have hp₁ : ∀ p' ∈ ({p} : PathSet), (run.enter rule p).Within (.places s.source) p' := by
        simpa using .inl hp
      refine Ensures.mono (Yardstick.evaluate_complete hsound hres definition.body {p}
        (run.enter rule p) hv₁ hp₁ hinv₁) ?_
      intro result run₂ hpost
      obtain ⟨hv₂, -, hinv₂, hall⟩ := hpost
      -- an end of the rule is one of its body
      have hbody : ∀ q, s.Ends (.nonterminal rule) p q →
          ∃ p' ∈ ({p} : PathSet), (Yardstick.ends s).Leads definition.body p' q := by
        intro q hq
        cases hq with
        | nonterminal hdef' hends =>
            obtain rfl := Option.some.inj (hdef.symm.trans hdef')
            exact ⟨p, by simp, leads_of_ends hends⟩
      cases result with
      | error f =>
          have hfound : run₂.stats.leftRecursionHits = 0 →
              Answers (.error f) (s.Ends (.nonterminal rule) p) :=
            fun hhits => (hall hhits).mono hbody
          exact ⟨hinv₂.record hv₂ (run₂.fail_records rule p f) hfound, hfound⟩
      | ok out =>
          have hout : (run₂.succeed rule p out).2.arena.output run₂.arena.size = out :=
            Arena.output_of_derived (by rw [Run.derived?_succeed, if_pos rfl])
          have hfound : run₂.stats.leftRecursionHits = 0 →
              ∀ q, s.Ends (.nonterminal rule) p q → q ∈ out :=
            fun hhits => (hall hhits).mono hbody
          refine ⟨hinv₂.record hv₂ (run₂.succeed_records rule p out) ?_, ?_⟩
          · intro hhits q hq
            rw [hout]
            exact hfound hhits q hq
          · intro hhits q hq
            have hmem := hfound hhits q hq
            rwa [← hout] at hmem

theorem deriveWithin_complete (depth : Nat) (rule : RuleId) (p : Position) (run : Run)
    (hv : run.Valid s (.places s.source)) (hp : s.source.IsPlace p)
    (hinv : run.ThoroughUnlessHit s) :
    s.Settles (s.deriveWithin depth rule p) run (s.Ends (.nonterminal rule) p) := by
  induction depth generalizing rule p run with
  | zero =>
      refine consult_complete rule p _ run hv hp hinv fun _ => ?_
      exact ensures_throw.mpr ⟨hv, .refl run, hinv, fun _ => Yardstick.answers_error rfl _⟩
  | succ depth ih =>
      refine consult_complete rule p _ run hv hp hinv fun hnone => ?_
      refine deriveFresh_complete (fun _ => resolver_sound depth) ?_ rule p run hv hp hinv hnone
      intro r q run' hv' hq hinv'
      exact (ih r q run' hv' (hv'.origin_of_within hq) hinv').outputOf

/-- `x` finds ends only, and some if anything. As long as no rule met itself it finds all of them,
and for want of paths it fails only when there are none. -/
def FindsExactly (x : Search PathSet) (run : Run) (ends : Position → Prop) : Prop :=
  Ensures x run fun result run' =>
    (∀ out, result = .ok out → out ≠ ∅ ∧ ∀ q ∈ out, ends q) ∧
      (run'.stats.leftRecursionHits = 0 →
        match result with
        | .ok out => ∀ q, q ∈ out ↔ ends q
        | .error (.noPath ..) => ∀ q, ¬ends q
        | .error (.depthLimit ..) => True)

theorem findsExactly_of {x : Search PathSet} {run : Run} {ends : Position → Prop}
    (hsound : Ensures x run fun result _ =>
      ∀ out, result = .ok out → out ≠ ∅ ∧ ∀ q ∈ out, ends q)
    (hcomplete : (Yardstick.ends s).Complete x run ends) : FindsExactly x run ends := by
  refine Ensures.mono (hsound.and hcomplete) ?_
  intro result run' hpost
  obtain ⟨hfound, -, -, -, hall⟩ := hpost
  refine ⟨hfound, fun hhits => ?_⟩
  cases result with
  | ok out => exact fun q => ⟨(hfound out rfl).2 q, hall hhits q⟩
  | error f =>
      cases f with
      | noPath rule p => exact hall hhits rfl
      | depthLimit rule p => trivial

/-- A run that was called at its own positions only, which `known` lists: the start, and what the
calls so far returned. -/
inductive Called (s : Session) : Run → (Position → Prop) → Prop
  | fresh : Called s {} (· = .start)
  | evaluate {run known rule input result run'} : Called s run known → input ≠ ∅ →
      (∀ p ∈ input, known p) → (s.follow rule input).run.run run = (result, run') →
      Called s run' fun q => known q ∨ ∃ out, result = .ok out ∧ q ∈ out
  | derive {run known rule p result run'} : Called s run known → known p →
      (s.derive rule p).run.run run = (result, run') →
      Called s run' fun q => known q ∨ ∃ id, result = .ok id ∧ q ∈ run'.arena.output id

theorem follow_complete (rule : Rule) (input : PathSet) (run : Run)
    (hv : run.Valid s (.places s.source)) (hinv : run.ThoroughUnlessHit s)
    (hplaces : ∀ p ∈ input, s.source.IsPlace p) :
    (Yardstick.ends s).Complete (s.follow rule input) run fun q =>
      ∃ p ∈ input, s.Ends rule p q := by
  have hres (depth : Nat) : (Yardstick.ends s).Resolves
      fun r q => s.deriveWithin depth r q >>= outputOf :=
    fun r q run' hv' hq hinv' =>
      (deriveWithin_complete depth r q run' hv' (hv'.origin_of_within hq) hinv').outputOf
  refine Yardstick.Complete.mono (Yardstick.follow_complete hres rule input run hv
    (fun p hp => .inl (hplaces p hp)) hinv) ?_
  intro q hq
  obtain ⟨p, hp, hends⟩ := hq
  exact ⟨p, hp, leads_of_ends hends⟩

theorem derive_complete (rule : RuleId) (p : Position) (run : Run)
    (hv : run.Valid s (.places s.source)) (hinv : run.ThoroughUnlessHit s)
    (hp : s.source.IsPlace p) : s.Settles (s.derive rule p) run (s.Ends (.nonterminal rule) p) :=
  deriveWithin_complete _ rule p run hv hp hinv

theorem follow_places (rule : Rule) {input : PathSet} {run : Run}
    (hv : run.Valid s (.places s.source)) (hplaces : ∀ p ∈ input, s.source.IsPlace p) :
    Ensures (s.follow rule input) run fun result run' => run'.Valid s (.places s.source) ∧
      ∀ out, result = .ok out → (input ≠ ∅ → out ≠ ∅) ∧
        ∀ q ∈ out, s.source.IsPlace q ∧ ∃ p ∈ input, s.Ends rule p q := by
  refine Ensures.mono (follow_sound rule input run hv fun p hp => .inl (hplaces p hp)) ?_
  intro result run' hpost
  obtain ⟨hv', -, hout⟩ := hpost
  refine ⟨hv', fun out hresult => ⟨(hout out hresult).1, fun q hq => ?_⟩⟩
  obtain ⟨p, hp, hl⟩ := (hout out hresult).2 q hq
  have hends := hv'.ends_of_leads (hplaces p hp) hl
  exact ⟨hends.isPlace (hplaces p hp), p, hp, hends⟩

theorem derive_places (rule : RuleId) {p : Position} {run : Run}
    (hv : run.Valid s (.places s.source)) (hp : s.source.IsPlace p) :
    Ensures (s.derive rule p) run fun result run' => run'.Valid s (.places s.source) ∧
      ∀ id, result = .ok id → run'.arena.output id ≠ ∅ ∧
        ∀ q ∈ run'.arena.output id, s.source.IsPlace q ∧ s.Ends (.nonterminal rule) p q := by
  refine Ensures.mono (derive_sound rule p run hv (.inl hp)) ?_
  intro result run' hpost
  obtain ⟨hv', -, hout⟩ := hpost
  refine ⟨hv', fun id hresult => ?_⟩
  have hm := hout id hresult
  obtain ⟨out, hd, hne⟩ := hv'.settled p rule id hm
  refine ⟨by rwa [Arena.output_of_derived hd], fun q hq => ?_⟩
  have hends := hv'.ends_of_settled _ hp (hv'.known hm hq)
  exact ⟨hends.2, hends.1⟩

/-- What every call at the run's own positions keeps. -/
theorem Called.invariant {run : Run} {known : Position → Prop} (h : s.Called run known) :
    run.Valid s (.places s.source) ∧ run.ThoroughUnlessHit s ∧
      ∀ q, known q → s.source.IsPlace q := by
  induction h with
  | fresh =>
      refine ⟨Run.valid_empty, Run.thoroughUnlessHit_empty s, fun q hq => ?_⟩
      rw [hq]
      exact s.source.isPlace_start
  | @evaluate run known rule input result run' _ _ hinput hrun ih =>
      obtain ⟨hv, hinv, hknown⟩ := ih
      have hplaces : ∀ p ∈ input, s.source.IsPlace p := fun p hp => hknown p (hinput p hp)
      have hsound := (follow_places rule hv hplaces).of_run hrun
      have hcomplete := (follow_complete rule input run hv hinv hplaces).of_run hrun
      refine ⟨hsound.1, hcomplete.2.2.1, fun q hq => ?_⟩
      obtain hq | ⟨out, hout, hq⟩ := hq
      · exact hknown q hq
      · exact ((hsound.2 out hout).2 q hq).1
  | @derive run known rule p result run' _ hp hrun ih =>
      obtain ⟨hv, hinv, hknown⟩ := ih
      have hsound := (derive_places rule hv (hknown p hp)).of_run hrun
      have hcomplete := (derive_complete rule p run hv hinv (hknown p hp)).of_run hrun
      refine ⟨hsound.1, hcomplete.2.2.1, fun q hq => ?_⟩
      obtain hq | ⟨id, hid, hq⟩ := hq
      · exact hknown q hq
      · exact ((hsound.2 id hid).2 q hq).1

/-- After any calls, every further call finds exactly the ends of its rule. -/
theorem Called.findsExactly {run : Run} {known : Position → Prop} (h : s.Called run known) :
    (∀ rule input, input ≠ ∅ → (∀ p ∈ input, known p) →
      FindsExactly (s.follow rule input) run fun q => ∃ p ∈ input, s.Ends rule p q) ∧
    ∀ rule p, known p →
      FindsExactly (s.derive rule p >>= outputOf) run (s.Ends (.nonterminal rule) p) := by
  obtain ⟨hv, hinv, hknown⟩ := h.invariant
  constructor
  · intro rule input hne hinput
    have hplaces : ∀ p ∈ input, s.source.IsPlace p := fun p hp => hknown p (hinput p hp)
    refine findsExactly_of (Ensures.mono (follow_places rule hv hplaces) ?_)
      (follow_complete rule input run hv hinv hplaces)
    intro result run' hpost out hout
    exact ⟨(hpost.2 out hout).1 hne, fun q hq => ((hpost.2 out hout).2 q hq).2⟩
  · intro rule p hp
    have hplace := hknown p hp
    refine findsExactly_of (ensures_bind.mpr (Ensures.mono (derive_places rule hv hplace) ?_))
      (derive_complete rule p run hv hinv hplace).outputOf
    intro result run' hpost
    cases result with
    | error f => exact fun out hout => by cases hout
    | ok id =>
        refine Search.ensures_outputOf.mpr fun out hout => ?_
        cases hout
        exact ⟨(hpost.2 id rfl).1, fun q hq => ((hpost.2 id rfl).2 q hq).2⟩

/-- A list derived at the start, and a comma read behind its first item. -/
theorem Called.findsExactly_lists :
    FindsExactly ((Samples.listSession "a,a").follow (.terminal 1) {⟨1, 1, 2⟩})
      (((Samples.listSession "a,a").derive 0 .start).run.run {}).2
      fun q => ∃ p ∈ ({⟨1, 1, 2⟩} : PathSet),
        (Samples.listSession "a,a").Ends (.terminal 1) p q := by
  generalize hrun : ((Samples.listSession "a,a").derive 0 .start).run.run {} = derived
  have hknown : ∀ p ∈ ({⟨1, 1, 2⟩} : PathSet),
      p = .start ∨ ∃ id, derived.1 = .ok id ∧ p ∈ derived.2.arena.output id := by
    intro p hp
    rw [SortedSet.mem_singleton.mp hp]
    refine .inr ⟨2, ok_of_toOption ?_, ?_⟩ <;> rw [← hrun] <;> decide +kernel
  have hexact := (Called.findsExactly (.derive .fresh rfl hrun)).1 (.terminal 1) {⟨1, 1, 2⟩}
    (SortedSet.ne_empty_iff.mpr ⟨_, SortedSet.mem_singleton.mpr rfl⟩) hknown
  exact hexact

end Session
end Multipath
