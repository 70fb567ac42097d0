import Multipath.Proofs.Dependence

/-!
What findings rest on. A rule is evaluated after all that it asks for was answered, so where no rule
met itself every rule that a run found something out about is grounded (`Run.Founded`). Unlike in a
regular run, other rules may have been cut off by the bound on nesting.
-/

namespace Multipath

open Search (outputOf)

namespace Run

variable {s : Session} {run run' : Run} {rule : Rule} {p : Position}

/-- Where all that a rule asks is answered, and thoroughly, the run knows all that it leads to. -/
theorem Valid.confines (hv : run.Valid s (.places s.source)) (hthorough : run.ThoroughUnlessHit s)
    (hhits : run.stats.leftRecursionHits = 0) {depth : Nat} (hp : s.source.IsPlace p)
    (hall : ∀ x, run.Asks s rule p x → run.Answered s depth x) :
    s.grammar.Confines run.Reads (fun p t => s.source.token p = .ok t) run.Known
      (fun rule => s.Ends (.nonterminal rule)) rule p where
  token _ _ hasks ht := hv.reads_of_asks hp hasks (hall _ hasks) ht
  reference r m q hasks hq := by
    have hm : s.source.IsPlace m := Session.Asks.isPlace (hv.asks hp hasks) hp
    obtain ⟨finding, hfound, hbears⟩ | ⟨hnone, -⟩ := hall _ hasks
    · have hends := hthorough hhits m r finding hm hfound
      cases finding with
      | inProgress => exact absurd hhits hbears
      | succeeded id => exact hv.known hfound (hends q hq)
      | failed f => exact absurd hq (hends hbears q)
    · cases hq with
      | nonterminal hdef _ => cases hnone.symm.trans hdef

/-- Unless some rule met itself, all rules that were evaluated to an end are grounded. -/
def Founded (s : Session) (run : Run) : Prop :=
  run.stats.leftRecursionHits = 0 → ∀ p rule finding, run.memo.find? p rule = some finding →
    finding ≠ .inProgress → run.Bears finding → s.Grounded ⟨p, rule⟩

theorem founded_fresh (s : Session) : Founded s {} := by
  intro _ p rule finding hm
  simp [Memo.find?] at hm

theorem Founded.onlyReads (h : run.Founded s) (honly : run.OnlyReads run') : run'.Founded s := by
  intro hhits p rule finding hm hne hbears
  rw [honly.stats] at hhits
  rw [honly.memo] at hm
  refine h hhits p rule finding hm hne ?_
  cases finding with
  | inProgress => exact absurd rfl hne
  | succeeded id => trivial
  | failed f => exact hbears

/-- Recording a finding about a rule that is grounded, if it is found out and not cut off. -/
theorem Founded.record {rule : RuleId} {finding : Finding} (h : run.Founded s)
    (hrec : run.Records run' p rule finding)
    (hfinding : run.stats.leftRecursionHits = 0 → finding ≠ .inProgress → run.Bears finding →
      s.Grounded ⟨p, rule⟩) : run'.Founded s := by
  intro hhits q r found hm hne hbears
  rw [hrec.hits] at hhits
  have hbears' : run.Bears found := by
    cases found with
    | inProgress => exact absurd rfl hne
    | succeeded id => trivial
    | failed f => exact hbears
  rw [hrec.find?] at hm
  split at hm
  · next heq =>
      cases hm
      rw [heq.1, heq.2]
      exact hfinding hhits hne hbears'
  · exact h hhits q r found hm hne hbears'

/-- A rule whose body was attended to asks for grounded rules only. -/
theorem Founded.grounded (h : run.Founded s) (hv : run.Valid s (.places s.source))
    (hthorough : run.ThoroughUnlessHit s) (hhits : run.stats.leftRecursionHits = 0)
    {rule : RuleId} {definition : Grammar.Definition}
    (hdef : s.grammar.rule? rule = some definition) {depth : Nat} (hp : s.source.IsPlace p)
    (hall : ∀ x, run.Asks s definition.body p x → run.Answered s depth x) :
    s.Grounded ⟨p, rule⟩ := by
  refine Acc.intro _ fun y hy => ?_
  obtain ⟨definition', hdef', hasks⟩ := hy
  obtain rfl := Option.some.inj (hdef.symm.trans hdef')
  obtain ⟨finding, hm, hbears⟩ | ⟨hnone, -⟩ :=
    hall _ (hasks.confined (hv.confines hthorough hhits hp hall))
  · refine h hhits y.position y.rule finding hm ?_ hbears
    rintro rfl
    exact hbears hhits
  · exact Session.Grounded.of_none hnone

end Run

/-- The derivation relation, held against runs that are founded. -/
def Yardstick.founded (s : Session) : Yardstick s (.places s.source) :=
  { Yardstick.ends s with
    inv := fun run => run.ThoroughUnlessHit s ∧ run.Founded s
    inv_of_onlyReads := fun honly h =>
      ⟨(Yardstick.ends s).inv_of_onlyReads honly h.1, h.2.onlyReads honly⟩
    reads_eq := fun hv hp h => (Yardstick.ends s).reads_eq hv hp h.1 }

namespace Session

variable {s : Session} {run : Run}

theorem outputOf_founded {depth : Nat} (hderive : ∀ rule p run, run.Valid s (.places s.source) →
      s.source.IsPlace p → run.ThoroughUnlessHit s → run.Founded s →
      Ensures (s.deriveWithin depth rule p) run fun _ run' => run'.Founded s) :
    (Yardstick.founded s).Resolves fun r q => s.deriveWithin depth r q >>= outputOf := by
  intro rule p run hv hp hinv
  have hplace := hv.origin_of_within hp
  have hcomplete := (deriveWithin_complete depth rule p run hv hplace hinv.1).outputOf
  have hfounded : Ensures (s.deriveWithin depth rule p >>= outputOf) run
      fun _ run' => run'.Founded s := by
    refine ensures_bind.mpr ((hderive rule p run hv hplace hinv.1 hinv.2).mono ?_)
    intro result run' h
    cases result with
    | error f => exact h
    | ok id => exact Search.ensures_outputOf.mpr h
  refine Ensures.mono (hcomplete.and hfounded) fun result run' hpost => ?_
  obtain ⟨⟨hv', hg, hthorough, hall⟩, hfounded⟩ := hpost
  exact ⟨hv', hg, ⟨hthorough, hfounded⟩, hall⟩

theorem deriveFresh_founded {depth : Nat}
    (hres : (Yardstick.founded s).Resolves fun r q => s.deriveWithin depth r q >>= outputOf)
    (rule : RuleId) (p : Position) (hv : run.Valid s (.places s.source))
    (hp : s.source.IsPlace p) (hthorough : run.ThoroughUnlessHit s) (hfounded : run.Founded s)
    (hnone : run.memo.find? p rule = none) :
    Ensures (s.deriveFresh (fun r q => s.deriveWithin depth r q >>= outputOf) rule p) run
      fun _ run' => run'.Founded s := by
  refine ensures_deriveFresh.mpr ?_
  split
  · exact hfounded
  · next definition hdef =>
      have henter := run.enter_records rule p
      have hv₁ := henter.valid hv hp (by simp [hnone]) rfl (by simp)
      have hinv₁ : (Yardstick.founded s).inv (run.enter rule p) :=
        ⟨hthorough.record hv henter fun _ => trivial,
          hfounded.record henter fun _ hne _ => absurd rfl hne⟩
      have hwithin : ∀ p' ∈ ({p} : PathSet), (run.enter rule p).Within (.places s.source) p' := by
        simpa using .inl hp
      have hbody := Yardstick.evaluate_complete (fun _ => resolver_sound depth) hres
        definition.body {p} (run.enter rule p) hv₁ hwithin hinv₁
      have hall := evaluate_attendsAll depth definition.body {p} (run.enter rule p) hv₁.everywhere
      refine (Ensures.and hbody hall).mono fun result run₂ hpost => ?_
      obtain ⟨⟨hv₂, -, ⟨hthorough₂, hfounded₂⟩, -⟩, hall⟩ := hpost
      have hgrounded (hhits : run₂.stats.leftRecursionHits = 0) (hu : Uncut result) :
          s.Grounded ⟨p, rule⟩ :=
        hfounded₂.grounded hv₂ hthorough₂ hhits hdef hp
          ((hall hu).1 p (SortedSet.mem_singleton.mpr rfl))
      cases result with
      | error f =>
          exact hfounded₂.record (run₂.fail_records rule p f)
            fun hhits _ hf => hgrounded hhits (uncut_error hf)
      | ok out =>
          exact hfounded₂.record (run₂.succeed_records rule p out)
            fun hhits _ _ => hgrounded hhits (uncut_ok out)

/-- Deriving a rule leaves a run founded, whatever comes of it. -/
theorem deriveWithin_founded (depth : Nat) (rule : RuleId) (p : Position) (run : Run)
    (hv : run.Valid s (.places s.source)) (hp : s.source.IsPlace p)
    (hthorough : run.ThoroughUnlessHit s) (hfounded : run.Founded s) :
    Ensures (s.deriveWithin depth rule p) run fun _ run' => run'.Founded s := by
  have hconsult (rule : RuleId) (p : Position) (run : Run) (hfounded : run.Founded s)
      {fresh : Search NodeId} (hfresh : run.memo.find? p rule = none →
        Ensures fresh run fun _ run' => run'.Founded s) :
      Ensures (consult rule p fresh) run fun _ run' => run'.Founded s := by
    refine ensures_consult.mpr ?_
    split
    · exact hfounded
    · exact hfounded
    · exact fun hhits => absurd hhits (Nat.succ_ne_zero _)
    · next hnone => exact hfresh hnone
  induction depth generalizing rule p run with
  | zero => exact hconsult rule p run hfounded fun _ => ensures_throw.mpr hfounded
  | succ depth ih =>
      exact hconsult rule p run hfounded fun hnone =>
        deriveFresh_founded (outputOf_founded ih) rule p hv hp hthorough hfounded hnone

theorem derive_founded (rule : RuleId) {p : Position} (hv : run.Valid s (.places s.source))
    (hp : s.source.IsPlace p) (hthorough : run.ThoroughUnlessHit s) (hfounded : run.Founded s) :
    Ensures (s.derive rule p) run fun _ run' => run'.Founded s :=
  ensures_derive.mpr (deriveWithin_founded _ rule p run hv hp hthorough hfounded)

theorem follow_founded (rule : Rule) {input : PathSet} (hv : run.Valid s (.places s.source))
    (hplaces : ∀ p ∈ input, s.source.IsPlace p) (hthorough : run.ThoroughUnlessHit s)
    (hfounded : run.Founded s) :
    Ensures (s.follow rule input) run fun _ run' => run'.Founded s := by
  have hfollow := Yardstick.follow_complete
    (fun depth => outputOf_founded (deriveWithin_founded depth)) rule input run hv
    (fun p hp => .inl (hplaces p hp)) ⟨hthorough, hfounded⟩
  exact Ensures.mono hfollow fun _ _ hpost => hpost.2.2.1.2

end Session
end Multipath
