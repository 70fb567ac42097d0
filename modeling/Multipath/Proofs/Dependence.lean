import Mathlib.Logic.Relation
import Multipath.Proofs.Attention
import Multipath.Proofs.Exactness

/-!
What a derivation depends on. A rule at a position refers to what its body asks for from there,
which the derivation relation alone settles. If such references never go round in a circle from it
on, the rule is grounded there, and whatever a run finds out about it is all there is, no matter
what else is being derived (`Run.Regular`). Where no rule met itself, all that was found is
grounded.
-/

namespace Multipath

open Relation (ReflTransGen TransGen)
open Search (outputOf readToken)

namespace Session

variable {s : Session} {rule : Rule} {p : Position} {x y : Reference} {q : Question}

/-- What a rule asks from a position by the derivation relation. -/
abbrev Asks (s : Session) : Rule → Position → Question → Prop :=
  s.grammar.Asks (fun p t => s.source.token p = .ok t) fun rule => s.Ends (.nonterminal rule)

theorem Asks.isPlace (h : s.Asks rule p q) (hp : s.source.IsPlace p) :
    s.source.IsPlace q.position :=
  h.carries s.source.IsPlace hp (fun _ _ ht hp => hp.of_token ht) fun _ _ _ hq hp => hq.isPlace hp

/-- The body of the one asks for the other. -/
def Refers (s : Session) (x y : Reference) : Prop :=
  ∃ definition, s.grammar.rule? x.rule = some definition ∧
    s.Asks definition.body x.position (.reference y.rule y.position)

/-- References from there on all end. -/
def Grounded (s : Session) (x : Reference) : Prop := Acc (fun y x => s.Refers x y) x

theorem Grounded.of_none (h : s.grammar.rule? x.rule = none) : s.Grounded x := by
  refine Acc.intro x fun y hy => ?_
  obtain ⟨definition, hdef, -⟩ := hy
  cases h.symm.trans hdef

theorem Grounded.refers (h : s.Grounded x) (hxy : s.Refers x y) : s.Grounded y := h.inv hxy

/-- Nothing that is grounded refers back to itself. -/
theorem Grounded.not_circular (h : s.Grounded x) : ¬TransGen s.Refers x x := by
  induction h with
  | intro x _ ih =>
      intro hxx
      obtain ⟨y, hxy, hyx⟩ := TransGen.head'_iff.mp hxx
      exact ih y hxy (TransGen.tail' hyx hxy)

end Session

namespace Run

variable {s : Session} {under : Reference → Prop} {run run' : Run}

/-- Only the rules named are being derived, nothing was cut off, and what is grounded was found
out in full; that is everything, if no rule met itself. -/
structure Regular (s : Session) (under : Reference → Prop) (run : Run) : Prop where
  valid : run.Valid s (.places s.source)
  inProgress : ∀ p rule, run.memo.find? p rule = some .inProgress → under ⟨p, rule⟩
  uncut : ∀ p rule f, run.memo.find? p rule = some (.failed f) → f.isAbsorbable = true
  grounded : run.stats.leftRecursionHits = 0 → ∀ p rule finding,
    run.memo.find? p rule = some finding → finding ≠ .inProgress → s.Grounded ⟨p, rule⟩
  thorough : ∀ p rule finding, run.memo.find? p rule = some finding → s.Grounded ⟨p, rule⟩ →
    run.Thorough s rule p finding

theorem regular_fresh (s : Session) : Regular s under {} where
  valid := valid_empty
  inProgress p rule h := by simp [Memo.find?] at h
  uncut p rule f h := by simp [Memo.find?] at h
  grounded _ p rule finding h := by simp [Memo.find?] at h
  thorough p rule finding h := by simp [Memo.find?] at h

/-- What a rule asks by the knowledge of a run it asks by the derivation relation. -/
theorem Valid.asks {rule : Rule} {p : Position} {x : Question}
    (hv : run.Valid s (.places s.source)) (hp : s.source.IsPlace p) (hasks : run.Asks s rule p x) :
    s.Asks rule p x :=
  hasks.confined {
    token := fun _ _ hx ht => hv.token_of_reads (Session.Asks.isPlace hx hp) ht
    reference := fun _ _ _ hx hk => (hv.ends_of_settled _ (Session.Asks.isPlace hx hp) hk).1 }

/-- A token that a rule asks for is read where that was answered. -/
theorem Valid.reads_of_asks {rule : Rule} {p m : Position} {t : Token} {depth : Nat}
    (hv : run.Valid s (.places s.source)) (hp : s.source.IsPlace p)
    (hasks : run.Asks s rule p (.token m)) (hanswered : run.Answered s depth (.token m))
    (ht : s.source.token m = .ok t) : run.Reads m t := by
  have hm : s.source.IsPlace m := Session.Asks.isPlace (hv.asks hp hasks) hp
  obtain ⟨found, hcached⟩ := hanswered
  obtain ⟨m', hm', hi, htoken⟩ := hv.readFrom _ _ hcached
  rw [hm'.eq_of_index hm hi, ht] at htoken
  rwa [← htoken] at hcached

namespace Regular

theorem onlyReads (h : run.Regular s under) (honly : run.OnlyReads run')
    (hv : run'.Valid s (.places s.source)) : run'.Regular s under where
  valid := hv
  inProgress := by
    rw [honly.memo]
    exact h.inProgress
  uncut := by
    rw [honly.memo]
    exact h.uncut
  grounded := by
    rw [honly.memo, honly.stats]
    exact h.grounded
  thorough p rule finding hm hx := by
    rw [honly.memo] at hm
    have hold := h.thorough p rule finding hm hx
    cases finding with
    | inProgress => trivial
    | failed f => exact hold
    | succeeded id =>
        intro q hq
        rw [honly.arena]
        exact hold q hq

theorem countMemoHit (h : run.Regular s under) : run.countMemoHit.Regular s under :=
  ⟨h.valid.countMemoHit, h.inProgress, h.uncut, h.grounded, h.thorough⟩

theorem countLeftRecursion (h : run.Regular s under) : run.countLeftRecursion.Regular s under :=
  ⟨h.valid.countLeftRecursion, h.inProgress, h.uncut,
    fun hhits => absurd hhits (Nat.succ_ne_zero _), h.thorough⟩

section Records
variable {p : Position} {rule : RuleId} {finding : Finding}

/-- What was thorough stays so when a finding is recorded about something else. -/
theorem thorough_record (h : run.Regular s under) (hrec : run.Records run' p rule finding)
    {q : Position} {r : RuleId} {found : Finding} (hm : run.memo.find? q r = some found)
    (hold : run.Thorough s r q found) : run'.Thorough s r q found := by
  cases found with
  | inProgress => trivial
  | failed f => exact hold
  | succeeded id =>
      obtain ⟨out, hd, -⟩ := h.valid.settled q r id hm
      intro q' hq'
      have hmem := hold q' hq'
      rwa [Arena.output_of_derived hd, ← Arena.output_of_derived (hrec.nodes _ _ hd)] at hmem

theorem enter (h : run.Regular s under) (hv : (run.enter rule p).Valid s (.places s.source)) :
    (run.enter rule p).Regular s fun y => y = ⟨p, rule⟩ ∨ under y := by
  have hrec := run.enter_records rule p
  refine ⟨hv, fun q r hm => ?_, fun q r f hm => ?_, fun hhits q r found hm hne => ?_,
    fun q r found hm hx => ?_⟩
  all_goals
    rw [hrec.find?] at hm
    split at hm
  · next heq => exact .inl (by rw [heq.1, heq.2])
  · exact .inr (h.inProgress q r hm)
  · cases hm
  · exact h.uncut q r f hm
  · cases hm
    exact absurd rfl hne
  · exact h.grounded hhits q r found hm hne
  · cases hm
    trivial
  · exact h.thorough_record hrec hm (h.thorough q r found hm hx)

/-- The innermost derivation ends, not cut off. -/
theorem close (h : run.Regular s fun y => y = ⟨p, rule⟩ ∨ under y)
    (hrec : run.Records run' p rule finding) (hv : run'.Valid s (.places s.source))
    (hsettled : finding ≠ .inProgress) (huncut : ∀ f, finding = .failed f → f.isAbsorbable = true)
    (hfinding : s.Grounded ⟨p, rule⟩ ∨ run.stats.leftRecursionHits = 0 →
      s.Grounded ⟨p, rule⟩ ∧ run'.Thorough s rule p finding) : run'.Regular s under := by
  refine ⟨hv, fun q r hm => ?_, fun q r f hm => ?_, fun hhits q r found hm hne => ?_,
    fun q r found hm hx => ?_⟩
  all_goals
    rw [hrec.find?] at hm
    split at hm
  · exact absurd (Option.some.inj hm) hsettled
  · next hne =>
      refine (h.inProgress q r hm).resolve_left fun heq => hne ?_
      cases heq
      exact ⟨rfl, rfl⟩
  · exact huncut f (Option.some.inj hm)
  · exact h.uncut q r f hm
  · next heq =>
      obtain ⟨rfl, rfl⟩ := heq
      exact (hfinding (.inr (hrec.hits ▸ hhits))).1
  · exact h.grounded (hrec.hits ▸ hhits) q r found hm hne
  · next heq =>
      obtain ⟨rfl, rfl⟩ := heq
      cases hm
      exact (hfinding (.inl hx)).2
  · exact h.thorough_record hrec hm (h.thorough q r found hm hx)

end Records

section Attended
variable {p : Position} {rule : RuleId} {definition : Grammar.Definition} {depth : Nat}
  {result : Except Failure PathSet}

section Body
variable (h : run.Regular s under) (hp : s.source.IsPlace p)
  (hdef : s.grammar.rule? rule = some definition)
  (hunder : ∀ y, under y → ReflTransGen s.Refers y ⟨p, rule⟩)
  (hall : s.AttendsAll run depth definition.body {p} result)
  (hx : s.Grounded ⟨p, rule⟩ ∨ run.stats.leftRecursionHits = 0)
include h hp hdef hunder hall hx

/-- What the body asked for is grounded, and all of it is known: it was not still being derived. -/
theorem known_of_asks {r : RuleId} {m : Position}
    (hasks : run.Asks s definition.body p (.reference r m)) :
    s.Grounded ⟨m, r⟩ ∧ ∀ q, s.Ends (.nonterminal r) m q → run.Known r m q := by
  have hrefers : s.Refers ⟨p, rule⟩ ⟨m, r⟩ := ⟨definition, hdef, h.valid.asks hp hasks⟩
  obtain ⟨finding, hm, hbears⟩ | ⟨hnone, -⟩ := hall.1 p (SortedSet.mem_singleton.mpr rfl) _ hasks
  · have hsettled : finding ≠ .inProgress := by
      rintro rfl
      have hx := hx.resolve_right hbears
      exact hx.not_circular (TransGen.head' hrefers (hunder _ (h.inProgress m r hm)))
    have hy : s.Grounded ⟨m, r⟩ := by
      obtain hx | hhits := hx
      · exact hx.refers hrefers
      · exact h.grounded hhits m r finding hm hsettled
    refine ⟨hy, fun q hq => ?_⟩
    have hthorough := h.thorough m r finding hm hy
    cases finding with
    | inProgress => exact absurd rfl hsettled
    | succeeded id => exact h.valid.known hm (hthorough q hq)
    | failed f => exact absurd hq (hthorough hbears q)
  · refine ⟨.of_none hnone, fun q hq => ?_⟩
    cases hq with
    | nonterminal hdef' _ => cases hnone.symm.trans hdef'

/-- The body leads nowhere but where the run knows it to lead. -/
theorem confines : s.grammar.Confines run.Reads (fun p t => s.source.token p = .ok t) run.Known
    (fun rule => s.Ends (.nonterminal rule)) definition.body p where
  token _ _ hasks ht :=
    h.valid.reads_of_asks hp hasks (hall.1 p (SortedSet.mem_singleton.mpr rfl) _ hasks) ht
  reference _ _ q hasks hq := (h.known_of_asks hp hdef hunder hall hx hasks).2 q hq

/-- A rule that was evaluated is grounded if all that it asked for is, and then nothing was missed:
of what it asked for nothing was still being derived. -/
theorem attended : s.Grounded ⟨p, rule⟩ ∧ Answers result (s.Ends (.nonterminal rule) p) := by
  have hconfines := h.confines hp hdef hunder hall hx
  refine ⟨Acc.intro _ fun y hy => ?_, hall.2.mono fun q hq => ?_⟩
  · obtain ⟨definition', hdef', hasks⟩ := hy
    obtain rfl := Option.some.inj (hdef.symm.trans hdef')
    exact (h.known_of_asks hp hdef hunder hall hx (hasks.confined hconfines)).1
  · cases hq with
    | nonterminal hdef' hends =>
        obtain rfl := Option.some.inj (hdef.symm.trans hdef')
        exact ⟨p, SortedSet.mem_singleton.mpr rfl,
          (Session.leads_of_ends hends).confined hconfines⟩

end Body
end Attended

end Regular
end Run

namespace Session

variable {s : Session} {under : Reference → Prop} {run : Run}

/-- What a rule asks for is answered by the derivation relation, as far as it is answered. -/
def inquiry (resolve : Resolver) {definition : Grammar.Definition} {rule : RuleId} {p : Position}
    (hdef : s.grammar.rule? rule = some definition) (hp : s.source.IsPlace p)
    (hres : ∀ r m run, s.Refers ⟨p, rule⟩ ⟨m, r⟩ → s.source.IsPlace m → run.Regular s under →
      Ensures (resolve r m) run (UnlessCut (Run.Regular s under) (fun _ => True)
        fun out => ∀ q ∈ out, s.Ends (.nonterminal r) m q)) : Inquiry s resolve where
  reads p t := s.source.token p = .ok t
  refers rule := s.Ends (.nonterminal rule)
  asked := s.Asks definition.body p
  inv := Run.Regular s under
  fails _ := True
  noPath _ _ := trivial
  noteFailure q h := h.onlyReads (.noteFailure _ q) (h.valid.noteFailure q)
  read {m run} hasked h := by
    have hm : s.source.IsPlace m := Asks.isPlace hasked hp
    refine Ensures.mono (readToken_spec h.valid (.inl hm)) fun result run' hpost => ?_
    obtain ⟨hv, honly, found, rfl, hcached⟩ := hpost
    refine ⟨h.onlyReads honly hv, found, rfl, fun t ht => ?_⟩
    rw [ht] at hcached
    exact hv.token_of_reads hm hcached
  answer {r m run} hasked h := hres r m run ⟨definition, hdef, hasked⟩ (Asks.isPlace hasked hp) h

theorem outputOf_regular {depth : Nat} {rule : RuleId} {p : Position} (hp : s.source.IsPlace p)
    (h : run.Regular s under)
    (hderive : Ensures (s.deriveWithin depth rule p) run fun result run' =>
      Uncut result → run'.Regular s under) :
    Ensures (s.deriveWithin depth rule p >>= outputOf) run
      (UnlessCut (Run.Regular s under) (fun _ => True)
        fun out => ∀ q ∈ out, s.Ends (.nonterminal rule) p q) := by
  refine ensures_bind.mpr (((deriveWithin_sound depth rule p run h.valid (.inl hp)).and
    hderive).mono fun result run' hpost => ?_)
  obtain ⟨⟨hv', -, hfound⟩, hregular⟩ := hpost
  cases result with
  | error f => exact ⟨trivial, fun hf => hregular (uncut_error hf)⟩
  | ok id =>
      refine Search.ensures_outputOf.mpr ⟨hregular (uncut_ok id), fun q hq => ?_⟩
      exact (hv'.ends_of_settled _ hp (hv'.known (hfound id rfl) hq)).1

theorem deriveFresh_regular {depth : Nat} (rule : RuleId) {p : Position}
    (hres : ∀ r m under run, (∀ y, under y → TransGen s.Refers y ⟨m, r⟩) → s.source.IsPlace m →
      run.Regular s under → Ensures (s.deriveWithin depth r m) run fun result run' =>
        Uncut result → run'.Regular s under)
    (hunder : ∀ y, under y → TransGen s.Refers y ⟨p, rule⟩) (hp : s.source.IsPlace p)
    (h : run.Regular s under) (hnone : run.memo.find? p rule = none) :
    Ensures (s.deriveFresh (fun r q => s.deriveWithin depth r q >>= outputOf) rule p) run
      fun result run' => Uncut result → run'.Regular s under := by
  suffices hmore : Ensures (s.deriveFresh (fun r q => s.deriveWithin depth r q >>= outputOf) rule p)
      run fun result run' => run'.Valid s (.places s.source) → Uncut result →
        run'.Regular s under by
    refine Ensures.mono ((deriveFresh_sound (resolver_sound depth) rule p run h.valid (.inl hp)
      hnone).and hmore) ?_
    exact fun result run' hpost => hpost.2 hpost.1.1
  refine ensures_deriveFresh.mpr ?_
  split
  · exact fun _ _ => h
  · next definition hdef =>
      have henter := run.enter_records rule p
      have hv₁ := henter.valid h.valid hp (by simp [hnone]) rfl (by simp)
      have hunder₁ : ∀ y, y = ⟨p, rule⟩ ∨ under y → ReflTransGen s.Refers y ⟨p, rule⟩ := by
        intro y hy
        obtain rfl | hy := hy
        · exact .refl
        · exact (hunder y hy).to_reflTransGen
      have hbody := (inquiry (fun r q => s.deriveWithin depth r q >>= outputOf) hdef hp
        fun r m run hrefers hm h => outputOf_regular hm h (hres r m _ run
          (fun y hy => TransGen.tail' (hunder₁ y hy) hrefers) hm h)).evaluate definition.body {p}
        (run.enter rule p) (fun q hq x hx => SortedSet.mem_singleton.mp hq ▸ hx) (h.enter hv₁)
      have hall := evaluate_attendsAll depth definition.body {p} (run.enter rule p) hv₁.everywhere
      refine (Ensures.and hbody hall).mono ?_
      intro result run₂ hpost
      obtain ⟨hregular, hall⟩ := hpost
      cases result with
      | error f =>
          intro hv' hu
          have hf := hu f rfl
          have h₂ := hregular.2 hf
          refine h₂.close (run₂.fail_records rule p f) hv' (by simp) (fun g hg => ?_) fun hx => ?_
          · cases hg
            exact hf
          · exact h₂.attended hp hdef hunder₁ (hall (uncut_error hf)) hx
      | ok out =>
          intro hv' _
          have h₂ := hregular.1
          refine h₂.close (run₂.succeed_records rule p out) hv' (by simp) (by simp) fun hx => ?_
          obtain ⟨hgrounded, hanswers⟩ := h₂.attended hp hdef hunder₁ (hall (uncut_ok out)) hx
          refine ⟨hgrounded, fun q hq => ?_⟩
          rw [Arena.output_of_derived (by rw [Run.derived?_succeed, if_pos rfl])]
          exact hanswers q hq

/-- Unless it is cut off, a derivation leaves a run as regular as it was, if it is one that every
rule being derived asks for. -/
theorem deriveWithin_regular (depth : Nat) (rule : RuleId) (p : Position)
    (under : Reference → Prop) (run : Run)
    (hunder : ∀ y, under y → TransGen s.Refers y ⟨p, rule⟩) (hp : s.source.IsPlace p)
    (h : run.Regular s under) :
    Ensures (s.deriveWithin depth rule p) run fun result run' =>
      Uncut result → run'.Regular s under := by
  have hconsult (rule : RuleId) (p : Position) (run : Run) (under : Reference → Prop)
      (h : run.Regular s under) (fresh : Search NodeId)
      (hfresh : run.memo.find? p rule = none → Ensures fresh run fun result run' =>
        Uncut result → run'.Regular s under) :
      Ensures (consult rule p fresh) run fun result run' =>
        Uncut result → run'.Regular s under := by
    refine ensures_consult.mpr ?_
    split
    · exact fun _ => h.countMemoHit
    · exact fun _ => h.countMemoHit
    · exact fun _ => h.countLeftRecursion
    · next hnone => exact hfresh hnone
  induction depth generalizing rule p under run with
  | zero =>
      exact hconsult rule p run under h _ fun _ => ensures_throw.mpr fun hu =>
        absurd (hu _ rfl) Bool.false_ne_true
  | succ depth ih =>
      exact hconsult rule p run under h _ fun hnone => deriveFresh_regular rule
        (fun r m under run hunder hm h => ih r m under run hunder hm h) hunder hp h hnone

/-- A first derivation, unless it is cut off, leaves a regular run without anything in progress. -/
theorem derive_regular {rule : RuleId} {p : Position} (hp : s.source.IsPlace p)
    {result : Except Failure NodeId} (hrun : (s.derive rule p).run.run {} = (result, run))
    (hu : Uncut result) : run.Regular s fun _ => False :=
  (ensures_derive.mpr (deriveWithin_regular _ rule p (fun _ => False) {} (fun _ => False.elim) hp
    (Run.regular_fresh s))).of_run hrun hu

end Session
end Multipath
