import Multipath.Proofs.LeftReferences
import Multipath.Proofs.PreferredTrees

/-!
Rules that are grounded never meet themselves. What a rule asks for where it is being derived, it
refers to; so no rule is asked for again inside itself where references from it on all end
(`Session.deriveWithin_grounded`), and an extraction that asks for nothing else stands on a run in
which no rule ever met itself (`Footing.secure`). The other way round, where no rule has met itself,
all that was asked for is grounded (`Run.Reliable.follow_grounds`).
-/

namespace Multipath

open Relation (TransGen)
open Search (outputOf)

/-- The rule that is asked for, if one is, is grounded there. -/
def Question.Grounded (s : Session) : Question → Prop
  | .token _ => True
  | .reference rule p => s.Grounded ⟨p, rule⟩

namespace Session

variable {s : Session} {under : Reference → Prop} {run : Run} {rule : RuleId} {p : Position}
  {depth : Nat}

/-- What an evaluation keeps at the places of the text, if the rules that it asks for do. -/
def walk (under : Reference → Prop) (asked : Question → Prop) (depth : Nat)
    (hderive : ∀ r m run, asked (.reference r m) → s.source.IsPlace m →
      run.Valid s (.places s.source) → run.Straight s under →
      Ensures (s.deriveWithin depth r m) run fun _ run' => run'.Straight s under) :
    Upkeep s fun r q => s.deriveWithin depth r q >>= outputOf where
  inv run := run.Valid s (.places s.source) ∧ run.Straight s under
  place := s.source.IsPlace
  reads p t := s.source.token p = .ok t
  refers rule := s.Ends (.nonterminal rule)
  asked
  note p h := ⟨h.1.noteFailure p, h.2.noteFailure p⟩
  read _ hp h := by
    refine ((h.1.readToken_places hp).and (h.2.readToken _)).mono fun result run' hpost => ?_
    obtain ⟨⟨hv', -, rfl⟩, hstraight, -⟩ := hpost
    refine ⟨⟨hv', hstraight⟩, fun t ht => ?_⟩
    have htoken := Except.ok.inj ht
    exact ⟨htoken, hp.of_token htoken⟩
  answer {run r m} hasked hm h := by
    refine ensures_bind.mpr (((deriveWithin_sound depth r m run h.1 (.inl hm)).and
      (hderive r m run hasked hm h.1 h.2)).mono fun result run' hpost => ?_)
    obtain ⟨⟨hv', -, hfound⟩, hstraight⟩ := hpost
    cases result with
    | error f => exact ⟨⟨hv', hstraight⟩, nofun⟩
    | ok id =>
        refine Search.ensures_outputOf.mpr ⟨⟨hv', hstraight⟩, fun out hout q hq => ?_⟩
        cases hout
        exact (hv'.ends_of_settled _ hm (hv'.known (hfound id rfl) hq)).symm

theorem deriveFresh_grounded
    (hres : ∀ r m under run, s.Grounded ⟨m, r⟩ → (∀ y, under y → TransGen s.Refers y ⟨m, r⟩) →
      s.source.IsPlace m → run.Valid s (.places s.source) → run.Straight s under →
      Ensures (s.deriveWithin depth r m) run fun _ run' => run'.Straight s under)
    (hx : s.Grounded ⟨p, rule⟩) (hunder : ∀ y, under y → TransGen s.Refers y ⟨p, rule⟩)
    (hp : s.source.IsPlace p) (hv : run.Valid s (.places s.source)) (h : run.Straight s under)
    (hnone : run.memo.find? p rule = none) :
    Ensures (s.deriveFresh (fun r q => s.deriveWithin depth r q >>= outputOf) rule p) run
      fun _ run' => run'.Straight s under := by
  suffices hmore : Ensures (s.deriveFresh (fun r q => s.deriveWithin depth r q >>= outputOf) rule p)
      run fun _ run' => run'.Valid s (.everywhere s.source) → run'.Straight s under by
    refine Ensures.mono ((deriveFresh_sound (resolver_sound depth) rule p run h.valid
      (.inl trivial) hnone).and hmore) ?_
    exact fun result run' hpost => hpost.2 hpost.1.1
  refine ensures_deriveFresh.mpr ?_
  split
  · exact fun _ => h
  · next definition hdef =>
      have hv₁ := (run.enter_records rule p).valid hv hp (by simp [hnone]) rfl (by simp)
      let u := walk (fun y => y = ⟨p, rule⟩ ∨ under y) (s.Asks definition.body p) depth
        fun r m run hasks hm hv h => by
          have hrefers : s.Refers ⟨p, rule⟩ ⟨m, r⟩ := ⟨definition, hdef, hasks⟩
          refine hres r m _ run (hx.refers hrefers) (fun y hy => ?_) hm hv h
          obtain rfl | hy := hy
          · exact .single hrefers
          · exact .tail (hunder y hy) hrefers
      refine (u.evaluateAt definition.body hp (fun _ => id)
        ⟨hv₁, h.enter hv₁.everywhere⟩).mono fun result run₂ hpost => ?_
      obtain ⟨⟨-, h₂⟩, -⟩ := hpost
      cases result with
      | error f => exact fun hv' => h₂.close (run₂.fail_records rule p f) hv' (by simp)
      | ok out => exact fun hv' => h₂.close (run₂.succeed_records rule p out) hv' (by simp)

/-- A rule that is grounded is derived without any rule meeting itself. -/
theorem deriveWithin_grounded (depth : Nat) (rule : RuleId) (p : Position)
    (under : Reference → Prop) (run : Run) (hx : s.Grounded ⟨p, rule⟩)
    (hunder : ∀ y, under y → TransGen s.Refers y ⟨p, rule⟩) (hp : s.source.IsPlace p)
    (hv : run.Valid s (.places s.source)) (h : run.Straight s under) :
    Ensures (s.deriveWithin depth rule p) run fun _ run' => run'.Straight s under := by
  have hconsult (rule : RuleId) (p : Position) (under : Reference → Prop) (run : Run)
      (hx : s.Grounded ⟨p, rule⟩) (hunder : ∀ y, under y → TransGen s.Refers y ⟨p, rule⟩)
      (h : run.Straight s under) {fresh : Search NodeId}
      (hfresh : run.memo.find? p rule = none →
        Ensures fresh run fun _ run' => run'.Straight s under) :
      Ensures (consult rule p fresh) run fun _ run' => run'.Straight s under := by
    refine ensures_consult.mpr ?_
    split
    · exact h.countMemoHit
    · exact h.countMemoHit
    · next hm =>
        -- a rule under way would refer to itself
        exact absurd (hunder _ (h.inProgress p rule hm)) hx.not_circular
    · next hnone => exact hfresh hnone
  induction depth generalizing rule p under run with
  | zero => exact hconsult rule p under run hx hunder h fun _ => ensures_throw.mpr h
  | succ depth ih =>
      exact hconsult rule p under run hx hunder h fun hnone =>
        deriveFresh_grounded (fun r m under run => ih r m under run) hx hunder hp hv h hnone

theorem derive_grounded (hx : s.Grounded ⟨p, rule⟩) (hp : s.source.IsPlace p)
    (hv : run.Valid s (.places s.source)) (h : run.Straight s fun _ => False) :
    Ensures (s.derive rule p) run fun _ run' => run'.Straight s fun _ => False :=
  ensures_derive.mpr (deriveWithin_grounded _ rule p _ run hx (fun _ => False.elim) hp hv h)

theorem follow_grounded {rule : Rule} {input : PathSet}
    (hinput : ∀ p ∈ input, s.AsksOnly (Question.Grounded s) rule p)
    (hv : run.Valid s (.places s.source)) (h : run.Straight s fun _ => False) :
    Ensures (s.follow rule input) run fun _ run' => run'.Straight s fun _ => False := by
  refine ensures_follow.mpr ?_
  by_cases hne : input = ∅
  · rw [hne]
    exact evaluate_nothing _ rule (fun _ p h => h.noteFailure p) h
  · let u := walk (s := s) (fun _ => False) (Question.Grounded s)
      (s.maxDepth - run.frames.length) fun r m run hx hm hv h =>
        deriveWithin_grounded _ r m _ run hx (fun _ => False.elim) hm hv h
    exact (u.evaluate rule hne (fun p hp => (hinput p hp).1) (fun p hp => (hinput p hp).2)
      ⟨hv, h⟩).mono fun _ _ hpost => hpost.1.2

end Session

namespace Run.Reliable

variable {s : Session} {run : Run} {rule : RuleId} {p : Position}

/-- Where no rule has met itself, all that was answered is grounded. -/
theorem grounded_of_answered (h : run.Reliable s) (hhits : run.stats.leftRecursionHits = 0)
    {depth : Nat} {x : Question} (hx : run.Answered s depth x) : x.Grounded s := by
  cases x with
  | token p => trivial
  | reference rule p =>
      obtain ⟨finding, hm, hbears⟩ | ⟨hnone, -⟩ := hx
      · refine h.founded hhits p rule finding hm ?_ hbears
        rintro rfl
        exact hbears hhits
      · exact Session.Grounded.of_none hnone

/-- What was followed, and not cut off, asks for grounded rules only. -/
theorem follow_grounds (h : run.Reliable s) {rule : Rule} {input : PathSet}
    (hinput : ∀ p ∈ input, s.source.IsPlace p) :
    Ensures (s.follow rule input) run fun result run' => run'.stats.leftRecursionHits = 0 →
      Uncut result → ∀ p ∈ input, ∀ x, s.Asks rule p x → x.Grounded s := by
  have hall := Session.evaluate_attendsAll (s.maxDepth - run.frames.length) rule input run
    h.valid.everywhere
  refine ((h.follow hinput).and (Session.ensures_follow.mpr hall)).mono
    fun result run' hpost hhits hu p hp x hasks => ?_
  obtain ⟨⟨hreliable, -⟩, hall⟩ := hpost
  have hanswered := (hall hu).1 p hp
  have hconfines := hreliable.valid.confines hreliable.thorough hhits (hinput p hp) hanswered
  exact hreliable.grounded_of_answered hhits (hanswered x (hasks.confined hconfines))

/-- So does a rule that was derived. -/
theorem derive_grounds (h : run.Reliable s) (hp : s.source.IsPlace p) :
    Ensures (s.derive rule p) run fun result run' => run'.stats.leftRecursionHits = 0 →
      Uncut result → s.Grounded ⟨p, rule⟩ := by
  rcases hrun : (s.derive rule p).run.run run with ⟨result, run'⟩
  refine Ensures.of_eq hrun fun hhits hu => ?_
  have hreliable := ((h.derive hp).of_run hrun).1
  have hrecalled := (Session.ensures_derive.mpr
    (Session.deriveWithin_recalled run' _ rule p run)).of_run hrun (.refl run') hu
  exact hreliable.grounded_of_answered hhits hrecalled.answered

end Run.Reliable

/-- A run in which no rule ever meets itself, since only grounded rules are asked for. -/
def Footing.secure (s : Session) : Footing s where
  kept run := run.Reliable s ∧ run.Straight s fun _ => False
  asked := Question.Grounded s
  entered := s.Grounded
  cut := True
  valid h := h.1.valid
  asks {x definition q} hx hdef hasks := by
    cases q with
    | token p => trivial
    | reference rule p => exact hx.refers ⟨definition, hdef, hasks⟩
  read h hp _ := ((h.1.readToken hp).and (h.2.readToken _)).mono fun _ _ hpost =>
    ⟨⟨hpost.1.1, hpost.2.1⟩, hpost.1.2⟩
  follow h hinput := ((h.1.follow fun p hp => (hinput p hp).1).and
    (Session.follow_grounded hinput h.1.valid h.2)).mono fun _ _ hpost =>
      ⟨⟨hpost.1.1, hpost.2⟩, hpost.1.2.1, .inr trivial, hpost.1.2.2⟩
  derive h hp hx := ((h.1.derive hp).and (Session.derive_grounded hx hp h.1.valid h.2)).mono
    fun _ _ hpost => ⟨⟨hpost.1.1, hpost.2⟩, hpost.1.2.1, .inr trivial,
      fun id hid => ⟨hx, hpost.1.2.2.1 id hid⟩, hpost.1.2.2.2⟩

namespace Footing.Keeps

variable {s : Session} {under : Std.TreeSet Stretch} {e : Extraction}

theorem growing (h : (secure s).Keeps under e) : (Footing.growing s).Keeps under e :=
  ⟨h.kept.1, h.valid, h.active, h.built⟩

theorem hits (h : (secure s).Keeps under e) : e.run.stats.leftRecursionHits = 0 := h.kept.2.hits

end Footing.Keeps
end Multipath
