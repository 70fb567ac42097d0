import Multipath.Proofs.Exactness
import Multipath.Proofs.Plain

/-!
Remembering is transparent. A run that remembers its findings goes along with plain derivation: the
same paths, the same failures and the same furthest place, as long as plain derivation is not cut
off. The invariant ties every finding to what a plain derivation of it would end in and would note
(`Session.Faithful`); the rules being derived are those whose plain derivation needs more depth than
is left, so none of them is met again.
-/

namespace Multipath

open Search (Mirrors outcome outputOf)

namespace Session

variable {s : Session}

/-- A plain derivation ends in `result`, and what it would note is noted. -/
def Answered (s : Session) (furthest : Option Position) (rule : RuleId) (p : Position)
    (result : Except Failure PathSet) : Prop :=
  ∃ n latest, s.Concludes n rule p result latest ∧ furthestOf furthest latest = furthest

/-- A finding says what a plain derivation would, or belongs to a rule that was opened. -/
def Faithful (s : Session) (opened : RuleId → Position → Prop) (run : Run) (rule : RuleId)
    (p : Position) : Finding → Prop
  | .inProgress => opened rule p
  | .succeeded id => ∃ out, run.arena.derived? id = some (rule, p, out) ∧
      s.Answered run.furthest rule p (.ok out)
  | .failed f => s.Answered run.furthest rule p (.error f)

/-- A run that remembers, below the rules `stack`, those at places that are `opened` being under
way, after failures noted up to `furthest`. -/
structure Tracks (s : Session) (stack : List RuleId) (opened : RuleId → Position → Prop)
    (furthest : Option Position) (run : Run) : Prop where
  rules : run.rules = stack
  readFrom : run.lexer.ReadFrom s.source s.source.IsPlace
  furthest : run.furthest = furthest
  hits : run.stats.leftRecursionHits = 0
  faithful : ∀ p rule finding, run.memo.find? p rule = some finding →
    s.Faithful opened run rule p finding

/-- A run that remembers and a plain one, at the same point of the same evaluation. -/
structure Follows (s : Session) (stack : List RuleId) (opened : RuleId → Position → Prop)
    (run plain : Run) : Prop where
  tracks : s.Tracks stack opened plain.furthest run
  rules : plain.rules = stack
  readFrom : plain.lexer.ReadFrom s.source s.source.IsPlace

section Tracks
variable {stack : List RuleId} {opened opened' : RuleId → Position → Prop}
  {f f' latest : Option Position} {run run' plain : Run} {rule : RuleId} {p : Position}
  {finding : Finding}

theorem Answered.noted {result : Except Failure PathSet} (h : s.Answered f rule p result)
    (f' : Option Position) : s.Answered (furthestOf f f') rule p result := by
  obtain ⟨n, latest, hc, hnoted⟩ := h
  exact ⟨n, latest, hc, by rw [Furthest.swap, hnoted]⟩

theorem Faithful.mono (h : s.Faithful opened run rule p finding)
    (hopened : finding = .inProgress → opened rule p → opened' rule p)
    (hnodes : ∀ id x, run.arena.derived? id = some x → run'.arena.derived? id = some x)
    (hnoted : run'.furthest = furthestOf run.furthest f) :
    s.Faithful opened' run' rule p finding := by
  cases finding with
  | inProgress => exact hopened rfl h
  | succeeded id =>
      obtain ⟨out, hd, hanswered⟩ := h
      exact ⟨out, hnodes _ _ hd, hnoted ▸ hanswered.noted f⟩
  | failed failure =>
      have hanswered := Answered.noted h f
      rwa [← hnoted] at hanswered

theorem tracks_fresh (s : Session) : s.Tracks [] (fun _ _ => False) none {} where
  rules := rfl
  readFrom := Lexer.readFrom_empty
  furthest := rfl
  hits := rfl
  faithful p rule finding h := by simp [Memo.find?] at h

theorem Tracks.noteFailure (h : s.Tracks stack opened f run) (q : Position) :
    s.Tracks stack opened (furthestOf f (some q)) (run.noteFailure q) where
  rules := h.rules
  readFrom := h.readFrom
  furthest := by rw [Run.furthest_noteFailure, h.furthest]
  hits := h.hits
  faithful p rule finding hm := (h.faithful p rule finding hm).mono (fun _ ho => ho)
    (fun _ _ hd => hd) (run.furthest_noteFailure q)

theorem Tracks.lexer (h : s.Tracks stack opened f run) {l : Lexer}
    (hl : l.ReadFrom s.source s.source.IsPlace) :
    s.Tracks stack opened f { run with lexer := l } :=
  ⟨h.rules, hl, h.furthest, h.hits, h.faithful⟩

theorem Tracks.countMemoHit (h : s.Tracks stack opened f run) :
    s.Tracks stack opened f run.countMemoHit :=
  ⟨h.rules, h.readFrom, h.furthest, h.hits, h.faithful⟩

theorem Follows.couples : s.Couples (s.Follows stack opened) where
  rules h := by rw [Run.head?_rules, Run.head?_rules, h.tracks.rules, h.rules]
  notes p h :=
    ⟨by rw [Run.furthest_noteFailure]; exact h.tracks.noteFailure p, h.rules, h.readFrom⟩
  reads h hp := readToken_mirrors hp h.tracks.readFrom h.readFrom
    fun _ _ hl hl' => ⟨h.tracks.lexer hl, h.rules, hl'⟩

/-- Marks a rule at a position as opened. -/
def Opens (opened : RuleId → Position → Prop) (rule : RuleId) (p : Position) :
    RuleId → Position → Prop :=
  fun r q => opened r q ∨ r = rule ∧ q = p

theorem Tracks.enter (h : s.Tracks stack opened f run) (rule : RuleId) (p : Position) :
    s.Tracks (rule :: stack) (Opens opened rule p) f (run.enter rule p) where
  rules := congrArg (rule :: ·) h.rules
  readFrom := h.readFrom
  furthest := h.furthest
  hits := h.hits
  faithful q r finding hm := by
    rw [(run.enter_records rule p).find?] at hm
    split at hm
    · next heq =>
        cases hm
        exact .inr ⟨heq.2, heq.1⟩
    · exact (h.faithful q r finding hm).mono (fun _ ho => .inl ho) (fun _ _ hd => hd)
        (Furthest.none_right _).symm

/-- Closes the innermost rule with a finding. -/
theorem Tracks.close (h : s.Tracks (rule :: stack) (Opens opened rule p) f run)
    (hrecords : run.Records run' p rule finding) (hrules : run'.rules = run.rules.tail)
    (hfurthest : run'.furthest = run.furthest) (hfinding : s.Faithful opened run' rule p finding) :
    s.Tracks stack opened f run' where
  rules := by rw [hrules, h.rules, List.tail_cons]
  readFrom := hrecords.lexer ▸ h.readFrom
  furthest := hfurthest.trans h.furthest
  hits := hrecords.hits.trans h.hits
  faithful q r found hm := by
    rw [hrecords.find?] at hm
    split at hm
    · next heq =>
        obtain ⟨rfl, rfl⟩ := heq
        cases hm
        exact hfinding
    · next hne =>
        refine (h.faithful q r found hm).mono (fun _ ho => ho.resolve_right fun heq => ?_)
          hrecords.nodes (hfurthest.trans (Furthest.none_right _).symm)
        exact hne ⟨heq.2, heq.1⟩

end Tracks

/-- Plain derivation of what was opened takes more depth than `n`. -/
def OutOfReach (s : Session) (n : Nat) (opened : RuleId → Position → Prop) : Prop :=
  ∀ r q, opened r q → s.source.IsPlace q ∧ ∀ result latest, ¬s.Concludes n r q result latest

theorem OutOfReach.mono {n m : Nat} {opened : RuleId → Position → Prop} (hnm : n ≤ m)
    (h : s.OutOfReach m opened) : s.OutOfReach n opened := by
  intro r q hopened
  obtain ⟨hq, hdeep⟩ := h r q hopened
  exact ⟨hq, fun result latest hc => hdeep result latest (hc.mono hnm hq)⟩

theorem OutOfReach.opens {n : Nat} {opened : RuleId → Position → Prop} {rule : RuleId}
    {p : Position} (h : s.OutOfReach n opened) (hp : s.source.IsPlace p)
    (hdeep : ∀ result latest, ¬s.Concludes n rule p result latest) :
    s.OutOfReach n (Opens opened rule p) := by
  intro r q hopened
  obtain ho | ⟨rfl, rfl⟩ := hopened
  · exact h r q ho
  · exact ⟨hp, hdeep⟩

theorem outOfReach_none (n : Nat) : s.OutOfReach n fun _ _ => False := fun _ _ h => h.elim

/-- Whatever a plain derivation of depth `n` ends in, `x` ends in as well, and notes as much. -/
def CatchesUp (s : Session) (n : Nat) (x : Resolver) : Prop :=
  ∀ stack opened f run rule p result latest, s.source.IsPlace p → s.OutOfReach n opened →
    s.Tracks stack opened f run → s.Concludes n rule p result latest →
    Ensures (x rule p) run fun result' after =>
      result' = result ∧ s.Tracks stack opened (furthestOf f latest) after

/-- Then it answers references as plain derivation does. -/
theorem CatchesUp.resolveAlike {n : Nat} {x : Resolver} (h : s.CatchesUp n x)
    {stack : List RuleId} {opened : RuleId → Position → Prop} (hopened : s.OutOfReach n opened) :
    s.ResolveAlike (s.Follows stack opened) x (s.plainly n) := by
  intro rule p run plain hp hrel
  rcases hrun : (s.plainly n rule p).run.run plain with ⟨result, after'⟩
  refine Ensures.of_eq hrun fun hu => ?_
  obtain ⟨latest, hc⟩ := (plainly_concludes n rule hp hrel.readFrom).of_run hrun hu
  obtain ⟨-, hfurthest, hrules, hread, hplaced⟩ :=
    (hc.ensures (Nat.le_refl n) hp hrel.readFrom).of_run hrun
  refine Ensures.mono (h stack opened _ run rule p result latest hp hopened hrel.tracks hc) ?_
  intro result' after hpost
  exact ⟨hpost.1, ⟨hfurthest ▸ hpost.2, hrules.trans hrel.rules, hread⟩, hplaced⟩

section CatchesUp
variable {stack : List RuleId} {opened : RuleId → Position → Prop} {f latest : Option Position}
  {run : Run} {rule : RuleId} {p : Position} {n : Nat} {result : Except Failure PathSet}

/-- A finding that is there is what the plain derivation ends in, and all it would note is noted. -/
theorem Tracks.consulted (h : s.Tracks stack opened f run) (hp : s.source.IsPlace p)
    (hc : s.Concludes n rule p result latest) (hopened : ¬opened rule p) {fresh : Search NodeId}
    (hfresh : run.memo.find? p rule = none → Ensures (fresh >>= outputOf) run fun result' after =>
      result' = result ∧ s.Tracks stack opened (furthestOf f latest) after) :
    Ensures (consult rule p fresh >>= outputOf) run fun result' after =>
      result' = result ∧ s.Tracks stack opened (furthestOf f latest) after := by
  have hnoted {m : Nat} {result' latest'} (hc' : s.Concludes m rule p result' latest')
      (hfurthest : furthestOf run.furthest latest' = run.furthest) :
      result' = result ∧ s.Tracks stack opened (furthestOf f latest) run.countMemoHit := by
    obtain ⟨hresult, rfl⟩ := hc.agree hc' hp
    rw [← h.furthest, hfurthest, h.furthest]
    exact ⟨hresult, h.countMemoHit⟩
  refine ensures_bind.mpr (ensures_consult.mpr ?_)
  cases hm : run.memo.find? p rule with
  | none => exact ensures_bind.mp (hfresh hm)
  | some finding =>
      have hfaithful := h.faithful p rule finding hm
      cases finding with
      | inProgress => exact absurd hfaithful hopened
      | failed failure =>
          obtain ⟨m, latest', hc', hfurthest⟩ := hfaithful
          exact hnoted hc' hfurthest
      | succeeded id =>
          obtain ⟨out, hd, m, latest', hc', hfurthest⟩ := hfaithful
          have hout : run.countMemoHit.arena.output id = out := Arena.output_of_derived hd
          refine Search.ensures_outputOf.mpr ?_
          rw [hout]
          exact hnoted hc' hfurthest

/-- A rule that needs one level more than `n` is worked out alike when references of depth `n`
are. -/
theorem Tracks.fresh (h : s.Tracks stack opened f run) (hp : s.source.IsPlace p)
    (hc : s.Concludes (n + 1) rule p result latest) {x : Resolver} (hx : s.CatchesUp n x)
    (hopened : s.OutOfReach n (Opens opened rule p)) :
    Ensures (s.deriveFresh x rule p >>= outputOf) run fun result' after =>
      result' = result ∧ s.Tracks stack opened (furthestOf f latest) after := by
  -- a plain run at the same point, which has read nothing
  obtain ⟨plain, hrules, hfurthest, hread⟩ : ∃ plain : Run, plain.rules = stack ∧
      plain.furthest = f ∧ plain.lexer.ReadFrom s.source s.source.IsPlace :=
    ⟨{ frames := run.frames, furthest := f }, h.rules, rfl, Lexer.readFrom_empty⟩
  have hplain := hc.ensures (Nat.le_refl _) hp hread
  rw [plainly] at hplain
  unfold deriveFresh
  cases hdef : s.grammar.rule? rule with
  | none =>
      rw [hdef] at hplain
      obtain ⟨rfl, hlatest, -, -⟩ := ensures_throw.mp hplain
      rw [← hfurthest, ← hlatest, hfurthest]
      exact ensures_bind.mpr (ensures_throw.mpr ⟨rfl, h⟩)
  | some definition =>
      rw [hdef] at hplain
      have hrel : s.Follows (rule :: stack) (Opens opened rule p) (run.enter rule p)
          (plain.push rule) :=
        ⟨hfurthest.symm ▸ h.enter rule p, by rw [Run.rules_push, hrules], hread⟩
      have hmirrors := evaluate_mirrors Follows.couples (hx.resolveAlike hopened) definition.body
        {p} _ _ (Source.placed_singleton hp) hrel
      rcases hbody : (s.evaluate (s.plainly n) definition.body {p}).run.run (plain.push rule)
        with ⟨result', plain'⟩
      obtain ⟨rfl, hlatest, -, -, -⟩ := (Search.ensures_framed.mp hplain).of_run hbody
      refine ensures_bind.mpr (ensures_bind.mpr (ensures_modify.mpr (ensures_bind.mpr
        (Search.ensures_outcome.mpr ?_))))
      refine Ensures.mono (hmirrors.of_run hbody hc.1) fun r after hpost => ?_
      obtain ⟨rfl, hfollows, -⟩ := hpost
      have htracks : s.Tracks (rule :: stack) (Opens opened rule p) (furthestOf f latest)
          after := by
        rw [← hfurthest, ← hlatest]
        exact hfollows.tracks
      have hanswered : s.Answered after.furthest rule p r :=
        ⟨n + 1, latest, hc, by rw [htracks.furthest, Furthest.again]⟩
      cases r with
      | error failure =>
          refine ensures_bind.mpr (ensures_modify.mpr (ensures_throw.mpr ⟨rfl, ?_⟩))
          exact htracks.close (after.fail_records rule p failure) List.map_tail rfl hanswered
      | ok out =>
          have hd : (after.succeed rule p out).2.arena.derived? after.arena.size =
              some (rule, p, out) := by rw [Run.derived?_succeed, if_pos rfl]
          refine ensures_modifyGet.mpr (Search.ensures_outputOf.mpr ⟨?_, ?_⟩)
          · exact congrArg Except.ok (Arena.output_of_derived hd)
          · exact htracks.close (after.succeed_records rule p out) (after.rules_succeed rule p out)
              rfl ⟨out, hd, hanswered⟩

/-- By induction on the depth a plain derivation needs: a rule is entered only when less depth
would not do, so nothing that the derivation refers to is under way. -/
theorem deriveWithin_catchesUp (n d : Nat) (hnd : n ≤ d) :
    s.CatchesUp n fun r q => s.deriveWithin d r q >>= outputOf := by
  induction n generalizing d with
  | zero =>
      intro stack opened f run rule p result latest hp _ h hc
      have hresult : Except.error (.depthLimit rule p) = result := hc.2.1
      exact absurd (hc.1 _ hresult.symm) nofun
  | succ n ih =>
      obtain ⟨d, rfl⟩ : ∃ d', d = d' + 1 := ⟨d - 1, by omega⟩
      intro stack opened f run rule p result latest hp hopened h hc
      by_cases hless : ∃ result latest, s.Concludes n rule p result latest
      · obtain ⟨result', latest', hc'⟩ := hless
        obtain ⟨rfl, rfl⟩ := hc'.agree hc hp
        exact ih (d + 1) (by omega) stack opened f run rule p _ _ hp
          (hopened.mono (Nat.le_succ n)) h hc'
      · have hdeep := fun result latest hc => hless ⟨result, latest, hc⟩
        refine h.consulted hp hc (fun ho => (hopened rule p ho).2 _ _ hc) fun _ => ?_
        exact h.fresh hp hc (ih d (by omega))
          ((hopened.mono (Nat.le_succ n)).opens hp hdeep)

end CatchesUp

/-- A call on a run at rest. -/
inductive Call where
  | evaluate (rule : Rule) (input : PathSet)
  | derive (rule : RuleId) (p : Position)

/-- The call is made at known positions, and at some. -/
def Call.At (known : Position → Prop) : Call → Prop
  | .evaluate _ input => input ≠ ∅ ∧ ∀ p ∈ input, known p
  | .derive _ p => known p

/-- What a run answers that remembers its findings. -/
def answer (s : Session) : Call → Search PathSet
  | .evaluate rule input => s.follow rule input
  | .derive rule p => s.derive rule p >>= outputOf

/-- What plain derivation answers, cut off where rules nest deeper than `depth`. -/
def answerPlainly (s : Session) (depth : Nat) : Call → Search PathSet
  | .evaluate rule input => s.evaluate (s.plainly depth) rule input
  | .derive rule p => s.plainly depth rule p

/-- A run that remembers and a plain one after the same calls, none of which cut off the plain one.
The calls are made at `known` positions: the start, and what was returned so far. -/
inductive Alongside (s : Session) (depth : Nat) : Run → Run → (Position → Prop) → Prop
  | fresh : Alongside s depth {} {} (· = .start)
  | call {run plain known c result run' result' plain'} : Alongside s depth run plain known →
      c.At known → (s.answer c).run.run run = (result, run') →
      (s.answerPlainly depth c).run.run plain = (result', plain') → Uncut result' →
      Alongside s depth run' plain' fun q => known q ∨ ∃ out, result = .ok out ∧ q ∈ out

section Alongside
variable {depth : Nat} {run plain : Run} {known : Position → Prop}

/-- Nothing is opened in a run at rest. -/
abbrev FollowsAtRest (s : Session) : Run → Run → Prop := s.Follows [] fun _ _ => False

theorem answer_mirrors (hdepth : depth ≤ s.maxDepth) (c : Call) (hplaces : c.At s.source.IsPlace)
    (hrel : s.FollowsAtRest run plain) :
    Mirrors s.FollowsAtRest s.source.Placed (s.answer c) (s.answerPlainly depth c) run plain := by
  have hleft : s.maxDepth - run.frames.length = s.maxDepth := by
    have hlength := congrArg List.length hrel.tracks.rules
    simp only [Run.rules, List.length_map, List.length_nil] at hlength
    omega
  have hres : s.ResolveAlike s.FollowsAtRest (fun r q => s.deriveWithin s.maxDepth r q >>= outputOf)
      (s.plainly depth) := (deriveWithin_catchesUp depth s.maxDepth hdepth).resolveAlike
    (outOfReach_none depth)
  cases c with
  | evaluate rule input =>
      refine Ensures.mono (evaluate_mirrors Follows.couples hres rule input run plain hplaces hrel)
        fun result after' hx hu => ensures_follow.mpr ?_
      rw [hleft]
      exact hx hu
  | derive rule p =>
      refine Ensures.mono (hres rule p run plain hplaces hrel) fun result after' hx hu => ?_
      refine ensures_bind.mpr (ensures_derive.mpr ?_)
      rw [hleft]
      exact ensures_bind.mp (hx hu)

theorem Call.At.mono {known known' : Position → Prop} {c : Call} (h : c.At known)
    (himp : ∀ p, known p → known' p) : c.At known' := by
  cases c with
  | evaluate rule input => exact ⟨h.1, fun p hp => himp p (h.2 p hp)⟩
  | derive rule p => exact himp p h

/-- The two runs stay at the same point, at places of the text. -/
theorem Alongside.invariant (hdepth : depth ≤ s.maxDepth) (h : s.Alongside depth run plain known) :
    s.FollowsAtRest run plain ∧ ∀ p, known p → s.source.IsPlace p := by
  induction h with
  | fresh =>
      refine ⟨⟨tracks_fresh s, rfl, Lexer.readFrom_empty⟩, fun p hp => ?_⟩
      rw [hp]
      exact s.source.isPlace_start
  | @call run plain known c result run' result' plain' _ hc hrun hplain hu ih =>
      obtain ⟨hrel, hknown⟩ := ih
      obtain ⟨rfl, hrel', hplaced⟩ :=
        ((answer_mirrors hdepth c (hc.mono hknown) hrel).of_run hplain hu).of_run hrun
      refine ⟨hrel', fun q hq => ?_⟩
      obtain hq | ⟨out, hout, hq⟩ := hq
      · exact hknown q hq
      · exact (hplaced out hout).2 q hq

/-- Remembering is transparent. After any calls that plain derivation to some depth answers without
being cut off, and at every further such call, a run whose nesting bound is no less answers the
same: the same paths, or the same failure; it has noted the same furthest failure, and no rule met
itself. -/
theorem Alongside.transparent (hdepth : depth ≤ s.maxDepth) (h : s.Alongside depth run plain known)
    {c : Call} (hc : c.At known) {result : Except Failure PathSet} {plain' : Run}
    (hplain : (s.answerPlainly depth c).run.run plain = (result, plain')) (hu : Uncut result) :
    ∃ run', (s.answer c).run.run run = (result, run') ∧ run'.furthest = plain'.furthest ∧
      run'.stats.leftRecursionHits = 0 := by
  obtain ⟨hrel, hknown⟩ := h.invariant hdepth
  rcases hrun : (s.answer c).run.run run with ⟨result', run'⟩
  obtain ⟨rfl, hrel', -⟩ :=
    ((answer_mirrors hdepth c (hc.mono hknown) hrel).of_run hplain hu).of_run hrun
  exact ⟨run', rfl, hrel'.tracks.furthest, hrel'.tracks.hits⟩

/-- A list derived at the start, and then asked for at its first comma, where plain derivation
fails. -/
theorem Alongside.transparent_lists :
    2 ≤ (Samples.listSession "a,a").maxDepth ∧ ∃ f run', f.isAbsorbable = true ∧
      ((Samples.listSession "a,a").answer (.derive 0 ⟨1, 1, 2⟩)).run.run
          (((Samples.listSession "a,a").answer (.derive 0 .start)).run.run {}).2 =
        (.error f, run') ∧
      run'.furthest = some ⟨3, 1, 4⟩ ∧ run'.stats.leftRecursionHits = 0 := by
  have hdepth : 2 ≤ (Samples.listSession "a,a").maxDepth := by decide
  generalize hrun : ((Samples.listSession "a,a").answer (.derive 0 .start)).run.run {} = remembered
  generalize hfirst : ((Samples.listSession "a,a").answerPlainly 2 (.derive 0 .start)).run.run {} =
    first
  generalize hsecond : ((Samples.listSession "a,a").answerPlainly 2
    (.derive 0 ⟨1, 1, 2⟩)).run.run first.2 = second
  have hfound : remembered.1 = .ok {⟨1, 1, 2⟩, ⟨3, 1, 4⟩} :=
    ok_of_toOption (by rw [← hrun]; decide +kernel)
  have huncut : first.1 = .ok {⟨1, 1, 2⟩, ⟨3, 1, 4⟩} :=
    ok_of_toOption (by rw [← hfirst]; decide +kernel)
  have hfailed : (failure? second.1).map (·.isAbsorbable) = some true := by
    rw [← hsecond, ← hfirst]
    decide +kernel
  have hfurthest : second.2.furthest = some ⟨3, 1, 4⟩ := by
    rw [← hsecond, ← hfirst]
    decide +kernel
  obtain ⟨f, hf, habsorbable⟩ := Option.map_eq_some_iff.mp hfailed
  have herror := error_of_failure? hf
  have hcalls := Alongside.fresh.call (c := .derive 0 .start) rfl hrun hfirst (huncut ▸ uncut_ok _)
  obtain ⟨run', hanswer, hnoted, hhits⟩ := Alongside.transparent hdepth hcalls
    (c := .derive 0 ⟨1, 1, 2⟩) (.inr ⟨_, hfound, by decide +kernel⟩) hsecond
    (herror ▸ uncut_error habsorbable)
  exact ⟨hdepth, f, run', habsorbable, herror ▸ hanswer, hnoted.trans hfurthest, hhits⟩

end Alongside

end Session
end Multipath
