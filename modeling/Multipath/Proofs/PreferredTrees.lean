import Multipath.Proofs.Footings
import Multipath.Proofs.Stillness

/-!
The trees of a run are the preferred derivations. An extraction may stand on a run that still
finds things out (`Footing.growing`), or on one that was narrowed for a parse, where all that is
asked for was found out before (`Footing.narrowed`).
-/

namespace Multipath

open Relation (TransGen)
open Search (attempt outputOf readToken)

namespace Run

variable {s : Session} {run run' : Run}

/-- Unless some rule met itself, what was found out is all there is and rests on nothing that goes
round in a circle. -/
structure Reliable (s : Session) (run : Run) : Prop where
  valid : run.Valid s (.places s.source)
  thorough : run.ThoroughUnlessHit s
  founded : run.Founded s

theorem reliable_fresh (s : Session) : Reliable s {} :=
  ⟨valid_empty, thoroughUnlessHit_empty s, founded_fresh s⟩

/-- At a place the token of the text is read. -/
theorem Valid.readToken_places (hv : run.Valid s (.places s.source)) {p : Position}
    (hp : s.source.IsPlace p) :
    Ensures (readToken s.source p) run fun result run' => run'.Valid s (.places s.source) ∧
      run.OnlyReads run' ∧ result = .ok (s.source.token p) := by
  refine Ensures.mono (readToken_spec hv (.inl hp)) fun result run' hpost => ?_
  obtain ⟨hv', honly, r, rfl, hr⟩ := hpost
  obtain ⟨p', hp', hi, htoken⟩ := hv'.readFrom _ _ hr
  rw [← htoken, hp'.eq_of_index hp hi]
  exact ⟨hv', honly, rfl⟩

theorem Reliable.readToken (h : run.Reliable s) {p : Position} (hp : s.source.IsPlace p) :
    Ensures (readToken s.source p) run fun result run' => run'.Reliable s ∧ run.Grows run' ∧
      result = .ok (s.source.token p) := by
  refine Ensures.mono (h.valid.readToken_places hp) fun result run' hpost => ?_
  obtain ⟨hv', honly, hresult⟩ := hpost
  have hthorough := (Yardstick.ends s).inv_of_onlyReads honly h.thorough
  exact ⟨⟨hv', hthorough, h.founded.onlyReads honly⟩, honly.grows, hresult⟩

theorem Reliable.follow (h : run.Reliable s) {rule : Rule} {input : PathSet}
    (hinput : ∀ p ∈ input, s.source.IsPlace p) :
    Ensures (s.follow rule input) run fun result run' => run'.Reliable s ∧ run.Grows run' ∧
      (∀ out, result = .ok out → ∀ q ∈ out, ∃ p ∈ input, s.Ends rule p q) ∧
      (run'.stats.leftRecursionHits = 0 →
        Answers result fun q => ∃ p ∈ input, s.Ends rule p q) := by
  refine Ensures.mono (((Session.follow_places rule h.valid hinput).and
    (Session.follow_complete rule input run h.valid h.thorough hinput)).and
    (Session.follow_founded rule h.valid hinput h.thorough h.founded)) fun result run' hpost => ?_
  obtain ⟨⟨⟨-, hsound⟩, hv', hgrows, hthorough, hall⟩, hfounded⟩ := hpost
  exact ⟨⟨hv', hthorough, hfounded⟩, hgrows, fun out hout q hq => ((hsound out hout).2 q hq).2,
    hall⟩

theorem Reliable.derive (h : run.Reliable s) {rule : RuleId} {p : Position}
    (hp : s.source.IsPlace p) :
    Ensures (s.derive rule p) run fun result run' => run'.Reliable s ∧ run.Grows run' ∧
      (∀ id, result = .ok id → ∀ q ∈ run'.arena.output id, s.Ends (.nonterminal rule) p q) ∧
      (run'.stats.leftRecursionHits = 0 →
        Answers (result.map run'.arena.output) (s.Ends (.nonterminal rule) p) ∧
        ∀ id, result = .ok id → s.Grounded ⟨p, rule⟩) := by
  refine Ensures.mono (((Session.derive_places rule h.valid hp).and
    (Session.derive_complete rule p run h.valid h.thorough hp)).and
    ((Session.derive_founded rule h.valid hp h.thorough h.founded).and
    (Session.derive_sound rule p run h.valid (.inl hp)))) fun result run' hpost => ?_
  obtain ⟨⟨⟨-, hsound⟩, hv', hgrows, hthorough, hall⟩, hfounded, -, -, hrecorded⟩ := hpost
  refine ⟨⟨hv', hthorough, hfounded⟩, hgrows, fun id hid q hq => ((hsound id hid).2 q hq).2,
    fun hhits => ⟨hall hhits, fun id hid => ?_⟩⟩
  exact hfounded hhits p rule _ (hrecorded id hid) nofun trivial

end Run

/-- A run that may still find things out, at the places of the text. -/
def Footing.growing (s : Session) : Footing s where
  kept := Run.Reliable s
  asked _ := True
  entered _ := True
  cut := True
  valid h := h.valid
  asks _ _ _ := trivial
  read h hp _ := h.readToken hp
  follow h hinput := Ensures.mono (h.follow fun p hp => (hinput p hp).1)
    fun _ _ hpost => ⟨hpost.1, hpost.2.1, .inr trivial, hpost.2.2⟩
  derive h hp _ := Ensures.mono (h.derive hp) fun _ _ hpost =>
    ⟨hpost.1, hpost.2.1, .inr trivial, fun id hid => ⟨trivial, hpost.2.2.1 id hid⟩, hpost.2.2.2⟩

section Narrowed

theorem Run.Level.valid {s : Session} {c : Scope s.source} {run run' : Run} (h : run'.Level run)
    (hv : run.Valid s c) : run'.Valid s c := by
  obtain ⟨⟨_, _⟩, _, _, _, _, _⟩ := run
  obtain ⟨⟨_, _⟩, _, _, _, _, _⟩ := run'
  obtain ⟨rfl, rfl, rfl, rfl⟩ := h
  exact ⟨hv.readFrom, hv.asked, hv.within, hv.settled, hv.recorded, hv.backed⟩

namespace Run.Still

variable {run run' : Run}

theorem symm (h : run.Still run') : run'.Still run :=
  ⟨h.level.symm, h.evaluations.symm, h.leftRecursionHits.symm, h.maxDepth.symm⟩

theorem grows (h : run.Still run') : run.Grows run' where
  cache i result hc := by rwa [h.level.cache]
  memo p rule finding hm := by rwa [h.level.memo]
  nodes id x hd := by rwa [h.level.arena]
  hits := Nat.le_of_eq h.leftRecursionHits.symm

end Run.Still

namespace Run

variable {s : Session} {run : Run} {root id : NodeId} {stop : Position}

/-- No rule met itself in the run, whose newest node ends at `stop`, among others. -/
structure Concluded (s : Session) (run : Run) (root : NodeId) (stop : Position) : Prop where
  reliable : run.Reliable s
  resting : run.Resting s
  defined : run.Defined s
  attentive : run.Attentive s
  hits : run.stats.leftRecursionHits = 0
  newest : root + 1 = run.arena.size
  output : stop ∈ run.arena.output root

theorem AnsweredBefore.mono {x : Question} (h : run.AnsweredBefore s id x) (hle : id ≤ root) :
    run.AnsweredBefore s root x := by
  cases x with
  | token p => exact h
  | reference rule p =>
      refine h.imp_left fun hfound => ?_
      obtain ⟨finding, hm, hbefore⟩ := hfound
      refine ⟨finding, hm, ?_⟩
      cases finding with
      | inProgress => exact hbefore
      | succeeded id' => exact Nat.lt_of_lt_of_le hbefore hle
      | failed f => exact hbefore

namespace Concluded

variable {rule : RuleId} {p : Position}

/-- What a rule with a node asks was answered before that node. -/
theorem asks (h : run.Concluded s root stop) {x : Reference}
    (hm : run.memo.find? x.position x.rule = some (.succeeded id))
    {definition : Grammar.Definition} (hdef : s.grammar.rule? x.rule = some definition)
    {q : Question} (hasks : s.Asks definition.body x.position q) : run.AnsweredBefore s id q := by
  obtain ⟨out, hd, -⟩ := h.reliable.valid.settled _ _ id hm
  have hp : s.source.IsPlace x.position := h.reliable.valid.asked _ _ _ hm
  have hattends := h.attentive h.hits id _ _ out definition hd hdef
  have hconfines := h.reliable.valid.confines h.reliable.thorough h.hits hp
    fun y hy => (hattends y hy).answered
  exact hattends q (hasks.confined hconfines)

theorem valid_narrowed (h : run.Concluded s root stop) :
    (run.setOutput root {stop}).Valid s (.places s.source) :=
  h.reliable.valid.narrow h.newest h.output

theorem resting_narrowed (h : run.Concluded s root stop) :
    (run.setOutput root {stop}).Resting s := h.resting.narrow h.newest h.output

theorem token_of_cached (h : run.Concluded s root stop) (hp : s.source.IsPlace p)
    {result : Except LexicalError Token} (hr : run.lexer.cache[p.index]? = some result) :
    result = s.source.token p := by
  obtain ⟨p', hp', hi, htoken⟩ := h.reliable.valid.readFrom _ _ hr
  rw [← htoken, hp'.eq_of_index hp hi]

/-- What was answered before the newest node is known when that is narrowed: other nodes keep their
ends. -/
theorem known (h : run.Concluded s root stop) (hp : s.source.IsPlace p)
    (hasked : run.AnsweredBefore s root (.reference rule p)) {q : Position}
    (hends : s.Ends (.nonterminal rule) p q) : (run.setOutput root {stop}).Known rule p q := by
  obtain ⟨finding, hm, hbefore⟩ | ⟨hnone, -⟩ := hasked
  · have hthorough := h.reliable.thorough h.hits p rule finding hp hm
    cases finding with
    | inProgress => exact hbefore.elim
    | succeeded id =>
        have hq := hthorough q hends
        rw [← output_narrow_of_ne (q := stop) (Nat.ne_of_lt hbefore)] at hq
        exact h.valid_narrowed.known hm hq
    | failed f => exact absurd hends (hthorough hbefore q)
  · cases hends with
    | nonterminal hdef _ => cases hnone.symm.trans hdef

/-- Where all that a rule asks was answered before the newest node, narrowing that hides no end of
the rule. -/
theorem leads (h : run.Concluded s root stop) {rule : Rule}
    (hadmits : s.AsksOnly (run.AnsweredBefore s root) rule p) {q : Position}
    (hends : s.Ends rule p q) : (run.setOutput root {stop}).Leads s rule p q := by
  have hvalid := h.valid_narrowed
  refine (Session.leads_of_ends hends).confined ⟨fun m t hasks ht => ?_, fun r m q hasks hq => ?_⟩
  · have hasks := hvalid.asks hadmits.1 hasks
    obtain ⟨result, hr⟩ := hadmits.2 _ hasks
    have htoken : result = s.source.token m := h.token_of_cached (hasks.isPlace hadmits.1) hr
    rw [htoken, ht] at hr
    exact hr
  · have hasks := hvalid.asks hadmits.1 hasks
    exact h.known (hasks.isPlace hadmits.1) (hadmits.2 _ hasks) hq

theorem readToken (h : run.Concluded s root stop) {run' : Run}
    (hstill : (run.setOutput root {stop}).Still run') (hp : s.source.IsPlace p)
    (hasked : run.AnsweredBefore s root (.token p)) :
    Ensures (readToken s.source p) run' fun result run'' =>
      (run.setOutput root {stop}).Still run'' ∧ run'.Grows run'' ∧
        result = .ok (s.source.token p) := by
  have hasked : (run.setOutput root {stop}).Answered s s.maxDepth (.token p) := hasked
  refine (Session.readToken_still hasked hstill).mono fun result run'' hpost => ?_
  obtain ⟨hstill', r, rfl, hr⟩ := hpost
  exact ⟨hstill', (hstill.symm.trans hstill').grows, congrArg _ (h.token_of_cached hp hr)⟩

theorem follow (h : run.Concluded s root stop) {run' : Run}
    (hstill : (run.setOutput root {stop}).Still run') {rule : Rule} {input : PathSet}
    (hadmits : ∀ p ∈ input, s.AsksOnly (run.AnsweredBefore s root) rule p) :
    Ensures (s.follow rule input) run' fun result run'' =>
      (run.setOutput root {stop}).Still run'' ∧ run'.Grows run'' ∧ Uncut result ∧
        (∀ out, result = .ok out → ∀ q ∈ out, ∃ p ∈ input, s.Ends rule p q) ∧
        Answers result fun q => ∃ p ∈ input, s.Ends rule p q := by
  have hvalid := h.valid_narrowed
  have hidle := Session.follow_still h.resting_narrowed h.defined rule input
    (fun p hp x hx => ((hadmits p hp).2 x (hvalid.asks (hadmits p hp).1 hx)).answered) hstill
  have hall := Yardstick.follow_complete (Yardstick.known_resolves hvalid) rule input run'
    (hstill.level.valid hvalid) (fun p hp => .inl (hadmits p hp).1) hstill.grows
  refine Ensures.mono (hidle.and hall) fun result run'' hpost => ?_
  obtain ⟨⟨hstill', hfound⟩, -, -, -, hall⟩ := hpost
  have hanswers : Answers result fun q => ∃ p ∈ input, s.Ends rule p q :=
    (hall trivial).mono fun q hq => by
      obtain ⟨p, hp, hends⟩ := hq
      exact ⟨p, hp, h.leads (hadmits p hp) hends⟩
  refine ⟨hstill', (hstill.symm.trans hstill').grows, fun f hf => ?_, fun out hout q hq => ?_,
    hanswers⟩
  · rw [hf] at hfound
    exact hfound
  · rw [hout] at hfound
    obtain ⟨p, hp, hl⟩ := hfound q hq
    exact ⟨p, hp, hvalid.ends_of_leads (hadmits p hp).1 hl⟩

theorem derive (h : run.Concluded s root stop) {run' : Run}
    (hstill : (run.setOutput root {stop}).Still run') (hp : s.source.IsPlace p)
    (hasked : run.AnsweredBefore s root (.reference rule p)) :
    Ensures (s.derive rule p) run' fun result run'' =>
      (run.setOutput root {stop}).Still run'' ∧ run'.Grows run'' ∧ Uncut result ∧
        (∀ id, result = .ok id → (∃ id ≤ root, run.memo.find? p rule = some (.succeeded id)) ∧
          ∀ q ∈ run''.arena.output id, s.Ends (.nonterminal rule) p q) ∧
        Answers (result.map run''.arena.output) (s.Ends (.nonterminal rule) p) ∧
        ∀ id, result = .ok id → s.Grounded ⟨p, rule⟩ := by
  have hvalid := h.valid_narrowed
  have hanswered : (run.setOutput root {stop}).Answered s s.maxDepth (.reference rule p) :=
    hasked.answered
  refine (Session.derive_still h.resting_narrowed h.defined hanswered hstill).mono
    fun result run'' hpost => ?_
  obtain ⟨hstill', hfound⟩ := hpost
  have hgrows := (hstill.symm.trans hstill').grows
  cases result with
  | error f =>
      obtain ⟨hf, hfound⟩ := hfound
      refine ⟨hstill', hgrows, uncut_error hf, nofun, fun _ q hends => ?_, nofun⟩
      obtain ⟨id, -, hm, -⟩ := h.known hp hasked hends
      obtain hfailed | hnone := hfound
      · cases hm.symm.trans hfailed
      · exact h.defined p rule _ hm hnone
  | ok id =>
      have hid : id < root := by
        obtain ⟨finding, hm, hbefore⟩ | ⟨hnone, -⟩ := hasked
        · obtain rfl := Option.some.inj (hm.symm.trans hfound)
          exact hbefore
        · exact absurd hnone (h.defined p rule _ hfound)
      refine ⟨hstill', hgrows, uncut_ok id, fun id' hid' => ⟨⟨id, Nat.le_of_lt hid, hfound⟩, ?_⟩,
        fun q hends => ?_, fun _ _ => h.reliable.founded h.hits p rule _ hfound nofun trivial⟩
      · obtain rfl := Except.ok.inj hid'
        intro q hq
        rw [hstill'.level.arena] at hq
        exact (hvalid.ends_of_settled _ hp (hvalid.known hfound hq)).1
      · obtain ⟨id', -, hm, hq⟩ := h.known hp hasked hends
        obtain rfl : id' = id := by simpa using hm.symm.trans hfound
        rw [hstill'.level.arena]
        exact hq

end Concluded
end Run

/-- A run that has concluded with a node, which is narrowed to one of its paths: it stays as it is,
and all that is asked for was answered before. -/
def Footing.narrowed {s : Session} {run : Run} {root : NodeId} {stop : Position}
    (h : run.Concluded s root stop) : Footing s where
  kept := (run.setOutput root {stop}).Still
  asked := run.AnsweredBefore s root
  entered x := ∃ id ≤ root, run.memo.find? x.position x.rule = some (.succeeded id)
  cut := False
  valid hstill := hstill.level.valid h.valid_narrowed
  asks hentered hdef hasks := by
    obtain ⟨id, hle, hm⟩ := hentered
    exact (h.asks hm hdef hasks).mono hle
  read := h.readToken
  follow hstill hadmits := Ensures.mono (h.follow hstill hadmits) fun _ _ hpost =>
    ⟨hpost.1, hpost.2.1, .inl hpost.2.2.1, hpost.2.2.2.1, fun _ => hpost.2.2.2.2⟩
  derive hstill hp hasked := Ensures.mono (h.derive hstill hp hasked) fun _ _ hpost =>
    ⟨hpost.1, hpost.2.1, .inl hpost.2.2.1, hpost.2.2.2.1, fun _ => hpost.2.2.2.2⟩

theorem Footing.keeps_start {s : Session} {b : Footing s} {run : Run} (h : b.kept run) :
    b.Keeps ∅ { run } where
  kept := h
  valid := Extraction.valid_start (b.valid h)
  active _ := Iff.rfl
  built _ stretch t ht := by simp at ht

namespace Session

variable {s : Session} {trailing : Bool} {run : Run} {rule : RuleId} {root : NodeId}
  {start stop : Position}

/-- A first derivation concludes the run, unless some rule met itself. -/
theorem derive_concluded (hstart : s.source.IsPlace start)
    (hderive : (s.derive rule start).run.run {} = (.ok root, run))
    (hhits : run.stats.leftRecursionHits = 0) (hstop : stop ∈ run.arena.output root) :
    run.Concluded s root stop := by
  have hreached : Extraction.Reached s (fun _ => True) { run } :=
    Extraction.Reached.fresh.derive trivial hderive
  exact {
    reliable := (((Run.reliable_fresh s).derive hstart).of_run hderive).1
    resting := hreached.standing.1
    defined := hreached.standing.2
    attentive := hreached.attentive
    hits := hhits
    newest := (derive_newest (by simp [Memo.find?])).of_run hderive root rfl
    output := hstop }

/-- The tree of the winner is the preferred derivation. There is one, and it is found unless it
nests too deeply. -/
theorem winner_prefers (hstart : s.source.IsPlace start)
    (hderive : (s.derive rule start).run.run {} = (.ok root, run))
    (hhits : run.stats.leftRecursionHits = 0)
    (hwinner : s.winner? trailing (run.arena.output root) = some stop) :
    ∃ ts, s.Prefers (.nonterminal rule) start stop ts ∧
      Ensures (s.branch rule start stop) { run := run.setOutput root {stop} } fun result _ =>
        match result with
        | .ok found => ∃ t, found = some t ∧ ts = [t.tree]
        | .error f => (∃ r m, f = .depthLimit r m) ∧ s.maxDepth < Tree.nestingAll ts := by
  have hstop : stop ∈ run.arena.output root := (winner?_eq_some.mp hwinner).1.1
  have h := derive_concluded hstart hderive hhits hstop
  have hm : run.memo.find? start rule = some (.succeeded root) :=
    ((derive_sound rule start {} (Run.valid_empty (c := .places s.source))
      (.inl hstart)).of_run hderive).2.2 root rfl
  have hends : s.Ends (.nonterminal rule) start stop :=
    (h.reliable.valid.ends_of_settled _ hstart (h.reliable.valid.known hm hstop)).1
  obtain ⟨ts, hts⟩ :=
    (h.reliable.founded h.hits start rule _ hm nofun trivial).exists_prefers hstart hends
  have hbranch := (Footing.narrowed h).branch_yields (Footing.keeps_start (.refl _)) hstart
    ⟨root, Nat.le_refl root, hm⟩ stop
  have hgives := branch_gives (s := s) rule start stop (Extraction.valid_start h.valid_narrowed)
    (.inl hstart)
  refine ⟨ts, hts, Ensures.mono (hbranch.and hgives) fun result e' hpost => ?_⟩
  obtain ⟨⟨hkeeps, hsettled⟩, -, -, hfails⟩ := hpost
  have hsettled := hsettled (hkeeps.kept.leftRecursionHits.trans h.hits)
  match result, hsettled, hfails with
  | .ok (some t), ht, _ => exact ⟨t, rfl, hts.unique ht⟩
  | .ok none, hnot, _ => exact absurd hends hnot
  | .error (.depthLimit r m), hdeep, _ =>
      exact ⟨⟨r, m, rfl⟩, hdeep.resolve_left id ts hts⟩

end Session
end Narrowed
end Multipath
