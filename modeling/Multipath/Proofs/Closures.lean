import Multipath.Proofs.Attention
import Multipath.Proofs.Standing

/-!
The knowledge of a run is closed under questions. Whatever the rule of a node asks from where the
node begins, by all that the run has read and derived, was answered before the node was completed
(`Run.Attentive`), unless some rule met itself. This holds of every run between calls, also after
its newest node was narrowed, since less is asked then and not more.
-/

namespace Multipath

open Search (outputOf)

/-- The finding was made before that node was completed, and not cut off. -/
def Finding.IsBefore (id : NodeId) : Finding → Prop
  | inProgress => False
  | succeeded id' => id' < id
  | failed f => f.isAbsorbable = true

theorem Finding.IsBefore.settled {id : NodeId} {finding : Finding} (h : finding.IsBefore id) :
    finding ≠ .inProgress := by
  rintro rfl
  exact h

theorem Arena.lt_size_of_mem_output {a : Arena} {id : NodeId} {q : Position}
    (h : q ∈ a.output id) : id < a.size := by
  rw [output_eq] at h
  cases hd : a.derived? id with
  | none => simp [hd] at h
  | some x => exact lt_size_of_derived hd

namespace Run

variable {s : Session} {c : Scope s.source} {run run' : Run} {rule : Rule} {p : Position}
  {id : NodeId}

/-- The question was answered before that node was completed. -/
def AnsweredBefore (s : Session) (run : Run) (id : NodeId) : Question → Prop
  | .token p => ∃ result, run.lexer.cache[p.index]? = some result
  | .reference rule p => (∃ finding, run.memo.find? p rule = some finding ∧ finding.IsBefore id) ∨
      s.grammar.rule? rule = none ∧ 0 < s.maxDepth

theorem AnsweredBefore.answered {x : Question} (h : run.AnsweredBefore s id x) :
    run.Answered s s.maxDepth x := by
  cases x with
  | token p => exact h
  | reference rule p =>
      refine h.imp_left fun hfound => ?_
      obtain ⟨finding, hm, hbefore⟩ := hfound
      refine ⟨finding, hm, ?_⟩
      cases finding with
      | inProgress => exact hbefore.elim
      | succeeded id' => trivial
      | failed f => exact hbefore

/-- What is answered is answered before the next node, unless some rule met itself. -/
theorem Valid.answeredBefore (hv : run.Valid s c) (hhits : run.stats.leftRecursionHits = 0)
    {depth : Nat} (hdepth : depth ≤ s.maxDepth) {x : Question} (h : run.Answered s depth x) :
    run.AnsweredBefore s run.arena.size x := by
  cases x with
  | token p => exact h
  | reference rule p =>
      obtain ⟨finding, hm, hbears⟩ | ⟨hnone, hpos⟩ := h
      · refine .inl ⟨finding, hm, ?_⟩
        cases finding with
        | inProgress => exact hbears hhits
        | succeeded id => exact hv.lt_size hm
        | failed f => exact hbears
      · exact .inr ⟨hnone, Nat.lt_of_lt_of_le hpos hdepth⟩

/-- All that a rule asks from a position was answered before that node was completed. -/
def Attends (s : Session) (run : Run) (id : NodeId) (rule : Rule) (p : Position) : Prop :=
  ∀ x, run.Asks s rule p x → run.AnsweredBefore s id x

/-- What was found out is not taken back, and no rule is known to match that is not there. -/
structure Retains (s : Session) (run run' : Run) : Prop where
  cache : ∀ (i : Nat) (result : Except LexicalError Token),
    run.lexer.cache[i]? = some result → run'.lexer.cache[i]? = some result
  memo : ∀ p rule finding, run.memo.find? p rule = some finding → finding ≠ .inProgress →
    run'.memo.find? p rule = some finding
  output : ∀ p rule id, run.memo.find? p rule = some (.succeeded id) →
    run'.arena.output id = run.arena.output id
  undefined : ∀ p rule q, s.grammar.rule? rule = none → run'.Known rule p q → run.Known rule p q

theorem Valid.not_known_of_none (hv : run.Valid s c) {rule : RuleId}
    (hnone : s.grammar.rule? rule = none) {p q : Position} : ¬run.Known rule p q := by
  intro hk
  obtain ⟨id, -, hm, -⟩ := hk
  exact hv.rule_of_succeeded hm hnone

theorem Grows.retains (hg : run.Grows run') (hv : run.Valid s c) (hv' : run'.Valid s c) :
    run.Retains s run' where
  cache := hg.cache
  memo p rule finding hm _ := hg.memo p rule finding hm
  output _ _ _ hm := hg.output hv hm
  undefined _ _ _ hnone hk := absurd hk (hv'.not_known_of_none hnone)

theorem OnlyReads.retains (honly : run.OnlyReads run') : run.Retains s run' where
  cache := honly.cache
  memo p rule finding hm _ := by rwa [honly.memo]
  output _ _ _ _ := by rw [honly.arena]
  undefined _ _ _ _ hk := by
    unfold Known Settled at hk ⊢
    rwa [honly.memo, honly.arena] at hk

theorem Records.retains {rule : RuleId} {finding : Finding} (hrec : run.Records run' p rule finding)
    (hv : run.Valid s c) (hv' : run'.Valid s c)
    (hopen : ∀ found, run.memo.find? p rule = some found → found = .inProgress) :
    run.Retains s run' where
  cache i result hc := by rwa [hrec.lexer]
  memo q r found hm hsettled := by
    rw [hrec.find?, if_neg]
    · exact hm
    · rintro ⟨rfl, rfl⟩
      exact hsettled (hopen found hm)
  output q r id hm := by
    obtain ⟨out, hd, -⟩ := hv.settled q r id hm
    rw [Arena.output_of_derived hd, Arena.output_of_derived (hrec.nodes _ _ hd)]
  undefined _ _ _ hnone hk := absurd hk (hv'.not_known_of_none hnone)

/-- What was answered stays answered, and nothing more is asked. -/
theorem Attends.retained (h : run.Attends s id rule p) (hr : run.Retains s run') :
    run'.Attends s id rule p := by
  have hconfines : s.grammar.Confines run.Reads run'.Reads run.Known run'.Known rule p := {
    token := fun m t hasks ht => by
      obtain ⟨result, hresult⟩ := h _ hasks
      obtain rfl := Option.some.inj ((hr.cache _ _ hresult).symm.trans ht)
      exact hresult
    reference := fun r m q hasks hk => by
      obtain ⟨finding, hm, hbefore⟩ | ⟨hnone, -⟩ := h _ hasks
      · obtain ⟨id', -, hm', hq⟩ := hk
        obtain rfl := Option.some.inj ((hr.memo m r finding hm hbefore.settled).symm.trans hm')
        rw [hr.output m r id' hm] at hq
        exact ⟨id', Arena.lt_size_of_mem_output hq, hm, hq⟩
      · exact hr.undefined m r q hnone hk }
  intro x hx
  have hanswered := h x (hx.confined hconfines)
  cases x with
  | token m =>
      obtain ⟨result, hresult⟩ := hanswered
      exact ⟨result, hr.cache _ _ hresult⟩
  | reference r m =>
      refine hanswered.imp_left fun hfound => ?_
      obtain ⟨finding, hm, hbefore⟩ := hfound
      exact ⟨finding, hr.memo m r finding hm hbefore.settled, hbefore⟩

/-- Unless some rule met itself, all that the rules of nodes ask was answered before them. -/
def Attentive (s : Session) (run : Run) : Prop :=
  run.stats.leftRecursionHits = 0 → ∀ id rule p out definition,
    run.arena.derived? id = some (rule, p, out) → s.grammar.rule? rule = some definition →
    run.Attends s id definition.body p

theorem attentive_fresh (s : Session) : Attentive s {} := by
  intro _ id rule p out definition hd
  simp [Arena.derived?, Arena.node?] at hd

/-- Where no node is added. -/
theorem Attentive.retained (h : run.Attentive s) (hr : run.Retains s run')
    (hhits : run'.stats.leftRecursionHits = 0 → run.stats.leftRecursionHits = 0)
    (harena : ∀ id, run'.arena.derived? id = run.arena.derived? id) : run'.Attentive s := by
  intro hhits' id rule p out definition hd hdef
  rw [harena] at hd
  exact (h (hhits hhits') id rule p out definition hd hdef).retained hr

/-- A node is added whose rule was attended to. -/
theorem Attentive.succeed {rule : RuleId} {out : PathSet} {definition : Grammar.Definition}
    (h : run.Attentive s) (hr : run.Retains s (run.succeed rule p out).2)
    (hdef : s.grammar.rule? rule = some definition)
    (hbody : run.stats.leftRecursionHits = 0 →
      run.Attends s run.arena.size definition.body p) :
    (run.succeed rule p out).2.Attentive s := by
  intro hhits id r m out' definition' hd hdef'
  rw [derived?_succeed] at hd
  split at hd
  · next heq =>
      cases hd
      obtain rfl := Option.some.inj (hdef.symm.trans hdef')
      rw [heq]
      exact (hbody hhits).retained hr
  · exact (h hhits id r m out' definition' hd hdef').retained hr

/-- Narrowing a node takes answers away and asks no more. -/
theorem Attentive.narrow (h : run.Attentive s) {q : Position} (hq : q ∈ run.arena.output id) :
    (run.setOutput id {q}).Attentive s := by
  have hknown {r : RuleId} {m q' : Position} (hk : (run.setOutput id {q}).Known r m q') :
      run.Known r m q' := by
    obtain ⟨id', -, hm, hq'⟩ := hk
    have hq' := mem_output_of_narrow hq hq'
    exact ⟨id', Arena.lt_size_of_mem_output hq', hm, hq'⟩
  intro hhits id' rule p out definition hd hdef x hx
  have hd' : ∃ out, run.arena.derived? id' = some (rule, p, out) := by
    rw [derived?_narrow] at hd
    split at hd
    · obtain ⟨⟨r, m, out'⟩, hd', hx⟩ := Option.map_eq_some_iff.mp hd
      cases hx
      exact ⟨out', hd'⟩
    · exact ⟨out, hd⟩
  obtain ⟨out', hd'⟩ := hd'
  exact h hhits id' rule p out' definition hd' hdef x (hx.confined
    ⟨fun _ _ _ ht => ht, fun _ _ _ _ hk => hknown hk⟩)

end Run

/-- Nothing is expected of a search but to keep a run attentive. -/
def Yardstick.attentive (s : Session) : Yardstick s (.everywhere s.source) where
  reads _ _ := False
  spans _ _ _ := False
  inv := Run.Attentive s
  counts _ := True
  counts_of_grows _ _ := trivial
  inv_of_onlyReads honly h :=
    h.retained honly.retains (by rw [honly.stats]; exact id) fun id => by rw [honly.arena]
  reads_eq _ _ _ ht := ht.elim

namespace Session

variable {s : Session} {run : Run}

theorem outputOf_attentive {depth : Nat} (hderive : ∀ rule p run,
      run.Valid s (.everywhere s.source) → run.Attentive s →
      Ensures (s.deriveWithin depth rule p) run fun _ run' => run'.Attentive s) :
    (Yardstick.attentive s).Resolves fun r q => s.deriveWithin depth r q >>= outputOf := by
  intro rule p run hv hp hinv
  have hattentive : Ensures (s.deriveWithin depth rule p >>= outputOf) run
      fun _ run' => run'.Attentive s := by
    refine ensures_bind.mpr ((hderive rule p run hv hinv).mono ?_)
    intro result run' h
    cases result with
    | error f => exact h
    | ok id => exact Search.ensures_outputOf.mpr h
  refine Ensures.mono ((resolver_sound depth rule p run hv hp).and hattentive)
    fun result run' hpost => ?_
  obtain ⟨⟨hv', hg, -⟩, hattentive⟩ := hpost
  refine ⟨hv', hg, hattentive, fun _ => ?_⟩
  cases result with
  | ok out => exact fun _ hq => hq.elim
  | error f => exact fun _ _ hq => hq

theorem deriveFresh_attentive {depth : Nat} (hdepth : depth < s.maxDepth)
    (hres : (Yardstick.attentive s).Resolves fun r q => s.deriveWithin depth r q >>= outputOf)
    (rule : RuleId) (p : Position) (hv : run.Valid s (.everywhere s.source))
    (hattentive : run.Attentive s) (hnone : run.memo.find? p rule = none) :
    Ensures (s.deriveFresh (fun r q => s.deriveWithin depth r q >>= outputOf) rule p) run
      fun _ run' => run'.Attentive s := by
  suffices hmore : Ensures (s.deriveFresh (fun r q => s.deriveWithin depth r q >>= outputOf) rule p)
      run fun _ run' => run'.Valid s (.everywhere s.source) → run'.Attentive s by
    refine Ensures.mono ((deriveFresh_sound (resolver_sound depth) rule p run hv (.inl trivial)
      hnone).and hmore) ?_
    exact fun _ _ hpost => hpost.2 hpost.1.1
  refine ensures_deriveFresh.mpr ?_
  split
  · exact fun _ => hattentive
  · next definition hdef =>
      have henter := run.enter_records rule p
      have hopen : ∀ found, run.memo.find? p rule = some found → found = .inProgress := by
        simp [hnone]
      have hv₁ := henter.valid hv trivial (by simp [hnone]) rfl (by simp)
      have hinv₁ : (run.enter rule p).Attentive s :=
        hattentive.retained (henter.retains hv hv₁ hopen) id fun _ => rfl
      have hbody := Yardstick.evaluate_complete (fun _ => resolver_sound depth) hres
        definition.body {p} (run.enter rule p) hv₁ (fun _ _ => .inl trivial) hinv₁
      have hall := evaluate_attendsAll depth definition.body {p} (run.enter rule p) hv₁
      refine (Ensures.and hbody hall).mono fun result run₂ hpost => ?_
      obtain ⟨⟨hv₂, hg₂, hinv₂, -⟩, hall⟩ := hpost
      have hopen₂ : ∀ found, run₂.memo.find? p rule = some found → found = .inProgress := by
        intro found hm
        have hopened : (run.enter rule p).memo.find? p rule = some .inProgress := by
          rw [henter.find?, if_pos ⟨rfl, rfl⟩]
        exact Option.some.inj (hm.symm.trans (hg₂.memo _ _ _ hopened))
      cases result with
      | error f =>
          intro hv₃
          exact hinv₂.retained ((run₂.fail_records rule p f).retains hv₂ hv₃ hopen₂) id fun _ => rfl
      | ok out =>
          intro hv₃
          refine hinv₂.succeed ((run₂.succeed_records rule p out).retains hv₂ hv₃ hopen₂) hdef
            fun hhits x hx => ?_
          exact hv₂.answeredBefore hhits (Nat.le_of_lt hdepth)
            ((hall (uncut_ok out)).1 p (SortedSet.mem_singleton.mpr rfl) x hx)

theorem deriveWithin_attentive (depth : Nat) (hdepth : depth ≤ s.maxDepth) (rule : RuleId)
    (p : Position) (run : Run) (hv : run.Valid s (.everywhere s.source))
    (hattentive : run.Attentive s) :
    Ensures (s.deriveWithin depth rule p) run fun _ run' => run'.Attentive s := by
  have hconsult (rule : RuleId) (p : Position) (run : Run) (hattentive : run.Attentive s)
      {fresh : Search NodeId} (hfresh : run.memo.find? p rule = none →
        Ensures fresh run fun _ run' => run'.Attentive s) :
      Ensures (consult rule p fresh) run fun _ run' => run'.Attentive s := by
    refine ensures_consult.mpr ?_
    split
    · exact hattentive
    · exact hattentive
    · exact fun hhits => absurd hhits (Nat.succ_ne_zero _)
    · next hnone => exact hfresh hnone
  induction depth generalizing rule p run with
  | zero => exact hconsult rule p run hattentive fun _ => ensures_throw.mpr hattentive
  | succ depth ih =>
      exact hconsult rule p run hattentive fun hnone => deriveFresh_attentive hdepth
        (outputOf_attentive (ih (Nat.le_of_lt hdepth))) rule p hv hattentive hnone

/-- Calls leave a run attentive. -/
theorem Calls.attentive {run run' : Run} (h : s.Calls run run')
    (hv : run.Valid s (.everywhere s.source)) (hattentive : run.Attentive s) :
    run'.Valid s (.everywhere s.source) ∧ run'.Attentive s := by
  induction h with
  | none => exact ⟨hv, hattentive⟩
  | @follow run' rule input _ _ _ hrun ih =>
      have hres (run : Run) := outputOf_attentive (s := s) (deriveWithin_attentive
        (s.maxDepth - run.frames.length) (Nat.sub_le _ _))
      have hfollow := (ensures_follow.mpr (Yardstick.evaluate_complete
        (fun _ => resolver_sound _) (hres run') rule input run' ih.1 (fun _ _ => .inl trivial)
        ih.2)).of_run hrun
      exact ⟨hfollow.1, hfollow.2.2.1⟩
  | @derive run' rule p _ _ _ hrun ih =>
      exact ⟨((derive_sound rule p run' ih.1 (.inl trivial)).of_run hrun).1,
        (ensures_derive.mpr (deriveWithin_attentive _ (Nat.sub_le _ _) rule p run' ih.1
          ih.2)).of_run hrun⟩
  | @read run' p _ _ _ hrun ih =>
      obtain ⟨hv', honly, -⟩ := (readToken_spec ih.1 (.inl trivial)).of_run hrun
      exact ⟨hv', (Yardstick.attentive s).inv_of_onlyReads honly ih.2⟩

end Session

/-- However a run came about, it is attentive between calls. -/
theorem Extraction.Reached.attentive {s : Session} {allowed : Position → Prop} {e : Extraction}
    (h : e.Reached s allowed) : e.run.Attentive s := by
  have hcalls {run run' : Run} (h : Extraction.Reached s allowed { run })
      (hcalls : s.Calls run run') (hattentive : run.Attentive s) : run'.Attentive s :=
    (hcalls.attentive h.standing.1.valid hattentive).2
  induction h with
  | fresh => exact Run.attentive_fresh s
  | evaluate h _ hrun ih => exact hcalls h ((Session.Calls.none _).follow hrun) ih
  | derive h _ hrun ih => exact hcalls h ((Session.Calls.none _).derive hrun) ih
  | read h _ hrun ih => exact hcalls h ((Session.Calls.none _).read hrun) ih
  | narrow _ _ hq ih => exact ih.narrow hq
  | branch h _ hrun ih =>
      exact (((Session.branch_calls _ _ _ _).of_run hrun).attentive h.standing.1.valid ih).2
  | renew _ ih => exact ih

end Multipath
