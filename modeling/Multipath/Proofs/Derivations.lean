import Multipath.Proofs.Soundness

/-!
Deriving a rule keeps a run valid: the finding that is being worked out is the only one that
changes, and a node is added behind all nodes that its paths rest on. By recursion on the depth
left, every resolver of a session is sound, and with it derivations and evaluations at rest.
-/

namespace Multipath

open Search (outcome outputOf)

namespace Run

variable {s : Session} {c : Scope s.source} {run run' : Run} {rule : RuleId} {p : Position}

theorem Valid.countMemoHit (hv : run.Valid s c) : run.countMemoHit.Valid s c :=
  ⟨hv.readFrom, hv.asked, hv.within, hv.settled, hv.recorded, hv.backed⟩

theorem Valid.countLeftRecursion (hv : run.Valid s c) : run.countLeftRecursion.Valid s c :=
  ⟨hv.readFrom, hv.asked, hv.within, hv.settled, hv.recorded, hv.backed⟩

theorem grows_countMemoHit (run : Run) : run.Grows run.countMemoHit :=
  ⟨fun _ _ h => h, fun _ _ _ h => h, fun _ _ h => h, Nat.le_refl _⟩

theorem grows_countLeftRecursion (run : Run) : run.Grows run.countLeftRecursion :=
  ⟨fun _ _ h => h, fun _ _ _ h => h, fun _ _ h => h, Nat.le_succ _⟩

/-- `run'` is `run` with a finding about `rule` at `p`, and perhaps with more nodes. -/
structure Records (run run' : Run) (p : Position) (rule : RuleId) (finding : Finding) :
    Prop where
  lexer : run'.lexer = run.lexer
  memo : run'.memo = run.memo.record p rule finding
  nodes : ∀ id x, run.arena.derived? id = some x → run'.arena.derived? id = some x
  hits : run'.stats.leftRecursionHits = run.stats.leftRecursionHits

theorem enter_records (run : Run) (rule : RuleId) (p : Position) :
    run.Records (run.enter rule p) p rule .inProgress := ⟨rfl, rfl, fun _ _ h => h, rfl⟩

theorem fail_records (run : Run) (rule : RuleId) (p : Position) (f : Failure) :
    run.Records (run.fail rule p f) p rule (.failed f) := ⟨rfl, rfl, fun _ _ h => h, rfl⟩

theorem derived?_succeed (run : Run) (rule : RuleId) (p : Position) (out : PathSet)
    (id : NodeId) : (run.succeed rule p out).2.arena.derived? id =
      if id = run.arena.size then some (rule, p, out) else run.arena.derived? id :=
  Arena.derived?_alloc _ _ _

theorem succeed_records (run : Run) (rule : RuleId) (p : Position) (out : PathSet) :
    run.Records (run.succeed rule p out).2 p rule (.succeeded run.arena.size) where
  lexer := rfl
  memo := rfl
  nodes id x h := by
    have hid := Arena.lt_size_of_derived h
    rwa [derived?_succeed, if_neg (Nat.ne_of_lt hid)]
  hits := rfl

section Records
variable {finding : Finding}

theorem Records.find? (h : run.Records run' p rule finding) (q : Position) (r : RuleId) :
    run'.memo.find? q r = if q = p ∧ r = rule then some finding else run.memo.find? q r := by
  rw [h.memo, Memo.find?_record]

/-- Nodes stay settled when a finding is recorded that was not a success before. -/
theorem Records.settled (h : run.Records run' p rule finding) (hv : run.Valid s c)
    (hopen : ∀ id, run.memo.find? p rule ≠ some (.succeeded id)) {n : Nat} {r : RuleId}
    {q q' : Position} (hs : run.Settled n r q q') : run'.Settled n r q q' := by
  obtain ⟨id, hid, hm, hq⟩ := hs
  refine ⟨id, hid, ?_, ?_⟩
  · rw [h.find?, if_neg]
    · exact hm
    · intro h
      obtain ⟨rfl, rfl⟩ := h
      exact hopen id hm
  · obtain ⟨out, hd, -⟩ := hv.settled q r id hm
    rw [Arena.output_of_derived (h.nodes _ _ hd)]
    rwa [Arena.output_of_derived hd] at hq

theorem Records.reads (h : run.Records run' p rule finding) {q : Position} {t : Token} :
    run'.Reads q t ↔ run.Reads q t := by rw [Reads, Reads, h.lexer]

theorem Records.within (h : run.Records run' p rule finding) {q : Position}
    (hq : run.Within c q) : run'.Within c q := by
  refine hq.imp_right ?_
  intro h
  obtain ⟨q', t, ht, rfl⟩ := h
  exact ⟨q', t, h.reads.mpr ht, rfl⟩

theorem Records.asked (h : run.Records run' p rule finding) (hv : run.Valid s c)
    (hp : c.origin p) (q : Position) (r : RuleId) (f : Finding)
    (hm : run'.memo.find? q r = some f) : c.origin q := by
  rw [h.find?] at hm
  split at hm
  · next heq => exact heq.1 ▸ hp
  · exact hv.asked q r f hm

/-- The nodes there were keep their findings when one is recorded that was not a success before. -/
theorem Records.recorded (h : run.Records run' p rule finding) (hv : run.Valid s c)
    (hopen : ∀ id, run.memo.find? p rule ≠ some (.succeeded id)) (id : NodeId) (r : RuleId)
    (q : Position) (out : PathSet) (hd : run.arena.derived? id = some (r, q, out)) :
    run'.memo.find? q r = some (.succeeded id) := by
  have hm := hv.recorded id r q out hd
  rw [h.find?, if_neg]
  · exact hm
  · intro heq
    obtain ⟨rfl, rfl⟩ := heq
    exact hopen id hm

/-- Recording anything but a success. -/
theorem Records.valid (h : run.Records run' p rule finding) (hv : run.Valid s c)
    (hp : c.origin p) (hopen : ∀ id, run.memo.find? p rule ≠ some (.succeeded id))
    (harena : run'.arena = run.arena) (hfinding : ∀ id, finding ≠ .succeeded id) :
    run'.Valid s c where
  readFrom := by rw [h.lexer]; exact hv.readFrom
  asked := h.asked hv hp
  within id q hq := by
    rw [harena] at hq
    exact h.within (hv.within id q hq)
  settled q r id hm := by
    rw [h.find?] at hm
    split at hm
    · exact absurd (Option.some.inj hm) (hfinding id)
    · rw [harena]
      exact hv.settled q r id hm
  recorded id r q out hd := by
    rw [harena] at hd
    exact h.recorded hv hopen id r q out hd
  backed id r q out hd := by
    rw [harena] at hd
    obtain ⟨definition, hdef, hleads⟩ := hv.backed id r q out hd
    refine ⟨definition, hdef, fun q' hq' => (hleads q' hq').mono (fun _ _ => h.reads.mpr) ?_⟩
    exact fun _ _ _ => h.settled hv hopen

/-- Recording a success: the new node stands behind all nodes that its paths rest on. -/
theorem Valid.succeed (hv : run.Valid s c)
    (hopen : ∀ id, run.memo.find? p rule ≠ some (.succeeded id))
    {definition : Grammar.Definition} (hdef : s.grammar.rule? rule = some definition)
    {out : PathSet} (hne : out ≠ ∅) (hp : run.Within c p)
    (hout : ∀ q ∈ out, run.Leads s definition.body p q) :
    (run.succeed rule p out).2.Valid s c where
  readFrom := hv.readFrom
  asked := (succeed_records run rule p out).asked hv (hv.origin_of_within hp)
  within id q hq := by
    rw [Arena.output_eq, derived?_succeed] at hq
    split at hq
    · exact hv.leads_within (hout q (by simpa using hq)) hp
    · rw [← Arena.output_eq] at hq
      exact hv.within id q hq
  settled q r id hm := by
    rw [(succeed_records run rule p out).find?] at hm
    split at hm
    · next heq =>
        obtain ⟨rfl, rfl⟩ := heq
        cases hm
        exact ⟨out, by rw [derived?_succeed, if_pos rfl], hne⟩
    · obtain ⟨out', hd, hne'⟩ := hv.settled q r id hm
      exact ⟨out', (succeed_records run rule p out).nodes _ _ hd, hne'⟩
  recorded id r q out' hd := by
    rw [derived?_succeed] at hd
    split at hd
    · next heq =>
        cases hd
        rw [(succeed_records run rule p out).find?, if_pos ⟨rfl, rfl⟩, heq]
    · exact (succeed_records run rule p out).recorded hv hopen id r q out' hd
  backed id r q out' hd := by
    have hsettled : ∀ (n : Nat) r q q', run.Settled n r q q' →
        (run.succeed rule p out).2.Settled n r q q' :=
      fun n r q q' => (succeed_records run rule p out).settled hv hopen
    rw [derived?_succeed] at hd
    split at hd
    · next heq =>
        cases hd
        rw [heq]
        exact ⟨definition, hdef, fun q' hq' =>
          (hout q' hq').mono (fun _ _ ht => ht) (hsettled _)⟩
    · obtain ⟨definition', hdef', hleads⟩ := hv.backed id r q out' hd
      exact ⟨definition', hdef', fun q' hq' =>
        (hleads q' hq').mono (fun _ _ ht => ht) (hsettled _)⟩

/-- A rule without a finding gets one: nothing else changes. -/
theorem Grows.record (hg : run.Grows run') (hnone : run.memo.find? p rule = none)
    {run'' : Run} (h : run'.Records run'' p rule finding) : run.Grows run'' where
  cache i result hc := by
    rw [h.lexer]
    exact hg.cache i result hc
  memo q r f hm := by
    rw [h.find?, if_neg]
    · exact hg.memo q r f hm
    · intro h
      obtain ⟨rfl, rfl⟩ := h
      cases hnone.symm.trans hm
  nodes id x hd := h.nodes id x (hg.nodes id x hd)
  hits := by rw [h.hits]; exact hg.hits

end Records
end Run

/-- What a reference to a rule at a position comes to, given the finding about it. -/
def Finding.answer (rule : RuleId) (p : Position) : Finding → Except Failure NodeId
  | .inProgress => .error (.noPath (some rule) p)
  | .succeeded id => .ok id
  | .failed f => .error f

namespace Session

variable {s : Session} {c : Scope s.source}

/-- What a rule at a position is found to be: nothing changes, or `fresh` finds out. -/
theorem ensures_consult {rule : RuleId} {p : Position} {fresh : Search NodeId} {run : Run}
    {post : Except Failure NodeId → Run → Prop} :
    Ensures (consult rule p fresh) run post ↔ match run.memo.find? p rule with
      | some (.succeeded id) => post (.ok id) run.countMemoHit
      | some (.failed f) => post (.error f) run.countMemoHit
      | some .inProgress => post (.error (.noPath (some rule) p)) run.countLeftRecursion
      | none => Ensures fresh run post := by
  refine ensures_bind.trans (ensures_get.trans ?_)
  dsimp only
  cases run.memo.find? p rule with
  | none => rfl
  | some finding => cases finding <;> rfl

/-- What comes of the body closes the frame that was opened for it. -/
theorem ensures_deriveFresh {resolve : Resolver} {rule : RuleId} {p : Position} {run : Run}
    {post : Except Failure NodeId → Run → Prop} :
    Ensures (s.deriveFresh resolve rule p) run post ↔ match s.grammar.rule? rule with
      | none => post (.error (.noPath (some rule) p)) run
      | some definition => Ensures (s.evaluate resolve definition.body {p}) (run.enter rule p)
          fun result run' => match result with
          | .ok out => post (.ok (run'.succeed rule p out).1) (run'.succeed rule p out).2
          | .error f => post (.error f) (run'.fail rule p f) := by
  unfold deriveFresh
  cases s.grammar.rule? rule with
  | none => rfl
  | some definition =>
      have hclose (result : Except Failure PathSet) (run' : Run) :
          Ensures (match result with
            | .ok out => modifyGet (·.succeed rule p out)
            | .error f => do
              modify (·.fail rule p f)
              throw f : Search NodeId) run' post ↔ match result with
            | .ok out => post (.ok (run'.succeed rule p out).1) (run'.succeed rule p out).2
            | .error f => post (.error f) (run'.fail rule p f) := by
        cases result with
        | ok out => rfl
        | error f => exact ensures_bind
      exact ensures_bind.trans (ensures_bind.trans (hclose _ _))

/-- What is settled is looked up: a memo hit is counted and nothing else done. -/
theorem deriveWithin_settled (s : Session) (depth : Nat) {rule : RuleId} {p : Position} {run : Run}
    {finding : Finding} (hm : run.memo.find? p rule = some finding)
    (hsettled : finding ≠ .inProgress) :
    Ensures (s.deriveWithin depth rule p) run fun result run' =>
      result = finding.answer rule p ∧ run' = run.countMemoHit := by
  have hconsult (fresh : Search NodeId) : Ensures (consult rule p fresh) run fun result run' =>
      result = finding.answer rule p ∧ run' = run.countMemoHit := by
    rw [ensures_consult, hm]
    cases finding with
    | inProgress => exact absurd rfl hsettled
    | succeeded id => exact ⟨rfl, rfl⟩
    | failed f => exact ⟨rfl, rfl⟩
  cases depth with
  | zero => exact hconsult _
  | succ depth => exact hconsult _

theorem ensures_derive {rule : RuleId} {p : Position} {run : Run}
    {post : Except Failure NodeId → Run → Prop} :
    Ensures (s.derive rule p) run post ↔
      Ensures (s.deriveWithin (s.maxDepth - run.frames.length) rule p) run post := Iff.rfl

theorem ensures_follow {rule : Rule} {input : PathSet} {run : Run}
    {post : Except Failure PathSet → Run → Prop} :
    Ensures (s.follow rule input) run post ↔
      Ensures (s.evaluate
        (fun r q => s.deriveWithin (s.maxDepth - run.frames.length) r q >>= outputOf) rule input)
        run post := Iff.rfl

/-- A finding that is there answers; otherwise `fresh` has to settle it. -/
theorem consult_sound (rule : RuleId) (p : Position) (fresh : Search NodeId) (run : Run)
    (hv : run.Valid s c)
    (hfresh : run.memo.find? p rule = none → Search.Sound s c fresh run fun id run' =>
      run'.memo.find? p rule = some (.succeeded id)) :
    Search.Sound s c (consult rule p fresh) run fun id run' =>
      run'.memo.find? p rule = some (.succeeded id) := by
  refine ensures_consult.mpr ?_
  split
  · next id hm =>
      refine ⟨hv.countMemoHit, run.grows_countMemoHit, fun _ heq => ?_⟩
      cases heq
      exact hm
  · exact ⟨hv.countMemoHit, run.grows_countMemoHit, fun _ heq => by cases heq⟩
  · exact ⟨hv.countLeftRecursion, run.grows_countLeftRecursion, fun _ heq => by cases heq⟩
  · next hm => exact hfresh hm

theorem deriveFresh_sound {resolve : Resolver} (hres : s.SoundResolver c resolve)
    (rule : RuleId) (p : Position) (run : Run) (hv : run.Valid s c) (hp : run.Within c p)
    (hnone : run.memo.find? p rule = none) :
    Search.Sound s c (s.deriveFresh resolve rule p) run fun id run' =>
      run'.memo.find? p rule = some (.succeeded id) := by
  refine ensures_deriveFresh.mpr ?_
  split
  · exact ⟨hv, .refl run, nofun⟩
  · next definition hdef =>
      have hopen : ∀ id, run.memo.find? p rule ≠ some (.succeeded id) := by simp [hnone]
      have henter := run.enter_records rule p
      have hv₁ := henter.valid hv (hv.origin_of_within hp) hopen rfl (by simp)
      have hg₁ : run.Grows (run.enter rule p) := (Run.Grows.refl run).record hnone henter
      refine Ensures.mono (evaluate_sound hres definition.body {p} (run.enter rule p) hv₁ (by
        simpa using hg₁.within hp)) ?_
      intro result run₂ hpost
      obtain ⟨hv₂, hg₂, hout⟩ := hpost
      -- the mark that the derivation is in progress is still there
      have hprogress : run₂.memo.find? p rule = some .inProgress :=
        hg₂.memo _ _ _ (by rw [henter.find?, if_pos ⟨rfl, rfl⟩])
      have hopen₂ : ∀ id, run₂.memo.find? p rule ≠ some (.succeeded id) := by simp [hprogress]
      cases result with
      | error f =>
          refine ⟨?_, ?_, nofun⟩
          · exact (run₂.fail_records rule p f).valid hv₂ (hv.origin_of_within hp) hopen₂ rfl
              (by simp)
          · exact (hg₁.trans hg₂).record hnone (run₂.fail_records rule p f)
      | ok out =>
          obtain ⟨hne, hleads⟩ := hout out rfl
          refine ⟨?_, ?_, ?_⟩
          · refine hv₂.succeed hopen₂ hdef (hne ?_) ((hg₁.trans hg₂).within hp) ?_
            · exact SortedSet.ne_empty_iff.mpr ⟨p, by simp⟩
            · simpa using hleads
          · exact (hg₁.trans hg₂).record hnone (run₂.succeed_records rule p out)
          · intro _ heq
            cases heq
            rw [(run₂.succeed_records rule p out).find?, if_pos ⟨rfl, rfl⟩]
            rfl

theorem outputOf_sound {rule : RuleId} {p : Position} {x : Search NodeId} {run : Run}
    (h : Search.Sound s c x run fun id run' => run'.memo.find? p rule = some (.succeeded id)) :
    Search.Sound s c (x >>= outputOf) run fun out run' =>
      out ≠ ∅ ∧ ∀ q ∈ out, run'.Known rule p q := by
  refine h.bind fun id run' hv' _ hm => ?_
  obtain ⟨out, hd, hne⟩ := hv'.settled p rule id hm
  refine Search.ensures_outputOf.mpr ⟨hv', .refl run', ?_⟩
  intro _ heq
  cases heq
  exact ⟨by rwa [Arena.output_of_derived hd], fun q hq => hv'.known hm hq⟩

/-- A derived node is what the memo table then says about the rule. -/
theorem deriveWithin_sound (depth : Nat) (rule : RuleId) (p : Position) (run : Run)
    (hv : run.Valid s c) (hp : run.Within c p) :
    Search.Sound s c (s.deriveWithin depth rule p) run fun id run' =>
      run'.memo.find? p rule = some (.succeeded id) := by
  induction depth generalizing rule p run with
  | zero => exact consult_sound rule p _ run hv fun _ => .throw hv
  | succ depth ih =>
      refine consult_sound rule p _ run hv fun hnone => ?_
      refine deriveFresh_sound ?_ rule p run hv hp hnone
      exact fun r q run' hv' hq => outputOf_sound (ih r q run' hv' hq)

/-- Every session's resolver is sound. -/
theorem resolver_sound (depth : Nat) :
    s.SoundResolver c fun rule q => s.deriveWithin depth rule q >>= outputOf :=
  fun rule p run hv hp => outputOf_sound (deriveWithin_sound depth rule p run hv hp)

theorem derive_sound (rule : RuleId) (p : Position) (run : Run) (hv : run.Valid s c)
    (hp : run.Within c p) :
    Search.Sound s c (s.derive rule p) run fun id run' =>
      run'.memo.find? p rule = some (.succeeded id) :=
  deriveWithin_sound _ rule p run hv hp

theorem follow_sound (rule : Rule) (input : PathSet) (run : Run) (hv : run.Valid s c)
    (hwithin : ∀ p ∈ input, run.Within c p) :
    Search.Sound s c (s.follow rule input) run fun out run' =>
      (input ≠ ∅ → out ≠ ∅) ∧ ∀ q ∈ out, ∃ p ∈ input, run'.Leads s rule p q :=
  evaluate_sound (resolver_sound _) rule input run hv hwithin

end Session
end Multipath
