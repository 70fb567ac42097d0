import Multipath.Proofs.Closures
import Multipath.Proofs.Ideals
import Multipath.Proofs.Levels
import Multipath.Proofs.Recognition

/-!
Extraction only reads what derivation has settled. The branch of a rule that was derived goes
through the body of the rule once more, on single paths and up to the stop, and so do the branches
inside. Whatever is asked on the way was answered before the rule's node was completed
(`Run.Attentive`), so nothing is derived anew: the run stays as it is (`Run.Still`), and the nodes
of a parse are those that deriving its start rule left behind.
-/

namespace Multipath

open Search (attempt outputOf readToken)
open Extract (ofSearch)

variable {s : Session} {base : Run}

section Recalling

/-- Nothing is expected but that answers are looked up. -/
def Ideal.recalling (hrest : base.Resting s) : Ideal s where
  reads := base.Reads
  refers := base.Known
  place _ := True
  asked := base.Answered s s.maxDepth
  inv e := base.Still e.run
  counts _ := False
  cut := True
  excuse _ := True
  reads_lt ht := (hrest.valid.reads_index_lt ht).1
  refers_upto hk := hrest.valid.settled_upto _ hk
  place_of_reads _ _ := trivial
  place_of_refers _ _ := trivial
  excuse_append _ := trivial

namespace Session

section Yields
variable {hrest : base.Resting s} {e : Extraction} {α : Type}

/-- Of what a search finds only what is sure matters. -/
theorem recalling_yields {x : Extract α} {sure : α → Prop} {settled : Except Failure α → Prop}
    (h : Ensures x e fun result e' => base.Still e'.run ∧ ∀ a, result = .ok a → sure a) :
    (Ideal.recalling hrest).Yields x e sure settled :=
  Ensures.mono h fun _ _ hpost => ⟨hpost.1, False.elim, hpost.2, False.elim⟩

theorem recalling_search {x : Search α} {sure : Except Failure α → Prop}
    {settled : Except Failure (Except Failure α) → Prop}
    (h : Ensures x e.run fun result run' => base.Still run' ∧ sure result) :
    (Ideal.recalling hrest).Yields (ofSearch (attempt x)) e sure settled := by
  refine recalling_yields (ensures_ofSearch.mpr (Search.ensures_attempt.mpr (Ensures.mono h
    fun result run' hpost => ?_)))
  cases result with
  | ok a =>
      refine ⟨hpost.1, fun b hb => ?_⟩
      cases hb
      exact hpost.2
  | error f =>
      dsimp only
      split
      · refine ⟨hpost.1, fun b hb => ?_⟩
        cases hb
        exact hpost.2
      · exact ⟨hpost.1, nofun⟩

end Yields

variable {e : Extraction} {rule : RuleId} {p q : Position}

theorem follow_still (hrest : base.Resting s) (hdefined : base.Defined s) (rule : Rule)
    (input : PathSet)
    (hasked : ∀ p ∈ input, ∀ x, base.Asks s rule p x → base.Answered s s.maxDepth x) {run : Run}
    (h : base.Still run) :
    Ensures (s.follow rule input) run fun result run' => base.Still run' ∧
      match result with
      | .ok out => ∀ q ∈ out, ∃ p ∈ input, base.Leads s rule p q
      | .error f => f.isAbsorbable = true := by
  refine ensures_follow.mpr ?_
  rw [h.level.frames, hrest.frames]
  exact (evaluate_idle hrest hdefined rule input hasked h.level).mono
    fun _ _ hpost => ⟨h.trans hpost.1, hpost.2⟩

/-- A rule that was asked for is not derived anew. -/
theorem derive_still (hrest : base.Resting s) (hdefined : base.Defined s)
    (hasked : base.Answered s s.maxDepth (.reference rule p)) {run : Run} (h : base.Still run) :
    Ensures (s.derive rule p) run fun result run' => base.Still run' ∧
      match result with
      | .ok id => base.memo.find? p rule = some (.succeeded id)
      | .error f => f.isAbsorbable = true ∧
          (base.memo.find? p rule = some (.failed f) ∨ s.grammar.rule? rule = none) := by
  refine ensures_derive.mpr ?_
  rw [h.level.frames, hrest.frames]
  exact (deriveWithin_answered hrest hdefined hasked h.level).mono
    fun _ _ hpost => ⟨h.trans hpost.1, hpost.2⟩

/-- What was read is not read anew. -/
theorem readToken_still (hasked : base.Answered s s.maxDepth (.token p)) {run : Run}
    (h : base.Still run) :
    Ensures (readToken s.source p) run fun result run' => base.Still run' ∧
      ∃ r, result = .ok r ∧ base.lexer.cache[p.index]? = some r := by
  obtain ⟨r, hr⟩ := hasked
  have hcached : (run.lexer.restore p).cache[p.index]? = some r := by
    simpa only [Lexer.restore, h.level.cache] using hr
  obtain ⟨hnext, hcache⟩ := Lexer.next_of_cached (s := s.source) hcached
  exact Search.ensures_readToken.mpr ⟨h.trans (.lexer hcache), r, congrArg _ hnext, hr⟩

/-- A builder that keeps a run still where it is called for a node. -/
def BranchBuilder.Recalls (base : Run) (branch : BranchBuilder) : Prop :=
  ∀ rule p q id e, base.memo.find? p rule = some (.succeeded id) → base.Still e.run →
    Ensures (branch rule p q) e fun _ e' => base.Still e'.run

variable {branch : BranchBuilder}

theorem recalling_nonterminal (hrest : base.Resting s) (hdefined : base.Defined s)
    (hbranch : branch.Recalls base) (q : Position) (h : base.Still e.run)
    (hadmits : (Ideal.recalling hrest).Admits (.nonterminal rule) p) :
    (Ideal.recalling hrest).Makes (s.buildNonterminal branch rule p q) e (.nonterminal rule) p
      q := by
  have hderive : (Ideal.recalling hrest).Yields (ofSearch (attempt (s.derive rule p))) e
      (fun result => ∀ id, result = .ok id → base.memo.find? p rule = some (.succeeded id))
      fun _ => True := by
    refine recalling_search ((derive_still hrest hdefined (hadmits.2 _ .nonterminal) h).mono
      fun result _ hpost => ⟨hpost.1, fun id hid => ?_⟩)
    cases hid
    exact hpost.2
  refine hderive.bind (fun _ _ => .inl trivial) fun result e₁ h₁ hfound => ?_
  cases result with
  | error f => exact recalling_yields (ensures_pure.mpr ⟨h₁, fun _ _ => trivial⟩)
  | ok id =>
      refine recalling_yields (ensures_bind.mpr (ensures_ofSearch.mpr
        (Search.ensures_outputOf.mpr ?_)))
      dsimp only
      split
      · refine ensures_bind.mpr ((hbranch rule p q id _ (hfound id rfl) h₁).mono
          fun result e₂ h₂ => ?_)
        cases result with
        | error f => exact ⟨h₂, nofun⟩
        | ok found => exact ensures_pure.mpr ⟨h₂, fun _ _ => trivial⟩
      · exact ensures_pure.mpr ⟨h₁, fun _ _ => trivial⟩

theorem recalling_reach (hrest : base.Resting s) (hdefined : base.Defined s) {item : Rule}
    {paths : PathSet} (stop : Position) (h : base.Still e.run)
    (hadmits : ∀ p ∈ paths, (Ideal.recalling hrest).Admits item p) :
    (Ideal.recalling hrest).Yields (s.reach item paths stop) e
      (fun out => ∀ q ∈ out, q ≤ stop ∧ ∃ p ∈ paths, (Ideal.recalling hrest).Leads item p q)
      ((Ideal.recalling hrest).Gathers item paths stop) := by
  have hfollow : (Ideal.recalling hrest).Yields (ofSearch (attempt (s.follow item paths))) e
      (fun result => ∀ out, result = .ok out → ∀ q ∈ out,
        ∃ p ∈ paths, (Ideal.recalling hrest).Leads item p q) fun _ => True := by
    refine recalling_search ((follow_still hrest hdefined item paths
      (fun p hp => (hadmits p hp).2) h).mono fun result _ hpost => ⟨hpost.1, fun out hout => ?_⟩)
    cases hout
    exact hpost.2
  refine hfollow.bind (fun _ _ => trivial) fun result e₁ h₁ hfound => ?_
  cases result with
  | error f =>
      refine recalling_yields (ensures_pure.mpr ⟨h₁, fun out hout q hq => ?_⟩)
      cases hout
      exact absurd hq Std.ExtTreeSet.not_mem_empty
  | ok out =>
      refine recalling_yields (ensures_pure.mpr ⟨h₁, fun out' hout q hq => ?_⟩)
      cases hout
      obtain ⟨hq, hle⟩ := SortedSet.mem_filter.mp hq
      exact ⟨by simpa using hle, hfound out rfl q hq⟩

theorem recalling_terminal (hrest : base.Resting s) {tag : TagId} (q : Position)
    (h : base.Still e.run) (hadmits : (Ideal.recalling hrest).Admits (.terminal tag) p) :
    (Ideal.recalling hrest).Makes (s.buildTerminal tag p q) e (.terminal tag) p q := by
  refine recalling_yields (ensures_bind.mpr (ensures_ofSearch.mpr
    ((readToken_still (hadmits.2 _ .terminal) h).mono fun result run' hpost => ?_)))
  obtain ⟨h', r, rfl, -⟩ := hpost
  cases r with
  | error f => exact ensures_pure.mpr ⟨h', fun _ _ => trivial⟩
  | ok token =>
      dsimp only
      split <;> exact ensures_pure.mpr ⟨h', fun _ _ => trivial⟩

/-- What a branch goes through was gone through before. -/
theorem recalling_served (hrest : base.Resting s) (hdefined : base.Defined s)
    (hbranch : branch.Recalls base) : Ideal.Served (.recalling hrest) branch where
  reach stop h hadmits := recalling_reach hrest hdefined stop h hadmits
  terminal q h hadmits := recalling_terminal hrest q h hadmits
  nonterminal q h hadmits := recalling_nonterminal hrest hdefined hbranch q h hadmits
  explores _ _ _ := Ensures.of_forall fun _ _ => False.elim

/-- The body of a rule that has a node asks nothing new. -/
theorem recalling_admits (hrest : base.Resting s) (hattentive : base.Attentive s)
    (hhits : base.stats.leftRecursionHits = 0) {id : NodeId}
    (hm : base.memo.find? p rule = some (.succeeded id)) {definition : Grammar.Definition}
    (hdef : s.grammar.rule? rule = some definition) :
    (Ideal.recalling hrest).Admits definition.body p := by
  obtain ⟨out, hd, -⟩ := hrest.valid.settled p rule id hm
  exact ⟨trivial, fun x hx =>
    (hattentive hhits id rule p out definition hd hdef x hx).answered⟩

theorem reuse_still {stretch : Stretch} {fresh : Extract (Option Branch)} (h : base.Still e.run)
    (hfresh : Ensures fresh e fun _ e' => base.Still e'.run) :
    Ensures (reuse stretch fresh) e fun _ e' => base.Still e'.run :=
  ensures_reuse (fun _ _ => h) (fun _ => h) fun _ _ => hfresh

theorem body_still {stretch : Stretch} (h : base.Still e.run)
    (hbody : ∀ definition, s.grammar.rule? stretch.rule = some definition →
      Ensures (s.build branch definition.body stretch.start stretch.stop) e
        fun _ e' => base.Still e'.run) :
    Ensures (match s.grammar.rule? stretch.rule with
      | some definition => s.build branch definition.body stretch.start stretch.stop
      | none => pure none) e fun _ e' => base.Still e'.run := by
  split
  · next definition hdef => exact hbody definition hdef
  · exact ensures_pure.mpr h

/-- Whatever comes of building the body, entering and leaving its stretch is no matter of the
run. -/
theorem branchFresh_still {stretch : Stretch} (h : base.Still e.run)
    (hbody : ∀ definition, s.grammar.rule? stretch.rule = some definition →
      Ensures (s.build branch definition.body stretch.start stretch.stop) (e.enter stretch)
        fun _ e' => base.Still e'.run) :
    Ensures (s.branchFresh branch stretch) e fun _ e' => base.Still e'.run := by
  have hentered : base.Still (e.enter stretch).run := h
  exact ensures_branchFresh (body_still hentered hbody) (fun _ _ => id) (fun _ => id) fun _ _ => id

theorem branchWithin_still (hrest : base.Resting s) (hdefined : base.Defined s)
    (hattentive : base.Attentive s) (hhits : base.stats.leftRecursionHits = 0) (depth : Nat) :
    BranchBuilder.Recalls base fun rule p q => s.branchWithin depth rule p q := by
  induction depth with
  | zero => exact fun rule p q id e _ h => reuse_still h (ensures_throw.mpr h)
  | succ depth ih =>
      intro rule p q id e hm h
      refine reuse_still h (branchFresh_still h fun definition hdef => ?_)
      have hadmits := recalling_admits hrest hattentive hhits hm hdef
      have hbuild : (Ideal.recalling hrest).Makes _ (e.enter ⟨rule, p, q⟩) definition.body p q :=
        Ideal.build_makes (recalling_served hrest hdefined ih) definition.body p q _ h hadmits
      exact Ensures.mono hbuild fun _ _ hpost => hpost.1

/-- Extracting the branch of a rule that has a node finds nothing out. -/
theorem branch_still (hrest : base.Resting s) (hdefined : base.Defined s)
    (hattentive : base.Attentive s) (hhits : base.stats.leftRecursionHits = 0) {id : NodeId}
    (hm : base.memo.find? p rule = some (.succeeded id)) (q : Position) (h : base.Still e.run) :
    Ensures (s.branch rule p q) e fun _ e' => base.Still e'.run :=
  ensures_bind.mpr (ensures_get.mpr
    (branchWithin_still hrest hdefined hattentive hhits _ rule p q id e hm h))

end Session
end Recalling

section Parsing

/-- The newest node is nobody's child. -/
theorem Arena.Linked.parent_newest {a : Arena} {waiting : List NodeId} (h : a.Linked waiting)
    {id : NodeId} (hid : id + 1 = a.size) {n : Node} (hn : a.node? id = some n) :
    n.parent = none := by
  cases hparent : n.parent with
  | none => rfl
  | some parent =>
      obtain ⟨m, hm, hmem⟩ := (h.parent_iff id n hn parent).mp hparent
      have hlt : id < parent := h.children_lt parent m hm id hmem
      have hle : parent < id + 1 := hid ▸ lt_size_of_node? hm
      exact absurd (Nat.le_of_lt_succ hle) (Nat.not_le_of_lt hlt)

/-- The nodes of a parse are those that deriving its start rule left behind. The newest of them is
the root, which has no parent and is narrowed to the one path taken. -/
structure Session.Extracts (s : Session) (trailing : Bool) (start : Position) (r : Parse)
    (rule : RuleId) (run : Run) : Prop where
  selects : s.grammar.selectStart s.source.conditions = .ok rule
  derives : (s.derive rule start).run.run {} = (.ok r.root, run)
  nodes : ∃ stop, s.winner? trailing (run.arena.output r.root) = some stop ∧
    r.nodes = run.arena.setOutput r.root {stop}
  size : r.nodes.size = run.arena.size
  root : r.root + 1 = r.nodes.size
  parent : ∃ n, r.nodes.node? r.root = some n ∧ n.rule = rule ∧ n.start = start ∧ n.parent = none
  evaluations : r.stats.evaluations = run.stats.evaluations
  leftRecursionHits : r.stats.leftRecursionHits = run.stats.leftRecursionHits
  maxDepth : r.stats.maxDepth = run.stats.maxDepth

theorem Session.parse_extracts {trailing : Bool} {start : Position} {rule : RuleId} {r : Parse}
    (hselect : s.grammar.selectStart s.source.conditions = .ok rule)
    (hhits : ((s.derive rule start).run.run {}).2.stats.leftRecursionHits = 0)
    (h : s.parse trailing start = .ok r) : ∃ run, s.Extracts trailing start r rule run := by
  obtain ⟨root, run, stop, e, hderive, hwinner, hbranch, hr⟩ := parse_eq_ok hselect h
  rw [hderive] at hhits
  have hnewest : root + 1 = run.arena.size :=
    (derive_newest (by simp [Memo.find?])).of_run hderive root rfl
  have hreached : Extraction.Reached s (fun _ => True) { run := run.setOutput root {stop} } :=
    .narrow (.derive .fresh trivial hderive) hnewest (winner?_eq_some.mp hwinner).1.1
  obtain ⟨hrest, hdefined⟩ := hreached.standing
  obtain ⟨-, hm, -⟩ := narrowed_valid (c := .everywhere s.source) trivial hderive hwinner
  have hstill := (branch_still hrest hdefined hreached.attentive hhits hm stop
    (.refl _)).of_run hbranch
  have harena : e.run.arena = run.arena.setOutput root {stop} := hstill.level.arena
  have hsize : (run.arena.setOutput root {stop}).size = run.arena.size :=
    Arena.size_setOutput _ _ _
  obtain ⟨n, hn, hrule, hstart⟩ := hrest.valid.succeeded_iff.mp hm
  have hparent := hrest.tidy.linked.parent_newest (hnewest.trans hsize.symm) hn
  rw [hr]
  exact ⟨run, hselect, hderive, ⟨stop, hwinner, harena⟩, by rw [harena, hsize],
    by rw [harena, hsize, hnewest], ⟨n, by rw [harena]; exact hn, hrule, hstart, hparent⟩,
    hstill.evaluations, hstill.leftRecursionHits, hstill.maxDepth⟩

/-- Extraction only reads what derivation has settled. Where no rule has met itself, extracting the
branch of a rule that was derived, to whichever stop and whatever comes of it, leaves all findings,
nodes and counters as they are, but for lookups. So the nodes of a parse are those that deriving
its start rule left behind, with the root as the last of them. -/
theorem Session.extraction_reads (s : Session) :
    (∀ {allowed : Position → Prop} {run run' : Run} {rule : RuleId} {p : Position} {id : NodeId},
      Extraction.Reached s allowed { run } → (s.derive rule p).run.run run = (.ok id, run') →
      run'.memo.find? p rule = some (.succeeded id)) ∧
    (∀ {allowed : Position → Prop} {e e' : Extraction} {rule : RuleId} {start stop : Position}
      {id : NodeId} {result : Except Failure (Option Branch)},
      e.Reached s allowed → e.run.stats.leftRecursionHits = 0 →
      e.run.memo.find? start rule = some (.succeeded id) →
      (s.branch rule start stop).run.run e = (result, e') → e.run.Still e'.run) ∧
    ∀ {trailing : Bool} {start : Position} {rule : RuleId} {r : Parse},
      s.grammar.selectStart s.source.conditions = .ok rule →
      ((s.derive rule start).run.run {}).2.stats.leftRecursionHits = 0 →
      s.parse trailing start = .ok r → ∃ run, s.Extracts trailing start r rule run := by
  refine ⟨fun hreached hderive => ?_, fun hreached hhits hm hrun => ?_, parse_extracts⟩
  · have hv := hreached.standing.1.valid
    exact ((derive_sound _ _ _ hv (.inl trivial)).of_run hderive).2.2 _ rfl
  · obtain ⟨hrest, hdefined⟩ := hreached.standing
    exact (branch_still hrest hdefined hreached.attentive hhits hm _ (.refl _)).of_run hrun

/-- A list whose tree is extracted from the run that derived it, and its parse. -/
theorem Session.extraction_reads_lists : ∃ run result e r,
    ((Samples.listSession "a,a").derive 0 .start).run.run {} = (.ok 2, run) ∧
      ((Samples.listSession "a,a").branch 0 .start ⟨3, 1, 4⟩).run.run { run } = (result, e) ∧
      run.Still e.run ∧ (Samples.listSession "a,a").parse true .start = .ok r ∧
      ∃ run, (Samples.listSession "a,a").Extracts true .start r 0 run := by
  obtain ⟨run, hderive, -, hwinner, hhits, hsome⟩ := listSession_derived true
  obtain ⟨r, hparse⟩ := parse_of_branch rfl hderive hwinner hsome
  obtain ⟨hrecords, hreads, hextracts⟩ := extraction_reads (Samples.listSession "a,a")
  have hfresh : Extraction.Reached (Samples.listSession "a,a") (fun _ => True) { run := {} } :=
    .fresh
  have hreached := hfresh.derive trivial hderive
  rcases hbranch : ((Samples.listSession "a,a").branch 0 .start ⟨3, 1, 4⟩).run.run { run }
    with ⟨result, e⟩
  exact ⟨run, result, e, r, hderive, hbranch, hreads hreached hhits
    (hrecords hfresh hderive) hbranch, hparse, hextracts rfl (hderive ▸ hhits) hparse⟩

end Parsing
end Multipath
