import Multipath.Parse
import Multipath.Proofs.Building
import Multipath.Proofs.Exactness
import Multipath.Samples

/-!
The trees of a run. However a run came about (`Extraction.Reached`), a branch that is extracted
from it is a genuine derivation of its rule, and for every end of a node that was derived a branch
is extracted, unless rules nest too deeply. So once a path that uses up the text is found, parsing
succeeds or runs into the bound on nesting.
-/

namespace Multipath

open Search (attempt outputOf readToken)

namespace Run

variable {s : Session} {c : Scope s.source} {run : Run}

theorem derived?_narrow (run : Run) (id : NodeId) (q : Position) (other : NodeId) :
    (run.setOutput id {q}).arena.derived? other =
      if other = id then (run.arena.derived? other).map fun x => (x.1, x.2.1, {q})
      else run.arena.derived? other := Arena.derived?_setOutput _ _ _ _

theorem output_narrow_of_ne {id other : NodeId} {q : Position} (hne : other ≠ id) :
    (run.setOutput id {q}).arena.output other = run.arena.output other := by
  rw [Arena.output_eq, derived?_narrow, if_neg hne, ← Arena.output_eq]

theorem mem_output_of_narrow {id other : NodeId} {p q : Position}
    (hq : q ∈ run.arena.output id)
    (hp : p ∈ (run.setOutput id {q}).arena.output other) : p ∈ run.arena.output other := by
  by_cases heq : other = id
  · rw [heq, Arena.output_eq, derived?_narrow, if_pos rfl] at hp
    cases hd : run.arena.derived? id with
    | none => simp [hd] at hp
    | some x =>
        rw [hd] at hp
        rw [heq, SortedSet.mem_singleton.mp hp]
        exact hq
  · rwa [output_narrow_of_ne heq] at hp

/-- Narrowing the newest node to one of its paths: no other node rests on it. -/
theorem Valid.narrow (hv : run.Valid s c) {id : NodeId} (hid : id + 1 = run.arena.size)
    {q : Position} (hq : q ∈ run.arena.output id) : (run.setOutput id {q}).Valid s c := by
  refine ⟨hv.readFrom, hv.asked, fun other p hp => hv.within other p (mem_output_of_narrow hq hp),
    ?_, ?_, ?_⟩
  · intro p rule other hm
    obtain ⟨out, hd, hne⟩ := hv.settled p rule other hm
    by_cases heq : other = id
    · refine ⟨{q}, ?_, SortedSet.ne_empty_iff.mpr ⟨q, SortedSet.mem_singleton.mpr rfl⟩⟩
      rw [derived?_narrow, if_pos heq, hd]
      rfl
    · exact ⟨out, by rw [derived?_narrow, if_neg heq, hd], hne⟩
  · intro other rule p out hd
    rw [derived?_narrow] at hd
    split at hd
    · obtain ⟨⟨r, p', out'⟩, hd', hx⟩ := Option.map_eq_some_iff.mp hd
      cases hx
      exact hv.recorded other r p' out' hd'
    · exact hv.recorded other rule p out hd
  · intro other rule p out hd
    have hlt : other < run.arena.size := by
      have := Arena.lt_size_of_derived hd
      rwa [Run.setOutput, Arena.size_setOutput] at this
    have hle : other ≤ id := by
      rw [← hid] at hlt
      exact Nat.le_of_lt_succ hlt
    -- what a node rests on was completed before the newest one
    have hsettled : ∀ r p' q', run.Settled other r p' q' →
        (run.setOutput id {q}).Settled other r p' q' := by
      intro r p' q' hs
      obtain ⟨id', hid', hm, hq'⟩ := hs
      have hne : id' ≠ id := Nat.ne_of_lt (Nat.lt_of_lt_of_le hid' hle)
      exact ⟨id', hid', hm, by rwa [output_narrow_of_ne hne]⟩
    rw [derived?_narrow] at hd
    split at hd
    · next heq =>
        obtain ⟨⟨r, p', out'⟩, hd', hx⟩ := Option.map_eq_some_iff.mp hd
        cases hx
        obtain ⟨definition, hdef, hleads⟩ := hv.backed other r p' out' hd'
        refine ⟨definition, hdef, fun q' hq' => ?_⟩
        rw [← heq, Arena.output_of_derived hd'] at hq
        rw [SortedSet.mem_singleton.mp hq']
        exact (hleads q hq).mono (fun _ _ ht => ht) hsettled
    · obtain ⟨definition, hdef, hleads⟩ := hv.backed other rule p out hd
      exact ⟨definition, hdef, fun q' hq' => (hleads q' hq').mono (fun _ _ ht => ht) hsettled⟩

end Run

/-- What calls at positions that are allowed lead to, with extractors begun and left at will. The
newest node may be narrowed to one of its paths, as it is before the tree of a text is read off. -/
inductive Extraction.Reached (s : Session) (allowed : Position → Prop) : Extraction → Prop
  | fresh : Reached s allowed { run := {} }
  | evaluate {run rule input result run'} : Reached s allowed { run } →
      (∀ p ∈ input, allowed p) → (s.follow rule input).run.run run = (result, run') →
      Reached s allowed { run := run' }
  | derive {run rule p result run'} : Reached s allowed { run } → allowed p →
      (s.derive rule p).run.run run = (result, run') → Reached s allowed { run := run' }
  | read {run p result run'} : Reached s allowed { run } → allowed p →
      (readToken s.source p).run.run run = (result, run') → Reached s allowed { run := run' }
  | narrow {run id q} : Reached s allowed { run } → id + 1 = run.arena.size →
      q ∈ run.arena.output id → Reached s allowed { run := run.setOutput id {q} }
  | branch {e rule p q result e'} : Reached s allowed e → allowed p →
      (s.branch rule p q).run.run e = (result, e') → Reached s allowed e'
  | renew {e} : Reached s allowed e → Reached s allowed { run := e.run }

theorem Extraction.Reached.valid {s : Session} {c : Scope s.source} {allowed : Position → Prop}
    {e : Extraction} (h : e.Reached s allowed) (hbase : ∀ p, allowed p → c.base p) :
    e.Valid s c := by
  induction h with
  | fresh => exact valid_start Run.valid_empty
  | @evaluate run rule input _ _ _ hinput hrun ih =>
      exact valid_start ((Session.follow_sound rule input run ih.run
        fun p hp => .inl (hbase p (hinput p hp))).of_run hrun).1
  | @derive run rule p _ _ _ hp hrun ih =>
      exact valid_start
        ((Session.derive_sound rule p run ih.run (.inl (hbase p hp))).of_run hrun).1
  | read _ hp hrun ih =>
      exact valid_start ((readToken_spec ih.run (.inl (hbase _ hp))).of_run hrun).1
  | narrow _ hid hq ih => exact valid_start (ih.run.narrow hid hq)
  | @branch e rule p q _ _ _ hp hrun ih =>
      exact ((branch_gives rule p q ih (.inl (hbase p hp))).of_run hrun).1
  | renew _ ih => exact valid_start ih.run

section Soundness

/-- The token that is read next from a position. -/
def Run.Yields (s : Session) (run : Run) (p : Position) (t : Token) : Prop :=
  ((run.lexer.restore p).next s.source).1 = .ok t

/-- Some node is of the rule, starts at `p` and can end at `q`. -/
def Arena.Backs (a : Arena) (rule : RuleId) (p q : Position) : Prop :=
  ∃ id node, a.node? id = some node ∧ node.rule = rule ∧ node.start = p ∧ q ∈ node.output

/-- A genuine derivation of a rule between two positions: an instance of the rule whose children
lie side by side on the text from the one position to the other. -/
structure Session.Genuine (s : Session) (reads : Position → Token → Prop) (a : Arena)
    (rule : RuleId) (start stop : Position) (b : Branch) : Prop where
  isInstance : s.grammar.Instance reads a.Backs rule start stop b
  threads : ∃ definition, s.grammar.rule? rule = some definition ∧
    s.grammar.Threads reads a.Backs (fun r => .nonterminal r ∈ definition.body.parts) start stop
      b.children
  empty : b.children = [] → start = stop
  last : ∀ t, b.children.getLast? = some t → t.span.stop = stop

theorem Grammar.Threads.eq_of_nil {g : Grammar} {reads : Position → Token → Prop}
    {backs : RuleId → Position → Position → Prop} {rules : RuleId → Prop} {p q : Position}
    (h : g.Threads reads backs rules p q []) : p = q := by
  cases h
  rfl

theorem Grammar.Threads.stop_of_getLast {g : Grammar} {reads : Position → Token → Prop}
    {backs : RuleId → Position → Position → Prop} {rules : RuleId → Prop} {p q : Position}
    {ts : List Tree} (h : g.Threads reads backs rules p q ts) {t : Tree}
    (ht : ts.getLast? = some t) : t.span.stop = q := by
  induction h with
  | nil => cases ht
  | @leaf p u q ts _ _ hrest ih =>
      cases ts with
      | nil =>
          cases ht
          exact hrest.eq_of_nil
      | cons t' ts => exact ih (by rwa [List.getLast?_cons_cons] at ht)
  | @branch rule p m q us ts _ _ _ _ hrest ih =>
      cases ts with
      | nil =>
          cases ht
          exact hrest.eq_of_nil
      | cons t' ts => exact ih (by rwa [List.getLast?_cons_cons] at ht)

variable {s : Session} {c : Scope s.source} {run : Run}

theorem Session.Genuine.of_instance {reads : Position → Token → Prop} {a : Arena} {rule : RuleId}
    {start stop : Position} {b : Branch}
    (h : s.grammar.Instance reads a.Backs rule start stop b)
    (hreads : ∀ p t, reads p t → p.index < t.span.stop.index) :
    s.Genuine reads a rule start stop b := by
  obtain ⟨hname, hspan, definition, hdef, hbody⟩ := h
  have hthreads := hbody.threads hreads
  refine ⟨⟨hname, hspan, definition, hdef, hbody⟩, ⟨definition, hdef, hthreads⟩, ?_, ?_⟩
  · intro hnil
    rw [hnil] at hthreads
    exact hthreads.eq_of_nil
  · exact fun t ht => hthreads.stop_of_getLast ht

theorem Run.Valid.backs_of_known (hv : run.Valid s c) {rule : RuleId} {p q : Position}
    (h : run.Known rule p q) : run.arena.Backs rule p q := by
  obtain ⟨id, -, hm, hq⟩ := h
  obtain ⟨out, hd, -⟩ := hv.settled p rule id hm
  obtain ⟨node, hnode, hx⟩ := Option.map_eq_some_iff.mp hd
  cases hx
  refine ⟨id, node, hnode, rfl, rfl, ?_⟩
  rwa [Arena.output_of_derived hd] at hq

theorem Run.yields_of_reads {p : Position} {t : Token} (h : run.Reads p t) :
    run.Yields s p t := by
  have hlookup : (run.lexer.restore p).lookup s.source = (.ok t, run.lexer.restore p) := by
    unfold Lexer.lookup
    rw [show (run.lexer.restore p).cache[(run.lexer.restore p).position.index]? = some (.ok t)
      from h]
  unfold Yields Lexer.next
  rw [hlookup]

theorem Run.Valid.index_lt_of_yields (hv : run.Valid s (.everywhere s.source)) {p : Position}
    {t : Token} (h : run.Yields s p t) : p.index < t.span.stop.index := by
  have once := Lexer.next_spec (l := run.lexer.restore p) hv.readFrom trivial
  obtain ⟨p', -, hi, htok⟩ := once.readFrom _ _ once.remembered
  rw [h] at htok
  have := Source.token_stop htok
  simp only [Lexer.restore] at hi
  omega

/-- Whatever was called before, an extracted branch is a genuine derivation between the positions
asked for, by the tokens that the run reads. If the positions called at were all places of the text,
these are the tokens of the text. -/
theorem Extraction.Reached.branch_genuine {allowed : Position → Prop} {e e' : Extraction}
    (h : e.Reached s allowed) {rule : RuleId} {start stop : Position} {b : Branch}
    (hrun : (s.branch rule start stop).run.run e = (.ok (some b), e')) :
    s.Genuine (e'.run.Yields s) e'.run.arena rule start stop b ∧
      ((∀ p, allowed p → s.source.IsPlace p) → s.source.IsPlace start →
        s.Genuine (fun p t => s.source.token p = .ok t) e'.run.arena rule start stop b) := by
  constructor
  · have hvalid : e.Valid s (.everywhere s.source) := h.valid fun _ _ => trivial
    have hpost := (branch_gives rule start stop hvalid (.inl trivial)).of_run hrun
    obtain ⟨he', -, hname, hspan, definition, hdef, hbody⟩ := hpost
    refine .of_instance ⟨hname, hspan, definition, hdef, ?_⟩
      fun p t ht => he'.run.index_lt_of_yields ht
    exact hbody.mono (fun _ _ => Run.yields_of_reads) fun _ _ _ => he'.run.backs_of_known
  · intro hallowed hstart
    have hpost := (branch_gives rule start stop (h.valid (c := .places s.source) hallowed)
      (.inl hstart)).of_run hrun
    obtain ⟨he', -, hname, hspan, definition, hdef, hbody⟩ := hpost
    refine .of_instance ⟨hname, hspan, definition, hdef, ?_⟩
      fun p t ht => (Source.token_stop ht).1
    exact (hbody.along s.source.IsPlace hstart he'.run.reads_along
      fun rule p q _ hk => he'.run.backs_of_known hk).1

/-- The tree of a list, extracted from the run that derived it. -/
theorem Extraction.Reached.branch_genuine_lists : ∃ b e',
    ((Samples.listSession "a,a").branch 0 .start ⟨3, 1, 4⟩).run.run
      { run := (((Samples.listSession "a,a").derive 0 .start).run.run {}).2 } =
        (.ok (some b), e') ∧
      (Samples.listSession "a,a").Genuine (e'.run.Yields (Samples.listSession "a,a")) e'.run.arena
        0 .start ⟨3, 1, 4⟩ b ∧
      (Samples.listSession "a,a").Genuine
        (fun p t => (Samples.listSession "a,a").source.token p = .ok t) e'.run.arena
        0 .start ⟨3, 1, 4⟩ b := by
  have hstart := (Samples.listSession "a,a").source.isPlace_start
  have hsome : (((Samples.listSession "a,a").branch 0 .start ⟨3, 1, 4⟩).run.run
      { run := (((Samples.listSession "a,a").derive 0 .start).run.run {}).2 }).1.toOption.map
        Option.isSome = some true := by decide +kernel
  generalize hderive : ((Samples.listSession "a,a").derive 0 .start).run.run {} = derived at hsome ⊢
  generalize hbranch : ((Samples.listSession "a,a").branch 0 .start ⟨3, 1, 4⟩).run.run
    { run := derived.2 } = extracted at hsome ⊢
  obtain ⟨_ | _ | b, e'⟩ := extracted
  · cases hsome
  · cases hsome
  · have hreached : Extraction.Reached (Samples.listSession "a,a")
        (Samples.listSession "a,a").source.IsPlace { run := derived.2 } :=
      .derive .fresh hstart hderive
    have hgenuine := Extraction.Reached.branch_genuine hreached hbranch
    exact ⟨b, e', rfl, hgenuine.1, hgenuine.2 (fun _ h => h) hstart⟩

end Soundness

section Completeness
variable {s : Session} {c : Scope s.source} {run : Run}

/-- For a path that a node has, a branch is found unless rules nest too deeply. -/
theorem Run.Valid.branch_found (hv : run.Valid s c) {rule : RuleId} {p q : Position} {id : NodeId}
    (hp : run.Within c p) (hm : run.memo.find? p rule = some (.succeeded id))
    (hq : q ∈ run.arena.output id) :
    Ensures (s.branch rule p q) { run } fun result _ =>
      (∃ b, result = .ok (some b)) ∨ ∃ r m, result = .error (.depthLimit r m) := by
  refine Ensures.mono (branch_gives rule p q (Extraction.valid_start hv) hp) ?_
  intro result e' hpost
  obtain ⟨-, -, hlast⟩ := hpost
  cases result with
  | error f =>
      cases f with
      | noPath r m => cases hlast
      | depthLimit r m => exact .inr ⟨r, m, rfl⟩
  | ok found =>
      cases found with
      | some b => exact .inl ⟨b, rfl⟩
      | none => exact absurd (Extraction.clear_start run _ p q) (hlast id hm hq)

theorem Session.ensures_consult_of_none {rule : RuleId} {p : Position} {fresh : Search NodeId}
    (hnone : run.memo.find? p rule = none) {post : Except Failure NodeId → Run → Prop}
    (h : Ensures fresh run post) : Ensures (consult rule p fresh) run post := by
  rwa [ensures_consult, hnone]

/-- A rule that was not met before gets the newest node. -/
theorem Session.derive_newest {rule : RuleId} {p : Position}
    (hnone : run.memo.find? p rule = none) :
    Ensures (s.derive rule p) run fun result run' =>
      ∀ id, result = .ok id → id + 1 = run'.arena.size := by
  suffices hwithin : ∀ depth, Ensures (s.deriveWithin depth rule p) run fun result run' =>
      ∀ id, result = .ok id → id + 1 = run'.arena.size from hwithin _
  intro depth
  cases depth with
  | zero => exact ensures_consult_of_none hnone (ensures_throw.mpr fun id hid => by cases hid)
  | succ depth =>
      refine ensures_consult_of_none hnone ?_
      refine ensures_deriveFresh.mpr ?_
      split
      · nofun
      · refine Ensures.of_forall fun result run' => ?_
        cases result with
        | error f => nofun
        | ok out =>
            intro id hid
            cases hid
            exact (Arena.size_alloc _ _).symm

theorem Session.winner?_eq_some {trailing : Bool} {paths : PathSet} {stop : Position} :
    s.winner? trailing paths = some stop ↔ (stop ∈ paths ∧ s.usesUp trailing stop = true) ∧
      ∀ p ∈ paths, s.usesUp trailing p = true → (compare p stop).isLE := by
  unfold winner?
  rw [Std.ExtTreeSet.max?_eq_some_iff_mem_and_forall, SortedSet.mem_filter]
  refine and_congr_right fun _ => ⟨fun h p hp hend => h p ?_, fun h p hp => ?_⟩
  · exact SortedSet.mem_filter.mpr ⟨hp, hend⟩
  · obtain ⟨hp, hend⟩ := SortedSet.mem_filter.mp hp
    exact h p hp hend

/-- The run of a parse after its root was narrowed to the winner, which it then leads to. -/
theorem Session.narrowed_valid {trailing : Bool} {start stop : Position} {rule : RuleId}
    {root : NodeId} (hstart : c.base start)
    (hderive : (s.derive rule start).run.run {} = (.ok root, run))
    (hwinner : s.winner? trailing (run.arena.output root) = some stop) :
    (run.setOutput root {stop}).Valid s c ∧
      (run.setOutput root {stop}).memo.find? start rule = some (.succeeded root) ∧
      stop ∈ (run.setOutput root {stop}).arena.output root := by
  obtain ⟨hv, -, hm⟩ :=
    (derive_sound rule start {} (Run.valid_empty (c := c)) (.inl hstart)).of_run hderive
  have hnewest : root + 1 = run.arena.size :=
    (derive_newest (by simp [Memo.find?])).of_run hderive root rfl
  refine ⟨hv.narrow hnewest (winner?_eq_some.mp hwinner).1.1, hm root rfl, ?_⟩
  obtain ⟨out, hd, -⟩ := hv.settled start rule root (hm root rfl)
  rw [Run.setOutput, Arena.output_eq, Arena.derived?_setOutput, if_pos rfl, hd]
  exact SortedSet.mem_singleton.mpr rfl

/-- For a winner, a parse comes to what the extraction of its branch comes to. -/
theorem Session.parse_eq_of_winner {trailing : Bool} {start stop : Position} {rule : RuleId}
    {root : NodeId} (hselect : s.grammar.selectStart s.source.conditions = .ok rule)
    (hderive : (s.derive rule start).run.run {} = (.ok root, run))
    (hwinner : s.winner? trailing (run.arena.output root) = some stop)
    {result : Except Failure (Option Branch)} {e : Extraction}
    (hbranch : (s.branch rule start stop).run.run { run := run.setOutput root {stop} } =
      (result, e)) :
    s.parse trailing start = match result with
      | .error f => .error (s.report e.run rule f)
      | .ok none => .error (s.report e.run rule (.noPath (some rule) start))
      | .ok (some tree) => .ok ⟨tree, root, e.run.arena, e.run.stats⟩ := by
  unfold Session.parse
  rw [hselect]
  simp only [bind, Except.bind, hderive, hwinner, hbranch]
  rcases result with f | _ | tree <;> rfl

/-- Once a path that uses up the text is found, its tree is, unless rules nest too deeply. -/
theorem Session.parse_of_winner {trailing : Bool} {start stop : Position} {rule : RuleId}
    {root : NodeId} (hselect : s.grammar.selectStart s.source.conditions = .ok rule)
    (hderive : (s.derive rule start).run.run {} = (.ok root, run))
    (hwinner : s.winner? trailing (run.arena.output root) = some stop) :
    (∃ tree, s.parse trailing start = .ok tree) ∨
      ∃ name p, s.parse trailing start = .error (.depthLimit name p s.maxDepth) := by
  obtain ⟨hv, hm, hmem⟩ :=
    narrowed_valid (c := .everywhere s.source) trivial hderive hwinner
  have hfound := hv.branch_found (.inl trivial) hm hmem
  rcases hbranch : (s.branch rule start stop).run.run { run := run.setOutput root {stop} }
    with ⟨result, e'⟩
  rw [parse_eq_of_winner hselect hderive hwinner hbranch]
  obtain ⟨b, rfl⟩ | ⟨r, m, rfl⟩ := hfound.of_run hbranch
  · exact .inl ⟨_, rfl⟩
  · exact .inr ⟨_, _, rfl⟩

/-- For every end of a rule that was derived a branch is extracted, and for the path that a parse
settles on, a tree: neither is ever missed, and only the bound on nesting may stop it. -/
theorem extraction_complete (s : Session) :
    (∀ {run run' : Run} {rule : RuleId} {p q : Position} {id : NodeId},
      Extraction.Reached s (fun _ => True) { run } →
      (s.derive rule p).run.run run = (.ok id, run') → q ∈ run'.arena.output id →
      ∃ e', (∃ b, (s.branch rule p q).run.run { run := run' } = (.ok (some b), e')) ∨
        ∃ r m, (s.branch rule p q).run.run { run := run' } = (.error (.depthLimit r m), e')) ∧
    ∀ {trailing : Bool} {start stop : Position} {rule : RuleId} {root : NodeId} {run : Run},
      s.grammar.selectStart s.source.conditions = .ok rule →
      (s.derive rule start).run.run {} = (.ok root, run) →
      s.winner? trailing (run.arena.output root) = some stop →
      (∃ tree, s.parse trailing start = .ok tree) ∨
        ∃ name p, s.parse trailing start = .error (.depthLimit name p s.maxDepth) := by
  refine ⟨?_, fun hselect hderive hwinner => Session.parse_of_winner hselect hderive hwinner⟩
  intro run run' rule p q id hreached hderive hq
  have hvalid : Extraction.Valid s (.everywhere s.source) { run } :=
    hreached.valid fun _ _ => trivial
  have hderived := (Session.derive_sound rule p run hvalid.run (.inl trivial)).of_run hderive
  obtain ⟨hv', -, hm⟩ := hderived
  have hfound := hv'.branch_found (.inl trivial) (hm id rfl) hq
  rcases hbranch : (s.branch rule p q).run.run { run := run' } with ⟨result, e'⟩
  refine ⟨e', ?_⟩
  obtain ⟨b, hb⟩ | ⟨r, m, hf⟩ := hfound.of_run hbranch
  · rw [hb]
    exact .inl ⟨b, rfl⟩
  · rw [hf]
    exact .inr ⟨r, m, rfl⟩

/-- What a parse of two items goes through. -/
theorem listSession_derived (trailing : Bool) : ∃ run,
    ((Samples.listSession "a,a").derive 0 .start).run.run {} = (.ok 2, run) ∧
      ⟨3, 1, 4⟩ ∈ run.arena.output 2 ∧
      (Samples.listSession "a,a").winner? trailing (run.arena.output 2) = some ⟨3, 1, 4⟩ ∧
      run.stats.leftRecursionHits = 0 ∧
      (((Samples.listSession "a,a").branch 0 .start ⟨3, 1, 4⟩).run.run
        { run := run.setOutput 2 {⟨3, 1, 4⟩} }).1.toOption.map Option.isSome = some true := by
  have hroot : (((Samples.listSession "a,a").derive 0 .start).run.run {}).1 = .ok 2 :=
    ok_of_toOption (by decide +kernel)
  have hpath : ⟨3, 1, 4⟩ ∈
      (((Samples.listSession "a,a").derive 0 .start).run.run {}).2.arena.output 2 := by
    decide +kernel
  have hlast : ∀ p ∈
      (((Samples.listSession "a,a").derive 0 .start).run.run {}).2.arena.output 2 |>.toList,
      (compare p ⟨3, 1, 4⟩).isLE := by
    decide +kernel
  have huses : (Samples.listSession "a,a").usesUp trailing ⟨3, 1, 4⟩ = true := by
    cases trailing <;> decide +kernel
  refine ⟨_, Prod.ext hroot rfl, hpath, ?_, by decide +kernel, by decide +kernel⟩
  exact Session.winner?_eq_some.mpr
    ⟨⟨hpath, huses⟩, fun p hp _ => hlast p (Std.ExtTreeSet.mem_toList.mpr hp)⟩

/-- A list that was derived, and its parse. -/
theorem extraction_complete_lists : ∃ run,
    ((Samples.listSession "a,a").derive 0 .start).run.run {} = (.ok 2, run) ∧
    (∃ e', (∃ b, ((Samples.listSession "a,a").branch 0 .start ⟨3, 1, 4⟩).run.run { run } =
        (.ok (some b), e')) ∨
      ∃ r m, ((Samples.listSession "a,a").branch 0 .start ⟨3, 1, 4⟩).run.run { run } =
        (.error (.depthLimit r m), e')) ∧
    ((∃ tree, (Samples.listSession "a,a").parse true .start = .ok tree) ∨
      ∃ name p, (Samples.listSession "a,a").parse true .start =
        .error (.depthLimit name p (Samples.listSession "a,a").maxDepth)) := by
  obtain ⟨run, hderive, hpath, hwinner, -⟩ := listSession_derived true
  have hcomplete := extraction_complete (Samples.listSession "a,a")
  exact ⟨run, hderive, hcomplete.1 .fresh hderive hpath, hcomplete.2 rfl hderive hwinner⟩

end Completeness

end Multipath
